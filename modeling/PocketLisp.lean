import PocketLisp.CommandLine.Batch
import PocketLisp.Main
import PocketLisp.Proofs.Batches
import PocketLisp.Proofs.Brackets
import PocketLisp.Proofs.Depth
import PocketLisp.Proofs.HeadPosition
import PocketLisp.Proofs.Isolation
import PocketLisp.Proofs.Iteration
import PocketLisp.Proofs.Layout
import PocketLisp.Proofs.Operators
import PocketLisp.Proofs.Positions
import PocketLisp.Proofs.Redefinition
import PocketLisp.Proofs.Renaming
import PocketLisp.Proofs.Restriction
import PocketLisp.Proofs.RoundTrip
import PocketLisp.Proofs.Shapes
import PocketLisp.Proofs.Spelling
import PocketLisp.Proofs.Splitting
import PocketLisp.Proofs.Termination
import PocketLisp.Proofs.Truncation
import PocketLisp.Proofs.Calculation
import PocketLisp.Proofs.Magnitudes
import PocketLisp.Proofs.Readers
import PocketLisp.Proofs.WholeParts
import PocketLisp.Proofs.Conversion
import PocketLisp.Proofs.Comparison
import PocketLisp.Proofs.Equality
import PocketLisp.Proofs.Interleaving
import PocketLisp.Proofs.Identity
