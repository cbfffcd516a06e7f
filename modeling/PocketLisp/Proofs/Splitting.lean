import Mathlib.Data.List.Chain
import PocketLisp.Proofs.Tokens

/-!
# The one way to split a text

A text falls apart into tokens and the white space around them. A token is a bracket by itself or a
word, and two words that follow one another have white space between them; so every word is as long
as it can be. Main statement: there is one such splitting of a text, and its tokens are those that
the scanner finds. What else holds of the tokens is read off the splitting.
-/

namespace PocketLisp

namespace Token

/-- White space only, possibly none. -/
def Blank (cs : List Char) : Prop :=
  ∀ c ∈ cs, Text.isWhiteSpace c = true

def isAtom : Token → Bool
  | .atom _ => true
  | _ => false

/-- A bracket, or an atom that is a word. -/
def Proper : Token → Prop
  | .atom word => IsWord word.toList
  | _ => True

/-- A token with what follows it up to the next one. -/
structure Piece where
  token : Token
  gap : List Char

namespace Piece

def chars (piece : Piece) : List Char :=
  piece.token.text.toList ++ piece.gap

/-- Between two atoms there is a gap. -/
def Apart (piece next : Piece) : Prop :=
  piece.token.isAtom = true → next.token.isAtom = true → piece.gap ≠ []

end Piece

/-- The text is made up of white space, which may be none, and of the pieces after it. -/
structure Splits (cs lead : List Char) (pieces : List Piece) : Prop where
  chars : cs = lead ++ pieces.flatMap Piece.chars
  lead : Blank lead
  gaps : ∀ piece ∈ pieces, Blank piece.gap
  tokens : ∀ piece ∈ pieces, piece.token.Proper
  apart : pieces.IsChain Piece.Apart

theorem splits_nil {cs lead : List Char} : Splits cs lead [] ↔ cs = lead ∧ Blank lead := by
  constructor
  · intro h
    exact ⟨by simpa using h.chars, h.lead⟩
  · rintro ⟨rfl, hlead⟩
    exact ⟨by simp, hlead, by simp, by simp, .nil⟩

/-- The first token and what is split after it. -/
theorem splits_cons {cs lead : List Char} {piece : Piece} {pieces : List Piece} :
    Splits cs lead (piece :: pieces) ↔
      ∃ rest, cs = lead ++ (piece.token.text.toList ++ rest) ∧ Blank lead ∧ piece.token.Proper ∧
        (∀ next ∈ pieces.head?, piece.Apart next) ∧ Splits rest piece.gap pieces := by
  constructor
  · intro h
    obtain ⟨hapart, hrest⟩ := List.isChain_cons.mp h.apart
    refine ⟨piece.gap ++ pieces.flatMap Piece.chars, ?_, h.lead, h.tokens piece (by simp), hapart,
      ⟨rfl, h.gaps piece (by simp), ?_, ?_, hrest⟩⟩
    · simpa [Piece.chars] using h.chars
    · exact fun next hnext => h.gaps next (by simp [hnext])
    · exact fun next hnext => h.tokens next (by simp [hnext])
  · rintro ⟨rest, rfl, hlead, hproper, hapart, hrest⟩
    refine ⟨?_, hlead, ?_, ?_, List.isChain_cons.mpr ⟨hapart, hrest.apart⟩⟩
    · simp [Piece.chars, hrest.chars]
    · exact List.forall_mem_cons.mpr ⟨hrest.lead, hrest.gaps⟩
    · exact List.forall_mem_cons.mpr ⟨hproper, hrest.tokens⟩

theorem ofChars_blank {lead : List Char} (h : Blank lead) (cs : List Char) :
    ofChars (lead ++ cs) = ofChars cs := by
  induction lead with
  | nil => rfl
  | cons w lead ih =>
      obtain ⟨hw, hlead⟩ := List.forall_mem_cons.mp h
      rw [List.cons_append, ofChars_whiteSpace hw, ih hlead]

theorem parted_bracket {bracket : Token} (h : bracket.isAtom = false) (rest : List Char) :
    Parted (bracket.text.toList ++ rest) := by
  cases bracket with
  | openBracket => rfl
  | closeBracket => rfl
  | atom word => cases h

theorem parted_blank {lead cs : List Char} (h : Blank lead) (hcs : lead = [] → Parted cs) :
    Parted (lead ++ cs) := by
  cases lead with
  | nil => exact hcs rfl
  | cons w lead => exact parted_whiteSpace (h w List.mem_cons_self) _

/-- A token is found again where its text stands by itself. -/
theorem ofChars_text {token : Token} (h : token.Proper) {rest : List Char}
    (hrest : token.isAtom = true → Parted rest) :
    ofChars (token.text.toList ++ rest) = token :: ofChars rest := by
  cases token with
  | openBracket => exact ofChars_open rest
  | closeBracket => exact ofChars_close rest
  | atom word =>
      show ofChars (word.toList ++ rest) = _
      rw [ofChars_word h (hrest rfl), String.ofList_toList]

/-- No atom reaches over the start of what is split after a gap, or before a bracket. -/
theorem Splits.parted {cs lead : List Char} {pieces : List Piece} (h : Splits cs lead pieces)
    (hfirst : lead = [] → ∀ next ∈ pieces.head?, next.token.isAtom = false) : Parted cs := by
  rw [h.chars]
  apply parted_blank h.lead
  intro hlead
  cases pieces with
  | nil => exact parted_nil
  | cons next pieces =>
      rw [List.flatMap_cons, Piece.chars, List.append_assoc]
      exact parted_bracket (hfirst hlead next rfl) _

/-- However a text is split, the tokens are those of the scanner. -/
theorem Splits.ofChars {cs lead : List Char} {pieces : List Piece} (h : Splits cs lead pieces) :
    ofChars cs = pieces.map Piece.token := by
  induction pieces generalizing cs lead with
  | nil =>
      obtain ⟨rfl, hlead⟩ := splits_nil.mp h
      rw [← List.append_nil cs, ofChars_blank hlead]
      rfl
  | cons piece pieces ih =>
      obtain ⟨rest, rfl, hlead, hproper, hapart, hrest⟩ := splits_cons.mp h
      have hparted : piece.token.isAtom = true → Parted rest := by
        intro hatom
        apply hrest.parted
        intro hgap next hnext
        by_contra hother
        exact hapart next hnext hatom (by simpa using hother) hgap
      rw [ofChars_blank hlead, ofChars_text hproper hparted, ih hrest, List.map_cons]

theorem blank_nil : Blank [] :=
  fun _ hc => absurd hc List.not_mem_nil

theorem isWord_singleton {c : Char} (h : Solid [c]) : IsWord (String.ofList [c]).toList := by
  rw [String.toList_ofList]
  exact ⟨List.cons_ne_nil c [], h⟩

/-- One more character in front goes into the first word, if that stands there, or starts a word. -/
theorem exists_splits_solid {c : Char} (hc : Solid [c]) {cs lead : List Char}
    {pieces : List Piece} (h : Splits cs lead pieces) :
    ∃ pieces', Splits (c :: cs) [] pieces' := by
  by_cases hnext : lead = [] ∧ ∃ word gap after, pieces = ⟨.atom word, gap⟩ :: after
  · obtain ⟨rfl, word, gap, after, rfl⟩ := hnext
    obtain ⟨rest, rfl, _, hword, hapart, hrest⟩ := splits_cons.mp h
    refine ⟨⟨.atom (String.ofList (c :: word.toList)), gap⟩ :: after, splits_cons.mpr
      ⟨rest, ?_, blank_nil, ?_, fun next hmem _ => hapart next hmem rfl, hrest⟩⟩
    · simp [text]
    · show IsWord (String.ofList (c :: word.toList)).toList
      rw [String.toList_ofList]
      exact ⟨List.cons_ne_nil _ _, List.forall_mem_cons.mpr ⟨hc c List.mem_cons_self, hword.solid⟩⟩
  · refine ⟨⟨.atom (String.ofList [c]), lead⟩ :: pieces, splits_cons.mpr
      ⟨cs, ?_, blank_nil, isWord_singleton hc, ?_, h⟩⟩
    · simp [text]
    · rintro next hmem _ hatom rfl
      cases pieces with
      | nil => cases hmem
      | cons first after =>
          cases hmem
          obtain ⟨token, gap⟩ := next
          cases token with
          | atom word => exact hnext ⟨rfl, word, gap, after, rfl⟩
          | openBracket => cases hatom
          | closeBracket => cases hatom

theorem exists_splits (cs : List Char) : ∃ lead pieces, Splits cs lead pieces := by
  induction cs with
  | nil => exact ⟨[], [], splits_nil.mpr ⟨rfl, blank_nil⟩⟩
  | cons c cs ih =>
      obtain ⟨lead, pieces, h⟩ := ih
      have hbracket : ∀ bracket : Token, bracket.isAtom = false → bracket.text.toList = [c] →
          Splits (c :: cs) [] (⟨bracket, lead⟩ :: pieces) := by
        intro bracket hkind htext
        refine splits_cons.mpr ⟨cs, by simp [htext], blank_nil, ?_, ?_, h⟩
        · cases bracket with
          | atom word => cases hkind
          | _ => trivial
        · intro next _ hatom
          exact absurd (hkind.symm.trans hatom) nofun
      by_cases hspace : Text.isWhiteSpace c = true
      · refine ⟨c :: lead, pieces, ?_, List.forall_mem_cons.mpr ⟨hspace, h.lead⟩, h.gaps, h.tokens,
          h.apart⟩
        rw [List.cons_append, ← h.chars]
      · by_cases hopen : c = '('
        · exact ⟨[], _, hbracket .openBracket rfl (by rw [hopen]; rfl)⟩
        · by_cases hclose : c = ')'
          · exact ⟨[], _, hbracket .closeBracket rfl (by rw [hclose]; rfl)⟩
          · have hsolid : Solid [c] :=
              List.forall_mem_singleton.mpr ⟨hopen, hclose, by simpa using hspace⟩
            exact ⟨[], exists_splits_solid hsolid h⟩

theorem not_whiteSpace_of_mem_text {token : Token} (h : token.Proper) {c : Char}
    (hc : c ∈ token.text.toList) : Text.isWhiteSpace c = false := by
  cases token with
  | openBracket =>
      obtain rfl : c = '(' := by simpa [text] using hc
      rfl
  | closeBracket =>
      obtain rfl : c = ')' := by simpa [text] using hc
      rfl
  | atom word => exact (h.solid c hc).2.2

theorem text_ne_nil {token : Token} (h : token.Proper) : token.text.toList ≠ [] := by
  cases token with
  | openBracket => exact nofun
  | closeBracket => exact nofun
  | atom word => exact h.nonempty

/-- The white space before a token is all the white space that the text begins with. -/
theorem takeWhile_lead {lead : List Char} (hlead : Blank lead) {token : Token}
    (h : token.Proper) (rest : List Char) :
    (lead ++ (token.text.toList ++ rest)).takeWhile Text.isWhiteSpace = lead := by
  obtain ⟨c, cs, htext⟩ := List.exists_cons_of_ne_nil (text_ne_nil h)
  have hc : Text.isWhiteSpace c = false := not_whiteSpace_of_mem_text h (by simp [htext])
  rw [List.takeWhile_append_of_pos hlead, htext, List.cons_append,
    List.takeWhile_cons_of_neg (by simp [hc]), List.append_nil]

/-- The tokens are those of the text, whatever the splitting, so that only the gaps are compared. -/
theorem Splits.unique {cs lead lead' : List Char} {pieces pieces' : List Piece}
    (h : Splits cs lead pieces) (h' : Splits cs lead' pieces') :
    lead' = lead ∧ pieces' = pieces := by
  have htokens : pieces'.map Piece.token = pieces.map Piece.token := h'.ofChars.symm.trans h.ofChars
  induction pieces generalizing cs lead lead' pieces' with
  | nil =>
      obtain rfl := List.map_eq_nil_iff.mp htokens
      obtain ⟨rfl, _⟩ := splits_nil.mp h
      obtain ⟨rfl, _⟩ := splits_nil.mp h'
      exact ⟨rfl, rfl⟩
  | cons piece pieces ih =>
      obtain ⟨⟨token', gap'⟩, after', rfl, htoken, hafter⟩ := List.map_eq_cons_iff.mp htokens
      obtain rfl : token' = piece.token := htoken
      obtain ⟨rest, hcs, hlead, hproper, _, hrest⟩ := splits_cons.mp h
      obtain ⟨rest', hcs', hlead', _, _, hrest'⟩ := splits_cons.mp h'
      have hsame : lead' = lead := by
        rw [← takeWhile_lead hlead hproper rest, ← takeWhile_lead hlead' hproper rest', ← hcs,
          ← hcs']
      subst hsame
      obtain rfl : rest = rest' :=
        List.append_cancel_left (List.append_cancel_left (hcs.symm.trans hcs'))
      obtain ⟨hgap, rfl⟩ := ih hrest hrest' hafter
      refine ⟨rfl, ?_⟩
      rw [show gap' = piece.gap from hgap]

theorem proper_of_mem_ofText {s : String} {token : Token} (h : token ∈ ofText s) :
    token.Proper := by
  cases token with
  | atom word => exact isWord_of_mem_ofText h
  | _ => trivial

/-- The tokens are what is left of a text without its white space. -/
theorem join_text_ofText (s : String) :
    String.join ((ofText s).map text) =
      String.ofList (s.toList.filter fun c => !Text.isWhiteSpace c) := by
  obtain ⟨lead, pieces, h⟩ := exists_splits s.toList
  have hblank : ∀ {cs}, Blank cs → cs.filter (fun c => !Text.isWhiteSpace c) = [] := by
    intro cs hcs
    exact List.filter_eq_nil_iff.mpr fun c hc => by simp [hcs c hc]
  have hpiece : ∀ piece ∈ pieces,
      piece.chars.filter (fun c => !Text.isWhiteSpace c) = piece.token.text.toList := by
    intro piece hmem
    rw [Piece.chars, List.filter_append, hblank (h.gaps piece hmem), List.append_nil,
      List.filter_eq_self]
    intro c hc
    simp [not_whiteSpace_of_mem_text (h.tokens piece hmem) hc]
  rw [← String.toList_inj, String.toList_join, String.toList_ofList, ofText, h.ofChars, h.chars,
    List.filter_append, hblank h.lead, List.nil_append, List.filter_flatMap, List.flatMap_map,
    List.flatMap_map]
  exact (List.flatMap_congr fun piece hmem => hpiece piece hmem).symm

theorem ofChars_intercalate {tokens : List Token} (h : ∀ token ∈ tokens, token.Proper) :
    ofChars (" ".intercalate (tokens.map text)).toList = tokens := by
  induction tokens with
  | nil => rfl
  | cons token tokens ih =>
      obtain ⟨htoken, htokens⟩ := List.forall_mem_cons.mp h
      cases tokens with
      | nil =>
          have hone : ofChars (token.text.toList ++ []) = [token] :=
            ofChars_text htoken fun _ => parted_nil
          simpa using hone
      | cons next after =>
          have hchars : (" ".intercalate ((token :: next :: after).map text)).toList =
              token.text.toList ++ ' ' :: (" ".intercalate ((next :: after).map text)).toList := by
            simp [String.intercalate_cons_cons]
          rw [hchars, ofChars_text htoken fun _ => parted_whiteSpace rfl _, ofChars_whiteSpace rfl,
            ih htokens]

theorem ofText_behind_bracket (s : String) {bracket : Token} (h : bracket.isAtom = false)
    {w : String} (hw : Blank w.toList) (t : String) :
    ofText (s ++ bracket.text ++ w ++ t) = ofText (s ++ bracket.text ++ t) := by
  have hproper : bracket.Proper := by
    cases bracket with
    | atom word => cases h
    | _ => trivial
  have hsplit : ∀ rest : List Char, ofChars (s.toList ++ (bracket.text.toList ++ rest)) =
      ofChars s.toList ++ bracket :: ofChars rest := by
    intro rest
    rw [ofChars_append _ (parted_bracket h rest), ofChars_text hproper]
    exact fun hatom => absurd (h.symm.trans hatom) nofun
  simp only [ofText, String.toList_append, List.append_assoc]
  rw [hsplit, hsplit, ofChars_blank hw]

theorem ofText_before_bracket (s : String) {bracket : Token} (h : bracket.isAtom = false)
    {w : String} (hw : Blank w.toList) (t : String) :
    ofText (s ++ w ++ bracket.text ++ t) = ofText (s ++ bracket.text ++ t) := by
  have hparted := parted_bracket h t.toList
  simp only [ofText, String.toList_append, List.append_assoc]
  rw [ofChars_append s.toList (parted_blank hw fun _ => hparted), ofChars_append s.toList hparted,
    ofChars_blank hw]

/-- A text is split in one way, and the scanner finds the tokens of this splitting. Together they
are the text without its white space; they are found again where they stand one space apart. White
space beside a bracket makes no difference, and white space anywhere parts the tokens before it from
those behind it. -/
theorem text_splits_uniquely :
    (∀ s : String, ∃ lead pieces, Splits s.toList lead pieces ∧
      ofText s = pieces.map Piece.token ∧
      ∀ lead' pieces', Splits s.toList lead' pieces' → lead' = lead ∧ pieces' = pieces) ∧
    (∀ s, String.join ((ofText s).map text) =
      String.ofList (s.toList.filter fun c => !Text.isWhiteSpace c)) ∧
    (∀ s, ofText (" ".intercalate ((ofText s).map text)) = ofText s) ∧
    (∀ (s w t : String) (bracket : Token), bracket.isAtom = false → Blank w.toList →
      ofText (s ++ bracket.text ++ w ++ t) = ofText (s ++ bracket.text ++ t) ∧
      ofText (s ++ w ++ bracket.text ++ t) = ofText (s ++ bracket.text ++ t)) ∧
    ∀ (s : String) (w : Char) (t : String), Text.isWhiteSpace w = true →
      ofText (s ++ w.toString ++ t) = ofText s ++ ofText t := by
  refine ⟨?_, join_text_ofText, ?_, ?_, ?_⟩
  · intro s
    obtain ⟨lead, pieces, h⟩ := exists_splits s.toList
    exact ⟨lead, pieces, h, h.ofChars, fun lead' pieces' h' => h.unique h'⟩
  · intro s
    exact ofChars_intercalate fun token hmem => proper_of_mem_ofText hmem
  · intro s w t bracket hbracket hw
    exact ⟨ofText_behind_bracket s hbracket hw t, ofText_before_bracket s hbracket hw t⟩
  · intro s w t hw
    exact ofText_whiteSpace hw s t

/-- The pieces of `(ab c)` with an ideographic space, after a tab. -/
def spacedPair : List Piece :=
  [⟨.openBracket, []⟩, ⟨.atom "ab", ['\u3000']⟩, ⟨.atom "c", []⟩, ⟨.closeBracket, []⟩]

/-- Two words are parted by the gap between them, and beside the brackets there is none; a line
break put there changes nothing. -/
theorem text_splits_uniquely_spacedPair :
    Splits "\t(ab\u3000c)".toList ['\t'] spacedPair ∧
    ofText "\t(ab\u3000c)" = [.openBracket, .atom "ab", .atom "c", .closeBracket] ∧
    ofText ("ab" ++ Token.openBracket.text ++ "\n " ++ "c") =
      ofText ("ab" ++ Token.openBracket.text ++ "c") ∧
    ofText ("ab" ++ '\u3000'.toString ++ "c") = ofText "ab" ++ ofText "c" := by
  obtain ⟨hsplits, -, -, hbracket, hspace⟩ := text_splits_uniquely
  have hword : ∀ {cs : List Char}, cs ≠ [] →
      cs.all (fun c => c != '(' && c != ')' && !Text.isWhiteSpace c) = true → IsWord cs :=
    fun hne hall => ⟨hne, solid_of_all hall⟩
  have hblank : ∀ {cs : List Char}, cs.all Text.isWhiteSpace = true → Blank cs :=
    fun hall => List.all_eq_true.mp hall
  have hpair : Splits "\t(ab\u3000c)".toList ['\t'] spacedPair := by
    refine ⟨by decide, hblank rfl, ?_, ?_, ?_⟩
    · simp only [spacedPair, List.forall_mem_cons]
      exact ⟨hblank rfl, hblank rfl, hblank rfl, hblank rfl, nofun⟩
    · simp only [spacedPair, List.forall_mem_cons]
      exact ⟨trivial, hword nofun (by decide), hword nofun (by decide), trivial, nofun⟩
    · simp [spacedPair, Piece.Apart, isAtom]
  obtain ⟨lead, pieces, -, htokens, hunique⟩ := hsplits "\t(ab\u3000c)"
  obtain ⟨-, rfl⟩ := hunique _ _ hpair
  exact ⟨hpair, htokens, (hbracket "ab" "\n " "c" .openBracket rfl (hblank rfl)).1,
    hspace "ab" '\u3000' "c" rfl⟩

end Token

end PocketLisp
