import TinyFront.Format.Layout
import TinyFront.Proofs.Lexemes

/-!
Spelled lexemes. Main statement: a laid-out text whose lexemes do not run into each other has just
those lexemes as its tokens, however deep its lines are indented.
-/
namespace TinyFront

namespace Mark

/-- The texts that stand next to any other without a gap. -/
def looseTexts : List String := ["(", ")", ",", ";", "|", ".", "\x7b", "\x7d"]

/-- A mark that no lexeme runs into. -/
def isLoose : Mark → Bool
  | lexeme s => looseTexts.contains s
  | _ => true

end Mark

/-- The marks spell the lexemes, each of which is proper and kept apart from the next. -/
inductive Spelled : List Mark → List Lexeme → Prop
  | nil : Spelled [] []
  | gap {ms : List Mark} {xs : List Lexeme} (h : Spelled ms xs) : Spelled (.gap :: ms) xs
  | line (depth : Nat) {ms : List Mark} {xs : List Lexeme} (h : Spelled ms xs) :
      Spelled (.line depth :: ms) xs
  | lexeme {x : Lexeme} {ms : List Mark} {xs : List Lexeme} (hx : x.Proper) (hk : x.1 ≠ .eof)
      (hnext : (Mark.lexeme x.2).isLoose = true ∨ ∀ m ∈ ms.head?, m.isLoose = true)
      (h : Spelled ms xs) : Spelled (.lexeme x.2 :: ms) (x :: xs)

namespace Piece

/-- The characters that no word, number or symbol goes on with. -/
def looseChars : List Char := " \n(),;|.\x7b\x7d".toList

/-- What a lexeme needs in order to be cut off before the given characters. -/
def Stops (cs : List Char) : Prop := ∀ c ∈ cs.head?, looseChars.contains c = true

theorem grow_of_loose {shape : Shape} (hs : shape = .word ∨ shape = .number ∨ shape = .symbol)
    (held : List Char) {c : Char} (hc : looseChars.contains c = true) : shape.grow held c = none := by
  have hloose : looseChars.all (fun c => !continuesWord c && !c.isDigit && c != '/' && c != '>') = true := by
    decide
  have hchar := List.all_eq_true.1 hloose c (by simpa using hc)
  simp only [Bool.and_eq_true, Bool.not_eq_true', bne_iff_ne] at hchar
  obtain ⟨⟨⟨hw, hd⟩, hslash⟩, hgt⟩ := hchar
  rcases hs with rfl | rfl | rfl <;> simp [Shape.grow, hw, hd, hslash, hgt]

theorem cutFrom_append {shape : Shape} {held as cs : List Char}
    (has : ∀ a ∈ as, ∀ held, shape.grow held a = some shape)
    (hcs : ∀ c ∈ cs.head?, ∀ held, shape.grow held c = none) :
    cutFrom shape held (as ++ cs) = ⟨shape, held.reverse ++ as⟩ :: cut cs := by
  induction as generalizing held with
  | nil =>
    rw [List.nil_append, List.append_nil]
    exact cutFrom_of_grow_none fun c hc => hcs c hc held
  | cons a as ih =>
    rw [List.cons_append, cutFrom, has a (List.mem_cons_self ..)]
    simp [ih fun b hb => has b (List.mem_cons_of_mem _ hb)]

theorem ofChar_of_startsWord {c : Char} (h : startsWord c = true) : Shape.ofChar c = .word := by
  obtain ⟨hl, hu⟩ := toNat_of_startsWord h
  have hblank : Text.isBlank c = false := by
    simp [Text.isBlank]
    omega
  have hdigit : c.isDigit = false := by
    rw [Bool.eq_false_iff]
    intro hd
    simp only [Char.isDigit, Bool.and_eq_true, decide_eq_true_eq, UInt32.le_iff_toNat_le] at hd
    have : c.toNat ≤ 57 := hd.2
    omega
  simp [Shape.ofChar, hblank, hdigit, h]

theorem ofChar_of_isDigit {c : Char} (h : c.isDigit = true) : Shape.ofChar c = .number := by
  have hrange : 48 ≤ c.toNat ∧ c.toNat ≤ 57 := by
    simp only [Char.isDigit, Bool.and_eq_true, decide_eq_true_eq, UInt32.le_iff_toNat_le] at h
    exact h
  have hblank : Text.isBlank c = false := by
    simp [Text.isBlank]
    omega
  simp [Shape.ofChar, hblank, h]

theorem cut_word {c : Char} {w cs : List Char} (hc : startsWord c = true)
    (hw : w.all continuesWord = true) (hcs : Stops cs) :
    cut (c :: w ++ cs) = ⟨.word, c :: w⟩ :: cut cs := by
  rw [List.cons_append, cut, ofChar_of_startsWord hc, cutFrom_append (fun a ha held => ?_)
    fun d hd held => grow_of_loose (.inl rfl) held (hcs d hd)]
  · rfl
  · simp [Shape.grow, List.all_eq_true.1 hw a ha]

theorem cut_number {w cs : List Char} (hw : isDecimal w = true) (hcs : Stops cs) :
    cut (w ++ cs) = ⟨.number, w⟩ :: cut cs := by
  obtain ⟨hne, hw⟩ := Bool.and_eq_true_iff.1 hw
  cases w with
  | nil => simp at hne
  | cons c w =>
    simp only [List.all_cons, Bool.and_eq_true] at hw
    rw [List.cons_append, cut, ofChar_of_isDigit hw.1, cutFrom_append (fun a ha held => ?_)
      fun d hd held => grow_of_loose (.inr (.inl rfl)) held (hcs d hd)]
    · rfl
    · simp [Shape.grow, List.all_eq_true.1 hw.2 a ha]

/-- How a proper lexeme is cut off: as one piece that stands for it, before whatever stops it. -/
structure Cuts (x : Lexeme) : Prop where
  ne_nil : x.2.toList ≠ []
  feed : '\n' ∉ x.2.toList
  cut : ∃ shape, shape ≠ .stray ∧ kind? ⟨shape, x.2.toList⟩ = some x.1 ∧
    ∀ cs, (Mark.lexeme x.2).isLoose = true ∨ Stops cs →
      Piece.cut (x.2.toList ++ cs) = ⟨shape, x.2.toList⟩ :: Piece.cut cs

theorem continuesWord_of_startsWord {c : Char} (h : startsWord c = true) : continuesWord c = true := by
  simp only [startsWord, continuesWord, Char.isAlphanum, Bool.or_eq_true] at h ⊢
  exact h.imp_left .inl

theorem not_mem_feed {f : Char → Bool} (hf : f '\n' = false) {cs : List Char} (h : cs.all f = true) :
    '\n' ∉ cs := by
  intro hm
  rw [List.all_eq_true.1 h _ hm] at hf
  cases hf

theorem not_isLoose {s : String} {f : Char → Bool} (hs : ∃ c ∈ s.toList.head?, f c = true)
    (hf : Mark.looseTexts.all (fun t => t.toList.head?.all fun c => !f c) = true) :
    (Mark.lexeme s).isLoose = false := by
  obtain ⟨c, hc, h⟩ := hs
  rw [Bool.eq_false_iff]
  intro hloose
  have hmem : s ∈ Mark.looseTexts := by simpa [Mark.isLoose] using hloose
  have hfalse := List.all_eq_true.1 hf s hmem
  rw [Option.mem_def.1 hc, Option.all_some, h] at hfalse
  cases hfalse

theorem cuts_of_word {x : Lexeme} {c : Char} {w : List Char} (hx : x.2.toList = c :: w)
    (hc : startsWord c = true) (hw : w.all continuesWord = true) (hk : wordKind x.2.toList = x.1) :
    Cuts x where
  ne_nil := by simp [hx]
  feed := by
    rw [hx]
    exact not_mem_feed (f := continuesWord) (by decide)
      (by simp [continuesWord_of_startsWord hc, hw, -List.all_eq_true])
  cut := by
    refine ⟨.word, by simp, by simp [kind?, hk], fun cs hcs => ?_⟩
    rw [not_isLoose ⟨c, by simp [hx], hc⟩ (by decide)] at hcs
    rw [hx]
    exact cut_word hc hw (hcs.resolve_left (by simp))

theorem cuts_of_number {x : Lexeme} (hx : isDecimal x.2.toList = true) (hk : x.1 = .integer) :
    Cuts x := by
  obtain ⟨hne, hdigits⟩ := Bool.and_eq_true_iff.1 hx
  refine ⟨by simpa using hne, not_mem_feed (by decide) hdigits, .number, by simp, ?_, fun cs hcs => ?_⟩
  · rw [hk]
    rfl
  · have hfirst : ∃ c ∈ x.2.toList.head?, c.isDigit = true := by
      obtain ⟨c, w, hw⟩ := List.exists_cons_of_ne_nil (show x.2.toList ≠ [] by simpa using hne)
      exact ⟨c, by simp [hw], List.all_eq_true.1 hdigits c (by simp [hw])⟩
    rw [not_isLoose hfirst (by decide)] at hcs
    exact cut_number hx (hcs.resolve_left (by simp))

/-- The symbols of one character that begin no longer piece are loose. -/
theorem cuts_of_symbol {x : Lexeme} {c : Char} (hx : x.2.toList = [c]) (hc : Shape.ofChar c = .symbol)
    (hk : TokenKind.ofSymbol? x.2 = some x.1)
    (hloose : (Mark.lexeme x.2).isLoose = true → c ≠ '/' ∧ c ≠ '-' ∧ c ≠ '=') : Cuts x where
  ne_nil := by simp [hx]
  feed := by
    rw [hx]
    rintro h
    obtain rfl := List.mem_singleton.1 h
    cases hc
  cut := by
    refine ⟨.symbol, by simp, by simp [kind?, string, hk], fun cs hcs => ?_⟩
    rw [hx, List.singleton_append, Piece.cut, hc]
    refine cutFrom_of_grow_none fun d hd => ?_
    rcases hcs with h | h
    · obtain ⟨h₁, h₂, h₃⟩ := hloose h
      simp [Shape.grow, h₁, h₂, h₃]
    · exact grow_of_loose (.inr (.inr rfl)) _ (h d hd)

theorem cuts_of_arrow {x : Lexeme} {c : Char} (hx : x.2.toList = [c, '>']) (hc : c = '-' ∨ c = '=')
    (hk : TokenKind.ofSymbol? x.2 = some x.1) (hloose : (Mark.lexeme x.2).isLoose = false) :
    Cuts x where
  ne_nil := by simp [hx]
  feed := by
    rw [hx]
    rcases hc with rfl | rfl <;> decide
  cut := by
    refine ⟨.symbol, by simp, by simp [kind?, string, hk], fun cs hcs => ?_⟩
    have hstop := hcs.resolve_left (by simp [hloose])
    have hrest : cutFrom .symbol ['>', c] cs = ⟨.symbol, [c, '>']⟩ :: Piece.cut cs :=
      cutFrom_of_grow_none fun d hd => grow_of_loose (.inr (.inr rfl)) _ (hstop d hd)
    rw [hx, ← hrest]
    rcases hc with rfl | rfl <;> rfl

theorem wordKind_of_isName {s : String} (hn : isName s = true) :
    wordKind s.toList = if s.toList.head?.any Char.isUpper then .typeIdentifier else .identifier := by
  unfold isName at hn
  split at hn
  · cases hn
  · simp only [Bool.and_eq_true, Option.isNone_iff_eq_none, bne_iff_ne] at hn
    have hne : s.toList ≠ ['_'] := fun h => hn.2 (by rw [← String.ofList_toList (s := s), h])
    rw [wordKind, if_neg hne, String.ofList_toList, hn.1.2]

theorem cuts_of_name {x : Lexeme} (hn : isName x.2 = true) (hk : wordKind x.2.toList = x.1) :
    Cuts x := by
  unfold isName at hn
  split at hn
  · cases hn
  · rename_i c w hs
    simp only [Bool.and_eq_true] at hn
    exact cuts_of_word hs hn.1.1.1 hn.1.1.2 hk

theorem cuts_of_proper {x : Lexeme} (hx : x.Proper) (hk : x.1 ≠ .eof) : Cuts x := by
  obtain ⟨k, s⟩ := x
  have hword : ∀ c w, s.toList = c :: w → startsWord c = true → w.all continuesWord = true →
      wordKind s.toList = k → Cuts (k, s) := fun c w hs hc hw hk => cuts_of_word hs hc hw hk
  cases k with
  | eof => contradiction
  | integer => exact cuts_of_number hx rfl
  | boolean => rcases hx with rfl | rfl <;> exact hword _ _ rfl (by decide) (by decide) (by decide)
  | identifier =>
    have hx : isLowerName s = true := hx
    have hn := isName_of_isLowerName hx
    simp only [isLowerName, Bool.and_eq_true, Bool.not_eq_true'] at hx
    exact cuts_of_name hn (by rw [wordKind_of_isName hn, hx.2]; rfl)
  | typeIdentifier =>
    have hx : isUpperName s = true := hx
    have hn := isName_of_isUpperName hx
    simp only [isUpperName, Bool.and_eq_true] at hx
    exact cuts_of_name hn (by rw [wordKind_of_isName hn, hx.2]; rfl)
  | arrow | fatArrow =>
    obtain rfl := Option.some.inj hx
    exact cuts_of_arrow rfl (by decide) (by decide) (by decide)
  | kwIf | kwLet | kwElse | kwMatch | kwFn | kwType | kwForall | underscore =>
    obtain rfl := Option.some.inj hx
    exact hword _ _ rfl (by decide) (by decide) (by decide)
  | _ =>
    obtain rfl := Option.some.inj hx
    exact cuts_of_symbol rfl (by decide) (by decide) (by decide)

/-- The lexeme that the piece stands for. -/
def lexeme? (p : Piece) : Option Lexeme := p.kind?.map (·, p.string)

/-- The pieces stand for the lexemes, and none of them is stray. -/
structure Stand (ps : List Piece) (xs : List Lexeme) : Prop where
  lexemes : ps.filterMap lexeme? = xs
  stray : ∀ p ∈ ps, p.shape ≠ .stray

namespace Stand

variable {ps : List Piece} {xs : List Lexeme}

theorem cons_blank (h : Stand ps xs) (cs : List Char) : Stand (⟨.blank, cs⟩ :: ps) xs :=
  ⟨(List.filterMap_cons_none rfl).trans h.lexemes, by simpa using h.stray⟩

theorem cons_lexeme (h : Stand ps xs) {x : Lexeme} {shape : Shape} (hs : shape ≠ .stray)
    (hk : kind? ⟨shape, x.2.toList⟩ = some x.1) : Stand (⟨shape, x.2.toList⟩ :: ps) (x :: xs) := by
  refine ⟨?_, by simpa [hs] using h.stray⟩
  have hx : lexeme? ⟨shape, x.2.toList⟩ = some x := by simp [lexeme?, hk, string]
  rw [List.filterMap_cons_some hx, h.lexemes]

theorem blanks (n : Nat) {cs : List Char} (h : Stand (cut cs) xs) :
    Stand (cut (List.replicate n ' ' ++ cs)) xs := by
  induction n with
  | zero => exact h
  | succ n ih =>
    rw [List.replicate_succ, List.cons_append, cut, show Shape.ofChar ' ' = .blank by decide,
      cutFrom_of_grow_none (by simp)]
    exact ih.cons_blank _

theorem blank {cs : List Char} (h : Stand (cut cs) xs) : Stand (cut (' ' :: cs)) xs := h.blanks 1

theorem feed {cs : List Char} (h : Stand (cut cs) xs) : Stand (cut ('\n' :: cs)) xs := by
  rw [cut, Shape.ofChar_feed, cutFrom_of_grow_none (by simp)]
  exact h.cons_blank _

end Stand
end Piece

namespace Mark

/-- The indentation that the first character of a text brings with it. -/
def Margin.before (m : Margin) : List Char := List.replicate (if m.fresh then m.width else 0) ' '

theorem Margin.write_cons {m : Margin} {c : Char} {cs : List Char} (h : '\n' ∉ c :: cs) :
    m.write (c :: cs) = (m.before ++ c :: cs, ⟨false, m.width⟩) := by
  obtain ⟨fresh, w⟩ := m
  cases fresh with
  | false => exact write_of_not_mem h
  | true => exact write_fresh_of_not_mem h

theorem page_stops (indent w : Nat) {ms : List Mark} (h : ∀ m ∈ ms.head?, m.isLoose = true) :
    Piece.Stops (page indent ⟨false, w⟩ ms) := by
  intro c hc
  cases ms with
  | nil => cases hc
  | cons m ms =>
    have hm := h m rfl
    cases m with
    | gap =>
      obtain rfl := Option.some.inj hc
      decide
    | line depth =>
      obtain rfl := Option.some.inj hc
      decide
    | lexeme s =>
      have hs : s ∈ looseTexts := by simpa [isLoose] using hm
      have hfirst : looseTexts.all (fun t => Piece.looseChars.any fun d =>
          t.toList == [d] && d != '\n') = true := by decide
      obtain ⟨d, hd, hchar⟩ := List.any_eq_true.1 (List.all_eq_true.1 hfirst s hs)
      simp only [Bool.and_eq_true, beq_iff_eq, bne_iff_ne] at hchar
      obtain ⟨ht, hne⟩ := hchar
      have hfeed : '\n' ∉ [d] := by simpa using hne.symm
      rw [page, ht, Margin.write_of_not_mem hfeed] at hc
      obtain rfl := Option.some.inj hc
      simpa using hd

/-- A text that is spelled is cut into its lexemes, whatever margin it begins with. -/
theorem stand_page {ms : List Mark} {xs : List Lexeme} (h : Spelled ms xs) (indent : Nat)
    (m : Margin) : Piece.Stand (Piece.cut (page indent m ms)) xs := by
  induction h generalizing m with
  | nil => exact ⟨rfl, by simp⟩
  | gap h ih =>
    rw [page, Margin.write_cons (by decide), List.append_assoc]
    exact (ih _).blank.blanks _
  | line depth h ih => exact (ih _).feed
  | lexeme hx hk hnext h ih =>
    obtain ⟨hne, hfeed, shape, hs, hkind, hcut⟩ := Piece.cuts_of_proper hx hk
    obtain ⟨c, cs, htext⟩ := List.exists_cons_of_ne_nil hne
    rw [page, htext, Margin.write_cons (htext ▸ hfeed), ← htext, List.append_assoc]
    refine Piece.Stand.blanks _ ?_
    rw [hcut _ (hnext.imp_right (page_stops indent m.width))]
    exact (ih _).cons_lexeme hs hkind

end Mark

theorem Token.lexemes_ofPieces (file : String) (offset : Nat) (ps : List Piece) :
    (ofPieces file offset ps).map lexeme = ps.filterMap Piece.lexeme? ++ [TokenKind.eof.lexeme] := by
  induction ps generalizing offset with
  | nil => rfl
  | cons p ps ih =>
    unfold ofPieces
    cases hk : p.kind? with
    | none => rw [List.filterMap_cons_none (by simp [Piece.lexeme?, hk]), ih]
    | some k =>
      rw [List.filterMap_cons_some (show p.lexeme? = some (k, p.string) by simp [Piece.lexeme?, hk]),
        List.map_cons, ih]
      rfl

theorem Diagnostic.ofPieces_eq_nil {file : String} {offset : Nat} {ps : List Piece}
    (h : ∀ p ∈ ps, p.shape ≠ .stray) : ofPieces file offset ps = [] := by
  induction ps generalizing offset with
  | nil => rfl
  | cons p ps ih =>
    rw [ofPieces, if_neg (h p (List.mem_cons_self ..))]
    exact ih fun q hq => h q (List.mem_cons_of_mem _ hq)

theorem Piece.Stand.exists_lex {cs : List Char} {xs : List Lexeme} (h : Stand (cut cs) xs)
    (file : String) : ∃ ts, lex file (String.ofList cs) = .ok ts ∧
      ts.map Token.lexeme = xs ++ [TokenKind.eof.lexeme] := by
  refine ⟨Token.ofPieces file 0 (cut cs), ?_, ?_⟩
  · rw [lex, String.toList_ofList, Diagnostic.ofPieces_eq_nil h.stray]
  · rw [Token.lexemes_ofPieces, h.lexemes]

/-- The tokens of a laid-out text are the lexemes that it spells. -/
theorem lex_text {ms : List Mark} {xs : List Lexeme} (h : Spelled ms xs) (file : String)
    (indent : Nat) : ∃ ts, lex file (Mark.text indent ms) = .ok ts ∧
      ts.map Token.lexeme = xs ++ [TokenKind.eof.lexeme] :=
  (Mark.stand_page h indent ⟨true, 0⟩).exists_lex file

end TinyFront
