import Mathlib.Data.List.TakeWhile
import TinyFront.Proofs.Slices

/-!
The first piece of a text. Main statements: every text that is not empty begins with a piece that
fits before what follows it, and a piece that fits is cut off before the pieces of what follows.
-/
namespace TinyFront

namespace Shape

theorem ofChar_eq_blank {c : Char} : ofChar c = .blank ↔ Text.isBlank c = true := by
  unfold ofChar
  repeat' split
  all_goals simp_all

theorem ofChar_eq_number {c : Char} : ofChar c = .number ↔ c.isDigit = true := by
  refine ⟨fun h => ?_, Piece.ofChar_of_isDigit⟩
  unfold ofChar at h
  repeat' split at h
  all_goals simp_all

theorem ofChar_eq_word {c : Char} : ofChar c = .word ↔ startsWord c = true := by
  refine ⟨fun h => ?_, Piece.ofChar_of_startsWord⟩
  unfold ofChar at h
  repeat' split at h
  all_goals simp_all

theorem ofChar_eq_symbol {c : Char} : ofChar c = .symbol ↔ symbolChars.contains c = true := by
  refine ⟨fun h => ?_, fun h => ?_⟩
  · unfold ofChar at h
    repeat' split at h
    all_goals simp_all
  · have hall : symbolChars.all (fun c => ofChar c == .symbol) = true := by decide
    simpa using List.all_eq_true.1 hall c (by simpa using h)

theorem ofChar_ne_comment (c : Char) : ofChar c ≠ .comment := by
  unfold ofChar
  repeat' split
  all_goals simp

theorem grow_symbol_eq_some {held : List Char} {c : Char} {grown : Shape} :
    symbol.grow held c = some grown ↔ held = ['/'] ∧ c = '/' ∧ grown = .comment ∨
      (held = ['-'] ∨ held = ['=']) ∧ c = '>' ∧ grown = .symbol := by
  simp only [grow]
  split
  · rename_i h
    simp [h, eq_comm]
  · rename_i h
    split
    · rename_i h'
      simp [h', eq_comm]
    · rename_i h'
      simp only [reduceCtorEq, false_iff]
      rintro (⟨rfl, rfl, -⟩ | ⟨hheld, rfl, -⟩)
      · exact h ⟨rfl, rfl⟩
      · exact h' ⟨rfl, hheld⟩

end Shape

theorem continuesWord_iff {c : Char} :
    continuesWord c = true ↔ startsWord c = true ∨ c.isDigit = true := by
  simp only [continuesWord, startsWord, Char.isAlphanum, Bool.or_eq_true]
  exact or_right_comm

theorem continuesWord_of_isBlank {c : Char} (h : Text.isBlank c = true) : continuesWord c = false := by
  rw [← Bool.not_eq_true, continuesWord_iff]
  have hshape := Shape.ofChar_eq_blank.2 h
  rintro (hword | hdigit)
  · rw [Shape.ofChar_eq_word.2 hword] at hshape
    cases hshape
  · rw [Shape.ofChar_eq_number.2 hdigit] at hshape
    cases hshape

namespace Piece

/-- What a piece can be before the given text: it holds characters of its shape, and the text does
not go on with it. -/
def Fits (p : Piece) (rest : List Char) : Prop :=
  match p.shape with
  | .blank => ∃ c, p.text = [c] ∧ Text.isBlank c = true
  | .comment => ∃ cs, p.text = '/' :: '/' :: cs ∧ '\n' ∉ cs ∧ ∀ d ∈ rest.head?, d = '\n'
  | .word => ∃ c cs, p.text = c :: cs ∧ startsWord c = true ∧ cs.all continuesWord = true ∧
      ∀ d ∈ rest.head?, continuesWord d = false
  | .number => ∃ c cs, p.text = c :: cs ∧ c.isDigit = true ∧ cs.all Char.isDigit = true ∧
      ∀ d ∈ rest.head?, d.isDigit = false
  | .symbol => p.text = ['-', '>'] ∨ p.text = ['=', '>'] ∨
      ∃ c, p.text = [c] ∧ symbolChars.contains c = true ∧
        ∀ d ∈ rest.head?, Shape.symbol.grow [c] d = none
  | .stray => ∃ c, p.text = [c] ∧ Shape.ofChar c = .stray

theorem Fits.text_ne_nil {p : Piece} {rest : List Char} (h : p.Fits rest) : p.text ≠ [] := by
  obtain ⟨shape, text⟩ := p
  cases shape with
  | blank => obtain ⟨c, rfl, -⟩ := h; simp
  | comment => obtain ⟨cs, rfl, -⟩ := h; simp
  | word => obtain ⟨c, cs, rfl, -⟩ := h; simp
  | number => obtain ⟨c, cs, rfl, -⟩ := h; simp
  | symbol => obtain rfl | rfl | ⟨c, rfl, -⟩ := h <;> simp
  | stray => obtain ⟨c, rfl, -⟩ := h; simp

theorem cut_of_fits {p : Piece} {rest : List Char} (h : p.Fits rest) :
    cut (p.text ++ rest) = p :: cut rest := by
  obtain ⟨shape, text⟩ := p
  cases shape with
  | blank =>
    obtain ⟨c, rfl, hc⟩ := h
    rw [List.cons_append, cut, Shape.ofChar_eq_blank.2 hc, List.nil_append,
      cutFrom_of_grow_none fun _ _ => rfl]
    rfl
  | comment =>
    obtain ⟨cs, rfl, hcs, hrest⟩ := h
    show cutFrom .comment ['/', '/'] (cs ++ rest) = _
    rw [cutFrom_append (fun a ha held => ?_) fun d hd held => by simp [hrest d hd]]
    · rfl
    · have hne : a ≠ '\n' := by
        rintro rfl
        exact hcs ha
      simp [Shape.grow, hne]
  | word =>
    obtain ⟨c, cs, rfl, hc, hcs, hrest⟩ := h
    rw [List.cons_append, cut, ofChar_of_startsWord hc, cutFrom_append (fun a ha held => ?_)
      fun d hd held => by simp [Shape.grow, hrest d hd]]
    · rfl
    · simp [Shape.grow, List.all_eq_true.1 hcs a ha]
  | number =>
    obtain ⟨c, cs, rfl, hc, hcs, hrest⟩ := h
    rw [List.cons_append, cut, ofChar_of_isDigit hc, cutFrom_append (fun a ha held => ?_)
      fun d hd held => by simp [Shape.grow, hrest d hd]]
    · rfl
    · simp [Shape.grow, List.all_eq_true.1 hcs a ha]
  | symbol =>
    have harrow : ∀ c, Shape.symbol.grow ['>', '-'] c = none ∧ Shape.symbol.grow ['>', '='] c = none := by
      simp [Shape.grow]
    obtain rfl | rfl | ⟨c, rfl, hc, hrest⟩ := h
    · show cutFrom .symbol ['>', '-'] rest = _
      rw [cutFrom_of_grow_none fun c _ => (harrow c).1]
      rfl
    · show cutFrom .symbol ['>', '='] rest = _
      rw [cutFrom_of_grow_none fun c _ => (harrow c).2]
      rfl
    · rw [List.cons_append, cut, Shape.ofChar_eq_symbol.2 hc, List.nil_append,
        cutFrom_of_grow_none hrest]
      rfl
  | stray =>
    obtain ⟨c, rfl, hc⟩ := h
    rw [List.cons_append, cut, hc, List.nil_append, cutFrom_of_grow_none fun _ _ => rfl]
    rfl

/-- The longest run of a class ends before a character that is not of the class. -/
theorem stops_dropWhile (goesOn : Char → Bool) (cs : List Char) :
    ∀ d ∈ (cs.dropWhile goesOn).head?, goesOn d = false := by
  intro d hd
  have h := List.head?_dropWhile_not goesOn cs
  rw [Option.mem_def.1 hd] at h
  simpa using h

theorem all_takeWhile (goesOn : Char → Bool) (cs : List Char) :
    (cs.takeWhile goesOn).all goesOn = true :=
  List.all_eq_true.2 fun _ h => List.mem_takeWhile_imp h

theorem fits_word {c : Char} (h : startsWord c = true) (cs : List Char) :
    Fits ⟨.word, c :: cs.takeWhile continuesWord⟩ (cs.dropWhile continuesWord) :=
  ⟨c, _, rfl, h, all_takeWhile _ _, stops_dropWhile _ _⟩

theorem fits_number {c : Char} (h : c.isDigit = true) (cs : List Char) :
    Fits ⟨.number, c :: cs.takeWhile Char.isDigit⟩ (cs.dropWhile Char.isDigit) :=
  ⟨c, _, rfl, h, all_takeWhile _ _, stops_dropWhile _ _⟩

theorem fits_comment (cs : List Char) :
    Fits ⟨.comment, '/' :: '/' :: cs.takeWhile (· != '\n')⟩ (cs.dropWhile (· != '\n')) := by
  refine ⟨_, rfl, fun h => ?_, fun d hd => ?_⟩
  · simpa using List.mem_takeWhile_imp h
  · simpa using stops_dropWhile _ _ d hd

theorem exists_fits (c : Char) (cs : List Char) :
    ∃ (p : Piece) (rest : List Char), c :: cs = p.text ++ rest ∧ p.Fits rest := by
  have hrun : ∀ goesOn, c :: cs = (c :: cs.takeWhile goesOn) ++ cs.dropWhile goesOn := by simp
  cases hshape : Shape.ofChar c with
  | blank => exact ⟨⟨.blank, [c]⟩, cs, rfl, c, rfl, Shape.ofChar_eq_blank.1 hshape⟩
  | comment => exact absurd hshape (Shape.ofChar_ne_comment c)
  | word => exact ⟨_, _, hrun _, fits_word (Shape.ofChar_eq_word.1 hshape) cs⟩
  | number => exact ⟨_, _, hrun _, fits_number (Shape.ofChar_eq_number.1 hshape) cs⟩
  | stray => exact ⟨⟨.stray, [c]⟩, cs, rfl, c, rfl, hshape⟩
  | symbol =>
    have hc := Shape.ofChar_eq_symbol.1 hshape
    by_cases hgrow : ∀ d ∈ cs.head?, Shape.symbol.grow [c] d = none
    · exact ⟨⟨.symbol, [c]⟩, cs, rfl, .inr (.inr ⟨c, rfl, hc, hgrow⟩)⟩
    · obtain ⟨d, hd, hne⟩ : ∃ d, cs.head? = some d ∧ Shape.symbol.grow [c] d ≠ none := by
        simpa using hgrow
      obtain ⟨ds, rfl⟩ := List.head?_eq_some_iff.1 hd
      obtain ⟨grown, hgrown⟩ := Option.ne_none_iff_exists'.1 hne
      obtain ⟨hheld, rfl, -⟩ | ⟨hheld, rfl, -⟩ := Shape.grow_symbol_eq_some.1 hgrown
      · obtain rfl : c = '/' := by simpa using hheld
        exact ⟨_, _, by simp, fits_comment ds⟩
      · obtain rfl | rfl : c = '-' ∨ c = '=' := by simpa using hheld
        · exact ⟨⟨.symbol, ['-', '>']⟩, ds, rfl, .inl rfl⟩
        · exact ⟨⟨.symbol, ['=', '>']⟩, ds, rfl, .inr (.inl rfl)⟩

theorem cut_induction {motive : List Char → Prop} (nil : motive [])
    (piece : ∀ p rest, Fits p rest → motive rest → motive (p.text ++ rest)) (cs : List Char) :
    motive cs := by
  induction hn : cs.length using Nat.strongRecOn generalizing cs with
  | ind n ih =>
    cases cs with
    | nil => exact nil
    | cons c cs =>
      obtain ⟨p, rest, heq, hfits⟩ := exists_fits c cs
      have hpos := List.length_pos_iff.2 hfits.text_ne_nil
      have hlt : rest.length < n := by
        rw [← hn, heq, List.length_append]
        omega
      rw [heq]
      exact piece p rest hfits (ih _ hlt rest rfl)

theorem fits_of_cut {cs : List Char} {ps qs : List Piece} {p : Piece} (h : cut cs = ps ++ p :: qs) :
    p.Fits (qs.flatMap text) := by
  obtain ⟨as, bs, rfl, -, hbs⟩ := cut_eq_append h
  cases bs with
  | nil => cases hbs
  | cons b bs =>
    obtain ⟨q, rest, heq, hfits⟩ := exists_fits b bs
    rw [heq, cut_of_fits hfits] at hbs
    obtain ⟨rfl, rfl⟩ := List.cons.inj hbs
    rwa [flatMap_text_cut]

/-- A piece that stands for no token is blank, a comment or stray. -/
theorem Fits.shape_of_kind? {p : Piece} {rest : List Char} (h : p.Fits rest) (hk : p.kind? = none) :
    p.shape = .blank ∨ p.shape = .comment ∨ p.shape = .stray := by
  obtain ⟨shape, text⟩ := p
  cases shape with
  | blank => exact .inl rfl
  | comment => exact .inr (.inl rfl)
  | stray => exact .inr (.inr rfl)
  | word => cases hk
  | number => cases hk
  | symbol =>
    have hall : symbolChars.all fun c => (TokenKind.ofSymbol? (String.ofList [c])).isSome := by decide
    have hsome : (TokenKind.ofSymbol? (String.ofList text)).isSome = true := by
      obtain rfl | rfl | ⟨c, rfl, hc, -⟩ := h
      · decide
      · decide
      · exact List.all_eq_true.1 hall c (by simpa using hc)
    rw [Option.isSome_iff_ne_none] at hsome
    exact absurd hk hsome

/-- A piece that is a token or stray. -/
def isSolid (p : Piece) : Bool := p.shape != .blank && p.shape != .comment

theorem Fits.isBlank_eq_false {p : Piece} {rest : List Char} (h : p.Fits rest) (hs : p.isSolid = true)
    {c : Char} (hc : c ∈ p.text) : Text.isBlank c = false := by
  rw [← Bool.not_eq_true]
  intro hblank
  have hshape := Shape.ofChar_eq_blank.2 hblank
  obtain ⟨shape, text⟩ := p
  cases shape with
  | blank => cases hs
  | comment => cases hs
  | word =>
    obtain ⟨d, ds, rfl, hd, hds, -⟩ := h
    have hgoes : continuesWord c = true := by
      rcases List.mem_cons.1 hc with rfl | hc
      · exact continuesWord_of_startsWord hd
      · exact List.all_eq_true.1 hds c hc
    simp [continuesWord_of_isBlank hblank] at hgoes
  | number =>
    obtain ⟨d, ds, rfl, hd, hds, -⟩ := h
    have hdigit : c.isDigit = true := by
      rcases List.mem_cons.1 hc with rfl | hc
      · exact hd
      · exact List.all_eq_true.1 hds c hc
    simp [ofChar_of_isDigit hdigit] at hshape
  | symbol =>
    have harrows : (['-', '>'] ++ ['=', '>']).all fun c => !Text.isBlank c := by decide
    have hfree : c ∈ ['-', '>'] ++ ['=', '>'] → False := fun hc => by
      simpa [hblank] using List.all_eq_true.1 harrows c hc
    obtain rfl | rfl | ⟨d, rfl, hd, -⟩ := h
    · exact hfree (List.mem_append_left _ hc)
    · exact hfree (List.mem_append_right _ hc)
    · obtain rfl := List.mem_singleton.1 hc
      simp [Shape.ofChar_eq_symbol.2 hd] at hshape
  | stray =>
    obtain ⟨d, rfl, hd⟩ := h
    obtain rfl := List.mem_singleton.1 hc
    simp [hd] at hshape

theorem exists_piece_at {ps : List Piece} {i : Nat} (hi : i < (ps.flatMap text).length) :
    ∃ qs p rs j, ps = qs ++ p :: rs ∧ i = (qs.flatMap text).length + j ∧ j < p.text.length := by
  induction ps generalizing i with
  | nil => cases hi
  | cons p ps ih =>
    rw [List.flatMap_cons, List.length_append] at hi
    rcases Nat.lt_or_ge i p.text.length with hlt | hge
    · exact ⟨[], p, ps, i, rfl, by simp, hlt⟩
    · obtain ⟨i, rfl⟩ := Nat.exists_eq_add_of_le hge
      obtain ⟨qs, q, rs, j, rfl, rfl, hj⟩ := ih (i := i) (by omega)
      exact ⟨p :: qs, q, rs, j, rfl, by simp [Nat.add_assoc], hj⟩

/-- Pieces with the offset of each; the first one begins at the given offset. -/
def placed : (offset : Nat) → List Piece → List (Nat × Piece)
  | _, [] => []
  | offset, p :: ps => (offset, p) :: placed (offset + p.width) ps

theorem mem_placed {offset : Nat} {ps : List Piece} {x : Nat × Piece} :
    x ∈ placed offset ps ↔ ∃ qs rs, ps = qs ++ x.2 :: rs ∧ x.1 = offset + widthOf qs := by
  induction ps generalizing offset with
  | nil => simp [placed]
  | cons p ps ih =>
    rw [placed, List.mem_cons, ih]
    constructor
    · rintro (rfl | ⟨qs, rs, rfl, hx⟩)
      · exact ⟨[], ps, rfl, rfl⟩
      · exact ⟨p :: qs, rs, rfl, by rw [hx, widthOf_cons, Nat.add_assoc]⟩
    · rintro ⟨qs, rs, heq, hx⟩
      cases qs with
      | nil =>
        obtain ⟨rfl, -⟩ := List.cons.inj heq
        exact .inl (Prod.ext hx rfl)
      | cons q qs =>
        obtain ⟨rfl, rfl⟩ := List.cons.inj heq
        exact .inr ⟨qs, rs, rfl, by rw [hx, widthOf_cons, Nat.add_assoc]⟩

end Piece

namespace Token

def ofPlaced? (file : String) (x : Nat × Piece) : Option Token :=
  x.2.kind?.map fun k => ⟨k, x.2.string, ⟨file, x.1, x.1 + x.2.width⟩⟩

theorem ofPieces_eq_filterMap (file : String) (offset : Nat) (ps : List Piece) :
    ofPieces file offset ps = (Piece.placed offset ps).filterMap (ofPlaced? file) ++
      [endMarker file (offset + Piece.widthOf ps)] := by
  induction ps generalizing offset with
  | nil => rfl
  | cons p ps ih =>
    rw [ofPieces, ih, Piece.placed, Piece.widthOf_cons, Nat.add_assoc]
    cases hk : p.kind? with
    | none => rw [List.filterMap_cons_none (by simp [ofPlaced?, hk])]
    | some k =>
      rw [List.filterMap_cons_some (b := ⟨k, p.string, ⟨file, offset, offset + p.width⟩⟩)
        (by simp [ofPlaced?, hk])]
      rfl

end Token

namespace Diagnostic

theorem ofPieces_eq_map (file : String) (offset : Nat) (ps : List Piece) :
    ofPieces file offset ps = ((Piece.placed offset ps).filter fun x => x.2.shape = .stray).map
      fun x => stray x.2 ⟨file, x.1, x.1 + x.2.width⟩ := by
  induction ps generalizing offset with
  | nil => rfl
  | cons p ps ih =>
    by_cases hp : p.shape = .stray <;> simp [ofPieces, Piece.placed, hp, ih]

end Diagnostic
end TinyFront
