import TinyFront.Proofs.Cutting

/-!
How a text is parted into tokens, said of its characters by their indices. Main statements: the
characters that are reported are told by their lines and by the character before them, and without
any the tokens cover all of the text but blanks and comments, each as long as it can be.
-/
namespace TinyFront

def Slashes (cs : List Char) (i : Nat) : Prop := cs[i]? = some '/' ∧ cs[i + 1]? = some '/'

/-- No line feed stands from the first index up to the second. -/
def SameLine (cs : List Char) (j i : Nat) : Prop := ∀ k < i, j ≤ k → cs[k]? ≠ some '\n'

/-- The first two slashes of a line begin at the index. -/
def OpensComment (cs : List Char) (i : Nat) : Prop :=
  Slashes cs i ∧ ∀ j < i, SameLine cs j i → ¬Slashes cs j

/-- A comment goes on to the end of the line in which it opens. -/
def InComment (cs : List Char) (i : Nat) : Prop :=
  ∃ j ≤ i, OpensComment cs j ∧ SameLine cs j (i + 1)

/-- Blanks, and the characters that words, numbers and symbols of one character are made of. -/
def isKnown (c : Char) : Bool :=
  Text.isBlank c || c.isAlpha || c.isDigit || c == '_' || symbolChars.contains c

def EndsArrow (cs : List Char) (i : Nat) : Prop :=
  cs[i]? = some '>' ∧ ((cs.take i).getLast? = some '-' ∨ (cs.take i).getLast? = some '=')

/-- The character at the index belongs to no token, no blank and no comment. -/
def Unreadable (cs : List Char) (i : Nat) : Prop :=
  ¬InComment cs i ∧ ¬cs[i]?.any isKnown ∧ ¬EndsArrow cs i

instance (cs : List Char) (i : Nat) : Decidable (Slashes cs i) := inferInstanceAs (Decidable (_ ∧ _))

instance (cs : List Char) (j i : Nat) : Decidable (SameLine cs j i) :=
  inferInstanceAs (Decidable (∀ k < i, j ≤ k → cs[k]? ≠ some '\n'))

instance (cs : List Char) (i : Nat) : Decidable (OpensComment cs i) :=
  inferInstanceAs (Decidable (_ ∧ ∀ j < i, SameLine cs j i → ¬Slashes cs j))

instance (cs : List Char) (i : Nat) : Decidable (InComment cs i) :=
  inferInstanceAs (Decidable (∃ j ≤ i, OpensComment cs j ∧ SameLine cs j (i + 1)))

instance (cs : List Char) (i : Nat) : Decidable (EndsArrow cs i) := inferInstanceAs (Decidable (_ ∧ _))

instance (cs : List Char) (i : Nat) : Decidable (Unreadable cs i) := inferInstanceAs (Decidable (_ ∧ _))

/-- The indices of the characters that are reported. -/
def unreadable (cs : List Char) : List Nat :=
  (List.range cs.length).filter fun i => Unreadable cs i

def charSpan (file : String) (cs : List Char) (i : Nat) : Span :=
  ⟨file, byteWidth (cs.take i), byteWidth (cs.take (i + 1))⟩

def Diagnostic.unexpected (file : String) (cs : List Char) (i : Nat) : Diagnostic :=
  ⟨.error, "E100", "unexpected character " ++ Text.quote (String.ofList (cs[i]?.toList)),
    [⟨charSpan file cs i, ""⟩], []⟩

/-- In a line with a comment every two slashes belong to it. -/
theorem inComment_iff {cs : List Char} {i : Nat} :
    InComment cs i ↔ ∃ j ≤ i, Slashes cs j ∧ SameLine cs j (i + 1) := by
  refine ⟨fun ⟨j, hj, hopens, hline⟩ => ⟨j, hj, hopens.1, hline⟩, fun ⟨j, hj, hslashes, hline⟩ => ?_⟩
  induction j using Nat.strongRecOn with
  | ind j ih =>
    by_cases hfirst : ∀ k < j, SameLine cs k j → ¬Slashes cs k
    · exact ⟨j, hj, ⟨hslashes, hfirst⟩, hline⟩
    · obtain ⟨k, hk, hkj, hearlier⟩ : ∃ k < j, SameLine cs k j ∧ Slashes cs k := by
        simpa using hfirst
      refine ih k hk (Nat.le_trans (Nat.le_of_lt hk) hj) hearlier fun l hl hkl => ?_
      rcases Nat.lt_or_ge l j with hlj | hjl
      · exact hkj l hlj hkl
      · exact hline l hl hjl

section Shift

variable {as bs : List Char}

theorem getElem?_append_add (as bs : List Char) (i : Nat) : (as ++ bs)[as.length + i]? = bs[i]? := by
  rw [List.getElem?_append_right (Nat.le_add_right ..), Nat.add_sub_cancel_left]

theorem slashes_append_add (i : Nat) : Slashes (as ++ bs) (as.length + i) ↔ Slashes bs i := by
  rw [Slashes, Slashes, getElem?_append_add, Nat.add_assoc, getElem?_append_add]

theorem sameLine_append_add (j i : Nat) :
    SameLine (as ++ bs) (as.length + j) (as.length + i) ↔ SameLine bs j i := by
  refine ⟨fun h k hk hjk => ?_, fun h k hk hjk => ?_⟩
  · rw [← getElem?_append_add as bs k]
    exact h _ (by omega) (by omega)
  · obtain ⟨k, rfl⟩ := Nat.exists_eq_add_of_le (Nat.le_trans (Nat.le_add_right ..) hjk)
    rw [getElem?_append_add]
    exact h k (by omega) (by omega)

theorem inComment_append {i : Nat} (h : InComment bs i) :
    InComment (as ++ bs) (as.length + i) := by
  rw [inComment_iff] at h ⊢
  obtain ⟨j, hj, hs, hline⟩ := h
  exact ⟨_, Nat.add_le_add_left hj _, (slashes_append_add j).2 hs,
    (sameLine_append_add j (i + 1)).2 hline⟩

end Shift

theorem isKnown_of_continuesWord {c : Char} (h : continuesWord c = true) : isKnown c = true := by
  simp only [continuesWord, Char.isAlphanum, Bool.or_eq_true] at h
  rcases h with (h | h) | h <;> simp [isKnown, h]

theorem isKnown_of_startsWord {c : Char} (h : startsWord c = true) : isKnown c = true := by
  simp only [startsWord, Bool.or_eq_true] at h
  rcases h with h | h <;> simp [isKnown, h]

theorem isKnown_of_isDigit {c : Char} (h : c.isDigit = true) : isKnown c = true := by
  simp [isKnown, h]

theorem isKnown_of_symbol {c : Char} (h : symbolChars.contains c = true) : isKnown c = true := by
  simp only [isKnown, h, Bool.or_true]

/-- The unknown characters are the stray ones. -/
theorem isKnown_eq_false {c : Char} : isKnown c = false ↔ Shape.ofChar c = .stray := by
  constructor
  · intro h
    simp only [isKnown, Bool.or_eq_false_iff] at h
    obtain ⟨⟨⟨⟨hblank, halpha⟩, hdigit⟩, hline⟩, hsymbol⟩ := h
    have hword : startsWord c = false := by simp [startsWord, halpha, hline]
    simp only [Shape.ofChar, hblank, hdigit, hword, hsymbol, Bool.false_eq_true, if_false]
  · intro h
    rw [← Bool.not_eq_true]
    intro hknown
    simp only [isKnown, Bool.or_eq_true] at hknown
    rcases hknown with (((hblank | halpha) | hdigit) | hline) | hsymbol
    · rw [Shape.ofChar_eq_blank.2 hblank] at h
      cases h
    · rw [Shape.ofChar_eq_word.2 (by simp [startsWord, halpha])] at h
      cases h
    · rw [Shape.ofChar_eq_number.2 hdigit] at h
      cases h
    · rw [Shape.ofChar_eq_word.2 (by simp [startsWord, hline])] at h
      cases h
    · rw [Shape.ofChar_eq_symbol.2 hsymbol] at h
      cases h

namespace Piece

variable {p : Piece} {rest : List Char}

/-- Two slashes begin in no piece but a comment. -/
theorem Fits.comment_of_slashes (h : p.Fits rest) {j : Nat} (hj : j < p.text.length)
    (hs : Slashes (p.text ++ rest) j) : p.shape = .comment := by
  have hmem : '/' ∈ p.text := by
    have hchar := hs.1
    rw [List.getElem?_append_left hj] at hchar
    exact List.mem_of_getElem? hchar
  obtain ⟨shape, text⟩ := p
  cases shape with
  | comment => rfl
  | blank =>
    obtain ⟨c, rfl, hc⟩ := h
    obtain rfl := List.mem_singleton.1 hmem
    contradiction
  | word =>
    obtain ⟨c, cs, rfl, hc, hcs, -⟩ := h
    rcases List.mem_cons.1 hmem with rfl | hmem
    · contradiction
    · cases List.all_eq_true.1 hcs _ hmem
  | number =>
    obtain ⟨c, cs, rfl, hc, hcs, -⟩ := h
    rcases List.mem_cons.1 hmem with rfl | hmem
    · contradiction
    · cases List.all_eq_true.1 hcs _ hmem
  | symbol =>
    obtain rfl | rfl | ⟨c, rfl, hc, hrest⟩ := h
    · simp at hmem
    · simp at hmem
    · obtain rfl := List.mem_singleton.1 hmem
      obtain rfl : j = 0 := by simpa using hj
      have hnext : rest.head? = some '/' := by simpa [Slashes, List.head?_eq_getElem?] using hs.2
      cases hrest _ hnext
  | stray =>
    obtain ⟨c, rfl, hc⟩ := h
    obtain rfl := List.mem_singleton.1 hmem
    cases hc

/-- The piece that a text begins with is in a comment, or not, as a whole. -/
theorem Fits.inComment_iff (h : p.Fits rest) {i : Nat} (hi : i < p.text.length) :
    InComment (p.text ++ rest) i ↔ p.shape = .comment := by
  rw [TinyFront.inComment_iff]
  refine ⟨fun ⟨j, hj, hs, _⟩ => h.comment_of_slashes (Nat.lt_of_le_of_lt hj hi) hs, fun hp => ?_⟩
  obtain ⟨shape, text⟩ := p
  obtain rfl : shape = .comment := hp
  obtain ⟨cs, rfl, hcs, -⟩ := h
  refine ⟨0, Nat.zero_le _, ⟨rfl, rfl⟩, fun k hk _ hfeed => ?_⟩
  rw [List.getElem?_append_left (by omega)] at hfeed
  have hmem := List.mem_of_getElem? hfeed
  simp at hmem
  exact hcs hmem

/-- Behind a piece comments are told by what follows it. -/
theorem Fits.inComment_append_add (h : p.Fits rest) {i : Nat} (hi : i < rest.length) :
    InComment (p.text ++ rest) (p.text.length + i) ↔ InComment rest i := by
  refine ⟨fun hin => ?_, inComment_append⟩
  rw [TinyFront.inComment_iff] at hin ⊢
  obtain ⟨j, hj, hs, hline⟩ := hin
  rcases Nat.lt_or_ge j p.text.length with hlt | hge
  · -- the piece is a comment, which only a line feed ends
    have hshape := h.comment_of_slashes hlt hs
    obtain ⟨d, ds, rfl⟩ : ∃ d ds, rest = d :: ds := List.exists_cons_of_length_pos (by omega)
    obtain ⟨shape, text⟩ := p
    obtain rfl : shape = .comment := hshape
    obtain ⟨cs, rfl, -, hfeed⟩ := h
    obtain rfl := hfeed d rfl
    exact absurd (getElem?_append_add _ _ 0) (hline _ (by omega) (by omega))
  · obtain ⟨j, rfl⟩ := Nat.exists_eq_add_of_le hge
    exact ⟨j, by omega, (slashes_append_add j).1 hs, (sameLine_append_add j (i + 1)).1 hline⟩

/-- No piece ends with a hyphen or an equals sign before the end of an arrow. -/
theorem Fits.head?_ne_of_getLast? (h : p.Fits rest) {c : Char} (hlast : p.text.getLast? = some c)
    (hc : c = '-' ∨ c = '=') : rest.head? ≠ some '>' := by
  have hmem : c ∈ p.text := List.mem_of_getLast? hlast
  obtain ⟨shape, text⟩ := p
  intro hnext
  cases shape with
  | comment =>
    obtain ⟨cs, -, -, hrest⟩ := h
    cases hrest _ hnext
  | blank =>
    obtain ⟨d, rfl, hd⟩ := h
    obtain rfl := List.mem_singleton.1 hmem
    rcases hc with rfl | rfl <;> contradiction
  | word =>
    obtain ⟨d, ds, rfl, hd, hds, -⟩ := h
    have hword : continuesWord c = true := by
      rcases List.mem_cons.1 hmem with rfl | hmem
      · exact continuesWord_of_startsWord hd
      · exact List.all_eq_true.1 hds _ hmem
    rcases hc with rfl | rfl <;> contradiction
  | number =>
    obtain ⟨d, ds, rfl, hd, hds, -⟩ := h
    have hdigit : c.isDigit = true := by
      rcases List.mem_cons.1 hmem with rfl | hmem
      · exact hd
      · exact List.all_eq_true.1 hds _ hmem
    rcases hc with rfl | rfl <;> contradiction
  | symbol =>
    obtain rfl | rfl | ⟨d, rfl, -, hrest⟩ := h
    · rcases hc with rfl | rfl <;> contradiction
    · rcases hc with rfl | rfl <;> contradiction
    · obtain rfl := List.mem_singleton.1 hmem
      have hgrow := hrest _ hnext
      rcases hc with rfl | rfl <;> contradiction
  | stray =>
    obtain ⟨d, rfl, hd⟩ := h
    obtain rfl := List.mem_singleton.1 hmem
    rcases hc with rfl | rfl <;> contradiction

theorem Fits.endsArrow_append_add (h : p.Fits rest) (i : Nat) :
    EndsArrow (p.text ++ rest) (p.text.length + i) ↔ EndsArrow rest i := by
  rw [EndsArrow, EndsArrow, getElem?_append_add, List.take_length_add_append]
  cases i with
  | succ i =>
    cases rest with
    | nil => simp
    | cons d ds => simp [List.getLast?_append]
  | zero =>
    rw [List.take_zero, List.append_nil, ← List.head?_eq_getElem?]
    constructor
    · rintro ⟨hnext, hlast | hlast⟩
      · exact absurd hnext (h.head?_ne_of_getLast? hlast (.inl rfl))
      · exact absurd hnext (h.head?_ne_of_getLast? hlast (.inr rfl))
    · rintro ⟨-, hlast | hlast⟩ <;> cases hlast

/-- Behind a piece the characters that are reported are told by what follows it. -/
theorem Fits.unreadable_append_add (h : p.Fits rest) {i : Nat} (hi : i < rest.length) :
    Unreadable (p.text ++ rest) (p.text.length + i) ↔ Unreadable rest i := by
  rw [Unreadable, Unreadable, h.inComment_append_add hi, h.endsArrow_append_add, getElem?_append_add]

/-- Of the piece that a text begins with a character is reported if it is stray. -/
theorem Fits.unreadable_iff (h : p.Fits rest) {i : Nat} (hi : i < p.text.length) :
    Unreadable (p.text ++ rest) i ↔ p.shape = .stray := by
  have hchar : (p.text ++ rest)[i]? = some p.text[i] := by
    rw [List.getElem?_append_left hi, List.getElem?_eq_getElem hi]
  rw [Unreadable, h.inComment_iff hi, hchar, Option.any_some]
  obtain ⟨shape, text⟩ := p
  cases shape with
  | comment => simp
  | blank =>
    obtain ⟨c, rfl, hc⟩ := h
    simp [isKnown, hc]
  | word =>
    obtain ⟨c, cs, rfl, hc, hcs, -⟩ := h
    have hall : ∀ d ∈ c :: cs, isKnown d = true := List.forall_mem_cons.2
      ⟨isKnown_of_startsWord hc, fun d hd => isKnown_of_continuesWord (List.all_eq_true.1 hcs d hd)⟩
    simp [hall _ (List.getElem_mem hi)]
  | number =>
    obtain ⟨c, cs, rfl, hc, hcs, -⟩ := h
    have hall : ∀ d ∈ c :: cs, isKnown d = true := List.forall_mem_cons.2
      ⟨isKnown_of_isDigit hc, fun d hd => isKnown_of_isDigit (List.all_eq_true.1 hcs d hd)⟩
    simp [hall _ (List.getElem_mem hi)]
  | symbol =>
    have harrow : isKnown '-' = true ∧ isKnown '=' = true := by decide
    obtain rfl | rfl | ⟨c, rfl, hc, -⟩ := h
    · obtain rfl | rfl : i = 0 ∨ i = 1 := by simp only [List.length_cons, List.length_nil] at hi; omega
      · simp [harrow]
      · simp [EndsArrow]
    · obtain rfl | rfl : i = 0 ∨ i = 1 := by simp only [List.length_cons, List.length_nil] at hi; omega
      · simp [harrow]
      · simp [EndsArrow]
    · simp [isKnown_of_symbol hc]
  | stray =>
    obtain ⟨c, rfl, hc⟩ := h
    obtain rfl : i = 0 := by simpa using hi
    simp [isKnown_eq_false.2 hc, EndsArrow]

theorem Fits.unreadable_append (h : p.Fits rest) : unreadable (p.text ++ rest) =
    (if p.shape = .stray then [0] else []) ++ (unreadable rest).map (p.text.length + ·) := by
  have hfirst : (List.range p.text.length).filter (fun i => decide (Unreadable (p.text ++ rest) i)) =
      if p.shape = .stray then [0] else [] := by
    rw [List.filter_congr (q := fun _ => decide (p.shape = .stray))
      fun i hi => decide_eq_decide.2 (h.unreadable_iff (List.mem_range.1 hi))]
    split
    · rename_i hp
      obtain ⟨shape, text⟩ := p
      obtain rfl : shape = .stray := hp
      obtain ⟨c, rfl, -⟩ := h
      rfl
    · rename_i hp
      simp [hp]
  have hlater : (List.range rest.length).filter
      (fun i => decide (Unreadable (p.text ++ rest) (p.text.length + i))) = unreadable rest :=
    List.filter_congr fun i hi =>
      decide_eq_decide.2 (h.unreadable_append_add (List.mem_range.1 hi))
  rw [unreadable, List.length_append, List.range_add, List.filter_append, List.filter_map, hfirst]
  exact congrArg (fun is => _ ++ List.map _ is) hlater

end Piece

/-- The stray pieces of a text are the characters that its lines tell. -/
theorem strays_cut (offset : Nat) (cs : List Char) :
    (Piece.placed offset (Piece.cut cs)).filter (fun x => x.2.shape = .stray) =
      (unreadable cs).map fun i => (offset + byteWidth (cs.take i), ⟨.stray, cs[i]?.toList⟩) := by
  induction cs using Piece.cut_induction generalizing offset with
  | nil => rfl
  | piece p rest hfits ih =>
    have hlater : (unreadable rest).map ((fun i => (offset + byteWidth ((p.text ++ rest).take i),
        (⟨.stray, (p.text ++ rest)[i]?.toList⟩ : Piece))) ∘ (p.text.length + ·)) =
          (Piece.placed (offset + p.width) (Piece.cut rest)).filter (fun x => x.2.shape = .stray) := by
      rw [ih]
      refine List.map_congr_left fun i _ => ?_
      simp [getElem?_append_add, List.take_length_add_append, Piece.width, Nat.add_assoc]
    rw [Piece.cut_of_fits hfits, Piece.placed, hfits.unreadable_append, List.map_append, List.map_map,
      hlater]
    obtain ⟨shape, text⟩ := p
    by_cases hp : shape = .stray
    · subst hp
      obtain ⟨c, rfl, -⟩ := hfits
      rfl
    · simp [hp]

namespace Diagnostic

theorem ofPieces_cut (file : String) (cs : List Char) :
    ofPieces file 0 (Piece.cut cs) = (unreadable cs).map (unexpected file cs) := by
  rw [ofPieces_eq_map, strays_cut, List.map_map]
  refine List.map_congr_left fun i _ => ?_
  have hnext : byteWidth (cs.take (i + 1)) = byteWidth (cs.take i) + byteWidth cs[i]?.toList := by
    rw [List.take_add_one, byteWidth_append]
  simp [stray, unexpected, charSpan, Piece.string, Piece.width, hnext]

end Diagnostic

/-- The character would go on with a token of the given text. -/
def goesOn (text : List Char) (d : Char) : Bool :=
  text.head?.any (fun c => startsWord c && continuesWord d || c.isDigit && d.isDigit) ||
    (text == ['-'] || text == ['=']) && d == '>' || text == ['/'] && d == '/'

/-- The token stands in the text where its span says, and reaches as far as it can. -/
def Token.StandsIn (t : Token) (file : String) (cs : List Char) : Prop :=
  ∃ before own after, cs = before ++ (own ++ after) ∧ own ≠ [] ∧ t.text = String.ofList own ∧
    t.span = ⟨file, byteWidth before, byteWidth before + byteWidth own⟩ ∧
    ∀ d ∈ after.head?, goesOn own d = false

/-- The tokens take up all of the text but blanks and comments. -/
structure Tiles (file : String) (cs : List Char) (ts : List Token) : Prop where
  stand : ∀ t ∈ ts, t.StandsIn file cs
  ordered : ts.Pairwise fun t u => t.span.stop ≤ u.span.start
  covers : ∀ i < cs.length, (∀ t ∈ ts, byteWidth (cs.take i) < t.span.start ∨
    t.span.stop ≤ byteWidth (cs.take i)) → cs[i]?.any Text.isBlank = true ∨ InComment cs i

theorem Piece.Fits.goesOn_eq_false {p : Piece} {rest : List Char} (h : p.Fits rest) {k : TokenKind}
    (hk : p.kind? = some k) : ∀ d ∈ rest.head?, goesOn p.text d = false := by
  intro d hd
  have hstart : ∀ c, Shape.ofChar c ≠ .word → startsWord c = false := fun c hc => by
    simpa [Shape.ofChar_eq_word] using hc
  have hdigit : ∀ c, Shape.ofChar c ≠ .number → c.isDigit = false := fun c hc => by
    simpa [Shape.ofChar_eq_number] using hc
  obtain ⟨shape, text⟩ := p
  cases shape with
  | blank => cases hk
  | comment => cases hk
  | stray => cases hk
  | word =>
    obtain ⟨c, cs, rfl, hc, -, hrest⟩ := h
    have hshape := Shape.ofChar_eq_word.2 hc
    have hne : c ≠ '-' ∧ c ≠ '=' ∧ c ≠ '/' := by
      refine ⟨?_, ?_, ?_⟩ <;> rintro rfl <;> cases hc
    simp [goesOn, hrest d hd, hdigit c (by simp [hshape]), hne]
  | number =>
    obtain ⟨c, cs, rfl, hc, -, hrest⟩ := h
    have hshape := Shape.ofChar_eq_number.2 hc
    have hne : c ≠ '-' ∧ c ≠ '=' ∧ c ≠ '/' := by
      refine ⟨?_, ?_, ?_⟩ <;> rintro rfl <;> cases hc
    simp [goesOn, hrest d hd, hstart c (by simp [hshape]), hne]
  | symbol =>
    obtain rfl | rfl | ⟨c, rfl, hc, hrest⟩ := h
    · simp [goesOn, hstart '-' (by decide)]
    · simp [goesOn, hstart '=' (by decide)]
    · have hshape := Shape.ofChar_eq_symbol.2 hc
      have hgrow := hrest d hd
      simp only [goesOn, List.head?_cons, Option.any_some, hstart c (by simp [hshape]),
        hdigit c (by simp [hshape])]
      simp only [Shape.grow] at hgrow
      grind

theorem byteWidth_take_lt {cs : List Char} {i : Nat} (hi : i < cs.length) :
    byteWidth (cs.take i) < byteWidth cs := by
  have hsplit := byteWidth_append (cs.take i) (cs.drop i)
  rw [List.take_append_drop, List.drop_eq_getElem_cons hi, byteWidth_cons] at hsplit
  have := (cs[i]).utf8Size_pos
  omega

/-- Without stray pieces the tokens of a text take up all that is worth it. -/
theorem Tiles.of_cut (file : String) {cs : List Char} (h : ∀ p ∈ Piece.cut cs, p.shape ≠ .stray) :
    Tiles file cs ((Piece.placed 0 (Piece.cut cs)).filterMap (Token.ofPlaced? file)) where
  stand := by
    intro t ht
    obtain ⟨⟨offset, p⟩, hx, ht⟩ := List.mem_filterMap.1 ht
    obtain ⟨qs, rs, hcut, rfl⟩ := Piece.mem_placed.1 hx
    obtain ⟨k, hk, rfl⟩ := Option.map_eq_some_iff.1 ht
    have hfits := Piece.fits_of_cut hcut
    refine ⟨qs.flatMap Piece.text, p.text, rs.flatMap Piece.text, ?_, hfits.text_ne_nil, rfl, ?_,
      hfits.goesOn_eq_false hk⟩
    · rw [← Piece.flatMap_text_cut cs, hcut]
      simp
    · rw [Nat.zero_add]
      rfl
  ordered := by
    have h := Token.ordered_ofPieces file 0 (Piece.cut cs)
    rw [Token.ofPieces_eq_filterMap] at h
    exact (List.pairwise_append.1 h).1
  covers := by
    intro i hi hout
    rw [← Piece.flatMap_text_cut cs] at hi
    obtain ⟨qs, p, rs, j, hcut, rfl, hj⟩ := Piece.exists_piece_at hi
    have hcs : cs = qs.flatMap Piece.text ++ (p.text ++ rs.flatMap Piece.text) := by
      rw [← Piece.flatMap_text_cut cs, hcut]
      simp
    have hfits := Piece.fits_of_cut hcut
    cases hk : p.kind? with
    | some k =>
      have hmem : (0 + Piece.widthOf qs, p) ∈ Piece.placed 0 (Piece.cut cs) :=
        Piece.mem_placed.2 ⟨qs, rs, hcut, rfl⟩
      have htoken := hout _ (List.mem_filterMap.2 ⟨_, hmem, Option.map_eq_some_iff.2 ⟨k, hk, rfl⟩⟩)
      have htake : byteWidth (cs.take ((qs.flatMap Piece.text).length + j)) =
          Piece.widthOf qs + byteWidth (p.text.take j) := by
        rw [hcs, List.take_length_add_append, List.take_append_of_le_length (Nat.le_of_lt hj),
          byteWidth_append, Piece.widthOf]
      have hlt := byteWidth_take_lt hj
      rw [htake] at htoken
      simp only [Piece.width] at htoken
      omega
    | none =>
      rw [hcs, getElem?_append_add, List.getElem?_append_left hj]
      obtain hp | hp | hp := hfits.shape_of_kind? hk
      · obtain ⟨shape, text⟩ := p
        obtain rfl : shape = .blank := hp
        obtain ⟨c, rfl, hc⟩ := hfits
        obtain rfl : j = 0 := by simpa using hj
        exact .inl hc
      · exact .inr (inComment_append ((hfits.inComment_iff hj).2 hp))
      · exact absurd hp (h p (by simp [hcut]))

/-- Every character is a blank, in a comment, or in just one token, unless it is reported. -/
theorem lex_partitions_text (file source : String) :
    (unreadable source.toList = [] ∧
      ∃ ts, lex file source = .ok (ts ++ [Token.endMarker file source.utf8ByteSize]) ∧
        Tiles file source.toList ts) ∨
    (unreadable source.toList ≠ [] ∧ lex file source =
      .error ((unreadable source.toList).map (Diagnostic.unexpected file source.toList))) := by
  have hreports := Diagnostic.ofPieces_cut file source.toList
  by_cases hnone : unreadable source.toList = []
  · left
    rw [hnone, List.map_nil] at hreports
    refine ⟨hnone, _, ?_, Tiles.of_cut file (Diagnostic.stray_of_ofPieces hreports)⟩
    simp only [lex, hreports]
    rw [Token.ofPieces_eq_filterMap, Piece.widthOf_cut, byteWidth_toList, Nat.zero_add]
  · right
    refine ⟨hnone, ?_⟩
    simp only [lex, hreports]
    split
    · rename_i hnil
      exact absurd (List.map_eq_nil_iff.1 hnil) hnone
    · rfl

example : unreadable "x -> # // #\n>".toList = [5, 12] := by decide

end TinyFront
