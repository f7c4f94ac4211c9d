import TinyFront.Proofs.Completeness

/-!
What a parser sees ahead. Main statements: two lists that show the same three lexemes show the same
openings of records, and a list that shows what stood behind a phrase, or nothing that goes on with
the phrase, fits behind it.
-/
namespace TinyFront.Grammar

/-- The lexeme at a place. At the end marker and behind the last lexeme there is none. -/
def seen (xs : List Lexeme) (i : Nat) : Option Lexeme := xs[i]?.filter (·.1 != .eof)

/-- The kind in front; with nothing to be seen it is that of the end marker. -/
def headKind (xs : List Lexeme) : TokenKind := (seen xs 0).elim .eof (·.1)

/-- Both lists show the same lexemes up to a length. -/
def Agree (n : Nat) (xs ys : List Lexeme) : Prop := ∀ i, i < n → seen xs i = seen ys i

section

variable {n : Nat} {s s' : Sym} {x : Lexeme} {xs ys zs L R : List Lexeme}

@[simp] theorem headKind_cons : headKind (x :: xs) = x.1 := by
  by_cases h : x.1 = .eof <;> simp [headKind, seen, Option.filter, h]

theorem seen_append_add (i : Nat) : seen (xs ++ ys) (xs.length + i) = seen ys i := by
  rw [seen, List.getElem?_append_right (Nat.le_add_right ..), Nat.add_sub_cancel_left, seen]

theorem seen_append_of_lt {i : Nat} (hi : i < xs.length) : seen (xs ++ ys) i = seen xs i := by
  rw [seen, List.getElem?_append_left hi, seen]

theorem seen_eq_some (hx : x.1 ≠ .eof) {i : Nat} (h : xs[i]? = some x) : seen xs i = some x := by
  simp [seen, h, Option.filter, hx]

theorem getElem?_of_seen {i : Nat} (h : seen xs i = some x) : xs[i]? = some x := by
  rw [seen, Option.filter_eq_some_iff] at h
  exact h.1

namespace Agree

theorem mono {m : Nat} (h : Agree n xs ys) (hm : m ≤ n) : Agree m xs ys :=
  fun i hi => h i (Nat.lt_of_lt_of_le hi hm)

theorem headKind (h : Agree n xs ys) (hn : 0 < n) : headKind xs = headKind ys := by
  rw [Grammar.headKind, Grammar.headKind, h 0 hn]

theorem append (xs : List Lexeme) (h : Agree n L R) : Agree (xs.length + n) (xs ++ L) (xs ++ R) := by
  intro i hi
  by_cases hlt : i < xs.length
  · rw [seen_append_of_lt hlt, seen_append_of_lt hlt]
  · obtain ⟨j, rfl⟩ := Nat.exists_eq_add_of_le (Nat.le_of_not_lt hlt)
    rw [seen_append_add, seen_append_add, h j (by omega)]

theorem of_append (xs L R : List Lexeme) : Agree xs.length (xs ++ L) (xs ++ R) :=
  append (n := 0) xs fun _ hi => absurd hi (Nat.not_lt_zero _)

theorem split (hxs : ∀ x ∈ xs, x.1 ≠ .eof) (h : Agree (xs.length + n) (xs ++ L) ys) :
    ∃ R, ys = xs ++ R ∧ Agree n L R := by
  induction xs generalizing ys with
  | nil => exact ⟨ys, rfl, by simpa using h⟩
  | cons x xs ih =>
    have hx := hxs x (List.mem_cons_self ..)
    have hhead := getElem?_of_seen ((h 0 (by rw [List.length_cons]; omega)).symm.trans (seen_eq_some hx rfl))
    obtain ⟨zs, rfl⟩ : ∃ zs, ys = x :: zs := by
      cases ys with
      | nil => cases hhead
      | cons y ys => exact ⟨ys, by rw [Option.some.inj hhead]⟩
    have htail : Agree (xs.length + n) (xs ++ L) zs := fun i hi =>
      h (i + 1) (by rw [List.length_cons]; omega)
    obtain ⟨R, rfl, hR⟩ := ih (fun y hy => hxs y (List.mem_cons_of_mem _ hy)) htail
    exact ⟨R, rfl, hR⟩

end Agree

theorem opensRecord_eq_seen (xs : List Lexeme) : opensRecord xs =
    ((seen xs 0).any (·.1 == .lbrace) && (seen xs 1).any (·.1 == .identifier) &&
      (seen xs 2).any (·.1 == .assign)) := by
  have hany : ∀ (j : TokenKind) (x : Lexeme), j ≠ .eof →
      (Option.filter (·.1 != .eof) (some x)).any (·.1 == j) = (x.1 == j) := by
    intro j x hj
    by_cases hx : x.1 = .eof
    · simp [Option.filter, hx, Ne.symm hj]
    · simp [Option.filter, hx]
  rcases xs with _ | ⟨⟨k, t⟩, _ | ⟨⟨k', t'⟩, _ | ⟨⟨k'', t''⟩, xs⟩⟩⟩
  · simp [opensRecord, seen]
  · simp [opensRecord, seen]
  · simp [opensRecord, seen]
  · simp [opensRecord, seen, hany]

theorem opensRecord_of_agree (h : Agree n xs ys) (hn : 3 ≤ n) : opensRecord xs = opensRecord ys := by
  rw [opensRecord_eq_seen, opensRecord_eq_seen, h 0 (by omega), h 1 (by omega), h 2 (by omega)]

theorem headKind_of_opensRecord (h : opensRecord xs = true) : headKind xs = .lbrace := by
  unfold opensRecord at h
  split at h
  · simp only [Bool.and_eq_true, beq_iff_eq] at h
    rw [headKind_cons]
    exact h.1.1
  · cases h

/-- What may stand behind a phrase behind which `L` stood: it begins alike, or with nothing that goes
on with the phrase, and it opens no record where `L` opened none. -/
structure Fits (s : Sym) (L R : List Lexeme) : Prop where
  ne_nil : R ≠ []
  head : headKind R = headKind L ∨ s.goesOn (headKind R) = false
  record : s.goesOn .dot = true → opensRecord R = true → opensRecord L = true

namespace Fits

theorem of_ends (h : Ends s R) (L : List Lexeme) : Fits s L R := by
  obtain ⟨⟨x, ys, rfl, hx⟩, hr⟩ := h
  refine ⟨by simp, .inr (by rwa [headKind_cons]), fun hs hR => ?_⟩
  rw [hr hs] at hR
  cases hR

theorem of_agree (h : Agree n L R) (hn : 3 ≤ n) (hR : R ≠ []) : Fits s L R :=
  ⟨hR, .inl (h.headKind (by omega)).symm, fun _ ho => (opensRecord_of_agree h hn).trans ho⟩

theorem mono (h : Fits s L R) (hs : ∀ k, s'.goesOn k = true → s.goesOn k = true) : Fits s' L R := by
  refine ⟨h.ne_nil, h.head.imp_right fun hk => ?_, fun hd => h.record (hs _ hd)⟩
  cases hk' : s'.goesOn (headKind R) with
  | false => rfl
  | true => rw [hs _ hk'] at hk; cases hk

/-- A kind that goes on with the phrase stands in front only if it stood there before. -/
theorem headKind_eq (h : Fits s L R) (hk : s.goesOn (headKind R) = true) : headKind R = headKind L :=
  h.head.resolve_right (by simp [hk])

theorem isAt_eq_false {j : TokenKind} {c d : Cursor} (h : Fits s c.lexemes d.lexemes)
    (hj : s.goesOn j = true) (hc : c.isAt j = false) : d.isAt j = false := by
  have hkind : ∀ c : Cursor, c.current.kind = headKind c.lexemes := fun c => by
    simp [Cursor.lexemes, Cursor.remaining, Token.lexeme]
  rw [Cursor.isAt, beq_eq_false_iff_ne, hkind] at hc ⊢
  rintro rfl
  exact hc (h.headKind_eq hj).symm

end Fits

end

def sample : TokenKind → Lexeme
  | .integer => (.integer, "0")
  | .boolean => (.boolean, "true")
  | .identifier => (.identifier, "x")
  | .typeIdentifier => (.typeIdentifier, "A")
  | k => k.lexeme

@[simp] theorem sample_fst (k : TokenKind) : (sample k).1 = k := by cases k <;> rfl

theorem proper_sample (k : TokenKind) : (sample k).Proper := by
  cases k <;> first | rfl | exact .inl rfl

end TinyFront.Grammar
