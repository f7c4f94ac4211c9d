import Mathlib.Algebra.Order.Group.Multiset
import TinyFront.Proofs.Lexemes

/-!
Words between parentheses, as forests. Main statements: where the pairs of a forest stand, told by how
many words come before them, can be read off its signs; taking one pair away takes its place away and
moves no other; and pairs that are not shown leave the signs and the places of the others as they are.
-/
namespace TinyFront

/-- What is told of a word. Two spellings of one tree differ in separators only, and in whether an
operator is one. -/
inductive Word
  | separator | operator | ender | link | brace | assign | closer | other
  deriving DecidableEq, Repr

inductive Sign
  | opening | closing
  | word (w : Word)
  deriving DecidableEq, Repr

/-- Words are counted but for separators. -/
def Word.weight : Word → Nat
  | separator => 0
  | _ => 1

def Word.ends (w : Word) : Bool := w == .ender || w == .closer

def Sign.ends : Sign → Bool
  | opening => false
  | closing => true
  | word w => w.ends

open TokenKind in
def TokenKind.word : TokenKind → Word
  | comma | semicolon => .separator
  | plus | minus | star | slash => .operator
  | identifier | typeIdentifier | integer | boolean | underscore => .ender
  | dot | colon => .link
  | lbrace => .brace
  | assign => .assign
  | rbrace => .closer
  | _ => .other

def TokenKind.sign : TokenKind → Sign
  | lparen => .opening
  | rparen => .closing
  | k => .word k.word

def Lexeme.sign (x : Lexeme) : Sign := x.1.sign

/-- Why there is a pair: without it the words are grouped differently, or it stands around a lambda
that is an operand, or around an argument that something is selected from. -/
inductive Reason
  | needed | lambda | argument
  deriving DecidableEq, Repr

/-- Words and pairs, one after the other. A pair with nothing in it is a unit. -/
inductive Forest
  | nil
  | word (w : Word) (rest : Forest)
  | unit (rest : Forest)
  | pair (reason : Reason) (inside rest : Forest)
  deriving Repr

namespace Forest

variable {f g : Forest} {n : Nat}

def append : Forest → Forest → Forest
  | nil, g => g
  | word w rest, g => word w (append rest g)
  | unit rest, g => unit (append rest g)
  | pair r i rest, g => pair r i (append rest g)

instance : Append Forest := ⟨append⟩

@[simp] theorem nil_append (g : Forest) : nil ++ g = g := rfl
@[simp] theorem word_append (w : Word) (f g : Forest) : word w f ++ g = word w (f ++ g) := rfl
@[simp] theorem unit_append (f g : Forest) : unit f ++ g = unit (f ++ g) := rfl
@[simp] theorem pair_append (r : Reason) (i f g : Forest) : pair r i f ++ g = pair r i (f ++ g) := rfl

@[simp] theorem append_nil (f : Forest) : f ++ nil = f := by
  induction f with
  | nil => rfl
  | word w f ih | unit f ih => simp [ih]
  | pair r i f _ ih => simp [ih]

theorem append_assoc (f g h : Forest) : f ++ g ++ h = f ++ (g ++ h) := by
  induction f with
  | nil => rfl
  | word w f ih | unit f ih => simp [ih]
  | pair r i f _ ih => simp [ih]

/-- How many words there are, each unit being one. -/
def weight : Forest → Nat
  | nil => 0
  | word w rest => w.weight + rest.weight
  | unit rest => 1 + rest.weight
  | pair _ i rest => i.weight + rest.weight

@[simp] theorem weight_append (f g : Forest) : (f ++ g).weight = f.weight + g.weight := by
  induction f with
  | nil => simp [weight]
  | word w f ih | unit f ih => simp [weight, ih, Nat.add_assoc]
  | pair r i f _ ih => simp [weight, ih, Nat.add_assoc]

def operators : Forest → Nat
  | nil => 0
  | word w rest => (if w = .operator then 1 else 0) + rest.operators
  | unit rest => rest.operators
  | pair _ i rest => i.operators + rest.operators

@[simp] theorem operators_append (f g : Forest) :
    (f ++ g).operators = f.operators + g.operators := by
  induction f with
  | nil => simp [operators]
  | word w f ih => simp [operators, ih, Nat.add_assoc]
  | unit f ih => simp [operators, ih]
  | pair r i f _ ih => simp [operators, ih, Nat.add_assoc]

def signs : Forest → List Sign
  | nil => []
  | word w rest => .word w :: rest.signs
  | unit rest => .opening :: .closing :: rest.signs
  | pair _ i rest => .opening :: (i.signs ++ .closing :: rest.signs)

@[simp] theorem signs_append (f g : Forest) : (f ++ g).signs = f.signs ++ g.signs := by
  induction f with
  | nil => rfl
  | word w f ih | unit f ih => simp [signs, ih]
  | pair r i f _ ih => simp [signs, ih]

theorem count_signs (f : Forest) : f.signs.count (.word .operator) = f.operators := by
  induction f with
  | nil => rfl
  | word w f ih => cases w <;> simp [signs, operators, ih, Nat.add_comm]
  | unit f ih => simp [signs, operators, ih]
  | pair r i f ihi ih => simp [signs, operators, ihi, ih]

/-- Whether an operand can end where the forest does, if that is so before it. -/
def ends (before : Bool) : Forest → Bool
  | nil => before
  | word w rest => rest.ends w.ends
  | unit rest => rest.ends true
  | pair _ _ rest => rest.ends true

@[simp] theorem ends_append (b : Bool) (f g : Forest) : (f ++ g).ends b = g.ends (f.ends b) := by
  induction f generalizing b with
  | nil => rfl
  | word w f ih | unit f ih => exact ih _
  | pair r i f _ ih => exact ih _

/-- Where the pairs of certain reasons stand: how many words are before each of them, and how many up
to its end. -/
def places (p : Reason → Bool) (n : Nat) : Forest → Multiset (Nat × Nat)
  | nil => 0
  | word w rest => rest.places p (n + w.weight)
  | unit rest => rest.places p (n + 1)
  | pair r i rest =>
    (if p r then {(n, n + i.weight)} else 0) + (i.places p n + rest.places p (n + i.weight))

@[simp] theorem places_append (p : Reason → Bool) (n : Nat) (f g : Forest) :
    (f ++ g).places p n = f.places p n + g.places p (n + f.weight) := by
  induction f generalizing n with
  | nil => simp [places, weight]
  | word w f ih | unit f ih => simp [places, weight, ih, Nat.add_assoc]
  | pair r i f _ ih => simp [places, weight, ih, add_assoc]

theorem places_add_not (p : Reason → Bool) (n : Nat) (f : Forest) :
    f.places p n + f.places (fun r => !p r) n = f.places (fun _ => true) n := by
  induction f generalizing n with
  | nil => rfl
  | word w f ih | unit f ih => exact ih _
  | pair r i f ihi ih =>
    rw [places, places, places, ← ihi, ← ih]
    cases p r <;> simp [add_assoc, add_left_comm]

theorem exists_reason {p : Reason → Bool} {n : Nat} {x : Nat × Nat} (h : x ∈ f.places p n) :
    ∃ r, p r = true ∧ x ∈ f.places (· == r) n := by
  induction f generalizing n with
  | nil => simp [places] at h
  | word w f ih | unit f ih => exact ih h
  | pair r i f ihi ih =>
    simp only [places, Multiset.mem_add] at h ⊢
    rcases h with h | h | h
    · by_cases hr : p r = true
      · rw [if_pos hr] at h
        exact ⟨r, hr, .inl (by simpa using h)⟩
      · rw [if_neg hr] at h
        simp at h
    · obtain ⟨r', hr', h⟩ := ihi h
      exact ⟨r', hr', .inr (.inl h)⟩
    · obtain ⟨r', hr', h⟩ := ih h
      exact ⟨r', hr', .inr (.inr h)⟩

def Clean : Forest → Prop
  | nil => True
  | word _ rest | unit rest => rest.Clean
  | pair _ i rest => 0 < i.weight ∧ i.Clean ∧ rest.Clean

@[simp] theorem clean_append : (f ++ g).Clean ↔ f.Clean ∧ g.Clean := by
  induction f with
  | nil => simp [Clean]
  | word w f ih | unit f ih => exact ih
  | pair r i f _ ih => simp [Clean, ih, and_assoc]

theorem lt_of_mem_places {p : Reason → Bool} {x : Nat × Nat} (hf : f.Clean) (hx : x ∈ f.places p n) :
    n ≤ x.1 ∧ x.1 < x.2 ∧ x.2 ≤ n + f.weight := by
  induction f generalizing n with
  | nil => simp [places] at hx
  | word w f ih | unit f ih =>
    have h := ih hf hx
    simp only [weight]
    omega
  | pair r i f ihi ih =>
    obtain ⟨hw, hi, hf⟩ := hf
    simp only [places, Multiset.mem_add] at hx
    simp only [weight]
    rcases hx with hx | hx | hx
    · split at hx
      · obtain rfl := Multiset.mem_singleton.1 hx
        exact ⟨Nat.le_refl _, by omega, by omega⟩
      · simp at hx
    · have h := ihi hi hx
      omega
    · have h := ih hf hx
      omega

/-- The forest without its pairs that are not needed. -/
def plain : Forest → Forest
  | nil => nil
  | word w rest => word w rest.plain
  | unit rest => unit rest.plain
  | pair .needed i rest => pair .needed i.plain rest.plain
  | pair _ i rest => i.plain ++ rest.plain

@[simp] theorem plain_append (f g : Forest) : (f ++ g).plain = f.plain ++ g.plain := by
  induction f with
  | nil => rfl
  | word w f ih | unit f ih => simp [plain, ih]
  | pair r i f _ ih => cases r <;> simp [plain, ih, append_assoc]

@[simp] theorem weight_plain (f : Forest) : f.plain.weight = f.weight := by
  induction f with
  | nil => rfl
  | word w f ih | unit f ih => simp [plain, weight, ih]
  | pair r i f ihi ih => cases r <;> simp [plain, weight, ihi, ih]

@[simp] theorem operators_plain (f : Forest) : f.plain.operators = f.operators := by
  induction f with
  | nil => rfl
  | word w f ih | unit f ih => simp [plain, operators, ih]
  | pair r i f ihi ih => cases r <;> simp [plain, operators, ihi, ih]

theorem Clean.plain (h : f.Clean) : f.plain.Clean := by
  induction f with
  | nil => trivial
  | word w f ih | unit f ih => exact ih h
  | pair r i f ihi ih =>
    cases r with
    | needed => exact ⟨by simpa using h.1, ihi h.2.1, ih h.2.2⟩
    | lambda | argument => exact clean_append.2 ⟨ihi h.2.1, ih h.2.2⟩

theorem places_plain (f : Forest) (n : Nat) :
    f.plain.places (fun _ => true) n = f.places (· == .needed) n := by
  induction f generalizing n with
  | nil => rfl
  | word w f ih | unit f ih => exact ih _
  | pair r i f ihi ih => cases r <;> simp [Forest.plain, places, ihi, ih]

end Forest

namespace Sign

/-- How many words there are among signs, each unit being one. -/
def leaves : List Sign → Nat
  | [] => 0
  | opening :: closing :: ss => leaves ss + 1
  | word w :: ss => w.weight + leaves ss
  | opening :: ss | closing :: ss => leaves ss

/-- Where the pairs among signs stand, `opened` being where those opened so far begin. -/
def places (n : Nat) (opened : List Nat) : List Sign → Multiset (Nat × Nat)
  | [] => 0
  | opening :: closing :: ss => places (n + 1) opened ss
  | word w :: ss => places (n + w.weight) opened ss
  | opening :: ss => places n (n :: opened) ss
  | closing :: ss =>
    match opened with
    | [] => places n [] ss
    | m :: opened => (m, n) ::ₘ places n opened ss

/-- How many pairs are open behind the signs. -/
def nest (depth : Nat) : List Sign → Option Nat
  | [] => some depth
  | word _ :: ss => nest depth ss
  | opening :: ss => nest (depth + 1) ss
  | closing :: ss =>
    match depth with
    | 0 => none
    | depth + 1 => nest depth ss

variable {ss ts : List Sign} {n d : Nat}

theorem leaves_opening (h : ss.head? ≠ some closing) : leaves (opening :: ss) = leaves ss := by
  rw [leaves.eq_4]
  rintro _ rfl
  exact h rfl

theorem head_of_append {s t : List Sign} (h : (s ++ t).head? ≠ some closing) : s.head? ≠ some closing := by
  cases s <;> simp_all

theorem head_append (h : ss.head? ≠ some closing) (h' : ts.head? ≠ some closing) :
    (ss ++ ts).head? ≠ some closing := by
  cases ss <;> simp_all

theorem places_opening {opened : List Nat} (h : ss.head? ≠ some closing) :
    places n opened (opening :: ss) = places n (n :: opened) ss := by
  rw [places.eq_4]
  rintro _ rfl
  exact h rfl

theorem nest_append (d : Nat) (ss ts : List Sign) : nest d (ss ++ ts) = (nest d ss).bind (nest · ts) := by
  induction ss generalizing d with
  | nil => rfl
  | cons s ss ih =>
    cases s with
    | word w | opening => exact ih _
    | closing =>
      cases d with
      | zero => rfl
      | succ d => exact ih d

theorem nest_add {e : Nat} (k : Nat) (h : nest d ss = some e) : nest (d + k) ss = some (e + k) := by
  induction ss generalizing d with
  | nil => exact congrArg (fun d => some (d + k)) (Option.some.inj h)
  | cons s ss ih =>
    cases s with
    | word w => exact ih h
    | opening =>
      show nest (d + k + 1) ss = _
      rw [Nat.add_right_comm]
      exact ih h
    | closing =>
      cases d with
      | zero => cases h
      | succ d =>
        rw [Nat.add_right_comm]
        exact ih h

/-- Whether an operand can end behind the signs, if that is so before them. -/
def endsAfter (before : Bool) : List Sign → Bool
  | [] => before
  | s :: ss => endsAfter s.ends ss

theorem endsAfter_append (b : Bool) (ss ts : List Sign) :
    endsAfter b (ss ++ ts) = endsAfter (endsAfter b ss) ts := by
  induction ss generalizing b with
  | nil => rfl
  | cons s ss ih => exact ih _

theorem ends_of_endsAfter {b : Bool} (h : endsAfter b ss = true) (hne : ss ≠ []) :
    ∃ s ∈ ss, s.ends = true := by
  induction ss generalizing b with
  | nil => contradiction
  | cons s ss ih =>
    cases ss with
    | nil => exact ⟨s, by simp, h⟩
    | cons t ts =>
      obtain ⟨u, hu, hends⟩ := ih (b := s.ends) h (by simp)
      exact ⟨u, List.mem_cons_of_mem _ hu, hends⟩

theorem leaves_pos {w : Word} (h : word w ∈ ss) (hw : 0 < w.weight) : 0 < leaves ss := by
  induction ss using leaves.induct with
  | case1 => cases h
  | case2 ss _ => exact Nat.succ_pos _
  | case3 v ss ih =>
    rw [leaves]
    rcases List.mem_cons.1 h with h | h
    · obtain rfl := word.inj h
      omega
    · have := ih h
      omega
  | case4 ss hss ih =>
    rw [leaves.eq_4 _ fun ss' h => hss ss' h]
    exact ih (by simpa using h)
  | case5 ss ih => exact ih (by simpa using h)

/-- Signs that no word stands between and that close nothing leave no operand at their end. -/
theorem eq_nil_of_endsAfter {b : Bool} (h : endsAfter b ss = true) (hclosing : closing ∉ ss)
    (hleaves : leaves ss = 0) : ss = [] := by
  by_contra hne
  obtain ⟨s, hs, hends⟩ := ends_of_endsAfter h hne
  cases s with
  | opening => cases hends
  | closing => exact hclosing hs
  | word w =>
    have := leaves_pos hs (by cases w <;> first | decide | cases hends)
    omega

end Sign

namespace Forest

open Sign

variable {f b : Forest} {ss : List Sign} {n d : Nat}

theorem head_signs (f : Forest) : f.signs.head? ≠ some closing := by cases f <;> simp [signs]

theorem head_signs_append (hf : 0 < f.weight) (ss : List Sign) :
    (f.signs ++ ss).head? ≠ some closing := by
  cases f with
  | nil => cases hf
  | word | unit | pair => simp [signs]

@[simp] theorem endsAfter_signs (f : Forest) (b : Bool) : endsAfter b f.signs = f.ends b := by
  induction f generalizing b with
  | nil => rfl
  | word w f ih | unit f ih => exact ih _
  | pair r i f ihi ih =>
    rw [signs, endsAfter, endsAfter_append]
    exact ih true

/-- A forest opens nothing that it does not close. -/
@[simp] theorem nest_signs (f : Forest) (d : Nat) (ss : List Sign) :
    nest d (f.signs ++ ss) = nest d ss := by
  induction f generalizing d ss with
  | nil => rfl
  | word w f ih | unit f ih => exact ih _ _
  | pair r i f ihi ih =>
    rw [signs, List.cons_append, List.append_assoc]
    exact (ihi _ _).trans (ih _ _)

theorem leaves_signs (hf : f.Clean) (ss : List Sign) :
    leaves (f.signs ++ ss) = f.weight + leaves ss := by
  induction f generalizing ss with
  | nil => simp [signs, weight]
  | word w f ih =>
    rw [signs, List.cons_append, leaves, ih hf, weight, Nat.add_assoc]
  | unit f ih =>
    rw [signs, List.cons_append, List.cons_append, leaves, ih hf, weight]
    omega
  | pair r i f ihi ih =>
    obtain ⟨hw, hi, hf⟩ := hf
    rw [signs, List.cons_append, List.append_assoc, leaves_opening (head_signs_append hw _), ihi hi,
      List.cons_append, leaves, ih hf, weight, Nat.add_assoc]

theorem places_signs (hf : f.Clean) (n : Nat) (opened : List Nat) (ss : List Sign) :
    Sign.places n opened (f.signs ++ ss) =
      f.places (fun _ => true) n + Sign.places (n + f.weight) opened ss := by
  induction f generalizing n opened ss with
  | nil => simp [signs, weight, places]
  | word w f ih | unit f ih =>
    simp only [signs, List.cons_append, Sign.places, ih hf, places, weight, Nat.add_assoc]
  | pair r i f ihi ih =>
    obtain ⟨hw, hi, hf⟩ := hf
    rw [signs, List.cons_append, List.append_assoc, places_opening (head_signs_append hw _), ihi hi,
      List.cons_append, Sign.places, ih hf, places, weight, if_pos rfl, Nat.add_assoc]
    simp only [← Multiset.singleton_add]
    simp [add_assoc]

/-- Where a forest begins, signs that no word stands between close nothing. -/
theorem closing_not_mem_prefix (hf : f.Clean) {bs cs : List Sign} (h : f.signs = bs ++ cs)
    (hbs : leaves bs = 0) : closing ∉ bs := by
  induction f generalizing bs cs with
  | nil => simp_all [signs]
  | word w f ih =>
    rcases bs with _ | ⟨b, bs⟩
    · simp
    · simp only [signs, List.cons_append, List.cons.injEq] at h
      obtain ⟨rfl, h⟩ := h
      simp only [leaves, Nat.add_eq_zero_iff] at hbs
      simpa using ih hf h hbs.2
  | unit f ih =>
    rcases bs with _ | ⟨b, _ | ⟨b', bs⟩⟩
    · simp
    · simp only [signs, List.cons_append, List.cons.injEq] at h
      simp [← h.1]
    · simp only [signs, List.cons_append, List.cons.injEq] at h
      rw [← h.1, ← h.2.1] at hbs
      cases hbs
  | pair r i f ihi ih =>
    obtain ⟨hw, hi, hf⟩ := hf
    rcases bs with _ | ⟨b, bs⟩
    · simp
    · simp only [signs, List.cons_append, List.cons.injEq] at h
      obtain ⟨rfl, h⟩ := h
      rw [leaves_opening (head_of_append (h ▸ head_signs_append hw _))] at hbs
      obtain ⟨us, rfl, -⟩ | ⟨us, hbi, -⟩ := List.append_eq_append_iff.1 h
      · rw [leaves_signs hi] at hbs
        omega
      · simpa using ihi hi hbi hbs

/-- The same behind signs that leave nothing open. -/
theorem closing_not_mem (hf : f.Clean) {as bs cs : List Sign} (h : f.signs = as ++ (bs ++ cs))
    (has : nest 0 as = some 0) (hbs : leaves bs = 0) : closing ∉ bs := by
  induction f generalizing as with
  | nil => simp_all [signs]
  | word w f ih =>
    rcases as with _ | ⟨a, as⟩
    · exact closing_not_mem_prefix (f := word w f) hf h hbs
    · simp only [signs, List.cons_append, List.cons.injEq] at h
      obtain ⟨rfl, h⟩ := h
      exact ih hf h has
  | unit f ih =>
    rcases as with _ | ⟨a, _ | ⟨a', as⟩⟩
    · exact closing_not_mem_prefix (f := unit f) hf h hbs
    · simp only [signs, List.cons_append, List.cons.injEq] at h
      rw [← h.1] at has
      cases has
    · simp only [signs, List.cons_append, List.cons.injEq] at h
      obtain ⟨rfl, rfl, h⟩ := h
      exact ih hf h has
  | pair r i f ihi ih =>
    rcases as with _ | ⟨a, as⟩
    · exact closing_not_mem_prefix (f := pair r i f) hf h hbs
    · simp only [signs, List.cons_append, List.cons.injEq] at h
      obtain ⟨rfl, h⟩ := h
      rw [nest] at has
      obtain ⟨us, rfl, hus⟩ | ⟨us, hi, -⟩ := List.append_eq_append_iff.1 h
      · rw [nest_signs] at has
        rcases us with _ | ⟨u, us⟩
        · cases has
        · simp only [List.cons_append, List.cons.injEq] at hus
          obtain ⟨rfl, hus⟩ := hus
          exact ih hf.2.2 hus has
      · -- what is opened first is still open
        have hopen := nest_signs i 0 []
        rw [List.append_nil, hi, nest_append] at hopen
        obtain ⟨e, he, -⟩ := Option.bind_eq_some_iff.1 hopen
        rw [nest_add 1 he] at has
        cases has

/-! Pairs taken away. -/

/-- Words are counted part by part, unless the parts make a unit where they meet. -/
theorem leaves_append {as ss : List Sign}
    (h : as.getLast? = some opening → ss.head? ≠ some closing) :
    leaves (as ++ ss) = leaves as + leaves ss := by
  induction as using leaves.induct with
  | case1 => simp [leaves]
  | case2 as ih =>
    rw [List.cons_append, List.cons_append, leaves, ih, leaves, Nat.add_right_comm]
    exact fun hlast => h (by cases as <;> simp_all)
  | case3 w as ih =>
    rw [List.cons_append, leaves, ih, leaves, Nat.add_assoc]
    exact fun hlast => h (by cases as <;> simp_all)
  | case4 as has ih =>
    rcases as with _ | ⟨a, as⟩
    · rw [List.singleton_append, leaves_opening (h rfl)]
      simp [leaves]
    · have hhead : (a :: as).head? ≠ some closing :=
        fun hclosing => has as (by rw [Option.some.inj hclosing])
      rw [List.cons_append, leaves_opening hhead, leaves_opening (by simpa using hhead), ih]
      exact fun hlast => h (by simpa using hlast)
  | case5 as ih =>
    rw [List.cons_append, leaves, ih, leaves]
    exact fun hlast => h (by cases as <;> simp_all)

theorem leaves_unit {as ss : List Sign} (h : as.getLast? = some opening → ss.head? ≠ some closing) :
    leaves (as ++ opening :: closing :: ss) = leaves (as ++ ss) + 1 := by
  rw [leaves_append (by simp), leaves_append h]
  rfl

section

variable {b : Forest} (hb : b.Clean) (hw : 0 < b.weight) (as ss : List Sign)

include hb hw

theorem leaves_insert :
    leaves (as ++ opening :: (b.signs ++ closing :: ss)) = leaves (as ++ (b.signs ++ ss)) := by
  rw [leaves_append (by simp), leaves_append fun _ => head_signs_append hw ss,
    leaves_opening (head_signs_append hw _), leaves_signs hb, leaves_signs hb, leaves]

/-- Without a pair its own place is missing, and all others are where they were. -/
theorem places_insert (n : Nat) (opened : List Nat) :
    Sign.places n opened (as ++ opening :: (b.signs ++ closing :: ss)) =
      (n + leaves as, n + leaves as + b.weight) ::ₘ
        Sign.places n opened (as ++ (b.signs ++ ss)) := by
  induction as using leaves.induct generalizing n opened with
  | case1 =>
    rw [List.nil_append, places_opening (head_signs_append hw _), places_signs hb, List.nil_append,
      places_signs hb, Sign.places, leaves, Nat.add_zero, Multiset.add_cons]
  | case2 as ih =>
    simp only [List.cons_append, Sign.places, leaves, ih]
    simp only [Nat.add_assoc, Nat.add_comm 1]
  | case3 w as ih => simp only [List.cons_append, Sign.places, leaves, ih, Nat.add_assoc]
  | case4 as has ih =>
    have hhead : as.head? ≠ some closing := by
      rcases as with _ | ⟨a, as⟩
      · simp
      · rintro hclosing
        exact has as (by rw [Option.some.inj hclosing])
    rw [List.cons_append, places_opening (head_append hhead (by simp)), ih, leaves_opening hhead,
      List.cons_append, places_opening (head_append hhead (head_signs_append hw ss))]
  | case5 as ih =>
    cases opened with
    | nil => simp only [List.cons_append, Sign.places, leaves, ih]
    | cons m opened =>
      simp only [List.cons_append, Sign.places, leaves, ih]
      exact Multiset.cons_swap _ _ _

end

/-! Single pairs. -/

/-- What holds of every pair, together with whether an operand can end before it. -/
def Every (P : Bool → Reason → Forest → Prop) : Bool → Forest → Prop
  | _, nil => True
  | _, word w rest => rest.Every P w.ends
  | _, unit rest => rest.Every P true
  | b, pair r i rest => P b r i ∧ i.Every P false ∧ rest.Every P true

theorem every_append {P : Bool → Reason → Forest → Prop} {b : Bool} {f g : Forest} :
    (f ++ g).Every P b ↔ f.Every P b ∧ g.Every P (f.ends b) := by
  induction f generalizing b with
  | nil => simp [Every, ends]
  | word w f ih | unit f ih => exact ih
  | pair r i f _ ih => simp [Every, ends, ih, and_assoc]

/-- The pair stands in the forest behind some signs and before others. -/
inductive Has (r : Reason) (i : Forest) : Forest → List Sign → List Sign → Prop
  | here (f : Forest) : Has r i (.pair r i f) [] f.signs
  | word {w : Word} {f : Forest} {as cs : List Sign} (h : Has r i f as cs) :
      Has r i (.word w f) (.word w :: as) cs
  | unit {f : Forest} {as cs : List Sign} (h : Has r i f as cs) :
      Has r i (.unit f) (opening :: closing :: as) cs
  | inside {q : Reason} {j f : Forest} {as cs : List Sign} (h : Has r i j as cs) :
      Has r i (.pair q j f) (opening :: as) (cs ++ closing :: f.signs)
  | behind {q : Reason} {j f : Forest} {as cs : List Sign} (h : Has r i f as cs) :
      Has r i (.pair q j f) (opening :: (j.signs ++ closing :: as)) cs

/-- A sign that opens belongs to a unit or to a pair. -/
theorem exists_has {f : Forest} {as ss : List Sign} (hs : f.signs = as ++ opening :: ss) :
    ss.head? = some closing ∨ ∃ r i cs, ss = i.signs ++ closing :: cs ∧ Has r i f as cs := by
  induction f generalizing as ss with
  | nil => simp [signs] at hs
  | word w f ih =>
    rcases as with _ | ⟨a, as⟩
    · simp [signs] at hs
    · simp only [signs, List.cons_append, List.cons.injEq] at hs
      obtain ⟨rfl, hs⟩ := hs
      exact (ih hs).imp_right fun ⟨r, i, cs, hss, h⟩ => ⟨r, i, cs, hss, h.word⟩
  | unit f ih =>
    rcases as with _ | ⟨a, _ | ⟨a', as⟩⟩
    · simp only [signs, List.nil_append, List.cons.injEq, true_and] at hs
      simp [← hs]
    · simp [signs] at hs
    · simp only [signs, List.cons_append, List.cons.injEq] at hs
      obtain ⟨rfl, rfl, hs⟩ := hs
      exact (ih hs).imp_right fun ⟨r, i, cs, hss, h⟩ => ⟨r, i, cs, hss, h.unit⟩
  | pair r i f ihi ih =>
    rcases as with _ | ⟨a, as⟩
    · simp only [signs, List.nil_append, List.cons.injEq, true_and] at hs
      exact .inr ⟨r, i, f.signs, hs.symm, .here f⟩
    · simp only [signs, List.cons_append, List.cons.injEq] at hs
      obtain ⟨rfl, hs⟩ := hs
      obtain ⟨us, rfl, hus⟩ | ⟨us, hi, hus⟩ := List.append_eq_append_iff.1 hs <;>
        rcases us with _ | ⟨u, us⟩
      · simp at hus
      · simp only [List.cons_append, List.cons.injEq] at hus
        obtain ⟨rfl, hus⟩ := hus
        exact (ih hus).imp_right fun ⟨r, i, cs, hss, h⟩ => ⟨r, i, cs, hss, h.behind⟩
      · simp at hus
      · simp only [List.cons_append, List.cons.injEq] at hus
        obtain ⟨rfl, rfl⟩ := hus
        rcases ihi hi with hunit | ⟨r', j, cs, rfl, h⟩
        · exact .inl (by rw [List.head?_append, hunit]; rfl)
        · exact .inr ⟨r', j, cs ++ closing :: f.signs, by simp, h.inside⟩

namespace Has

variable {r : Reason} {i f : Forest} {as cs : List Sign}

theorem signs_eq (h : Has r i f as cs) : f.signs = as ++ opening :: (i.signs ++ closing :: cs) := by
  induction h with
  | here f => rfl
  | word _ ih | unit _ ih | inside _ ih | behind _ ih => simp [signs, ih]

theorem clean (h : Has r i f as cs) (hf : f.Clean) : 0 < i.weight ∧ i.Clean := by
  induction h with
  | here f => exact ⟨hf.1, hf.2.1⟩
  | word _ ih | unit _ ih => exact ih hf
  | inside _ ih => exact ih hf.2.1
  | behind _ ih => exact ih hf.2.2

theorem every {P : Bool → Reason → Forest → Prop} {b : Bool} (h : Has r i f as cs) (hf : f.Every P b) :
    P (endsAfter b as) r i := by
  induction h generalizing b with
  | here f => exact hf.1
  | word _ ih | unit _ ih => exact ih hf
  | inside _ ih => exact ih hf.2.1
  | behind _ ih =>
    rw [endsAfter, endsAfter_append]
    exact ih hf.2.2

theorem mem_places (h : Has r i f as cs) (hf : f.Clean) (n : Nat) :
    (n + leaves as, n + leaves as + i.weight) ∈ f.places (· == r) n := by
  induction h generalizing n with
  | here f => simp [places, leaves]
  | @word w f as cs h ih => simpa only [leaves, places, Nat.add_assoc] using ih hf (n + w.weight)
  | unit _ ih => simpa only [leaves, places, Nat.add_assoc, Nat.add_comm 1] using ih hf (n + 1)
  | @inside q j f as cs h ih =>
    rw [leaves_opening (head_of_append (h.signs_eq ▸ head_signs j)), places]
    exact Multiset.mem_add.2 (.inr (Multiset.mem_add.2 (.inl (ih hf.2.1 n))))
  | @behind q j f as cs h ih =>
    have hleaves : leaves (opening :: (j.signs ++ closing :: as)) = j.weight + leaves as := by
      rw [leaves_opening (head_signs_append hf.1 _), leaves_signs hf.2.1, leaves]
    rw [hleaves, places, ← Nat.add_assoc]
    exact Multiset.mem_add.2 (.inr (Multiset.mem_add.2 (.inr (ih hf.2.2 _))))

end Has

theorem eq_nil_of_begins {b : Forest} {as bs cs zs : List Sign} (hb : b.Clean) (hw : 0 < b.weight)
    (h : b.signs ++ bs = zs ++ cs) (hzs : leaves zs = 0)
    (hbegins : (∃ w, b.signs.head? = some (.word w) ∧ 0 < w.weight) ∨
      endsAfter false (as ++ zs) = true) : zs = [] := by
  obtain ⟨us, rfl, -⟩ | ⟨us, hus, -⟩ := List.append_eq_append_iff.1 h
  · rw [leaves_signs hb] at hzs
    omega
  have hclosing := closing_not_mem_prefix hb hus hzs
  rcases hbegins with ⟨w, hhead, hpos⟩ | hends
  · rw [hus] at hhead
    rcases zs with _ | ⟨z, zs⟩
    · rfl
    · obtain rfl : z = .word w := by simpa using hhead
      have := leaves_pos (List.mem_cons_self .. : Sign.word w ∈ Sign.word w :: zs) hpos
      omega
  · rw [endsAfter_append] at hends
    exact eq_nil_of_endsAfter hends hclosing hzs

/-- Two parts of one row of signs that reach over the same words are the same part, if both end where
an operand can end, and both begin with a word or both stand where an operand can end. -/
theorem part_unique {b c : Forest} {as bs cs ds : List Sign} (hb : b.Clean) (hc : c.Clean)
    (h : as ++ (b.signs ++ bs) = cs ++ (c.signs ++ ds)) (hw : 0 < b.weight)
    (hstart : leaves as = leaves cs) (hweight : b.weight = c.weight)
    (hends : b.ends false = true ∧ c.ends false = true)
    (hbegins : ((∃ w, b.signs.head? = some (.word w) ∧ 0 < w.weight) ∧
      ∃ w, c.signs.head? = some (.word w) ∧ 0 < w.weight) ∨
      endsAfter false as = true ∧ endsAfter false cs = true) :
    as = cs ∧ b.signs = c.signs := by
  have hstarts : as = cs ∧ b.signs ++ bs = c.signs ++ ds := by
    obtain ⟨zs, rfl, hzs⟩ | ⟨zs, rfl, hzs⟩ := List.append_eq_append_iff.1 h
    · rw [leaves_append fun _ => head_of_append (hzs ▸ head_signs_append hw bs)] at hstart
      obtain rfl := eq_nil_of_begins hb hw hzs (by omega) (hbegins.imp And.left And.right)
      simp_all
    · rw [leaves_append fun _ => head_of_append (hzs ▸ head_signs_append (hweight ▸ hw) ds)] at hstart
      obtain rfl := eq_nil_of_begins hc (hweight ▸ hw) hzs (by omega) (hbegins.imp And.right And.left)
      simp_all
  obtain ⟨rfl, hsigns⟩ := hstarts
  refine ⟨rfl, ?_⟩
  -- what one of them has at its end beside the other holds no word
  have hrest : ∀ {f g : Forest} {zs : List Sign}, f.Clean → g.Clean → f.weight = g.weight →
      g.ends false = true → g.signs = f.signs ++ zs → zs = [] := by
    intro f g zs hf hg hfg hends hzs
    have hleaves := leaves_signs hg []
    rw [hzs, List.append_assoc, leaves_signs hf, List.append_nil] at hleaves
    have hzero : leaves zs = 0 := by
      simp only [leaves] at hleaves
      omega
    have hnest := nest_signs f 0 []
    rw [List.append_nil] at hnest
    rw [← endsAfter_signs, hzs, endsAfter_append] at hends
    have hall : g.signs = f.signs ++ (zs ++ []) := by rw [hzs, List.append_nil]
    exact eq_nil_of_endsAfter hends (closing_not_mem hg hall hnest hzero) hzero
  obtain ⟨zs, hzs, -⟩ | ⟨zs, hzs, -⟩ := List.append_eq_append_iff.1 hsigns
  · obtain rfl := hrest hb hc hweight hends.2 hzs
    simpa using hzs.symm
  · obtain rfl := hrest hc hb hweight.symm hends.1 hzs
    simpa using hzs

end Forest
end TinyFront
