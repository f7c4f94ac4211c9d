import Mathlib.Algebra.Group.Nat.Defs
import Mathlib.Data.List.Basic
import TinyFront.Proofs.Cutting
import TinyFront.Text.Quoted

/-!
Quoted text read back. Main statements: a quoted text tells what was quoted and where it ends, whatever
stands behind it; a list of quoted texts tells the texts; and nothing in either lacks a shape of its own.
-/
namespace TinyFront.Text

def digitValue (c : Char) : Nat :=
  if c.isDigit then c.toNat - '0'.toNat else c.toNat - 'a'.toNat + 10

/-- The number behind some digits, of which those before were read as `n`. -/
def hexValue (n : Nat) (ds : List Char) : Nat := ds.foldl (fun n d => 16 * n + digitValue d) n

theorem digitValue_digitChar {n : Nat} (h : n < 16) : digitValue (Nat.digitChar n) = n :=
  (by decide : ∀ n < 16, digitValue (Nat.digitChar n) = n) n h

theorem isPrintable_digitChar {n : Nat} (h : n < 16) : isPrintable (Nat.digitChar n) = true :=
  (by decide : ∀ n < 16, isPrintable (Nat.digitChar n) = true) n h

theorem hexDigits_succ (width n : Nat) :
    hexDigits (width + 1) n = Nat.digitChar (n / 16 ^ width % 16) :: hexDigits width n := by
  simp [hexDigits, List.range_succ]

theorem hexValue_hexDigits (width n m : Nat) :
    hexValue m (hexDigits width n) = m * 16 ^ width + n % 16 ^ width := by
  induction width generalizing m with
  | zero => simp [hexValue, hexDigits, Nat.mod_one]
  | succ width ih =>
    have hdigit : n / 16 ^ width % 16 < 16 := Nat.mod_lt _ (by decide)
    have hstep : hexValue m (hexDigits (width + 1) n) =
        hexValue (16 * m + n / 16 ^ width % 16) (hexDigits width n) := by
      rw [hexDigits_succ, hexValue, List.foldl_cons, digitValue_digitChar hdigit, ← hexValue]
    rw [hstep, ih, Nat.mod_pow_succ, Nat.pow_succ, Nat.add_mul, Nat.mul_comm (16 ^ width) (_ % 16)]
    have hfront : 16 * m * 16 ^ width = m * (16 ^ width * 16) := by ac_rfl
    omega

/-- The first character of an escaped text, and what follows it. -/
def unescape? : List Char → Option (Char × List Char)
  | '\\' :: 'n' :: cs => some ('\n', cs)
  | '\\' :: 'r' :: cs => some ('\r', cs)
  | '\\' :: 't' :: cs => some ('\t', cs)
  | '\\' :: 'x' :: cs => some (Char.ofNat (hexValue 0 (cs.take 2)), cs.drop 2)
  | '\\' :: 'u' :: cs => some (Char.ofNat (hexValue 0 (cs.take 4)), cs.drop 4)
  | '\\' :: 'U' :: cs => some (Char.ofNat (hexValue 0 (cs.take 8)), cs.drop 8)
  | '\\' :: c :: cs => some (c, cs)
  | c :: cs => some (c, cs)
  | [] => none

theorem ofNat_hexValue (width : Nat) {c : Char} (h : c.toNat < 16 ^ width) (rest : List Char) :
    Char.ofNat (hexValue 0 ((hexDigits width c.toNat ++ rest).take width)) = c ∧
      (hexDigits width c.toNat ++ rest).drop width = rest := by
  have hlength := length_hexDigits width c.toNat
  rw [List.take_left' hlength, List.drop_left' hlength, hexValue_hexDigits, Nat.zero_mul, Nat.zero_add,
    Nat.mod_eq_of_lt h, Char.ofNat_toNat]
  exact ⟨rfl, rfl⟩

theorem unescape?_hexEscape (c : Char) (rest : List Char) :
    unescape? (hexEscape c ++ rest) = some (c, rest) := by
  unfold hexEscape
  split
  · next h =>
    obtain ⟨hchar, hrest⟩ := ofNat_hexValue 2 h rest
    simp only [List.cons_append, unescape?, hchar, hrest]
  · split
    · next h =>
      obtain ⟨hchar, hrest⟩ := ofNat_hexValue 4 h rest
      simp only [List.cons_append, unescape?, hchar, hrest]
    · have h : c.toNat < 16 ^ 8 := Nat.lt_of_lt_of_le c.val.toNat_lt (by decide)
      obtain ⟨hchar, hrest⟩ := ofNat_hexValue 8 h rest
      simp only [List.cons_append, unescape?, hchar, hrest]

theorem quoteFor_eq (cs : List Char) : quoteFor cs = '\'' ∨ quoteFor cs = '"' := by
  unfold quoteFor
  split
  · exact .inr rfl
  · exact .inl rfl

section

variable {quote : Char}

theorem unescape?_escapeChar (hq : quote = '\'' ∨ quote = '"') (c : Char) (rest : List Char) :
    unescape? (escapeChar quote c ++ rest) = some (c, rest) := by
  unfold escapeChar
  split
  · next h =>
    have hc : c = '\\' ∨ c = '\'' ∨ c = '"' := by
      simp only [Bool.or_eq_true, decide_eq_true_eq] at h
      rcases h with h | h
      · exact .inl h
      · exact .inr (h ▸ hq)
    rcases hc with rfl | rfl | rfl <;> rfl
  · next h =>
    split
    · next h => rw [h]; rfl
    split
    · next h => rw [h]; rfl
    split
    · next h => rw [h]; rfl
    split
    · have hc : c ≠ '\\' := by simp_all
      rw [List.singleton_append, unescape?]
      all_goals simp [hc]
    · exact unescape?_hexEscape c rest

theorem head?_escapeChar (hq : quote = '\'' ∨ quote = '"') (c : Char) (rest : List Char) :
    (escapeChar quote c ++ rest).head? ≠ some quote := by
  have hslash : '\\' ≠ quote := by rcases hq with rfl | rfl <;> decide
  unfold escapeChar hexEscape
  repeat' split
  all_goals simp_all

theorem flatMap_escapeChar_inj (hq : quote = '\'' ∨ quote = '"') {cs ds rest rest' : List Char}
    (h : cs.flatMap (escapeChar quote) ++ quote :: rest = ds.flatMap (escapeChar quote) ++ quote :: rest') :
    cs = ds ∧ rest = rest' := by
  induction cs generalizing ds with
  | nil =>
    cases ds with
    | nil => exact ⟨rfl, (List.cons.inj h).2⟩
    | cons d ds =>
      rw [List.flatMap_cons, List.append_assoc] at h
      exact absurd (congrArg List.head? h).symm (head?_escapeChar hq d _)
  | cons c cs ih =>
    rw [List.flatMap_cons, List.append_assoc] at h
    cases ds with
    | nil => exact absurd (congrArg List.head? h) (head?_escapeChar hq c _)
    | cons d ds =>
      rw [List.flatMap_cons, List.append_assoc] at h
      have hread := congrArg unescape? h
      rw [unescape?_escapeChar hq, unescape?_escapeChar hq] at hread
      obtain ⟨rfl, htail⟩ := Prod.mk.inj (Option.some.inj hread)
      obtain ⟨rfl, hrest⟩ := ih htail
      exact ⟨rfl, hrest⟩

theorem quoteChars_append_inj {cs ds rest rest' : List Char}
    (h : quoteChars cs ++ rest = quoteChars ds ++ rest') : cs = ds ∧ rest = rest' := by
  simp only [quoteChars, List.cons_append, List.append_assoc] at h
  obtain ⟨hquote, h⟩ := List.cons.inj h
  rw [← hquote] at h
  exact flatMap_escapeChar_inj (quoteFor_eq cs) h

theorem isPrintable_hexDigits (width n : Nat) : (hexDigits width n).all isPrintable = true := by
  simp only [hexDigits, List.all_map, List.all_eq_true]
  exact fun place _ => isPrintable_digitChar (Nat.mod_lt _ (by decide))

theorem isPrintable_escapeChar (hq : quote = '\'' ∨ quote = '"') (c : Char) :
    (escapeChar quote c).all isPrintable = true := by
  have hslash : isPrintable '\\' = true := by decide
  unfold escapeChar hexEscape
  split
  · next h =>
    have hc : isPrintable c = true := by
      simp only [Bool.or_eq_true, decide_eq_true_eq] at h
      rcases h with rfl | rfl
      · decide
      · rcases hq with rfl | rfl <;> decide
    simp [hslash, hc]
  · repeat' split
    all_goals simp_all [isPrintable_hexDigits]
    all_goals decide

end

theorem isPrintable_quoteChars (cs : List Char) : (quoteChars cs).all isPrintable = true := by
  have hq : isPrintable (quoteFor cs) = true := by
    rcases quoteFor_eq cs with h | h <;> rw [h] <;> decide
  simp [quoteChars, hq, isPrintable_escapeChar (quoteFor_eq cs)]

theorem getLast?_quoteChars (cs : List Char) : (quoteChars cs).getLast? = some (quoteFor cs) :=
  List.getLast?_concat

/-- A character that is shown as it is between single quotes. -/
def isVerbatim (c : Char) : Bool := isPrintable c && c != '\\' && c != '\''

theorem escapeChar_of_isVerbatim {c : Char} (h : isVerbatim c = true) : escapeChar '\'' c = [c] := by
  simp only [isVerbatim, Bool.and_eq_true, bne_iff_ne] at h
  obtain ⟨⟨hc, hslash⟩, hquote⟩ := h
  have hne : ∀ d, isPrintable d = false → c ≠ d := by
    rintro d hd rfl
    rw [hd] at hc
    cases hc
  simp [escapeChar, hslash, hquote, hne '\n' (by decide), hne '\r' (by decide), hne '\t' (by decide), hc]

theorem isVerbatim_of_continuesWord {c : Char} (h : continuesWord c = true) : isVerbatim c = true := by
  have hascii : ∀ n < 128, continuesWord (Char.ofNat n) = true → isVerbatim (Char.ofNat n) = true := by
    decide +kernel
  have hlt : c.toNat < 128 := by
    rcases continuesWord_iff.1 h with hword | hdigit
    · have := toNat_of_startsWord hword
      omega
    · simp only [Char.isDigit, Bool.and_eq_true, decide_eq_true_eq, UInt32.le_iff_toNat_le] at hdigit
      have : c.toNat ≤ 57 := hdigit.2
      omega
  rw [← Char.ofNat_toNat c] at h ⊢
  exact hascii _ hlt h

theorem quoteChars_of_isVerbatim {cs : List Char} (h : cs.all isVerbatim = true) :
    quoteChars cs = '\'' :: cs ++ ['\''] := by
  have hall : ∀ c ∈ cs, isVerbatim c = true := List.all_eq_true.1 h
  have hquote : quoteFor cs = '\'' := by
    have hmem : '\'' ∉ cs := fun hmem => absurd (hall _ hmem) (by decide)
    simp [quoteFor, hmem]
  have hsame : cs.flatMap (escapeChar '\'') = cs := by
    rw [List.flatMap_congr fun c hc => escapeChar_of_isVerbatim (hall c hc)]
    simp
  simp only [quoteChars, hquote, hsame]

/-! Lists of quoted texts. -/

theorem quote_inj {s t : String} (h : quote s = quote t) : s = t := by
  have hchars := congrArg String.toList h
  rw [quote, quote, String.toList_ofList, String.toList_ofList] at hchars
  have hrest : quoteChars s.toList ++ [] = quoteChars t.toList ++ [] := by rw [hchars]
  exact String.toList_inj.1 (quoteChars_append_inj hrest).1

/-- What stands behind the first text of a list of quoted texts. -/
def quotedTail : List String → List Char
  | [] => [']']
  | s :: ss => ',' :: ' ' :: quoteChars s.toList ++ quotedTail ss

theorem toList_quoteAll_cons (s : String) (ss : List String) :
    (quoteAll (s :: ss)).toList = '[' :: (quoteChars s.toList ++ quotedTail ss) := by
  have hinner : ∀ (ss : List String) (s : String),
      (String.intercalate ", " ((s :: ss).map quote)).toList ++ [']'] =
        quoteChars s.toList ++ quotedTail ss := by
    intro ss
    induction ss with
    | nil => simp [quote, quotedTail]
    | cons t ss ih =>
      intro s
      rw [List.map_cons, List.map_cons, String.intercalate_cons_cons, ← List.map_cons,
        String.toList_append, List.append_assoc, ih]
      simp [quote, quotedTail]
  rw [← hinner, quoteAll, String.toList_append, String.toList_append]
  rfl

/-- No quoted text begins as the end of a list. -/
theorem quoteChars_append_ne (cs rest : List Char) : [']'] ≠ quoteChars cs ++ rest := by
  intro h
  have hquote := (List.cons.inj h).1
  rcases quoteFor_eq cs with hq | hq <;> rw [hq] at hquote <;> cases hquote

theorem quotedTail_inj {ss ts : List String} (h : quotedTail ss = quotedTail ts) : ss = ts := by
  induction ss generalizing ts with
  | nil =>
    cases ts with
    | nil => rfl
    | cons t ts => cases h
  | cons s ss ih =>
    cases ts with
    | nil => cases h
    | cons t ts =>
      simp only [quotedTail, List.cons_append, List.cons.injEq, true_and] at h
      obtain ⟨hs, hss⟩ := quoteChars_append_inj h
      rw [String.toList_inj.1 hs, ih hss]

theorem quoteAll_inj {ss ts : List String} (h : quoteAll ss = quoteAll ts) : ss = ts := by
  have hnil : (quoteAll []).toList = ['[', ']'] := by decide
  have hchars := congrArg String.toList h
  cases ss with
  | nil =>
    cases ts with
    | nil => rfl
    | cons t ts =>
      rw [hnil, toList_quoteAll_cons] at hchars
      exact absurd (List.cons.inj hchars).2 (quoteChars_append_ne _ _)
  | cons s ss =>
    rw [toList_quoteAll_cons] at hchars
    cases ts with
    | nil =>
      rw [hnil] at hchars
      exact absurd (List.cons.inj hchars).2.symm (quoteChars_append_ne _ _)
    | cons t ts =>
      rw [toList_quoteAll_cons] at hchars
      obtain ⟨hs, hss⟩ := quoteChars_append_inj (List.cons.inj hchars).2
      rw [String.toList_inj.1 hs, quotedTail_inj hss]

theorem isPrintable_quotedTail (ss : List String) : (quotedTail ss).all isPrintable = true := by
  have hseparator : isPrintable ',' = true ∧ isPrintable ' ' = true := by decide
  induction ss with
  | nil => decide
  | cons s ss ih => simp [quotedTail, isPrintable_quoteChars, ih, hseparator]

/-- A front of characters with a property is told from a rest that begins with none of them. -/
theorem append_inj_of_all {p : Char → Bool} {as bs xs ys : List Char} (ha : as.all p = true)
    (hb : bs.all p = true) (hx : ∀ c ∈ xs.head?, p c = false) (hy : ∀ c ∈ ys.head?, p c = false)
    (h : as ++ xs = bs ++ ys) : as = bs ∧ xs = ys := by
  have hstop : ∀ {cs : List Char}, (∀ c ∈ cs.head?, p c = false) → cs.takeWhile p = [] := by
    intro cs hcs
    cases cs with
    | nil => rfl
    | cons c cs => rw [List.takeWhile_cons, hcs c rfl]; rfl
  have hfront := congrArg (List.takeWhile p) h
  rw [List.takeWhile_append_of_pos (List.all_eq_true.1 ha), hstop hx,
    List.takeWhile_append_of_pos (List.all_eq_true.1 hb), hstop hy, List.append_nil,
    List.append_nil] at hfront
  subst hfront
  exact ⟨rfl, List.append_cancel_left h⟩

end TinyFront.Text
