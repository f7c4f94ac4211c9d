import TinyFront.Proofs.Programs
import TinyFront.Proofs.Returns
import TinyFront.Proofs.Sessions

/-!
Edits as an editor carries them out. An editor holds a text as UTF-16 code units, its lines end at LF,
CR LF or CR, and the characters of a place are units. Main statement: laying a document out replaces the
whole text exactly when every carriage return stands before a line feed and the last line has no
character that takes two units.
-/
namespace TinyFront.Editor

def lineFeed : Nat := 0x0A

def carriageReturn : Nat := 0x0D

/-- Characters above the basic plane are a pair of surrogates. -/
def codeUnits (c : Char) : List Nat :=
  if c.toNat < 0x10000 then [c.toNat]
  else [0xD800 + (c.toNat - 0x10000) / 0x400, 0xDC00 + (c.toNat - 0x10000) % 0x400]

def units (cs : List Char) : List Nat := cs.flatMap codeUnits

/-- Whether a line ends with this unit. The first half of CR LF is still on the line. -/
def endsLine (u : Nat) (us : List Nat) : Prop :=
  u = lineFeed ∨ u = carriageReturn ∧ us.head? ≠ some lineFeed

instance (u : Nat) (us : List Nat) : Decidable (endsLine u us) := inferInstanceAs (Decidable (_ ∨ _))

/-- The number of units before a place. Past the end of a line is its end, and past the last line is the
end of the text. -/
def unitOffset : (line character : Nat) → List Nat → Nat
  | _, _, [] => 0
  | 0, 0, _ :: _ => 0
  | 0, n + 1, u :: us => if u = lineFeed ∨ u = carriageReturn then 0 else unitOffset 0 n us + 1
  | l + 1, n, u :: us => if endsLine u us then unitOffset l n us + 1 else unitOffset (l + 1) n us + 1

def Edit.apply (e : Edit) (us : List Nat) : List Nat :=
  us.take (unitOffset e.range.start.line e.range.start.character us) ++ units e.text.toList ++
    us.drop (unitOffset e.range.stop.line e.range.stop.character us)

def lastLine : List Char → List Char
  | [] => []
  | c :: cs => if '\n' ∈ c :: cs then lastLine cs else c :: cs

theorem lastLine_of_not_mem {cs : List Char} (h : '\n' ∉ cs) : lastLine cs = cs := by
  cases cs with
  | nil => rfl
  | cons c cs => exact if_neg h

theorem lastLine_of_mem {c : Char} {cs : List Char} (h : '\n' ∈ cs) : lastLine (c :: cs) = lastLine cs :=
  if_pos (List.mem_cons_of_mem c h)

@[simp] theorem lastLine_feed (cs : List Char) : lastLine ('\n' :: cs) = lastLine cs :=
  if_pos List.mem_cons_self

theorem Position.foldl_past_column (cs : List Char) (p : Position) :
    (cs.foldl Position.past p).column =
      (if '\n' ∈ cs then 1 else p.column) + (lastLine cs).length := by
  induction cs generalizing p with
  | nil => rfl
  | cons c cs ih =>
    rw [List.foldl_cons, ih]
    by_cases hc : c = '\n'
    · subst hc
      by_cases hmem : '\n' ∈ cs <;> simp [hmem, Position.past]
    · by_cases hmem : '\n' ∈ cs
      · simp [hmem, lastLine_of_mem hmem]
      · have hall : '\n' ∉ c :: cs := by simp [hmem, Ne.symm hc]
        simp [lastLine_of_not_mem hall, lastLine_of_not_mem hmem, hmem, Ne.symm hc, Position.past, hc]
        omega

/-- The range that is meant to be the whole text ends on its last line, behind as many characters as
there are on it. -/
theorem stop_whole (s : Source) :
    (Range.whole s).stop = ⟨s.chars.count '\n', (lastLine s.chars).length⟩ := by
  simp only [Range.whole, Place.ofPosition, Source.location_byteSize, Position.foldl_past_line,
    Position.foldl_past_column]
  split <;> simp

section Units

variable {c : Char} {cs : List Char} {us : List Nat} {l n : Nat}

@[simp] theorem units_cons (c : Char) (cs : List Char) : units (c :: cs) = codeUnits c ++ units cs := rfl

@[simp] theorem codeUnits_feed : codeUnits '\n' = [lineFeed] := rfl

@[simp] theorem codeUnits_return : codeUnits '\r' = [carriageReturn] := rfl

theorem codeUnits_of_lt (h : c.toNat < 0x10000) : codeUnits c = [c.toNat] := if_pos h

/-- Any character but these two is away from line ends in all its units. -/
theorem ne_of_mem_codeUnits (hfeed : c ≠ '\n') (hreturn : c ≠ '\r') :
    ∀ u ∈ codeUnits c, u ≠ lineFeed ∧ u ≠ carriageReturn := by
  intro u hu
  have hfeed' : c.toNat ≠ lineFeed := fun h => hfeed (Char.toNat_inj.mp (h.trans rfl))
  have hreturn' : c.toNat ≠ carriageReturn := fun h => hreturn (Char.toNat_inj.mp (h.trans rfl))
  rw [codeUnits] at hu
  split at hu
  · rw [List.mem_singleton.mp hu]
    exact ⟨hfeed', hreturn'⟩
  · simp only [List.mem_cons, List.not_mem_nil, or_false] at hu
    simp only [lineFeed, carriageReturn]
    omega

theorem length_le_units (cs : List Char) : cs.length ≤ (units cs).length := by
  induction cs with
  | nil => exact Nat.le_refl 0
  | cons c cs ih =>
    have hc : 1 ≤ (codeUnits c).length := by
      unfold codeUnits
      split <;> simp
    simp only [List.length_cons, units_cons, List.length_append]
    omega

theorem head?_units : (units cs).head? = some lineFeed ↔ cs.head? = some '\n' := by
  cases cs with
  | nil => simp [units]
  | cons c cs =>
    by_cases hc : c = '\n'
    · simp [hc]
    · have hne : ∀ u ∈ codeUnits c, u ≠ lineFeed := by
        by_cases hreturn : c = '\r'
        · subst hreturn
          decide
        · exact fun u hu => (ne_of_mem_codeUnits hc hreturn u hu).1
      cases hu : codeUnits c with
      | nil => unfold codeUnits at hu; split at hu <;> simp at hu
      | cons u us =>
        have hfirst : u ≠ lineFeed := hne u (by simp [hu])
        simp [hu, hc, hfirst]

theorem unitOffset_start (us : List Nat) : unitOffset 0 0 us = 0 := by
  cases us <;> rfl

theorem unitOffset_le (l n : Nat) (us : List Nat) : unitOffset l n us ≤ us.length := by
  fun_induction unitOffset l n us <;> simp <;> omega

/-- On the first line no place is further than its characters. -/
theorem unitOffset_zero_le (n : Nat) (us : List Nat) : unitOffset 0 n us ≤ n := by
  induction n generalizing us with
  | zero => simp [unitOffset_start]
  | succ n ih =>
    cases us with
    | nil => exact Nat.zero_le _
    | cons u us =>
      have := ih us
      unfold unitOffset
      split <;> omega

/-- Units that end no line are passed on the way to a later line. -/
theorem unitOffset_succ_append {vs : List Nat} (h : ∀ u ∈ vs, u ≠ lineFeed ∧ u ≠ carriageReturn) :
    unitOffset (l + 1) n (vs ++ us) = vs.length + unitOffset (l + 1) n us := by
  induction vs with
  | nil => simp
  | cons v vs ih =>
    have hv := h v List.mem_cons_self
    have ih := ih fun u hu => h u (List.mem_cons_of_mem v hu)
    rw [List.cons_append, unitOffset, if_neg (by simp [endsLine, hv.1, hv.2]), ih, List.length_cons]
    omega

/-- A carriage return ends its line where no line feed follows. -/
theorem endsLine_return : endsLine carriageReturn (units cs) ↔ cs.head? ≠ some '\n' := by
  have hne : carriageReturn ≠ lineFeed := by decide
  simp [endsLine, hne, head?_units]

theorem unitOffset_of_ends {u : Nat} (h : endsLine u us) :
    unitOffset (l + 1) n (u :: us) = unitOffset l n us + 1 := if_pos h

theorem unitOffset_of_not_ends {u : Nat} (h : ¬ endsLine u us) :
    unitOffset (l + 1) n (u :: us) = unitOffset (l + 1) n us + 1 := if_neg h

/-- The first line goes on behind a unit that is no part of a line end. -/
theorem unitOffset_zero_cons {u : Nat} (h : u ≠ lineFeed ∧ u ≠ carriageReturn) :
    unitOffset 0 (n + 1) (u :: us) = unitOffset 0 n us + 1 := if_neg (by simp [h.1, h.2])

theorem unitOffset_zero_append_lt {vs : List Nat} (h : ∀ n, unitOffset 0 n us < us.length) :
    unitOffset 0 n (vs ++ us) < (vs ++ us).length := by
  induction vs generalizing n with
  | nil => exact h n
  | cons v vs ih =>
    cases n with
    | zero => simp [unitOffset]
    | succ n =>
      have ih := ih (n := n)
      rw [List.cons_append, unitOffset, List.length_cons]
      split <;> omega

/-- A place on a line before the last line feed is before the end of the text. -/
theorem unitOffset_lt_of_lt_count (h : l < cs.count '\n') :
    unitOffset l n (units cs) < (units cs).length := by
  induction cs generalizing l n with
  | nil => simp at h
  | cons c cs ih =>
    rw [units_cons]
    cases l with
    | zero =>
      by_cases hfeed : c = '\n'
      · subst hfeed
        cases n <;> simp [unitOffset]
      · rw [List.count_cons_of_ne hfeed] at h
        exact unitOffset_zero_append_lt fun m => ih h
    | succ l =>
      by_cases hfeed : c = '\n'
      · subst hfeed
        have ih := ih (l := l) (n := n) (by simpa using h)
        rw [codeUnits_feed, List.singleton_append, unitOffset_of_ends (.inl rfl), List.length_cons]
        omega
      · rw [List.count_cons_of_ne hfeed] at h
        by_cases hreturn : c = '\r'
        · subst hreturn
          rw [codeUnits_return, List.singleton_append, List.length_cons]
          by_cases hends : endsLine carriageReturn (units cs)
          · rw [unitOffset_of_ends hends]
            exact Nat.succ_lt_succ (ih (Nat.lt_of_succ_lt h))
          · rw [unitOffset_of_not_ends hends]
            exact Nat.succ_lt_succ (ih h)
        · rw [unitOffset_succ_append (ne_of_mem_codeUnits hfeed hreturn), List.length_append]
          exact Nat.add_lt_add_left (ih h) _

/-- On the last line the units of its characters, taken as so many units, are all there are, unless one
of them is a pair. -/
theorem unitOffset_zero_length_iff (hfeed : '\n' ∉ cs) :
    unitOffset 0 cs.length (units cs) = (units cs).length ↔
      ReturnsEndLines cs ∧ ∀ c ∈ cs, c.toNat < 0x10000 := by
  induction cs with
  | nil => simp [units, unitOffset, ReturnsEndLines.nil]
  | cons c cs ih =>
    rw [List.mem_cons, not_or] at hfeed
    have ih := ih hfeed.2
    have hhead : cs.head? ≠ some '\n' := fun h => hfeed.2 (List.mem_of_mem_head? h)
    rw [units_cons, List.length_cons, ReturnsEndLines.cons_iff]
    by_cases hreturn : c = '\r'
    · subst hreturn
      simp [unitOffset, hhead]
    · have hplain := ne_of_mem_codeUnits (Ne.symm hfeed.1) hreturn
      by_cases hlt : c.toNat < 0x10000
      · rw [codeUnits_of_lt hlt] at hplain ⊢
        rw [List.singleton_append, unitOffset_zero_cons (hplain _ List.mem_cons_self)]
        simp [ih, hreturn, hlt]
      · have hle := unitOffset_zero_le (cs.length + 1) (codeUnits c ++ units cs)
        have hlength := length_le_units cs
        have hpair : (codeUnits c).length = 2 := by simp [codeUnits, hlt]
        simp only [List.length_append, List.forall_mem_cons, hlt, false_and, and_false, iff_false]
        omega

/-- The end of the last line, counted in characters, is the end of the text exactly where an editor
counts the same lines and the same characters. -/
theorem unitOffset_last_eq_iff (cs : List Char) :
    unitOffset (cs.count '\n') (lastLine cs).length (units cs) = (units cs).length ↔
      ReturnsEndLines cs ∧ ∀ c ∈ lastLine cs, c.toNat < 0x10000 := by
  induction cs with
  | nil => simp [units, unitOffset, lastLine, ReturnsEndLines.nil]
  | cons c cs ih =>
    rw [ReturnsEndLines.cons_iff, units_cons]
    by_cases hfeed : c = '\n'
    · subst hfeed
      rw [List.count_cons_self, lastLine_feed, codeUnits_feed, List.singleton_append,
        unitOffset_of_ends (.inl rfl)]
      simp [ih]
    · rw [List.count_cons_of_ne hfeed]
      by_cases hmem : '\n' ∈ cs
      · obtain ⟨l, hl⟩ := Nat.exists_eq_succ_of_ne_zero (List.count_pos_iff.mpr hmem).ne'
        rw [lastLine_of_mem hmem, hl]
        rw [hl] at ih
        by_cases hreturn : c = '\r'
        · subst hreturn
          rw [codeUnits_return, List.singleton_append, List.length_cons]
          by_cases hhead : cs.head? = some '\n'
          · rw [unitOffset_of_not_ends (by simp [endsLine_return, hhead])]
            simp [ih, hhead]
          · have hlt : unitOffset l (lastLine cs).length (units cs) < (units cs).length :=
              unitOffset_lt_of_lt_count (by omega)
            rw [unitOffset_of_ends (endsLine_return.mpr hhead)]
            simp only [hhead, forall_const, false_and, iff_false]
            omega
        · rw [unitOffset_succ_append (ne_of_mem_codeUnits hfeed hreturn)]
          simp [ih, hreturn]
      · have hall : '\n' ∉ c :: cs := by simp [hmem, Ne.symm hfeed]
        have hlast := unitOffset_zero_length_iff hall
        rwa [List.count_eq_zero.mpr hmem, lastLine_of_not_mem hall, ← units_cons, ← ReturnsEndLines.cons_iff]

end Units
/-- An edit of the range that is meant to be the whole text leaves nothing of it but in these texts. -/
theorem apply_whole_iff (s : Source) (text : String) :
    (Edit.mk (.whole s) text).apply (units s.chars) = units text.toList ↔
      ReturnsEndLines s.chars ∧ ∀ c ∈ lastLine s.chars, c.toNat < 0x10000 := by
  have hstart : unitOffset (Range.whole s).start.line (Range.whole s).start.character (units s.chars) = 0 :=
    unitOffset_start _
  have hle := unitOffset_le (s.chars.count '\n') (lastLine s.chars).length (units s.chars)
  rw [Edit.apply, hstart, stop_whole, List.take_zero, List.nil_append, List.append_right_eq_self,
    List.drop_eq_nil_iff, ← unitOffset_last_eq_iff]
  exact ⟨fun h => Nat.le_antisymm hle h, fun h => h.ge⟩

/-- The program of an open document is the one that its text is read as. -/
theorem Document.program_eq_some {name text : String} {p : Program Span}
    (h : (ofText name text).program = some p) : readProgram name text = .ok p := by
  rw [readProgram, Parser.runSource_eq_ok]
  rw [ofText] at h
  cases hlex : lex name text with
  | error reports => simp [hlex] at h
  | ok ts =>
    simp only [hlex] at h
    cases hrun : (Parser.program Parser.maxDepth).run (some name) ts with
    | error e => simp [hrun] at h
    | ok q =>
      simp only [hrun, Option.some.injEq] at h
      exact ⟨ts, rfl, h ▸ hrun⟩

/-- What an edit makes of a document. The edit that an editor is given for a document that has this text
brings the program of the text, laid out anew; the outcome of the edit is this and nothing else exactly
when every carriage return of the text stands before a line feed and no character of its last line takes
two units. -/
theorem formatting_replaces_iff {history : List Request} {name text : String} {edit : Edit}
    (htext : LastText history name text)
    (hreply : ((Workspace.empty.after history).handle ⟨name, .formatting⟩).1 = .formatted (some edit)) :
    ∃ p, readProgram name text = .ok p ∧ edit.text = p.format standardIndent ∧
      (edit.apply (units text.toList) = units (p.format standardIndent).toList ↔
        ReturnsEndLines text.toList ∧ ∀ c ∈ lastLine text.toList, c.toNat < 0x10000) := by
  have hfound := (Workspace.find?_after history name _).mpr ⟨text, htext, rfl⟩
  obtain ⟨-, hformatting⟩ := Workspace.handle_formatting_eq.mp hreply
  rw [hfound, Option.bind_some] at hformatting
  obtain ⟨p, hp, hedit⟩ := Option.bind_eq_some_iff.mp hformatting
  simp only [Option.ite_none_left_eq_some, Option.some.injEq] at hedit
  obtain ⟨-, rfl⟩ := hedit
  refine ⟨p, Document.program_eq_some hp, rfl, ?_⟩
  rw [Document.source_ofText]
  exact apply_whole_iff ⟨name, text⟩ _

theorem formatting_replaces_of_pair :
    let text := "fn f { 1 } // 😀"
    let history : List Request := [⟨"a.at", .revised text⟩]
    LastText history "a.at" text ∧ ∃ edit,
      ((Workspace.empty.after history).handle ⟨"a.at", .formatting⟩).1 = .formatted (some edit) ∧
      ∃ p, readProgram "a.at" text = .ok p ∧ edit.text = p.format standardIndent ∧
        edit.apply (units text.toList) ≠ units (p.format standardIndent).toList := by
  intro text history
  have htext : LastText history "a.at" text := ⟨[], [], rfl, by simp⟩
  have hfound : (Workspace.empty.after history).find? "a.at" = some (.ofText "a.at" text) :=
    (Workspace.find?_after history "a.at" _).mpr ⟨text, htext, rfl⟩
  obtain ⟨edit, hedit⟩ : ∃ edit, (Document.ofText "a.at" text).formatting = some edit :=
    Option.isSome_iff_exists.mp (by decide +kernel)
  have hreply : ((Workspace.empty.after history).handle ⟨"a.at", .formatting⟩).1 =
      .formatted (some edit) := by
    have hlayout : (Document.ofText "a.at" text).hasLayout = true := by decide +kernel
    exact Workspace.handle_formatting_eq.mpr (by simp only [hfound, Option.all_some, hlayout,
      Option.bind_some, hedit, and_self])
  obtain ⟨p, hp, htree, hwhole⟩ := formatting_replaces_iff htext hreply
  refine ⟨htext, edit, hreply, p, hp, htree, fun h => ?_⟩
  have hpair : '😀' ∈ lastLine "fn f { 1 } // 😀".toList := by simp [lastLine]
  have hlt : ¬ '😀'.toNat < 0x10000 := by decide
  exact hlt ((hwhole.mp h).2 '😀' hpair)

end TinyFront.Editor
