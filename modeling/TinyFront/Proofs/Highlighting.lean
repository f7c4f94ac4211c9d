import TinyFront.Highlight.Scan
import TinyFront.Proofs.Partition

/-!
Highlighting and lexing of one text. Main statements: the fragments of every rule are pieces that the
text is cut into, and blanks and comments aside the fragments of a text are its tokens and the
characters that are reported.
-/
namespace TinyFront

/-- A bit of a text: whether it is an error, unless it is passed over, and its characters. -/
abbrev Bit := Option Bool × List Char

namespace Bit

/-- The bits that count, each with the offset at which it begins. -/
def kept : (offset : Nat) → List Bit → List (Nat × Bool × List Char)
  | _, [] => []
  | offset, (none, cs) :: xs => kept (offset + byteWidth cs) xs
  | offset, (some isError, cs) :: xs => (offset, isError, cs) :: kept (offset + byteWidth cs) xs

theorem kept_append (offset : Nat) (xs ys : List Bit) :
    kept offset (xs ++ ys) = kept offset xs ++ kept (offset + byteWidth (xs.flatMap (·.2))) ys := by
  induction xs generalizing offset with
  | nil => rfl
  | cons x xs ih =>
    obtain ⟨_ | isError, cs⟩ := x <;> simp [kept, ih, Nat.add_assoc]

theorem le_of_mem_kept {offset : Nat} {xs : List Bit} {x : Nat × Bool × List Char}
    (h : x ∈ kept offset xs) : offset ≤ x.1 := by
  induction xs generalizing offset with
  | nil => cases h
  | cons y ys ih =>
    obtain ⟨_ | isError, cs⟩ := y
    · exact Nat.le_trans (Nat.le_add_right ..) (ih h)
    · rcases List.mem_cons.1 h with rfl | h
      · exact Nat.le_refl _
      · exact Nat.le_trans (Nat.le_add_right ..) (ih h)

theorem pairwise_kept {xs : List Bit} (h : ∀ x ∈ xs, x.2 ≠ []) (offset : Nat) :
    (kept offset xs).Pairwise fun x y => x.1 < y.1 := by
  induction xs generalizing offset with
  | nil => exact .nil
  | cons x xs ih =>
    obtain ⟨hx, hxs⟩ := List.forall_mem_cons.1 h
    obtain ⟨_ | isError, cs⟩ := x
    · exact ih hxs _
    · refine List.pairwise_cons.2 ⟨fun y hy => ?_, ih hxs _⟩
      obtain ⟨c, cs, rfl⟩ := List.exists_cons_of_ne_nil hx
      have hle := le_of_mem_kept hy
      have := c.utf8Size_pos
      simp only [byteWidth_cons] at hle
      omega

end Bit

/-- Stray pieces are errors, and blanks and comments are passed over. -/
def Piece.bit (p : Piece) : Bit :=
  match p.shape with
  | .blank | .comment => (none, p.text)
  | .stray => (some true, p.text)
  | .word | .number | .symbol => (some false, p.text)

@[simp] theorem Piece.bit_snd (p : Piece) : p.bit.2 = p.text := by
  obtain ⟨shape, text⟩ := p
  cases shape <;> rfl

namespace Highlight

def Fragment.bit (f : Fragment) : Bit :=
  match f.role with
  | .text | .comment => (none, f.text)
  | .error => (some true, f.text)
  | _ => (some false, f.text)

@[simp] theorem Fragment.bit_snd (f : Fragment) : f.bit.2 = f.text := by
  obtain ⟨role, text⟩ := f
  cases role <;> rfl

/-- The fragments that a text begins with are the pieces that it begins with, as far as they count. -/
structure Cuts (fs : List Fragment) (unread rest : List Char) : Prop where
  text : unread = fs.flatMap (·.text) ++ rest
  pieces : ∃ ps, Piece.cut unread = ps ++ Piece.cut rest ∧
    ∀ offset, Bit.kept offset (fs.map Fragment.bit) = Bit.kept offset (ps.map Piece.bit)

namespace Cuts

theorem width {fs : List Fragment} {unread rest : List Char} (h : Cuts fs unread rest)
    {ps : List Piece} (hps : Piece.cut unread = ps ++ Piece.cut rest) :
    (fs.map Fragment.bit).flatMap (·.2) = (ps.map Piece.bit).flatMap (·.2) := by
  have htext := (Piece.flatMap_text_cut unread).symm
  rw [hps, List.flatMap_append, Piece.flatMap_text_cut] at htext
  have := List.append_cancel_right (h.text.symm.trans htext)
  simpa [List.flatMap_map] using this

theorem append {fs gs : List Fragment} {unread middle rest : List Char} (h : Cuts fs unread middle)
    (h' : Cuts gs middle rest) : Cuts (fs ++ gs) unread rest := by
  obtain ⟨ps, hps, hkept⟩ := h.pieces
  obtain ⟨qs, hqs, hkept'⟩ := h'.pieces
  refine ⟨by rw [h.text, h'.text]; simp, ps ++ qs, by rw [hps, hqs, List.append_assoc], fun offset => ?_⟩
  rw [List.map_append, List.map_append, Bit.kept_append, Bit.kept_append, hkept, hkept', h.width hps]

theorem piece {f : Fragment} {p : Piece} {rest : List Char} (h : p.Fits rest) (hf : f.bit = p.bit) :
    Cuts [f] (p.text ++ rest) rest := by
  have htext : f.text = p.text := by rw [← Fragment.bit_snd, hf, Piece.bit_snd]
  refine ⟨by simp [htext], [p], Piece.cut_of_fits h, fun offset => ?_⟩
  rw [List.map_singleton, List.map_singleton, hf]

theorem blanks {bs : List Char} (h : bs.all Text.isBlank = true) (rest : List Char) :
    Cuts [⟨.text, bs⟩] (bs ++ rest) rest := by
  refine ⟨by simp, bs.map fun b => ⟨.blank, [b]⟩, ?_, fun offset => ?_⟩
  · induction bs with
    | nil => rfl
    | cons b bs ih =>
      simp only [List.all_cons, Bool.and_eq_true] at h
      have hfits : Piece.Fits ⟨.blank, [b]⟩ (bs ++ rest) := ⟨b, rfl, h.1⟩
      exact (Piece.cut_of_fits hfits).trans (congrArg _ (ih h.2))
  · clear h
    induction bs generalizing offset with
    | nil => rfl
    | cons b bs ih => exact ih _

end Cuts

/-- The texts that are cut off as one word. -/
def isWord (cs : List Char) : Bool := cs.head?.any startsWord && cs.all continuesWord

theorem fits_of_isWord {cs rest : List Char} (h : isWord cs = true)
    (hrest : ∀ d ∈ rest.head?, continuesWord d = false) : Piece.Fits ⟨.word, cs⟩ rest := by
  obtain ⟨hhead, hall⟩ := Bool.and_eq_true_iff.1 h
  cases cs with
  | nil => cases hhead
  | cons c cs => exact ⟨c, cs, rfl, hhead, (Bool.and_eq_true_iff.1 hall).2, hrest⟩

theorem isWordChar_of_continuesWord {c : Char} (h : continuesWord c = true) :
    Text.isWordChar c = true := by
  have hascii : c.toNat < 128 := by
    rcases continuesWord_iff.1 h with hword | hdigit
    · have := toNat_of_startsWord hword
      omega
    · simp only [Char.isDigit, Bool.and_eq_true, decide_eq_true_eq, UInt32.le_iff_toNat_le] at hdigit
      have : c.toNat ≤ 57 := hdigit.2
      omega
  rw [Text.isWordChar_of_ascii hascii]
  exact h

namespace Rule

/-- Every answer of the rule is made of pieces that what is unread is cut into. -/
def Agrees (rule : Rule) : Prop :=
  ∀ before unread fs, rule before unread = some fs → ∃ rest, Cuts fs unread rest

variable {role : Role}

theorem agrees_blanks : (run .text Text.isBlank).Agrees := by
  intro before unread fs h
  unfold run fragment? at h
  split at h
  · cases h
  · cases h
    have hcuts := Cuts.blanks (Piece.all_takeWhile Text.isBlank unread) (unread.dropWhile Text.isBlank)
    rw [List.takeWhile_append_dropWhile] at hcuts
    exact ⟨_, hcuts⟩

theorem agrees_number (hrole : ∀ cs, Fragment.bit ⟨role, cs⟩ = (some false, cs)) :
    (run role Char.isDigit).Agrees := by
  intro before unread fs h
  unfold run fragment? at h
  split at h
  · cases h
  · rename_i hne
    cases h
    cases unread with
    | nil => exact absurd rfl hne
    | cons c cs =>
      by_cases hc : c.isDigit = true
      · have hcuts := Cuts.piece (f := ⟨role, _⟩) (Piece.fits_number hc cs) (hrole _)
        rw [List.cons_append, List.takeWhile_append_dropWhile] at hcuts
        rw [List.takeWhile_cons_of_pos hc]
        exact ⟨_, hcuts⟩
      · rw [List.takeWhile_cons_of_neg hc] at hne
        exact absurd rfl hne

theorem agrees_comment : comment.Agrees := by
  intro before unread fs h
  unfold comment at h
  split at h
  · rename_i hslashes
    obtain ⟨cs, rfl⟩ := List.isPrefixOf_iff_prefix.1 hslashes
    cases h
    have hcuts := Cuts.piece (f := ⟨.comment, _⟩) (Piece.fits_comment cs) rfl
    simp only [List.cons_append, List.takeWhile_append_dropWhile] at hcuts
    exact ⟨_, hcuts⟩
  · cases h

theorem agrees_name (hrole : ∀ cs, Fragment.bit ⟨role, cs⟩ = (some false, cs)) {starts : Char → Bool}
    (hstarts : ∀ c, starts c = true → startsWord c = true) : (name role starts).Agrees := by
  intro before unread fs h
  unfold name at h
  split at h
  · rename_i hhead
    cases unread with
    | nil => cases hhead
    | cons c cs =>
      have hc := hstarts c hhead
      have hcuts := Cuts.piece (f := ⟨role, _⟩) (Piece.fits_word hc cs) (hrole _)
      rw [List.cons_append, List.takeWhile_append_dropWhile] at hcuts
      rw [List.takeWhile_cons_of_pos (Piece.continuesWord_of_startsWord hc)] at h
      cases h
      exact ⟨_, hcuts⟩
  · cases h

theorem agrees_words (hrole : ∀ cs, Fragment.bit ⟨role, cs⟩ = (some false, cs)) {ws : List String}
    (hws : ∀ w ∈ ws, isWord w.toList = true) : (words role ws).Agrees := by
  intro before unread fs h
  obtain ⟨w, hw, hf⟩ := Option.bind_eq_some_iff.1 h
  have hp := List.find?_some hw
  simp only [Bool.and_eq_true] at hp
  obtain ⟨⟨-, hprefix⟩, hfree⟩ := hp
  obtain ⟨rest, rfl⟩ := List.isPrefixOf_iff_prefix.1 hprefix
  rw [List.drop_left] at hfree
  have hrest : ∀ d ∈ rest.head?, continuesWord d = false := by
    intro d hd
    rw [freeAfter, Option.mem_def.1 hd] at hfree
    rw [← Bool.not_eq_true]
    intro hword
    simp [isWordChar_of_continuesWord hword] at hfree
  unfold fragment? at hf
  split at hf
  · cases hf
  · cases hf
    exact ⟨rest, Cuts.piece (fits_of_isWord (hws w (List.mem_of_find?_eq_some hw)) hrest) (hrole _)⟩

theorem agrees_declared (hrole : ∀ cs, Fragment.bit ⟨role, cs⟩ = (some false, cs)) {word : String}
    (hword : isWord word.toList = true) {starts : Char → Bool}
    (hstarts : ∀ c, starts c = true → startsWord c = true) : (declared word role starts).Agrees := by
  intro before unread fs h
  simp only [declared] at h
  split at h
  · rename_i hcond
    simp only [Bool.and_eq_true] at hcond
    obtain ⟨⟨⟨-, hprefix⟩, hblank⟩, hhead⟩ := hcond
    obtain ⟨rest, rfl⟩ := List.isPrefixOf_iff_prefix.1 hprefix
    rw [List.drop_left] at h hblank hhead
    cases h
    have hstop : ∀ d ∈ rest.head?, continuesWord d = false := by
      intro d hd
      obtain ⟨ds, rfl⟩ := List.head?_eq_some_iff.1 hd
      by_cases hd : Text.isBlank d = true
      · exact continuesWord_of_isBlank hd
      · simp [hd] at hblank
    have hdeclaration : Cuts [⟨.declaration, word.toList⟩] (word.toList ++ rest) rest :=
      Cuts.piece (fits_of_isWord hword hstop) rfl
    have hblanks := Cuts.blanks (Piece.all_takeWhile Text.isBlank rest) (rest.dropWhile Text.isBlank)
    rw [List.takeWhile_append_dropWhile] at hblanks
    obtain ⟨after, hname⟩ := agrees_name hrole hstarts before (rest.dropWhile Text.isBlank)
      [⟨role, (rest.dropWhile Text.isBlank).takeWhile continuesWord⟩] (by
        rw [name, if_pos hhead, fragment?, if_neg]
        cases hnamed : rest.dropWhile Text.isBlank with
        | nil => simp [hnamed] at hhead
        | cons c cs =>
          rw [hnamed] at hhead
          simp [Piece.continuesWord_of_startsWord (hstarts c hhead)])
    exact ⟨after, hdeclaration.append (hblanks.append hname)⟩
  · cases h

theorem agrees_texts (hrole : ∀ cs, Fragment.bit ⟨role, cs⟩ = (some false, cs)) :
    (texts role ["->", "=>"]).Agrees := by
  intro before unread fs h
  obtain ⟨t, ht, hf⟩ := Option.bind_eq_some_iff.1 h
  have hprefix := List.find?_some ht
  obtain ⟨rest, rfl⟩ := List.isPrefixOf_iff_prefix.1 hprefix
  have hmem := List.mem_of_find?_eq_some ht
  simp only [List.mem_cons, List.not_mem_nil, or_false] at hmem
  obtain rfl | rfl := hmem
  · cases hf
    exact ⟨rest, Cuts.piece (p := ⟨.symbol, ['-', '>']⟩) (.inl rfl) (hrole _)⟩
  · cases hf
    exact ⟨rest, Cuts.piece (p := ⟨.symbol, ['=', '>']⟩) (.inr (.inl rfl)) (hrole _)⟩

/-- A rule for single symbols holds where no longer piece begins. -/
theorem cuts_of_single (hrole : ∀ cs, Fragment.bit ⟨role, cs⟩ = (some false, cs)) {cs : List Char}
    (hcs : cs.all symbolChars.contains = true) {before : Option Char} {unread : List Char}
    {fs : List Fragment} (h : single role cs before unread = some fs)
    (hnone : ∀ c rest, c ∈ cs → unread = c :: rest →
      ∀ d ∈ rest.head?, Shape.symbol.grow [c] d = none) : ∃ rest, Cuts fs unread rest := by
  cases unread with
  | nil => cases h
  | cons c rest =>
    simp only [single] at h
    split at h
    · rename_i hc
      have hc : c ∈ cs := by simpa using hc
      cases h
      exact ⟨rest, Cuts.piece (p := ⟨.symbol, [c]⟩)
        (.inr (.inr ⟨c, rfl, List.all_eq_true.1 hcs c hc, hnone c rest hc rfl⟩)) (hrole _)⟩
    · cases h

theorem agrees_beforeBinder {rule : Rule} (h : rule.Agrees) : (beforeBinder rule).Agrees :=
  fun before unread fs hf => h before unread fs (Option.filter_eq_some_iff.1 hf).1

end Rule

theorem startsWord_iff (c : Char) :
    startsWord c = true ↔ (c.isUpper = true ∨ c.isLower = true) ∨ c = '_' := by
  have halpha : c.isAlpha = (c.isUpper || c.isLower) := rfl
  simp [startsWord, halpha]

theorem startsWord_of_startsLower {c : Char} (h : startsLower c = true) : startsWord c = true := by
  simp only [startsLower, Bool.or_eq_true, beq_iff_eq] at h
  exact (startsWord_iff c).2 (h.imp_left .inr)

theorem startsWord_of_isUpper {c : Char} (h : c.isUpper = true) : startsWord c = true := by
  simp [startsWord_iff, h]

/-- The rules before those that look at single symbols and names. -/
def earlyRules : List Rule := rules.take 10

def laterRules : List Rule := rules.drop 10

theorem agrees_of_mem_earlyRules {rule : Rule} (h : rule ∈ earlyRules) : rule.Agrees := by
  simp only [earlyRules, rules, List.take_succ_cons, List.take_zero, List.mem_cons, List.not_mem_nil,
    or_false] at h
  rcases h with h | h | h | h | h | h | h | h | h | h <;> subst h
  · exact Rule.agrees_blanks
  · exact Rule.agrees_comment
  · exact Rule.agrees_declared (fun _ => rfl) (by decide) fun _ => startsWord_of_startsLower
  · exact Rule.agrees_declared (fun _ => rfl) (by decide) fun _ => startsWord_of_isUpper
  · exact Rule.agrees_words (fun _ => rfl) (by decide)
  · exact Rule.agrees_words (fun _ => rfl) (by decide)
  · exact Rule.agrees_words (fun _ => rfl) (by decide)
  · exact Rule.agrees_number fun _ => rfl
  · exact Rule.agrees_words (fun _ => rfl) (by decide)
  · exact Rule.agrees_texts fun _ => rfl

/-- Where no early rule answers, neither a comment nor an arrow begins. -/
theorem grow_eq_none_of_early {before : Option Char} {c d : Char} {rest : List Char}
    (h : ∀ rule ∈ earlyRules, rule before (c :: d :: rest) = none) :
    Shape.symbol.grow [c] d = none := by
  by_contra hgrow
  obtain ⟨grown, hgrown⟩ := Option.ne_none_iff_exists'.1 hgrow
  obtain ⟨hc, rfl, -⟩ | ⟨hc, rfl, -⟩ := Shape.grow_symbol_eq_some.1 hgrown
  · obtain rfl : c = '/' := by simpa using hc
    cases h Rule.comment (by simp [earlyRules, rules])
  · have harrow := h (Rule.texts .operator ["->", "=>"]) (by simp [earlyRules, rules])
    obtain rfl | rfl : c = '-' ∨ c = '=' := by simpa using hc
    · cases harrow
    · cases harrow

theorem cuts_of_mem_laterRules {before : Option Char} {unread : List Char} {rule : Rule}
    (hrule : rule ∈ laterRules) (hearly : ∀ rule ∈ earlyRules, rule before unread = none)
    {fs : List Fragment} (h : rule before unread = some fs) : ∃ rest, Cuts fs unread rest := by
  have hnone : ∀ c rest, unread = c :: rest → ∀ d ∈ rest.head?, Shape.symbol.grow [c] d = none := by
    rintro c rest rfl d hd
    obtain ⟨ds, rfl⟩ := List.head?_eq_some_iff.1 hd
    exact grow_eq_none_of_early hearly
  simp only [laterRules, rules, List.drop_succ_cons, List.drop_zero, List.mem_cons, List.not_mem_nil,
    or_false] at hrule
  rcases hrule with hrule | hrule | hrule | hrule | hrule <;> subst hrule
  · exact Rule.cuts_of_single (fun _ => rfl) (by decide) h fun c rest _ => hnone c rest
  · exact Rule.agrees_name (fun _ => rfl) (fun _ => startsWord_of_isUpper) _ _ _ h
  · exact Rule.agrees_beforeBinder
      (Rule.agrees_name (fun _ => rfl) fun _ => startsWord_of_startsLower) _ _ _ h
  · exact Rule.agrees_name (fun _ => rfl) (fun _ => startsWord_of_startsLower) _ _ _ h
  · exact Rule.cuts_of_single (fun _ => rfl) (by decide) h fun c rest _ => hnone c rest

/-- Some rule answers before every character that is not stray. -/
theorem stray_of_no_answer {before : Option Char} {c : Char} {cs : List Char}
    (h : ∀ rule ∈ rules, rule before (c :: cs) = none) : Shape.ofChar c = .stray := by
  cases hshape : Shape.ofChar c with
  | stray => rfl
  | comment => exact absurd hshape (Shape.ofChar_ne_comment c)
  | blank =>
    have hrule := h (Rule.run .text Text.isBlank) (by simp [rules])
    simp [Rule.run, fragment?, Shape.ofChar_eq_blank.1 hshape] at hrule
  | number =>
    have hrule := h (Rule.run .integer Char.isDigit) (by simp [rules])
    simp [Rule.run, fragment?, Shape.ofChar_eq_number.1 hshape] at hrule
  | word =>
    have hword := Shape.ofChar_eq_word.1 hshape
    have hgoes := Piece.continuesWord_of_startsWord hword
    by_cases hupper : c.isUpper = true
    · have hrule := h (Rule.name .className Char.isUpper) (by simp [rules])
      simp [Rule.name, fragment?, hupper, hgoes] at hrule
    · have hlower : startsLower c = true := by
        simpa [startsWord_iff, hupper, startsLower] using hword
      have hrule := h (Rule.name .name startsLower) (by simp [rules])
      simp [Rule.name, fragment?, hlower, hgoes] at hrule
  | symbol =>
    have hsymbol := Shape.ofChar_eq_symbol.1 hshape
    have hsplit : symbolChars.all (fun c => "+-*/=.".toList.contains c ||
        "(),;\x7b\x7d:|".toList.contains c) = true := by decide
    rcases Bool.or_eq_true_iff.1 (List.all_eq_true.1 hsplit c (by simpa using hsymbol)) with hc | hc
    · have hrule := h (Rule.single .operator "+-*/=.".toList) (by simp [rules])
      simp only [Rule.single, hc, if_true] at hrule
      cases hrule
    · have hrule := h (Rule.single .punctuation "(),;\x7b\x7d:|".toList) (by simp [rules])
      simp only [Rule.single, hc, if_true] at hrule
      cases hrule

/-- Each step of highlighting reads pieces of the text. -/
theorem cuts_step (before : Option Char) (c : Char) (cs : List Char) :
    ∃ rest, Cuts (step before c cs) (c :: cs) rest := by
  have hrules : rules = earlyRules ++ laterRules := (List.take_append_drop 10 rules).symm
  unfold step
  cases h : rules.findSome? fun rule => rule before (c :: cs) with
  | none =>
    have hstray := stray_of_no_answer (List.findSome?_eq_none_iff.1 h)
    exact ⟨cs, Cuts.piece (p := ⟨.stray, [c]⟩) ⟨c, rfl, hstray⟩ rfl⟩
  | some fs =>
    rw [hrules, List.findSome?_append] at h
    cases hearly : earlyRules.findSome? fun rule => rule before (c :: cs) with
    | some gs =>
      rw [hearly] at h
      cases h
      obtain ⟨rule, hrule, hf⟩ := List.exists_of_findSome?_eq_some hearly
      exact agrees_of_mem_earlyRules hrule before (c :: cs) _ hf
    | none =>
      rw [hearly] at h
      obtain ⟨rule, hrule, hf⟩ := List.exists_of_findSome?_eq_some h
      exact cuts_of_mem_laterRules hrule (List.findSome?_eq_none_iff.1 hearly) hf

/-- The fragments of a text count as its pieces do. -/
theorem kept_scanFrom (before : Option Char) (cs : List Char) (offset : Nat) :
    Bit.kept offset ((scanFrom before cs).map Fragment.bit) =
      Bit.kept offset ((Piece.cut cs).map Piece.bit) := by
  fun_induction scanFrom before cs generalizing offset with
  | case1 => rfl
  | case2 before c cs fs read ih =>
    obtain ⟨rest, hcuts⟩ := cuts_step before c cs
    obtain ⟨ps, hps, hkept⟩ := hcuts.pieces
    have hdrop : cs.drop (read.length - 1) = rest :=
      drop_of_append (begins_step before c cs).2 hcuts.text
    rw [hps, List.map_append, List.map_append, Bit.kept_append, Bit.kept_append, ih, hdrop, hkept,
      hcuts.width hps]

theorem kept_indexed (before : List Char) (fs : List Fragment) :
    Bit.kept (byteWidth before) (fs.map Fragment.bit) =
      (indexed before.length fs).filterMap fun x => x.2.bit.1.map fun isError =>
        (byteWidth ((before ++ fs.flatMap (·.text)).take x.1), isError, x.2.text) := by
  induction fs generalizing before with
  | nil => rfl
  | cons f fs ih =>
    have hlater := ih (before ++ f.text)
    rw [byteWidth_append, List.length_append, List.append_assoc] at hlater
    obtain ⟨class?, htext⟩ : ∃ class?, f.bit = (class?, f.text) := ⟨f.bit.1, by simp [Prod.ext_iff]⟩
    cases class? with
    | none => simpa [Bit.kept, indexed, htext] using hlater
    | some isError => simpa [Bit.kept, indexed, htext] using hlater

theorem kept_placed (offset : Nat) (ps : List Piece) :
    Bit.kept offset (ps.map Piece.bit) = (Piece.placed offset ps).filterMap fun x =>
      x.2.bit.1.map fun isError => (x.1, isError, x.2.text) := by
  induction ps generalizing offset with
  | nil => rfl
  | cons p ps ih =>
    obtain ⟨shape, text⟩ := p
    cases shape <;> simp [Bit.kept, Piece.placed, Piece.bit, ih, Piece.width]

/-- Merging puts the parts of an ordered list together again. -/
theorem merge_filter {α : Type} (le : α → α → Bool) {xs : List α}
    (h : xs.Pairwise fun x y => le x y = true ∧ le y x = false) (p : α → Bool) :
    List.merge (xs.filter p) (xs.filter fun x => !p x) le = xs := by
  induction xs with
  | nil => simp
  | cons x xs ih =>
    obtain ⟨hx, hxs⟩ := List.pairwise_cons.1 h
    cases hp : p x with
    | true =>
      rw [List.filter_cons_of_pos hp, List.filter_cons_of_neg (by simp [hp])]
      cases hlater : xs.filter fun y => !p y with
      | nil =>
        have := ih hxs
        rw [hlater, List.merge_right] at this
        rw [List.merge_right, this]
      | cons y ys =>
        have hy : y ∈ xs := (List.mem_filter.1 (hlater ▸ List.mem_cons_self ..)).1
        rw [List.cons_merge_cons, if_pos (hx y hy).1, ← hlater, ih hxs]
    | false =>
      rw [List.filter_cons_of_neg (by simp [hp]), List.filter_cons_of_pos (by simp [hp])]
      cases hlater : xs.filter p with
      | nil =>
        have := ih hxs
        rw [hlater, List.nil_merge] at this
        rw [List.nil_merge, this]
      | cons y ys =>
        have hy : y ∈ xs := (List.mem_filter.1 (hlater ▸ List.mem_cons_self ..)).1
        rw [List.cons_merge_cons, if_neg (by simp [(hx y hy).2]), ← hlater, ih hxs]

/-- Where a token or a character begins, in bytes, and its text. -/
abbrev Spot := Int × String

def Fragment.spot (source : String) (x : Nat × Fragment) : Spot :=
  (byteWidth (source.toList.take x.1), x.2.string)

def tokenSpot (t : Token) : Spot := (t.span.start, t.text)

def charSpot (source : String) (i : Nat) : Spot :=
  (byteWidth (source.toList.take i), String.ofList source.toList[i]?.toList)

def Spot.before (a b : Spot) : Bool := a.1 ≤ b.1

/-- Highlighting cuts a text as lexing does: `tokens` are the tokens with the end marker, and
`reports` the reports, of which there is one for each unreadable character. -/
structure CutAlike (file source : String) (tokens : List Token) (reports : List Diagnostic) : Prop where
  lex_eq : lex file source = match reports with
    | [] => .ok tokens
    | reports => .error reports
  reports_eq : reports = (unreadable source.toList).map (Diagnostic.unexpected file source.toList)
  whole : (scan source).flatMap (·.text) = source.toList
  contiguous : ∀ before x after, indexed 0 (scan source) = before ++ x :: after →
    x.1 = (before.flatMap (·.2.text)).length
  kept : ((indexed 0 (scan source)).filter fun x => x.2.role ≠ .text ∧ x.2.role ≠ .comment).map
      (Fragment.spot source) =
    List.merge (tokens.dropLast.map tokenSpot) ((unreadable source.toList).map (charSpot source))
      Spot.before
  errors : ((indexed 0 (scan source)).filter fun x => x.2.role = .error).map (Fragment.spot source) =
    (unreadable source.toList).map (charSpot source)

theorem indexed_eq_append {n : Nat} {fs : List Fragment} {before after : List (Nat × Fragment)}
    {x : Nat × Fragment} (h : indexed n fs = before ++ x :: after) :
    x.1 = n + (before.flatMap (·.2.text)).length := by
  induction fs generalizing n before with
  | nil => exact absurd h.symm (by simp [indexed])
  | cons f fs ih =>
    rw [indexed] at h
    cases before with
    | nil =>
      obtain ⟨rfl, -⟩ := List.cons.inj h
      simp
    | cons y ys =>
      obtain ⟨rfl, htail⟩ := List.cons.inj h
      rw [ih htail]
      simp [Nat.add_assoc]

/-- What counts of a text, highlighted or cut into pieces, as spots with the errors among them. -/
def counted (source : String) : List (Bool × Spot) :=
  (Bit.kept 0 ((Piece.cut source.toList).map Piece.bit)).map fun x =>
    (x.2.1, (x.1, String.ofList x.2.2))

theorem counted_eq_fragments (source : String) :
    counted source = (indexed 0 (scan source)).filterMap fun x =>
      x.2.bit.1.map fun isError => (isError, Fragment.spot source x) := by
  have h := kept_indexed [] (scan source)
  rw [List.nil_append, flatMap_text_scan] at h
  rw [counted, ← kept_scanFrom none source.toList 0]
  exact (congrArg _ h).trans (by simp [List.map_filterMap, Fragment.spot, Fragment.string, Function.comp_def])

theorem fragments_eq_counted (source : String) :
    ((indexed 0 (scan source)).filter fun x => x.2.role ≠ .text ∧ x.2.role ≠ .comment).map
      (Fragment.spot source) = (counted source).map (·.2) := by
  rw [counted_eq_fragments]
  induction indexed 0 (scan source) with
  | nil => rfl
  | cons x xs ih =>
    obtain ⟨n, role, text⟩ := x
    cases role <;> simpa [Fragment.bit] using ih

theorem errors_eq_counted (source : String) :
    ((indexed 0 (scan source)).filter fun x => x.2.role = .error).map (Fragment.spot source) =
      ((counted source).filter (·.1)).map (·.2) := by
  rw [counted_eq_fragments]
  induction indexed 0 (scan source) with
  | nil => rfl
  | cons x xs ih =>
    obtain ⟨n, role, text⟩ := x
    cases role <;> simpa [Fragment.bit] using ih

theorem counted_eq_pieces (source : String) :
    counted source = (Piece.placed 0 (Piece.cut source.toList)).filterMap fun x =>
      x.2.bit.1.map fun isError => (isError, ((x.1 : Int), x.2.string)) := by
  rw [counted, kept_placed, List.map_filterMap]
  simp [Piece.string, Function.comp_def]

theorem tokens_eq_counted (file source : String) :
    (Token.ofPieces file 0 (Piece.cut source.toList)).dropLast.map tokenSpot =
      ((counted source).filter fun x => !x.1).map (·.2) := by
  have hkind : ∀ x ∈ Piece.placed 0 (Piece.cut source.toList),
      x.2.kind? = none → x.2.shape = .blank ∨ x.2.shape = .comment ∨ x.2.shape = .stray := by
    intro x hx hk
    obtain ⟨qs, rs, hcut, -⟩ := Piece.mem_placed.1 hx
    exact (Piece.fits_of_cut hcut).shape_of_kind? hk
  rw [Token.ofPieces_eq_filterMap, List.dropLast_concat, counted_eq_pieces]
  generalize Piece.placed 0 (Piece.cut source.toList) = xs at hkind ⊢
  induction xs with
  | nil => rfl
  | cons x xs ih =>
    have hx := hkind x (List.mem_cons_self ..)
    have hxs := fun y hy => hkind y (List.mem_cons_of_mem _ hy)
    obtain ⟨offset, shape, text⟩ := x
    cases hk : Piece.kind? ⟨shape, text⟩ with
    | none =>
      rw [List.filterMap_cons_none (by simp [Token.ofPlaced?, hk]), ih hxs]
      rcases hx hk with hshape | hshape | hshape <;> simp at hshape <;> subst hshape <;>
        simp [Piece.bit]
    | some k =>
      rw [List.filterMap_cons_some (by simp [Token.ofPlaced?, hk]; rfl), List.map_cons, ih hxs]
      cases shape with
      | blank => cases hk
      | comment => cases hk
      | stray => cases hk
      | word => simp [Piece.bit, tokenSpot]
      | number => simp [Piece.bit, tokenSpot]
      | symbol => simp [Piece.bit, tokenSpot]

theorem chars_eq_counted (source : String) :
    (unreadable source.toList).map (charSpot source) =
      ((counted source).filter (·.1)).map (·.2) := by
  have h := congrArg (List.map fun x => ((x.1 : Int), x.2.string)) (strays_cut 0 source.toList)
  rw [List.map_map] at h
  rw [counted_eq_pieces]
  refine Eq.trans ?_ (h.symm.trans ?_)
  · exact List.map_congr_left fun i _ => by simp [charSpot, Piece.string]
  · induction Piece.placed 0 (Piece.cut source.toList) with
    | nil => rfl
    | cons x xs ih =>
      obtain ⟨offset, shape, text⟩ := x
      cases shape <;> simpa [Piece.bit] using ih

theorem ordered_counted (source : String) : (counted source).Pairwise fun x y =>
    Spot.before x.2 y.2 = true ∧ Spot.before y.2 x.2 = false := by
  have hne : ∀ x ∈ (Piece.cut source.toList).map Piece.bit, x.2 ≠ [] := by
    intro x hx
    obtain ⟨p, hp, rfl⟩ := List.mem_map.1 hx
    rw [Piece.bit_snd]
    exact Piece.text_ne_nil_of_mem_cut hp
  refine List.pairwise_map.2 ((Bit.pairwise_kept hne 0).imp fun {x y} hlt => ?_)
  simp only [Spot.before, decide_eq_true_eq, decide_eq_false_iff_not]
  omega

/-- The tokens that lexing collects, whether it reports something or not. -/
def lexTokens (file source : String) : List Token := Token.ofPieces file 0 (Piece.cut source.toList)

def lexReports (file source : String) : List Diagnostic :=
  Diagnostic.ofPieces file 0 (Piece.cut source.toList)

/-- A text is highlighted in the pieces that it is lexed in. -/
theorem scan_cuts_as_lex (file source : String) :
    CutAlike file source (lexTokens file source) (lexReports file source) where
  lex_eq := rfl
  reports_eq := Diagnostic.ofPieces_cut file source.toList
  whole := flatMap_text_scan source
  contiguous := fun before x after h => by simpa using indexed_eq_append h
  kept := by
    rw [fragments_eq_counted, lexTokens, tokens_eq_counted, chars_eq_counted,
      ← List.map_merge (r := fun x y : Bool × Spot => Spot.before x.2 y.2) fun _ _ _ _ => rfl]
    have hmerge := merge_filter (fun x y => Spot.before x.2 y.2) (ordered_counted source)
      fun x : Bool × Spot => !x.1
    simp only [Bool.not_not] at hmerge
    rw [hmerge]
  errors := by rw [errors_eq_counted, chars_eq_counted]

end Highlight
end TinyFront
