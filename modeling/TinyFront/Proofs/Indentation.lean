import Mathlib.Data.List.Chain
import TinyFront.Proofs.Blocks
import TinyFront.Proofs.RoundTrip

/-!
The lines of a laid-out program. Main statement: each line is indented once for every brace that ended
a line before it and is still open, nothing else is blank at the ends of lines, and the only empty lines
stand between declarations.
-/
namespace TinyFront

open Mark

namespace Text

/-- The braces that the text leaves open, the innermost one first, each told by whether it ends its
line. -/
def openBraces (stack : List Bool) : List Char → List Bool
  | [] => stack
  | '\x7b' :: cs => openBraces ((cs.head? == some '\n') :: stack) cs
  | '\x7d' :: cs => openBraces stack.tail cs
  | _ :: cs => openBraces stack cs

/-- How many of the braces left open end their line. -/
def depth (cs : List Char) : Nat := (openBraces [] cs).count true

example : depth "f \x7b\n  match x \x7b\n    a => g \x7b b = \x7b\n      c".toList = 3 := by decide +kernel

/-- The text has the line, with what is before it and what is behind its line feed. -/
structure HasLine (text before line after : List Char) : Prop where
  parted : text = before ++ line ++ '\n' :: after
  start : before = [] ∨ before.getLast? = some '\n'
  whole : '\n' ∉ line

variable {stack : List Bool} {c : Char} {cs : List Char}

theorem openBraces_cons (ho : c ≠ '\x7b') (hc : c ≠ '\x7d') :
    openBraces stack (c :: cs) = openBraces stack cs := by
  rw [openBraces]
  · exact ho
  · exact hc

theorem openBraces_blanks (n : Nat) :
    openBraces stack (List.replicate n ' ' ++ cs) = openBraces stack cs := by
  induction n with
  | zero => rfl
  | succ n ih => rw [List.replicate_succ, List.cons_append, openBraces_cons (by decide) (by decide), ih]

/-- A line that does not begin with a closing brace is as deep as what is before it. -/
theorem count_openBraces_single (h : c ≠ '\x7d') : (openBraces stack [c]).count true = stack.count true := by
  by_cases ho : c = '\x7b'
  · subst ho
    simp [openBraces]
  · rw [openBraces_cons ho h, openBraces]

/-- What begins with blanks and is cut at a line feed has them all before it. -/
theorem eq_blanks_append {n : Nat} {as bs cs : List Char}
    (h : as ++ '\n' :: bs = List.replicate n ' ' ++ cs) :
    ∃ as', as = List.replicate n ' ' ++ as' ∧ as' ++ '\n' :: bs = cs := by
  induction n generalizing as with
  | zero => exact ⟨as, rfl, h⟩
  | succ n ih =>
    cases as with
    | nil => cases h
    | cons a as =>
      rw [List.replicate_succ, List.cons_append, List.cons_append, List.cons.injEq] at h
      obtain ⟨rfl, h⟩ := h
      obtain ⟨as', rfl, hcs⟩ := ih h
      exact ⟨as', rfl, hcs⟩

end Text

open Text

/-- The rest of a text within one of its lines, with the braces open before it: no blank is at the end
of a line, and each line is indented as the braces open before its first character say. An empty line
is no line unless they may stand `apart`. -/
inductive Lined (k : Nat) (apart : Bool) : List Bool → List Char → Prop
  | stop {stack : List Bool} : Lined k apart stack ['\n']
  | plain {stack : List Bool} {c : Char} {cs : List Char} (hc : " \n\x7b\x7d".toList.contains c = false)
      (h : Lined k apart stack cs) : Lined k apart stack (c :: cs)
  | blank {stack : List Bool} {c : Char} {cs : List Char} (hc : c ≠ '\n')
      (h : Lined k apart stack (c :: cs)) : Lined k apart stack (' ' :: c :: cs)
  | opening {stack : List Bool} {cs : List Char}
      (h : Lined k apart ((cs.head? == some '\n') :: stack) cs) : Lined k apart stack ('\x7b' :: cs)
  | closing {stack : List Bool} {cs : List Char} (h : Lined k apart stack.tail cs) :
      Lined k apart stack ('\x7d' :: cs)
  | line {stack : List Bool} {c : Char} {cs : List Char} (hb : c ≠ ' ') (hc : c ≠ '\n')
      (h : Lined k apart stack (c :: cs)) : Lined k apart stack
        ('\n' :: (List.replicate (k * (openBraces stack [c]).count true) ' ' ++ c :: cs))
  | empty {stack : List Bool} {c : Char} {cs : List Char} (ha : apart = true) (hc : c ≠ '\n')
      (h : Lined k apart stack ('\n' :: c :: cs)) : Lined k apart stack ('\n' :: '\n' :: c :: cs)

namespace Lined

variable {k : Nat} {apart : Bool} {stack : List Bool} {cs : List Char}

theorem plain_append {as : List Char} (has : as.all (fun c => !" \n\x7b\x7d".toList.contains c) = true)
    (h : Lined k apart stack cs) : Lined k apart stack (as ++ cs) := by
  induction as with
  | nil => exact h
  | cons a as ih =>
    rw [List.all_cons, Bool.and_eq_true, Bool.not_eq_true'] at has
    exact .plain has.1 (ih has.2)

theorem ends (h : Lined k apart stack cs) :
    cs = ['\n'] ∨ ∃ as c, cs = as ++ [c, '\n'] ∧ c ≠ '\n' := by
  have hcons : ∀ {c : Char} {cs : List Char}, (cs = ['\n'] → c ≠ '\n') →
      (cs = ['\n'] ∨ ∃ as c, cs = as ++ [c, '\n'] ∧ c ≠ '\n') →
      c :: cs = ['\n'] ∨ ∃ as d, c :: cs = as ++ [d, '\n'] ∧ d ≠ '\n' := by
    rintro c _ hc (rfl | ⟨as, d, rfl, hd⟩)
    · exact .inr ⟨[], c, rfl, hc rfl⟩
    · exact .inr ⟨c :: as, d, rfl, hd⟩
  induction h with
  | stop => exact .inl rfl
  | plain hc _ ih =>
    refine hcons (fun _ => ?_) ih
    rintro rfl
    cases hc
  | blank hc _ ih => exact hcons (fun _ => by decide) ih
  | opening _ ih => exact hcons (fun _ => by decide) ih
  | closing _ ih => exact hcons (fun _ => by decide) ih
  | @line stack c cs hb hc _ ih =>
    generalize k * (openBraces stack [c]).count true = n
    obtain h | ⟨as, d, h, hd⟩ := ih
    · exact absurd (List.cons.inj h).1 hc
    · refine .inr ⟨'\n' :: (List.replicate n ' ' ++ as), d, ?_, hd⟩
      rw [h, List.cons_append, List.append_assoc]
  | empty _ _ _ ih => exact hcons (by simp) ih

/-- Neither blanks nor, unless they may stand apart, other line feeds are before a line feed. -/
theorem isChain (h : Lined k apart stack cs) :
    cs.IsChain fun c d => d = '\n' → c ≠ ' ' ∧ (c = '\n' → apart = true) := by
  induction h with
  | stop => exact List.isChain_singleton _
  | plain hc _ ih =>
    refine List.isChain_cons.2 ⟨fun d _ _ => ⟨?_, ?_⟩, ih⟩ <;>
      · rintro rfl
        cases hc
  | blank hc _ ih => exact .cons_cons (fun h => absurd h hc) ih
  | opening _ ih => exact List.isChain_cons.2 ⟨by simp, ih⟩
  | closing _ ih => exact List.isChain_cons.2 ⟨by simp, ih⟩
  | @line stack c cs hb hc _ ih =>
    generalize k * (openBraces stack [c]).count true = n
    have hblanks : (List.replicate n ' ' ++ c :: cs).IsChain
        fun c d => d = '\n' → c ≠ ' ' ∧ (c = '\n' → apart = true) := by
      refine List.isChain_append.2 ⟨List.isChain_replicate_of_rel n (by simp), ih, ?_⟩
      rintro _ _ _ ⟨⟩ h
      exact absurd h hc
    refine List.isChain_cons.2 ⟨fun d hd h => ?_, hblanks⟩
    subst h
    cases n with
    | zero => exact absurd (Option.some.inj hd) hc
    | succ n => cases hd
  | empty ha _ _ ih => exact .cons_cons (fun _ => ⟨by decide, fun _ => ha⟩) ih

theorem rel_of_append (h : Lined k apart stack cs) (before after : List Char) {c : Char}
    (hcs : cs = before ++ c :: '\n' :: after) : c ≠ ' ' ∧ (c = '\n' → apart = true) :=
  List.isChain_iff_forall_rel_of_append_cons_cons.1 h.isChain hcs rfl

end Lined

/-- In the rest of a text, with the braces open before it, each line behind the first line feed that is
not empty is indented as the braces open before its first character say. -/
def Indented (k : Nat) (stack : List Bool) (cs : List Char) : Prop :=
  ∀ before line after, cs = before ++ '\n' :: (line ++ '\n' :: after) → '\n' ∉ line → line ≠ [] →
    ∃ c rest, c ≠ ' ' ∧ line = List.replicate
      (k * (openBraces stack (before ++ ['\n', c])).count true) ' ' ++ c :: rest

namespace Indented

variable {k : Nat} {stack stack' : List Bool} {c : Char} {cs : List Char}

/-- A character before the text begins no line, but it may open or close a brace. -/
theorem cons (h : Indented k stack' cs) (hc : c ≠ '\n')
    (hopen : ∀ before rest d, cs = before ++ '\n' :: rest →
      openBraces stack (c :: (before ++ ['\n', d])) = openBraces stack' (before ++ ['\n', d])) :
    Indented k stack (c :: cs) := by
  intro before line after hcs hwhole hne
  cases before with
  | nil => exact absurd (List.cons.inj hcs).1 hc
  | cons b before =>
    obtain ⟨rfl, hrest⟩ := List.cons.inj hcs
    obtain ⟨d, rest, hd, hline⟩ := h before line after hrest hwhole hne
    exact ⟨d, rest, hd, by rwa [List.cons_append, hopen before _ d hrest]⟩

theorem line (h : Indented k stack (c :: cs)) (hb : c ≠ ' ') (hc : c ≠ '\n') :
    Indented k stack
      ('\n' :: (List.replicate (k * (openBraces stack [c]).count true) ' ' ++ c :: cs)) := by
  intro before line after hcs hwhole hne
  have hfeed : ∀ xs, openBraces stack ('\n' :: xs) = openBraces stack xs := fun _ =>
    openBraces_cons (by decide) (by decide)
  cases before with
  | nil =>
    obtain ⟨-, htail⟩ := List.cons.inj hcs
    obtain ⟨rest, rfl, hrest⟩ := eq_blanks_append htail.symm
    cases rest with
    | nil => exact absurd (List.cons.inj hrest).1.symm hc
    | cons d rest =>
      obtain ⟨rfl, -⟩ := List.cons.inj hrest
      exact ⟨d, rest, hb, by rw [List.nil_append, hfeed]⟩
  | cons b before =>
    obtain ⟨rfl, htail⟩ := List.cons.inj hcs
    obtain ⟨before, rfl, hbefore⟩ := eq_blanks_append htail.symm
    obtain ⟨d, rest, hd, hline⟩ := h before line after hbefore.symm hwhole hne
    exact ⟨d, rest, hd, by rwa [List.cons_append, hfeed, List.append_assoc, openBraces_blanks]⟩

theorem feed (h : Indented k stack ('\n' :: cs)) : Indented k stack ('\n' :: '\n' :: cs) := by
  intro before line after hcs hwhole hne
  cases before with
  | nil =>
    obtain ⟨-, htail⟩ := List.cons.inj hcs
    obtain ⟨d, line, rfl⟩ := List.exists_cons_of_ne_nil hne
    obtain ⟨rfl, -⟩ := List.cons.inj htail
    exact absurd (List.mem_cons_self ..) hwhole
  | cons b before =>
    obtain ⟨rfl, htail⟩ := List.cons.inj hcs
    obtain ⟨d, rest, hd, hline⟩ := h before line after htail hwhole hne
    exact ⟨d, rest, hd, by rwa [List.cons_append, openBraces_cons (by decide) (by decide)]⟩

end Indented

theorem Lined.indented {k : Nat} {apart : Bool} {stack : List Bool} {cs : List Char}
    (h : Lined k apart stack cs) : Indented k stack cs := by
  induction h with
  | stop =>
    intro before line after hcs
    have hlen := congrArg List.length hcs
    simp only [List.length_append, List.length_cons, List.length_nil] at hlen
    omega
  | plain hc _ ih =>
    refine ih.cons ?_ fun before rest d _ => openBraces_cons ?_ ?_ <;>
      · rintro rfl
        cases hc
  | blank hc _ ih =>
    exact ih.cons (by decide) fun before rest d _ => openBraces_cons (by decide) (by decide)
  | opening _ ih =>
    refine ih.cons (by decide) fun before rest d hcs => ?_
    rw [openBraces, hcs]
    cases before <;> rfl
  | closing _ ih => exact ih.cons (by decide) fun before rest d _ => rfl
  | line hb hc _ ih => exact ih.line hb hc
  | empty _ _ _ ih => exact ih.feed

namespace Mark

variable {k n w : Nat} {apart fresh : Bool} {stack : List Bool} {as ms : List Mark}

@[simp] theorem Margin.before_stale : (Margin.mk false w).before = [] := rfl

@[simp] theorem Margin.before_fresh : (Margin.mk true w).before = List.replicate w ' ' := rfl

theorem page_gap : page k ⟨false, w⟩ (gap :: ms) = ' ' :: page k ⟨false, w⟩ ms := by
  rw [page, Margin.write_of_not_mem (by decide)]
  rfl

theorem page_lexeme {s : String} {c : Char} {cs : List Char} (hs : s.toList = c :: cs)
    (hfeed : '\n' ∉ c :: cs) : page k ⟨fresh, w⟩ (lexeme s :: ms) =
      (Margin.mk fresh w).before ++ (c :: cs ++ page k ⟨false, w⟩ ms) := by
  rw [page, hs, Margin.write_cons hfeed, List.append_assoc]

theorem page_opening : page k ⟨false, w⟩ (lexeme "\x7b" :: ms) = '\x7b' :: page k ⟨false, w⟩ ms :=
  page_lexeme (s := "\x7b") rfl (by decide)

theorem page_closing : page k ⟨fresh, w⟩ (lexeme "\x7d" :: ms) =
    (Margin.mk fresh w).before ++ '\x7d' :: page k ⟨false, w⟩ ms :=
  page_lexeme (s := "\x7d") rfl (by decide)

theorem all_of_isPlain {s : String} (h : isPlain s = true) : s.toList ≠ [] ∧
    s.toList.all (fun c => !" \n\x7b\x7d".toList.contains c) = true := by
  simpa only [isPlain, Bool.and_eq_true, Bool.not_eq_true', List.isEmpty_eq_false_iff] using h

namespace Block

/-- A block begins with a word or with an opening brace. -/
theorem exists_eq_lexeme (h : Block n as) : ∃ s c cs bs, as = lexeme s :: bs ∧ s.toList = c :: cs ∧
    '\n' ∉ c :: cs ∧ c ≠ ' ' ∧ c ≠ '\x7d' := by
  induction h with
  | @word n s h =>
    obtain ⟨hne, hall⟩ := all_of_isPlain h
    obtain ⟨c, cs, hs⟩ := List.exists_cons_of_ne_nil hne
    have hnot : ∀ {d : Char}, " \n\x7b\x7d".toList.contains d = true → d ∉ c :: cs := by
      intro d hd hmem
      have hfree := List.all_eq_true.1 hall d (hs ▸ hmem)
      simp only [hd, Bool.not_true, Bool.false_eq_true] at hfree
    have hhead : ∀ {d : Char}, " \n\x7b\x7d".toList.contains d = true → c ≠ d := by
      rintro d hd rfl
      exact hnot hd (List.mem_cons_self ..)
    exact ⟨s, c, cs, [], rfl, hs, hnot (by decide), hhead (by decide), hhead (by decide)⟩
  | join _ _ ih | gap _ _ ih | row _ _ ih =>
    obtain ⟨s, c, cs, bs, rfl, h⟩ := ih
    exact ⟨s, c, cs, _, rfl, h⟩
  | empty | inline | indented => exact ⟨_, '\x7b', [], _, rfl, rfl, by decide, by decide, by decide⟩

/-- The page of a block begins with the same character wherever it stands, behind its indentation if
it begins a line. -/
theorem exists_page_eq (h : Block n as) (k : Nat) : ∃ c, c ≠ ' ' ∧ c ≠ '\n' ∧ c ≠ '\x7d' ∧
    ∀ w ms, ∃ cs, ∀ fresh, page k ⟨fresh, w⟩ (as ++ ms) = (Margin.mk fresh w).before ++ c :: cs := by
  obtain ⟨s, c, cs, bs, rfl, hs, hfeed, hb, hc⟩ := h.exists_eq_lexeme
  refine ⟨c, hb, ?_, hc, fun w ms => ⟨cs ++ page k ⟨false, w⟩ (bs ++ ms), fun fresh => ?_⟩⟩
  · rintro rfl
    exact hfeed (List.mem_cons_self ..)
  · exact page_lexeme hs hfeed

theorem lined_gap (h : Block n as)
    (hrest : ∀ w, Lined k apart stack (page k ⟨false, w⟩ (as ++ ms))) (w : Nat) :
    Lined k apart stack (page k ⟨false, w⟩ (Mark.gap :: (as ++ ms))) := by
  obtain ⟨c, -, hfeed, -, hpage⟩ := h.exists_page_eq k
  obtain ⟨cs, hcs⟩ := hpage w ms
  have hlined := hrest w
  rw [page_gap, hcs] at *
  exact .blank hfeed hlined

/-- A line of its own is indented by as much as there are braces open that end theirs. -/
theorem lined_line (h : Block n as) (hstack : stack.count true = n)
    (hrest : ∀ w, Lined k apart stack (page k ⟨false, w⟩ (as ++ ms))) (w : Nat) :
    Lined k apart stack (page k ⟨false, w⟩ (line n :: (as ++ ms))) := by
  obtain ⟨c, hblank, hfeed, hclose, hpage⟩ := h.exists_page_eq k
  obtain ⟨cs, hcs⟩ := hpage (k * n) ms
  have hlined := hrest (k * n)
  rw [hcs false, Margin.before_stale, List.nil_append] at hlined
  rw [page_line, hcs true, Margin.before_fresh, ← hstack, ← count_openBraces_single hclose]
  exact .line hblank hfeed hlined

/-- The lines of a block are as deep as the marks say, if those of the rest are. -/
theorem lined (h : Block n as) (hstack : stack.count true = n)
    (hrest : ∀ w, Lined k apart stack (page k ⟨false, w⟩ ms)) (w : Nat) :
    Lined k apart stack (page k ⟨false, w⟩ (as ++ ms)) := by
  induction h generalizing stack ms w with
  | @word n s h =>
    obtain ⟨hne, hall⟩ := all_of_isPlain h
    obtain ⟨s, c, cs, bs, heq, hs, hfeed, -, -⟩ := (Block.word (n := n) h).exists_eq_lexeme
    cases heq
    rw [List.singleton_append, page_lexeme hs hfeed, Margin.before_stale, List.nil_append, ← hs]
    exact .plain_append hall (hrest w)
  | join _ _ iha ihb =>
    rw [List.append_assoc]
    exact iha hstack (ihb hstack hrest) w
  | gap _ hb iha ihb =>
    rw [List.append_assoc]
    exact iha hstack (hb.lined_gap (ihb hstack hrest)) w
  | row _ hb iha ihb =>
    rw [List.append_assoc]
    exact iha hstack (hb.lined_line hstack (ihb hstack hrest)) w
  | empty =>
    show Lined k apart stack (page k ⟨false, w⟩ (lexeme "\x7b" :: lexeme "\x7d" :: ms))
    rw [page_opening, page_closing]
    exact .opening (.closing (hrest w))
  | @inline n as h ih =>
    have hclose : ∀ w, Lined k apart (false :: stack)
        (page k ⟨false, w⟩ (Mark.gap :: lexeme "\x7d" :: ms)) := fun w => by
      rw [page_gap, page_closing]
      exact .blank (by decide) (.closing (hrest w))
    have hinner := h.lined_gap (ih (by simpa using hstack) hclose) w
    rw [List.append_assoc]
    show Lined k apart stack (page k ⟨false, w⟩ (lexeme "\x7b" :: Mark.gap :: (as ++ _)))
    rw [page_opening]
    refine .opening ?_
    rw [page_gap] at hinner ⊢
    exact hinner
  | @indented n as h ih =>
    have hclose : ∀ w, Lined k apart (true :: stack)
        (page k ⟨false, w⟩ (line n :: lexeme "\x7d" :: ms)) := fun w => by
      rw [page_line, page_closing, ← hstack]
      exact .line (by decide) (by decide) (.closing (hrest _))
    have hinner := h.lined_line (by simp [hstack]) (ih (by simp [hstack]) hclose) w
    rw [List.append_assoc]
    show Lined k apart stack (page k ⟨false, w⟩ (lexeme "\x7b" :: line (n + 1) :: (as ++ _)))
    rw [page_opening]
    exact .opening hinner

end Block

theorem separated_append {mss mss' : List (List Mark)} (hne : mss ≠ []) (hne' : mss' ≠ []) :
    separated ms (mss ++ mss') = separated ms mss ++ ms ++ separated ms mss' := by
  induction mss with
  | nil => contradiction
  | cons as rest ih =>
    cases rest with
    | nil =>
      obtain ⟨bs, rest, rfl⟩ := List.exists_cons_of_ne_nil hne'
      rfl
    | cons bs rest =>
      simp only [List.cons_append] at ih
      simp only [List.cons_append, separated, List.append_assoc, ih (by simp)]

/-- What is behind the end of a line does not depend on what is before it. -/
theorem page_append_line (m : Margin) (depth : Nat) (bs : List Mark) :
    page k m (as ++ line depth :: bs) = page k m (as ++ [line depth]) ++ page k ⟨true, k * depth⟩ bs := by
  induction as generalizing m with
  | nil => rfl
  | cons a as ih => cases a <;> simp only [List.cons_append, page, ih, List.append_assoc]

end Mark

namespace Program

variable {σ : Type} {k : Nat} {ds es : List (Decl σ)} {s : σ}

theorem marks_of_ne_nil (hne : ds ≠ []) :
    (mk ds s).marks = separated [line 0, line 0] (ds.map Decl.marks) ++ [line 0] := by
  cases ds with
  | nil => contradiction
  | cons d ds => rfl

/-- One line feed more than that of the last declaration stands between declarations. -/
theorem marks_append (hd : ds ≠ []) (he : es ≠ []) :
    (mk (ds ++ es) s).marks = (mk ds s).marks ++ line 0 :: (mk es s).marks := by
  rw [marks_of_ne_nil hd, marks_of_ne_nil he, marks_of_ne_nil (by simp [hd]), List.map_append,
    separated_append (by simpa using hd) (by simpa using he)]
  simp

theorem marks_cons (d : Decl σ) (he : es ≠ []) :
    (mk (d :: es) s).marks = d.marks ++ line 0 :: line 0 :: (mk es s).marks := by
  rw [← List.singleton_append, marks_append (by simp) he, marks_of_ne_nil (by simp)]
  simp [separated]

theorem exists_marks_eq (d : Decl σ) (ds : List (Decl σ)) :
    ∃ ms, (mk (d :: ds) s).marks = d.marks ++ ms := by
  cases ds with
  | nil => exact ⟨_, rfl⟩
  | cons e es => exact ⟨_, marks_cons d (by simp)⟩

theorem toList_format (p : Program σ) : (p.format k).toList = page k ⟨true, 0⟩ p.marks := by
  rw [format, Mark.text, String.toList_ofList]

theorem toList_format_append (hd : ds ≠ []) (he : es ≠ []) :
    ((mk (ds ++ es) s).format k).toList =
      ((mk ds s).format k).toList ++ '\n' :: ((mk es s).format k).toList := by
  simp only [toList_format, marks_append hd he, marks_of_ne_nil hd, List.append_assoc,
    List.singleton_append]
  exact page_append_line ..

/-- How the text of a program is laid out. -/
structure Tidy (k : Nat) (p : Program σ) : Prop where
  /-- The text is empty or has one line feed at its end. -/
  ends : (p.format k).toList = [] ∨
    ∃ text c, (p.format k).toList = text ++ [c, '\n'] ∧ c ≠ '\n'
  trimmed : ∀ {before line after}, HasLine (p.format k).toList before line after →
    line.getLast? ≠ some ' '
  /-- The empty lines are those between two declarations. -/
  empty : ∀ before after, HasLine (p.format k).toList before [] after ↔
    ∃ ds es, ds ≠ [] ∧ es ≠ [] ∧ p.decls = ds ++ es ∧
      before = ((mk ds p.span).format k).toList ∧ after = ((mk es p.span).format k).toList
  /-- All other lines are indented by the braces open before their first character. -/
  indented : ∀ {before line after}, HasLine (p.format k).toList before line after → line ≠ [] →
    ∃ c rest, c ≠ ' ' ∧ line = List.replicate (k * depth (before ++ [c])) ' ' ++ c :: rest

/-- The text of a program has its lines as deep as the marks say, the first one too. -/
theorem lined_format {apart : Bool} (h : ∀ d ∈ ds, Block 0 d.marks)
    (hapart : ds.length ≤ 1 ∨ apart = true) :
    Lined k apart [] ('\n' :: ((mk ds s).format k).toList) := by
  rw [toList_format]
  induction ds with
  | nil => exact .stop
  | cons d ds ih =>
    obtain ⟨hd, hds⟩ := List.forall_mem_cons.1 h
    cases ds with
    | nil => exact hd.lined_line rfl (hd.lined rfl fun _ => .stop) 0
    | cons e es =>
      have htrue : apart = true := hapart.resolve_left (by simp)
      obtain ⟨ms, hms⟩ := exists_marks_eq (s := s) e es
      obtain ⟨c, -, hfeed, -, hpage⟩ := (hds e (List.mem_cons_self ..)).exists_page_eq k
      obtain ⟨cs, hcs⟩ := hpage 0 ms
      have hrest := ih hds (.inr htrue)
      rw [hms, hcs true] at hrest
      rw [marks_cons d (by simp)]
      refine hd.lined_line rfl (hd.lined rfl fun w => ?_) 0
      rw [page_line, page_line, hms, Nat.mul_zero, hcs true]
      exact .empty htrue hfeed hrest

end Program

theorem Text.HasLine.exists_before {text before line after : List Char}
    (h : HasLine text before line after) : ∃ front, '\n' :: before = front ++ ['\n'] := by
  rcases h.start with rfl | hlast
  · exact ⟨[], rfl⟩
  · obtain ⟨front, rfl⟩ := List.getLast?_eq_some_iff.1 hlast
    exact ⟨'\n' :: front, rfl⟩

namespace Program

variable {σ : Type} {k : Nat} {ds es : List (Decl σ)} {s : σ}

/-- The text of one declaration has no empty line. -/
theorem ne_nil_of_hasLine {d : Decl σ} {before line after : List Char} (h : Block 0 d.marks)
    (hline : HasLine ((mk [d] s).format k).toList before line after) : line ≠ [] := by
  rintro rfl
  obtain ⟨front, hfront⟩ := hline.exists_before
  have hlined : Lined k false [] _ := lined_format (s := s) (List.forall_mem_singleton.2 h) (.inl (by simp))
  have hrel := hlined.rel_of_append front after (c := '\n') (by
    rw [hline.parted, List.append_nil, ← List.cons_append, hfront]
    simp)
  cases hrel.2 rfl

theorem ends_format (h : ∀ d ∈ ds, Block 0 d.marks) : ((mk ds s).format k).toList = [] ∨
    ∃ text c, ((mk ds s).format k).toList = text ++ [c, '\n'] ∧ c ≠ '\n' := by
  obtain heq | ⟨text, c, heq, hc⟩ := (lined_format (k := k) (s := s) h (.inr (rfl : true = true))).ends
  · exact .inl (List.cons.inj heq).2
  · cases text with
    | nil => exact absurd (List.cons.inj heq).1.symm hc
    | cons b text => exact .inr ⟨text, c, (List.cons.inj heq).2, hc⟩

/-- An empty line is between two declarations: the first one has none, and what is behind the first one
and the empty line after it is the text of the others. -/
theorem exists_split (h : ∀ d ∈ ds, Block 0 d.marks) {before after : List Char}
    (hline : HasLine ((mk ds s).format k).toList before [] after) :
    ∃ as bs, as ≠ [] ∧ bs ≠ [] ∧ ds = as ++ bs ∧
      before = ((mk as s).format k).toList ∧ after = ((mk bs s).format k).toList := by
  induction ds generalizing before with
  | nil => exact absurd (congrArg List.length hline.parted) (by simp [toList_format, marks])
  | cons d ds ih =>
    obtain ⟨hd, hds⟩ := List.forall_mem_cons.1 h
    by_cases hne : ds = []
    · subst hne
      exact absurd rfl (ne_nil_of_hasLine hd hline)
    have hparted := hline.parted
    rw [← List.singleton_append, toList_format_append (by simp) hne, List.append_nil] at hparted
    obtain ⟨rest, rfl, hrest⟩ | ⟨rest, hfirst, hrest⟩ := List.append_eq_append_iff.1 hparted
    · cases rest with
      | nil => exact ⟨[d], ds, by simp, hne, rfl, by simp, (List.cons.inj hrest).2.symm⟩
      | cons c rest =>
        obtain ⟨rfl, hrest⟩ := List.cons.inj hrest
        have hstart : rest = [] ∨ rest.getLast? = some '\n' := by
          rcases List.eq_nil_or_concat rest with hnil | ⟨front, c, rfl⟩
          · exact .inl hnil
          · simpa [List.getLast?_cons] using hline.start
        obtain ⟨as, bs, ha, hb, rfl, rfl, rfl⟩ := ih hds ⟨by simpa using hrest, hstart, by simp⟩
        have hfirst : [d] ≠ [] := by simp
        exact ⟨d :: as, bs, by simp, hb, rfl, (toList_format_append hfirst ha).symm, rfl⟩
    · cases rest with
      | nil =>
        refine ⟨[d], ds, by simp, hne, rfl, ?_, (List.cons.inj hrest).2⟩
        rw [hfirst, List.append_nil]
      | cons c rest =>
        obtain ⟨rfl, -⟩ := List.cons.inj hrest
        exact absurd rfl (ne_nil_of_hasLine hd ⟨by simpa using hfirst, hline.start, by simp⟩)

/-- The text of a program whose declarations are blocks is tidy. -/
theorem tidy_of_block {p : Program σ} (h : ∀ d ∈ p.decls, Block 0 d.marks) (k : Nat) : p.Tidy k := by
  have hlined : Lined k true [] ('\n' :: (p.format k).toList) := lined_format h (.inr rfl)
  refine ⟨ends_format h, fun {before line after} hline hlast => ?_, fun before after => ⟨exists_split h, ?_⟩,
    fun {before line after} hline hne => ?_⟩
  · obtain ⟨front, rfl⟩ := List.getLast?_eq_some_iff.1 hlast
    have hrel := hlined.rel_of_append ('\n' :: (before ++ front)) after (c := ' ')
      (by rw [hline.parted]; simp)
    exact hrel.1 rfl
  · rintro ⟨as, bs, ha, hb, hdecls, rfl, rfl⟩
    have hblocks : ∀ d ∈ as, Block 0 d.marks := fun d hd => h d (by simp [hdecls, hd])
    have hformat := toList_format_append (k := k) (s := p.span) ha hb
    rw [← hdecls] at hformat
    refine ⟨by rw [List.append_nil]; exact hformat, ?_, by simp⟩
    obtain hnil | ⟨text, c, htext, -⟩ := ends_format (k := k) (s := p.span) hblocks
    · exact .inl hnil
    · exact .inr (by rw [htext]; simp)
  · obtain ⟨front, hfront⟩ := hline.exists_before
    have hparted : '\n' :: (p.format k).toList = front ++ '\n' :: (line ++ '\n' :: after) := by
      rw [hline.parted, List.append_assoc, ← List.cons_append, hfront]
      simp
    obtain ⟨c, rest, hc, heq⟩ := hlined.indented front line after hparted hline.whole hne
    have hopen : openBraces [] (front ++ ['\n', c]) = openBraces [] (before ++ [c]) := by
      rw [← List.singleton_append, ← List.append_assoc, ← hfront, List.cons_append,
        openBraces_cons (by decide) (by decide)]
    exact ⟨c, rest, hc, by rw [heq, hopen]; rfl⟩

/-- The layout of every program that can be read is tidy: each line is as deep as the braces before it
say, and only declarations are kept apart. -/
theorem tidy_of_runSource {depth : Nat} {file source : String} {p : Program Span}
    (h : (Parser.tree depth .program).runSource file source = .ok (.program p)) (k : Nat) :
    p.Tidy k := by
  refine tidy_of_block (fun d hd => ?_) k
  have hdecl := (wellFormed_of_runSource h).2 _ (List.mem_map_of_mem hd)
  exact d.marks_map _ ▸ Decl.block hdecl

theorem tidy_of_two : ∃ p : Program Span, (Parser.tree 4 .program).runSource "a.at"
    "fn f \x7bg; (\x7bh\x7d)\x7d type T = | A" = .ok (.program p) ∧ p.Tidy 2 := by
  obtain ⟨t, h⟩ : ∃ t, (Parser.tree 4 .program).runSource "a.at"
      "fn f \x7bg; (\x7bh\x7d)\x7d type T = | A" = .ok t :=
    exists_of_isOk (by decide +kernel)
  cases t with
  | program p => exact ⟨p, h, tidy_of_runSource h 2⟩
  | _ => cases (wellFormed_of_runSource h).1

end Program

end TinyFront
