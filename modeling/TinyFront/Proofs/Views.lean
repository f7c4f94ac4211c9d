import TinyFront.Command.Run
import TinyFront.Proofs.Listing
import TinyFront.Proofs.Programs
import TinyFront.Proofs.Queues

/-!
The view of the tree of a file. Main statement: what is printed for a program tells all of it but the name
of its file, and the lines with a byte range are those of the program and of its nodes, in their order,
unless the calls run out before the end of the listing.
-/
namespace TinyFront

/-! The file of a program. -/

theorem Parser.file_of_program (depth : Nat) (file : String) (c : Cursor) :
    (program depth).Yields (fun _ => True) file c fun _ p => p.span.file = file := by
  unfold program
  intro _ p c' h
  rw [bind_apply] at h
  split at h
  · obtain ⟨rfl, -⟩ := Outcome.done.inj h
    exact ⟨trivial, rfl⟩
  · cases h

/-- A program and its nodes have their places in the file that is read. -/
theorem file_eq_of_readProgram {file text : String} {p : Program Span} (h : readProgram file text = .ok p) :
    p.span.file = file ∧ ∀ x ∈ (Tree.program p).nodes, x.2.file = file := by
  constructor
  · obtain ⟨ts, c, c', -, -, -, hdone⟩ := Parser.exists_rides_of_runSource h
    exact (Parser.file_of_program Parser.maxDepth file c trivial p c' hdone).2
  · obtain ⟨ts, c, c', -, hrides, hstart, hdone⟩ :=
      Parser.exists_rides_of_runSource (readProgram_eq_ok.1 h)
    intro x hx
    exact ((Parser.tree_nests Parser.maxDepth .program hstart hrides _ c' hdone).2.aligned x hx).file_eq

theorem map_inFile_of_readProgram {file text : String} {p : Program Span}
    (h : readProgram file text = .ok p) : p.map (Span.inFile file) = p := by
  have hstay : ∀ s : Span, s.file = file → s.inFile file = s := by
    rintro s rfl
    rfl
  obtain ⟨hspan, hnodes⟩ := file_eq_of_readProgram h
  exact Program.map_eq_self (hstay p.span hspan) fun x hx => hstay x.2 (hnodes x hx)

/-! Lines on a stream. -/

namespace Text

theorem toList_join_lines_cons (l : String) (ls : List String) :
    (String.join ((l :: ls).map (· ++ "\n"))).toList =
      l.toList ++ '\n' :: (String.join (ls.map (· ++ "\n"))).toList := by
  simp

theorem splitLines_join_lines {ls : List String} (h : ∀ l ∈ ls, '\n' ∉ l.toList) :
    splitLines (String.join (ls.map (· ++ "\n"))).toList = ls.map String.toList ++ [[]] := by
  rw [splitLines]
  induction ls with
  | nil => rfl
  | cons l ls ih =>
    obtain ⟨hl, hls⟩ := List.forall_mem_cons.1 h
    rw [toList_join_lines_cons, splitAt_append, splitAt_of_not_mem hl, ih hls]
    rfl

theorem join_lines_inj {ls ls' : List String} (h : ∀ l ∈ ls, '\n' ∉ l.toList)
    (h' : ∀ l ∈ ls', '\n' ∉ l.toList)
    (heq : String.join (ls.map (· ++ "\n")) = String.join (ls'.map (· ++ "\n"))) : ls = ls' := by
  have hchars : ls.map String.toList ++ [[]] = ls'.map String.toList ++ [[]] := by
    rw [← splitLines_join_lines h, ← splitLines_join_lines h', heq]
  exact List.map_injective_iff.2 (fun _ _ => String.toList_inj.1) (List.append_cancel_right hchars)

end Text

namespace Command

open Files Listing

theorem not_mem_of_isPrintable {s : String} (h : isPrintable s = true) {c : Char}
    (hc : Text.isPrintable c = false) : c ∉ s.toList := fun hmem =>
  Bool.false_ne_true (hc.symm.trans (List.all_eq_true.1 h c hmem))

/-- Printable lines come out the same with and without codes. -/
theorem Result.stream_eq_join {r : Result} {ls : List String} (hr : r.outputs = ls.map .say)
    (h : ∀ l ∈ ls, isPrintable l = true) (terminal : Bool) :
    r.stream terminal Output.onOut = String.join (ls.map (· ++ "\n")) := by
  rw [Result.stream, hr, List.map_map]
  refine congrArg String.join (List.map_congr_left fun l hl => ?_)
  have hplain : Text.stripCodes (l ++ "\n") = l ++ "\n" := by
    have hnone : Text.escapeCode ∉ (l ++ "\n").toList := by
      rw [String.toList_append, List.mem_append]
      rintro (hmem | hmem)
      · exact not_mem_of_isPrintable (h l hl) (by decide) hmem
      · exact absurd hmem (by decide)
    rw [Text.stripCodes, Text.withoutCodes_of_not_mem hnone, String.ofList_toList]
  show (if terminal = true then l ++ "\n" else Text.stripCodes (l ++ "\n")) = l ++ "\n"
  rw [hplain, ite_self]

section

variable {d e : Disk} {file other text text' : String} {config config' : Config} {p q : Program Span}

/-- The view of a program is its listing, as far as the calls go. -/
theorem outputs_view (hfile : prepareFile d file = .ok (config, text)) (hp : readProgram file text = .ok p) :
    (view d file).outputs = (p.listingWithin maxCalls).map .say ∧
      ((view d file).exit = 0 ↔ p.levels ≤ maxCalls) := by
  simp only [view, hfile, parse, hp]
  split
  · next h => exact ⟨by rw [Program.listingWithin_eq_listing_iff.2 h], iff_of_true rfl h⟩
  · next h => exact ⟨rfl, iff_of_false Nat.one_ne_zero h⟩

theorem view_eq (hfile : prepareFile d file = .ok (config, text)) (hp : readProgram file text = .ok p)
    (hfit : p.levels ≤ maxCalls) : view d file = ⟨0, p.listing.map .say, d, none⟩ := by
  simp only [view, hfile, parse, hp, if_pos hfit]

/-- The view of a program is its listing, where the calls do not run out. A program with the same view is
the same but for the name of its file, and the lines with a range are those of the program and of what is
beneath it, each node before its fields, and these in the order of its kind. -/
theorem view_tells_program (hfile : prepareFile d file = .ok (config, text))
    (hp : readProgram file text = .ok p) (hother : prepareFile e other = .ok (config', text'))
    (hq : readProgram other text' = .ok q) (hfit : p.levels ≤ maxCalls) (hfit' : q.levels ≤ maxCalls) :
    view d file = ⟨0, p.listing.map .say, d, none⟩ ∧ p.outline.Fits ∧
    p.listing.filterMap rangePart? = (("Program", p.span) :: (Tree.program p).nodes).map nodeText ∧
    ∀ terminal terminal', (view d file).stream terminal Output.onOut =
      (view e other).stream terminal' Output.onOut →
      p.map (Span.inFile other) = q ∧ (file = other → p = q) := by
  have hview := view_eq hfile hp hfit
  refine ⟨hview, p.fits, p.filterMap_listing, fun terminal terminal' hstream => ?_⟩
  have hlines : ∀ {p : Program Span}, ∀ l ∈ p.listing, '\n' ∉ l.toList := fun l hl =>
    not_mem_of_isPrintable (Program.isPrintable_listing _ l hl) (by decide)
  rw [hview, view_eq hother hq hfit', Result.stream_eq_join rfl p.isPrintable_listing,
    Result.stream_eq_join rfl q.isPrintable_listing] at hstream
  have hsame := Program.listing_inj (Text.join_lines_inj hlines hlines hstream) other
  rw [map_inFile_of_readProgram hq] at hsame
  refine ⟨hsame, ?_⟩
  rintro rfl
  exact (map_inFile_of_readProgram hp).symm.trans hsame

theorem levels_le_of_readProgram (hp : readProgram file text = .ok p)
    (h : (readProgram file text).toOption.all (fun p => p.levels ≤ maxCalls) = true) : p.levels ≤ maxCalls := by
  rw [hp] at h
  exact of_decide_eq_true h

end

theorem view_tells_program_of_tab :
    let d := Disk.ofEntries [] [(["a.at"], .file "fn f \x7b 1 \x7d".toUTF8)]
    let e := Disk.ofEntries [] [(["b.at"], .file "fn f\t\x7b 1 \x7d".toUTF8)]
    ∃ p q : Program Span, readProgram "a.at" "fn f \x7b 1 \x7d" = .ok p ∧
      readProgram "b.at" "fn f\t\x7b 1 \x7d" = .ok q ∧ p.levels ≤ maxCalls ∧ q.levels ≤ maxCalls ∧
      (view d "a.at").stream true Output.onOut = (view e "b.at").stream false Output.onOut ∧
      p.map (Span.inFile "b.at") = q := by
  intro d e
  have hread : d.readText (.ofString "a.at") = .ok "fn f \x7b 1 \x7d" := by
    have hbytes : d.readBytes (.ofString "a.at") = .ok "fn f \x7b 1 \x7d".toUTF8 := by rfl
    rw [Disk.readText_of_readBytes hbytes]
    decide
  have hread' : e.readText (.ofString "b.at") = .ok "fn f\t\x7b 1 \x7d" := by
    have hbytes : e.readBytes (.ofString "b.at") = .ok "fn f\t\x7b 1 \x7d".toUTF8 := by rfl
    rw [Disk.readText_of_readBytes hbytes]
    decide
  have hfile : prepareFile d "a.at" = .ok (.standard, "fn f \x7b 1 \x7d") :=
    prepareFile_eq_ok.2 ⟨hread, none, by rfl⟩
  have hother : prepareFile e "b.at" = .ok (.standard, "fn f\t\x7b 1 \x7d") :=
    prepareFile_eq_ok.2 ⟨hread', none, by rfl⟩
  obtain ⟨p, hp⟩ : ∃ p, readProgram "a.at" "fn f \x7b 1 \x7d" = .ok p := exists_of_isOk (by decide +kernel)
  obtain ⟨q, hq⟩ : ∃ q, readProgram "b.at" "fn f\t\x7b 1 \x7d" = .ok q := exists_of_isOk (by decide +kernel)
  have hlisting : p.listing = q.listing := by
    have hboth : (readProgram "a.at" "fn f \x7b 1 \x7d").toOption.map Program.listing =
        (readProgram "b.at" "fn f\t\x7b 1 \x7d").toOption.map Program.listing := by decide +kernel
    rw [hp, hq] at hboth
    exact Option.some.inj hboth
  have hfit : p.levels ≤ maxCalls := levels_le_of_readProgram hp (by decide +kernel)
  have hfit' : q.levels ≤ maxCalls := levels_le_of_readProgram hq (by decide +kernel)
  have hstream : (view d "a.at").stream true Output.onOut = (view e "b.at").stream false Output.onOut := by
    rw [view_eq hfile hp hfit, view_eq hother hq hfit', Result.stream_eq_join rfl p.isPrintable_listing,
      Result.stream_eq_join rfl q.isPrintable_listing, hlisting]
  obtain ⟨-, -, -, htells⟩ := view_tells_program hfile hp hother hq hfit hfit'
  exact ⟨p, q, hp, hq, hfit, hfit', hstream, (htells true false hstream).1⟩

/-- Two files with the same text have the same view, and their programs are in different files. -/
theorem view_tells_no_file :
    let text := "fn f \x7b 1 \x7d"
    let d := Disk.ofEntries [] [(["a.at"], .file text.toUTF8), (["b.at"], .file text.toUTF8)]
    (view d "a.at").stream true Output.onOut = (view d "b.at").stream true Output.onOut ∧
    ∃ p q : Program Span, readProgram "a.at" text = .ok p ∧ readProgram "b.at" text = .ok q ∧ p ≠ q := by
  intro text d
  have hfile : ∀ file ∈ ["a.at", "b.at"], prepareFile d file = .ok (.standard, text) := by
    have hbytes : ∀ file ∈ ["a.at", "b.at"], d.readBytes (.ofString file) = .ok text.toUTF8 := by
      rintro file (_ | ⟨_, _ | ⟨_, ⟨⟩⟩⟩) <;> rfl
    have hload : ∀ file ∈ ["a.at", "b.at"], Config.load d (.ofString file) = .ok (.standard, none) := by
      rintro file (_ | ⟨_, _ | ⟨_, ⟨⟩⟩⟩) <;> rfl
    intro file hmem
    refine prepareFile_eq_ok.2 ⟨?_, none, hload file hmem⟩
    rw [Disk.readText_of_readBytes (hbytes file hmem)]
    decide
  obtain ⟨p, hp⟩ : ∃ p, readProgram "a.at" text = .ok p := exists_of_isOk (by decide +kernel)
  obtain ⟨q, hq⟩ : ∃ q, readProgram "b.at" text = .ok q := exists_of_isOk (by decide +kernel)
  have hlisting : p.listing = q.listing := by
    have hboth : (readProgram "a.at" text).toOption.map Program.listing =
        (readProgram "b.at" text).toOption.map Program.listing := by decide +kernel
    rw [hp, hq] at hboth
    exact Option.some.inj hboth
  refine ⟨?_, p, q, hp, hq, ?_⟩
  · rw [view_eq (hfile _ (by simp)) hp (levels_le_of_readProgram hp (by decide +kernel)),
      view_eq (hfile _ (by simp)) hq (levels_le_of_readProgram hq (by decide +kernel)),
      Result.stream_eq_join rfl p.isPrintable_listing, Result.stream_eq_join rfl q.isPrintable_listing,
      hlisting]
  · rintro rfl
    have hsame := (file_eq_of_readProgram hp).1.symm.trans (file_eq_of_readProgram hq).1
    exact absurd hsame (by decide)

end Command

end TinyFront
