import TinyFront.Diagnostic.Render
import TinyFront.Proofs.Positions
import TinyFront.Proofs.Relocating
import TinyFront.Proofs.Reports

/-!
What is shown of the source beside a report. Main statements: a report on a text is about characters of
one line, and the run of carets below that line is as long as they are and begins where they do, if both
are counted from behind the bars in front of them. The bars themselves do not stand below each other, so
that on the page carets are to the left of what they mark.
-/
namespace TinyFront

/-- The span is that of some characters of a text without blanks, or the empty one at the end. -/
structure Span.Points (s : Span) (file : String) (text before own after : List Char) : Prop where
  parted : text = before ++ own ++ after
  span_eq : s = ⟨file, byteWidth before, byteWidth before + byteWidth own⟩
  solid : ∀ c ∈ own, Text.isBlank c = false
  whole : own = [] → after = []

namespace Piece

variable {file : String} {text : List Char}

theorem points_of_placed (file : String) {x : Nat × Piece} (hx : x ∈ placed 0 (cut text))
    (hs : x.2.isSolid = true) :
    ∃ before after, Span.Points ⟨file, x.1, x.1 + x.2.width⟩ file text before x.2.text after := by
  obtain ⟨qs, rs, hcut, hoffset⟩ := mem_placed.1 hx
  have hfits := fits_of_cut hcut
  refine ⟨qs.flatMap Piece.text, rs.flatMap Piece.text, ?_, ?_, fun _ => hfits.isBlank_eq_false hs,
    fun h => absurd h hfits.text_ne_nil⟩
  · rw [← flatMap_text_cut text, hcut]
    simp
  · rw [hoffset, Nat.zero_add]
    rfl

theorem points_of_mem_tokens {t : Token} (ht : t ∈ Token.ofPieces file 0 (cut text)) :
    ∃ before own after, t.span.Points file text before own after ∧ t.text = String.ofList own := by
  rw [Token.ofPieces_eq_filterMap, List.mem_append] at ht
  obtain ht | ht := ht
  · obtain ⟨x, hx, ht⟩ := List.mem_filterMap.1 ht
    obtain ⟨k, hk, rfl⟩ := Option.map_eq_some_iff.1 ht
    have hs : x.2.isSolid = true := by
      obtain ⟨o, shape, text⟩ := x
      cases shape <;> first | rfl | cases hk
    obtain ⟨before, after, h⟩ := points_of_placed file hx hs
    exact ⟨before, _, after, h, rfl⟩
  · obtain rfl := List.mem_singleton.1 ht
    refine ⟨text, [], [], ⟨by simp, ?_, by simp, fun _ => rfl⟩, rfl⟩
    rw [Token.endMarker, widthOf_cut, Nat.zero_add]
    rfl

theorem points_of_mem_strays {d : Diagnostic} (hd : d ∈ Diagnostic.ofPieces file 0 (cut text)) :
    ∃ span before own after, d.labels = [⟨span, ""⟩] ∧ span.Points file text before own after := by
  rw [Diagnostic.ofPieces_eq_map] at hd
  obtain ⟨x, hx, rfl⟩ := List.mem_map.1 hd
  obtain ⟨hx, hshape⟩ := List.mem_filter.1 hx
  have hs : x.2.isSolid = true := by simp [isSolid, of_decide_eq_true hshape]
  obtain ⟨before, after, h⟩ := points_of_placed file hx hs
  exact ⟨_, before, _, after, rfl, h⟩

end Piece

/-- A rejection is about one of the tokens. -/
theorem Parser.exists_token_of_rejected {depth : Nat} {form : Form} {file? : Option String}
    {ts : List Token} {r : Rejection} (hended : ∃ us e, ts = us ++ [e] ∧ e.kind = .eof)
    (h : (tree depth form).run file? ts = .error (.rejected r)) : ∃ t ∈ ts, r.span = t.span := by
  obtain ⟨t, -, ht, -⟩ | ⟨e, f, he, -, halike⟩ :=
    (tree_echo depth form).run (Pairing.forall₂_ofIndex (rfl : ts.map Token.lexeme = _)) hended file? file?
  · rw [h] at ht
    cases ht
  · obtain rfl : Failure.rejected r = e := by simpa [h] using he
    cases halike with
    | rejected _ _ hpair =>
      obtain ⟨i, hi, -⟩ := hpair
      exact ⟨_, List.mem_of_getElem? hi, rfl⟩

/-- Every report on a text has one label, and that points to something on one line. -/
theorem points_of_runSource {depth : Nat} {form : Form} {file source : String} {e : SourceFailure}
    {ds : List Diagnostic} {d : Diagnostic}
    (h : (Parser.tree depth form).runSource file source = .error e) (hds : e.diagnostics? = some ds)
    (hd : d ∈ ds) : ∃ span before own after, d.labels = [⟨span, ""⟩] ∧
      span.Points file source.toList before own after := by
  cases hlex : lex file source with
  | error reports =>
    rw [Parser.runSource, hlex] at h
    cases h
    obtain rfl := Option.some.inj hds
    have hreports : Diagnostic.ofPieces file 0 (Piece.cut source.toList) = reports := by
      rw [lex_eq] at hlex
      split at hlex
      · cases hlex
      · exact Except.error.inj hlex
    exact Piece.points_of_mem_strays (hreports ▸ hd)
  | ok ts =>
    rw [runSource_of_lex _ hlex] at h
    cases hrun : (Parser.tree depth form).run (some file) ts with
    | ok t => simp [hrun, Except.mapError] at h
    | error f =>
      obtain rfl : SourceFailure.unreadable f = e := by simpa [hrun, Except.mapError] using h
      cases f with
      | rejected r =>
        obtain rfl : [r.diagnostic] = ds := by simpa [SourceFailure.diagnostics?, Failure.diagnostic?] using hds
        obtain rfl := List.mem_singleton.1 hd
        obtain ⟨t, ht, hspan⟩ := Parser.exists_token_of_rejected (stream_of_lex hlex).ended hrun
        rw [(lex_eq_ok hlex).2] at ht
        obtain ⟨before, own, after, hpoints, -⟩ := Piece.points_of_mem_tokens ht
        exact ⟨r.span, before, own, after, rfl, hspan ▸ hpoints⟩
      | _ => simp [SourceFailure.diagnostics?, Failure.diagnostic?] at hds

/-! What is shown of one line. -/

namespace Diagnostic

variable {file text : String} {before own after front line : List Char} {span : Span}

theorem feed_not_mem_of_points (h : span.Points file text.toList before own after) : '\n' ∉ own :=
  fun hc => absurd (h.solid _ hc) (by decide)

/-- Characters without blanks are shown with their line, a carriage return at the end of which is not. -/
theorem own_shown (h : span.Points file text.toList before own after) (rest : List Char) :
    ((Text.dropReturn (line ++ own ++ rest)).drop line.length).take own.length = own := by
  by_cases hown : own = []
  · rw [hown, List.length_nil, List.take_zero]
  obtain ⟨shown, hshown⟩ : ∃ shown, Text.dropReturn (line ++ own ++ rest) = line ++ own ++ shown := by
    unfold Text.dropReturn
    split
    · rename_i hlast
      obtain rfl | ⟨shown, c, rfl⟩ := List.eq_nil_or_concat' rest
      · rw [List.append_nil, List.getLast?_append_of_ne_nil _ hown] at hlast
        exact absurd (h.solid _ (List.mem_of_getLast? hlast)) (by decide)
      · exact ⟨shown, by rw [← List.append_assoc, List.dropLast_concat]⟩
    · exact ⟨rest, rfl⟩
  rw [hshown, List.append_assoc, List.drop_left, List.take_left]

theorem location_start (h : span.Points file text.toList before own after)
    (hlast : LastLine '\n' before front line) : (Source.mk file text).location span.start =
      ⟨1 + before.count '\n', line.length + 1⟩ := by
  have hchars : (Source.mk file text).chars = before ++ (own ++ after) := by
    rw [← List.append_assoc]
    exact h.parted
  rw [h.span_eq, Source.location_append hchars, Position.foldl_past_of_lastLine hlast]

theorem location_stop (h : span.Points file text.toList before own after)
    (hlast : LastLine '\n' before front line) : (Source.mk file text).location span.stop =
      ⟨1 + before.count '\n', line.length + 1 + own.length⟩ := by
  have hstop : span.stop = (byteWidth (before ++ own) : Nat) := by
    rw [h.span_eq, byteWidth_append]
    rfl
  have hchars : (Source.mk file text).chars = before ++ own ++ after := h.parted
  rw [hstop, Source.location_append hchars, List.foldl_append,
    Position.foldl_past_of_lastLine hlast, Position.foldl_past_of_not_mem (feed_not_mem_of_points h)]

theorem lineAt_start (h : span.Points file text.toList before own after)
    (hlast : LastLine '\n' before front line) : (Source.mk file text).lineAt (1 + before.count '\n' : Nat) =
      String.ofList (Text.dropReturn (line ++ own ++ after.takeWhile (· ≠ '\n'))) := by
  have hchars : (Source.mk file text).chars = before ++ (own ++ after) := by
    rw [← List.append_assoc]
    exact h.parted
  have hfeed := feed_not_mem_of_points h
  have hshown := Text.getElem?_splitLines hlast (own ++ after)
  rw [← hchars, List.takeWhile_append_of_pos fun c hc => by simpa using fun he : c = '\n' => hfeed (he ▸ hc),
    ← List.append_assoc] at hshown
  have hindex : (1 + before.count '\n' : Nat) - 1 = before.count '\n' := by omega
  rw [Source.lineAt, if_pos (by omega), Int.toNat_natCast, hindex, Source.lines, List.getElem?_map, hshown]
  rfl

theorem excerpt_of_points (ink : Ink) (h : span.Points file text.toList before own after)
    (hlast : LastLine '\n' before front line) : excerpt false ink ⟨file, text⟩ ⟨span, ""⟩ =
      ["  --> " ++ file ++ ":" ++ toString (1 + before.count '\n') ++ ":" ++ toString (line.length + 1),
        "     |",
        "  " ++ Text.padLeft 4 (toString (1 + before.count '\n')) ++ " | " ++
          String.ofList (Text.dropReturn (line ++ own ++ after.takeWhile (· ≠ '\n'))),
        "     | " ++ String.ofList (List.replicate line.length ' ') ++
          String.ofList (List.replicate (max 1 own.length) '^')] := by
  have hfile : span.file = file := by rw [h.span_eq]
  rw [excerpt, carets, location_start h hlast, location_stop h hlast, if_pos rfl, lineAt_start h hlast, hfile]
  simp [pointer, emptyGutter, numberedGutter, String.append_assoc]

/-- What is shown of a report on a text: the place where its characters begin, their line, and below that
carets in the columns that they have in it. A report on the end of the text gets one caret. -/
theorem render_of_runSource {depth : Nat} {form : Form} {e : SourceFailure} {ds : List Diagnostic}
    {d : Diagnostic} {find : String → Option Source}
    (h : (Parser.tree depth form).runSource file text = .error e) (hds : e.diagnostics? = some ds)
    (hd : d ∈ ds) (hfind : find file = some ⟨file, text⟩) : ∃ before own after front line shown : List Char,
      text.toList = before ++ own ++ after ∧
      d.labels = [⟨⟨file, byteWidth before, byteWidth before + byteWidth own⟩, ""⟩] ∧
      (own = [] → after = []) ∧ '\n' ∉ own ∧ LastLine '\n' before front line ∧
      shown = Text.dropReturn (line ++ own ++ after.takeWhile (· ≠ '\n')) ∧
      (shown.drop line.length).take own.length = own ∧
      d.render false find = String.intercalate "\n" ([d.header false,
        "  --> " ++ file ++ ":" ++ toString (1 + before.count '\n') ++ ":" ++ toString (line.length + 1),
        "     |",
        "  " ++ Text.padLeft 4 (toString (1 + before.count '\n')) ++ " | " ++ String.ofList shown,
        "     | " ++ String.ofList (List.replicate line.length ' ') ++
          String.ofList (List.replicate (max 1 own.length) '^')] ++ d.notes.map (noteLine false)) := by
  obtain ⟨span, before, own, after, hlabels, hpoints⟩ := points_of_runSource h hds hd
  obtain ⟨front, line, hlast⟩ := exists_lastLine '\n' before
  refine ⟨before, own, after, front, line, _, hpoints.parted, by rw [hlabels, hpoints.span_eq],
    hpoints.whole, feed_not_mem_of_points hpoints, hlast, rfl, own_shown hpoints _, ?_⟩
  have hfile : find span.file = some ⟨file, text⟩ := by rw [hpoints.span_eq, hfind]
  rw [render, renderLines, hlabels, List.flatMap_singleton, labelLines, hfile]
  simp only [excerpt_of_points _ hpoints hlast]
  simp [remark]

/-- The second of two stray characters, in a line that ends with a carriage return. -/
theorem render_of_runSource_of_stray :
    let text := "x é λ\r\n1"
    let d := stray ⟨.stray, ['λ']⟩ ⟨"a", 5, 7⟩
    let find := fun name => if name = "a" then some (Source.mk "a" text) else none
    ∃ e ds, (Parser.tree 3 .expression).runSource "a" text = .error e ∧ e.diagnostics? = some ds ∧ d ∈ ds ∧
      find "a" = some ⟨"a", text⟩ ∧ ∃ before own after front line shown : List Char,
      text.toList = before ++ own ++ after ∧
      d.labels = [⟨⟨"a", byteWidth before, byteWidth before + byteWidth own⟩, ""⟩] ∧
      (own = [] → after = []) ∧ '\n' ∉ own ∧ LastLine '\n' before front line ∧
      shown = Text.dropReturn (line ++ own ++ after.takeWhile (· ≠ '\n')) ∧
      (shown.drop line.length).take own.length = own ∧
      d.render false find = String.intercalate "\n" ([d.header false,
        "  --> " ++ "a" ++ ":" ++ toString (1 + before.count '\n') ++ ":" ++ toString (line.length + 1),
        "     |",
        "  " ++ Text.padLeft 4 (toString (1 + before.count '\n')) ++ " | " ++ String.ofList shown,
        "     | " ++ String.ofList (List.replicate line.length ' ') ++
          String.ofList (List.replicate (max 1 own.length) '^')] ++ d.notes.map (noteLine false)) := by
  intro text d find
  have hstrays : ofPieces "a" 0 (Piece.cut text.toList) = [stray ⟨.stray, ['é']⟩ ⟨"a", 2, 4⟩, d] := by
    decide +kernel
  have hlex : lex "a" text = .error [stray ⟨.stray, ['é']⟩ ⟨"a", 2, 4⟩, d] := by
    rw [lex_eq, hstrays]
    rfl
  have hrun : (Parser.tree 3 .expression).runSource "a" text =
      .error (.strays [stray ⟨.stray, ['é']⟩ ⟨"a", 2, 4⟩, d]) := by
    rw [Parser.runSource, hlex]
  have hmem : d ∈ [stray ⟨.stray, ['é']⟩ ⟨"a", 2, 4⟩, d] := by simp
  exact ⟨_, _, hrun, rfl, hmem, rfl, render_of_runSource hrun rfl hmem rfl⟩

/-! The bars in front of what is shown. -/

/-- The column of the first bar, counted from zero. -/
def bar (line : String) : Nat := line.toList.idxOf '|'

theorem bar_of_append {line : String} {cs ds : List Char} (hline : line.toList = cs ++ '|' :: ds)
    (hcs : '|' ∉ cs) : bar line = cs.length := by
  rw [bar, hline, List.idxOf_append_of_notMem hcs, List.idxOf_cons_self, Nat.add_zero]

theorem bar_not_mem_toString (n : Nat) : '|' ∉ (toString n).toList := by
  intro h
  rw [show (toString n).toList = Nat.toDigits 10 n by simp] at h
  exact absurd (Nat.isDigit_of_mem_toDigits (by decide) (by decide) h) (by decide)

/-- What stands in front of the bar of a line. -/
def numberColumns (n : Nat) : List Char :=
  [' ', ' '] ++ List.replicate (4 - (toString n).length) ' ' ++ (toString n).toList ++ [' ']

def numberedLine (n : Nat) (shown : String) : String := numberedGutter false n ++ " " ++ shown

theorem toList_numberedLine (n : Nat) (shown : String) :
    (numberedLine n shown).toList = numberColumns n ++ '|' :: ' ' :: shown.toList := by
  simp [numberedLine, numberedGutter, numberColumns, Text.padLeft]

theorem length_numberColumns (n : Nat) : (numberColumns n).length = 3 + max 4 (toString n).length := by
  simp only [numberColumns, List.length_append, List.length_replicate, List.length_cons, List.length_nil,
    String.length_toList]
  omega

theorem bar_numberedLine (n : Nat) (shown : String) :
    bar (numberedLine n shown) = 3 + max 4 (toString n).length := by
  rw [bar_of_append (toList_numberedLine n shown), length_numberColumns]
  have hdigits := bar_not_mem_toString n
  simp only [numberColumns, List.mem_append, not_or]
  exact ⟨⟨⟨by decide, fun h => absurd (List.eq_of_mem_replicate h) (by decide)⟩, hdigits⟩, by decide⟩

def caretLine (start stop : Position) : String :=
  emptyGutter false ++ " " ++ String.ofList (List.replicate (start.column - 1) ' ') ++
    String.ofList (List.replicate (max 1 (stop.column - start.column)) '^')

theorem toList_caretLine (start stop : Position) : (caretLine start stop).toList =
    [' ', ' ', ' ', ' ', ' '] ++ '|' :: ' ' :: (List.replicate (start.column - 1) ' ' ++
      List.replicate (max 1 (stop.column - start.column)) '^') := by
  simp [caretLine, emptyGutter]

theorem getElem?_numberedLine (n : Nat) (shown : String) (i : Nat) :
    (numberedLine n shown).toList[5 + max 4 (toString n).length + i]? = shown.toList[i]? := by
  rw [toList_numberedLine, List.getElem?_append_right (by rw [length_numberColumns]; omega),
    length_numberColumns, show 5 + max 4 (toString n).length + i - (3 + max 4 (toString n).length) = i + 2 by omega]
  rfl

theorem getElem?_caretLine {start stop : Position} (hstart : 1 ≤ start.column) {k : Nat}
    (hk : k < max 1 (stop.column - start.column)) :
    (caretLine start stop).toList[6 + start.column + k]? = some '^' := by
  obtain ⟨line, column⟩ := start
  obtain ⟨column, rfl⟩ := Nat.exists_eq_add_one.2 hstart
  have hindex : 6 + (column + 1) + k - 5 = column + k + 2 := by omega
  rw [toList_caretLine, List.getElem?_append_right (by simp; omega)]
  simp only [List.length_cons, List.length_nil, Nat.zero_add, Nat.reduceAdd, hindex, List.getElem?_cons_succ,
    Nat.add_sub_cancel]
  rw [List.getElem?_append_right (by simp), List.length_replicate, Nat.add_sub_cancel_left,
    List.getElem?_replicate, if_pos (by simpa using hk)]

theorem labelLines_of_line {find : String → Option Source} {source : Source} {l : Label} (ink : Ink)
    (hfind : find l.span.file = some source)
    (hline : (source.location l.span.start).line = (source.location l.span.stop).line) :
    ∃ place, labelLines false ink find l = [place] ++ [emptyGutter false,
      numberedLine (source.location l.span.start).line (source.lineAt (source.location l.span.start).line),
      caretLine (source.location l.span.start) (source.location l.span.stop)] ++ remark false ink l := by
  refine ⟨pointer false (l.span.file ++ ":" ++ toString (source.location l.span.start).line ++ ":" ++
    toString (source.location l.span.start).column), ?_⟩
  simp only [labelLines, hfind, excerpt, carets, if_pos hline]
  rfl

/-- The bar in front of a line stands behind its number, which takes four columns at least. The bars above
and below are where they would be if it took two, so carets are to the left of the characters that they
mark. -/
theorem carets_left_of_marked {d : Diagnostic} {l : Label} {find : String → Option Source} {source : Source}
    (hl : l ∈ d.labels) (hfind : find l.span.file = some source)
    (hline : (source.location l.span.start).line = (source.location l.span.stop).line) :
    let start := source.location l.span.start
    let stop := source.location l.span.stop
    let width := max 4 (toString start.line).length
    ∃ above blank numbered marked below,
      d.renderLines false find = above ++ [blank, numbered, marked] ++ below ∧
      bar blank = 5 ∧ bar numbered = 5 + (width - 2) ∧ bar marked = 5 ∧
      ∀ k < max 1 (stop.column - start.column),
        marked.toList[6 + start.column + k]? = some '^' ∧
        numbered.toList[6 + start.column + k + (width - 2)]? =
          (source.lineAt start.line).toList[start.column - 1 + k]? := by
  intro start stop width
  have hcolumn : 1 ≤ start.column := (Position.walk_pos ⟨Nat.le_refl 1, Nat.le_refl 1⟩).2
  have hwidth : 4 ≤ width := Nat.le_max_left ..
  obtain ⟨ls, ls', hlabels⟩ := List.append_of_mem hl
  obtain ⟨place, hlines⟩ := labelLines_of_line (Ink.ofSeverity d.severity) hfind hline
  refine ⟨d.header false :: (ls.flatMap (labelLines false (Ink.ofSeverity d.severity) find) ++ [place]),
    emptyGutter false, numberedLine start.line (source.lineAt start.line), caretLine start stop,
    remark false (Ink.ofSeverity d.severity) l ++
      (ls'.flatMap (labelLines false (Ink.ofSeverity d.severity) find) ++ d.notes.map (noteLine false)),
    ?_, rfl, ?_, ?_, fun k hk => ⟨getElem?_caretLine hcolumn hk, ?_⟩⟩
  · rw [renderLines, hlabels, List.flatMap_append, List.flatMap_cons, hlines]
    simp only [List.append_assoc, List.cons_append, List.nil_append]
    rfl
  · rw [bar_numberedLine]
    omega
  · exact bar_of_append (toList_caretLine start stop) (by decide)
  · have hindex : 6 + start.column + k + (width - 2) = 5 + width + (start.column - 1 + k) := by omega
    rw [hindex]
    exact getElem?_numberedLine _ _ _

/-- The end of a text of two characters is marked two columns too far to the left. -/
theorem carets_left_of_marked_of_end :
    let source : Source := ⟨"a", "fn"⟩
    let l : Label := ⟨⟨"a", 2, 2⟩, ""⟩
    let d : Diagnostic := ⟨.error, "E200", "expected identifier, found end of input", [l], []⟩
    let find := fun _ : String => some source
    let start := source.location l.span.start
    let stop := source.location l.span.stop
    let width := max 4 (toString start.line).length
    l ∈ d.labels ∧ find l.span.file = some source ∧ start.line = stop.line ∧
      ∃ above blank numbered marked below,
        d.renderLines false find = above ++ [blank, numbered, marked] ++ below ∧
        bar blank = 5 ∧ bar numbered = 5 + (width - 2) ∧ bar marked = 5 ∧
        ∀ k < max 1 (stop.column - start.column),
          marked.toList[6 + start.column + k]? = some '^' ∧
          numbered.toList[6 + start.column + k + (width - 2)]? =
            (source.lineAt start.line).toList[start.column - 1 + k]? := by
  intro source l d find start stop width
  have hl : l ∈ d.labels := List.mem_singleton_self l
  exact ⟨hl, rfl, rfl, carets_left_of_marked hl rfl rfl⟩

end Diagnostic

end TinyFront
