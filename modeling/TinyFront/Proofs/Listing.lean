import TinyFront.Proofs.Branches
import TinyFront.Proofs.Layout
import TinyFront.Proofs.Quotes

/-!
The listing of a tree read back. Main statements: each line tells its depth, its name and what stands
behind that, so that the listing of a program tells all of it but the names of files; the lines with a
byte range are those of the nodes that have one; and the whole listing is printed exactly where the nodes
around each other are no more than the calls that may be open.
-/
namespace TinyFront

namespace Listing

open Outline (indentation Fits FieldsFit AllFit)

variable {file : String}

def Value.shown : Value → String
  | text s => Text.quote s
  | texts ss => Text.quoteAll ss
  | truth b => if b then "True" else "False"
  | number n => toString n

def rangeText (range : Int × Int) : String := "[" ++ toString range.1 ++ ".." ++ toString range.2 ++ ")"

namespace Item

/-- What stands behind the name. -/
def tail : Item → String
  | node _ none => ""
  | node _ (some range) => " " ++ rangeText range
  | heading _ => ":"
  | entry _ v => ": " ++ v.shown

def text (i : Item) : String := i.name ++ i.tail

end Item

def rowLine (row : Nat × Item) : Outline.Line := ⟨row.1, row.2.text⟩

def rowText (row : Nat × Item) : String := (rowLine row).shown

theorem rowText_eq (row : Nat × Item) : rowText row = indentation row.1 ++ row.2.text := rfl

theorem head_eq (depth : Nat) (label : String) (s : Option Span) :
    Outline.head depth label s = rowLine (depth, .node label (s.map Span.range)) := by
  cases s with
  | none => simp [Outline.head, rowLine, Item.text, Item.name, Item.tail]
  | some s =>
    simp only [Outline.head, rowLine, Item.text, Item.name, Item.tail, Option.map_some,
      String.append_assoc]
    rfl

theorem heading_eq (depth : Nat) (name : String) :
    Outline.heading depth name = rowLine (depth + 1, .heading name) := rfl

theorem entry_eq (depth : Nat) (name : String) (v : Value) :
    Outline.entry depth name v.shown = rowLine (depth + 1, .entry name v) := by
  simp only [Outline.entry, rowLine, Item.text, Item.name, Item.tail, String.append_assoc]

open Branch (rows rowsAll)

mutual

theorem lines_eq_map : ∀ (o : Outline) (depth : Nat),
    o.lines depth = (rows depth (branch o)).map rowLine
  | ⟨label, s, fields⟩, depth => by
    rw [Outline.lines, branch, rows, List.map_cons, head_eq, fieldLines_eq_map fields depth]

theorem fieldLines_eq_map : ∀ (fs : List OutlineField) (depth : Nat),
    Outline.fieldLines depth fs = (rowsAll (depth + 1) (fieldBranches fs)).map rowLine
  | [], _ => rfl
  | .node name o :: fs, depth => by
    simp [Outline.fieldLines, fieldBranches, rowsAll, rows, heading_eq, lines_eq_map o,
      fieldLines_eq_map fs]
  | .nodes name [] :: fs, depth =>
    congrArg₂ List.cons (entry_eq depth name (.texts [])) (fieldLines_eq_map fs depth)
  | .nodes name (o :: os) :: fs, depth => by
    simp [Outline.fieldLines, fieldBranches, rowsAll, rows, heading_eq, linesAll_eq_map (o :: os),
      fieldLines_eq_map fs]
  | .text name v :: fs, depth =>
    congrArg₂ List.cons (entry_eq depth name (.text v)) (fieldLines_eq_map fs depth)
  | .texts name vs :: fs, depth =>
    congrArg₂ List.cons (entry_eq depth name (.texts vs)) (fieldLines_eq_map fs depth)
  | .truth name v :: fs, depth =>
    congrArg₂ List.cons (entry_eq depth name (.truth v)) (fieldLines_eq_map fs depth)
  | .number name v :: fs, depth =>
    congrArg₂ List.cons (entry_eq depth name (.number v)) (fieldLines_eq_map fs depth)
  | .absent _ :: fs, depth => fieldLines_eq_map fs depth

theorem linesAll_eq_map : ∀ (os : List Outline) (depth : Nat),
    Outline.linesAll depth os = (rowsAll depth (branches os)).map rowLine
  | [], _ => rfl
  | o :: os, depth => by
    rw [Outline.linesAll, branches, rowsAll, List.map_append, lines_eq_map o, linesAll_eq_map os]

end

theorem shown_linesAll (os : List Outline) (depth : Nat) :
    (Outline.linesAll depth os).map Outline.Line.shown = (rowsAll depth (branches os)).map rowText := by
  rw [linesAll_eq_map, List.map_map]
  rfl

/-! What is told by the characters of a line. -/

theorem isDigit_of_mem_toString {n : Nat} {c : Char} (h : c ∈ (toString n).toList) :
    c.isDigit = true := List.all_eq_true.1 (Bool.and_eq_true_iff.1 (isDecimal_toString n)).2 c h

theorem toString_nat_inj {n m : Nat} (h : toString n = toString m) : n = m := by
  rw [← decimalValue_toString n, h, decimalValue_toString]

theorem toString_negSucc (n : Nat) : toString (Int.negSucc n) = "-" ++ toString (n + 1) := rfl

theorem toString_int_inj {a b : Int} (h : toString a = toString b) : a = b := by
  have hsign : ∀ n m : Nat, toString (Int.ofNat n) ≠ toString (Int.negSucc m) := by
    intro n m h
    have hmem : '-' ∈ (toString n).toList := by
      rw [show toString n = toString (Int.ofNat n) from rfl, h, toString_negSucc, String.toList_append]
      exact List.mem_append_left _ (by decide)
    exact absurd (isDigit_of_mem_toString hmem) (by decide)
  cases a with
  | ofNat n =>
    cases b with
    | ofNat m => exact congrArg _ (toString_nat_inj h)
    | negSucc m => exact absurd h (hsign n m)
  | negSucc n =>
    cases b with
    | ofNat m => exact absurd h.symm (hsign m n)
    | negSucc m =>
      rw [toString_negSucc, toString_negSucc, String.append_right_inj] at h
      rw [Nat.succ.inj (toString_nat_inj h)]

/-- An integer is shown as digits, with a sign before them if it is negative. -/
theorem eq_or_isDigit_of_mem_toString {a : Int} {c : Char} (h : c ∈ (toString a).toList) :
    c = '-' ∨ c.isDigit = true := by
  cases a with
  | ofNat n => exact .inr (isDigit_of_mem_toString (n := n) h)
  | negSucc n =>
    rw [toString_negSucc, String.toList_append, List.mem_append] at h
    obtain h | h := h
    · exact .inl (by simpa using h)
    · exact .inr (isDigit_of_mem_toString h)

/-- What the first character of a value tells of its kind. -/
def kindOf (cs : List Char) : FieldKind :=
  match cs.head? with
  | some c => if c = '\'' ∨ c = '"' then .text else if c = '[' then .texts else if c.isDigit then .number
    else .truth
  | none => .truth

def Value.kind : Value → FieldKind
  | text _ => .text
  | texts _ => .texts
  | truth _ => .truth
  | number _ => .number

theorem kindOf_shown (v : Value) : kindOf v.shown.toList = v.kind := by
  cases v with
  | text s =>
    have hquote := Text.quoteFor_eq s.toList
    have hhead : (Text.quote s).toList.head? = some (Text.quoteFor s.toList) := by
      rw [Text.quote, String.toList_ofList]
      rfl
    simp only [kindOf, Value.shown, hhead, hquote, if_true, Value.kind]
  | texts ss =>
    have hhead : (Text.quoteAll ss).toList.head? = some '[' := by
      rw [Text.quoteAll, String.toList_append, String.toList_append]
      rfl
    simp only [kindOf, Value.shown, hhead]
    rfl
  | truth b => cases b <;> decide
  | number n =>
    have hdecimal := isDecimal_toString n
    have hrest : ∀ c : Char, c.isDigit = true → kindOf [c] = .number := by
      intro c hc
      have hne : c ≠ '\'' ∧ c ≠ '"' ∧ c ≠ '[' := by refine ⟨?_, ?_, ?_⟩ <;> rintro rfl <;> cases hc
      simp [kindOf, hne, hc]
    rw [Value.shown, Value.kind]
    cases hchars : (toString n).toList with
    | nil => rw [hchars] at hdecimal; cases hdecimal
    | cons c cs => exact hrest c (isDigit_of_mem_toString (hchars ▸ List.mem_cons_self ..))

theorem Value.shown_inj {v w : Value} (h : v.shown = w.shown) : v = w := by
  have hkind : v.kind = w.kind := by rw [← kindOf_shown, h, kindOf_shown]
  cases v with
  | text s => cases w <;> cases hkind; rw [Text.quote_inj h]
  | texts ss => cases w <;> cases hkind; rw [Text.quoteAll_inj h]
  | truth b =>
    cases w <;> cases hkind
    rename_i c
    cases b <;> cases c <;> first | rfl | exact absurd h (by decide)
  | number n => cases w <;> cases hkind; rw [toString_nat_inj h]

theorem rangeText_inj {x y : Int × Int} (h : rangeText x = rangeText y) : x = y := by
  have hchars := congrArg String.toList h
  simp only [rangeText, String.toList_append, List.append_assoc] at hchars
  have hall : ∀ a : Int, (toString a).toList.all (· != '.') = true := by
    refine fun a => List.all_eq_true.2 fun c hc => bne_iff_ne.2 ?_
    rintro rfl
    exact absurd (eq_or_isDigit_of_mem_toString hc) (by decide)
  obtain ⟨hstart, hrest⟩ := Text.append_inj_of_all (hall x.1) (hall y.1) (by simp) (by simp)
    (List.append_cancel_left hchars)
  have hstop := List.append_cancel_right (List.append_cancel_left hrest)
  exact Prod.ext (toString_int_inj (String.toList_inj.1 hstart))
    (toString_int_inj (String.toList_inj.1 hstop))

theorem Item.tail_inj {i j : Item} (hname : i.name = j.name) (h : i.tail = j.tail) : i = j := by
  have hchars := congrArg String.toList h
  cases i with
  | node label range =>
    cases j with
    | node label' range' =>
      cases range <;> cases range' <;> simp [tail] at hchars h
      · rw [show label = label' from hname]
      · rw [show label = label' from hname, rangeText_inj h]
    | heading name => cases range <;> simp [tail] at hchars
    | entry name v => cases range <;> simp [tail] at hchars
  | heading name =>
    cases j with
    | node label range => cases range <;> simp [tail] at hchars
    | heading name' => rw [show name = name' from hname]
    | entry name' v => simp [tail] at hchars
  | entry name v =>
    cases j with
    | node label range => cases range <;> simp [tail] at hchars
    | heading name' => simp [tail] at hchars
    | entry name' w =>
      rw [show name = name' from hname, Value.shown_inj ((String.append_right_inj _).1 h)]

theorem Item.head?_tail (i : Item) : ∀ c ∈ i.tail.toList.head?, continuesWord c = false := by
  rcases i with ⟨label, _ | range⟩ | name | ⟨name, v⟩ <;> simp [tail] <;> decide

theorem Item.text_inj {i j : Item} (hi : isLabel i.name = true) (hj : isLabel j.name = true)
    (h : i.text = j.text) : i = j := by
  have hchars := congrArg String.toList h
  simp only [Item.text, String.toList_append] at hchars
  obtain ⟨hname, htail⟩ := Text.append_inj_of_all (Bool.and_eq_true_iff.1 hi).2 (Bool.and_eq_true_iff.1 hj).2
    i.head?_tail j.head?_tail hchars
  exact Item.tail_inj (String.toList_inj.1 hname) (String.toList_inj.1 htail)

theorem Item.head?_text {i : Item} (h : isLabel i.name = true) :
    ∀ c ∈ i.text.toList.head?, (c == ' ') = false := by
  obtain ⟨hne, hall⟩ := Bool.and_eq_true_iff.1 h
  intro c hc
  rw [Item.text, String.toList_append] at hc
  cases hname : i.name.toList with
  | nil => rw [hname] at hne; cases hne
  | cons d ds =>
    rw [hname] at hc hall
    obtain rfl : d = c := by simpa using hc
    have hd := (List.all_eq_true.1 hall) d (List.mem_cons_self ..)
    rw [beq_eq_false_iff_ne]
    rintro rfl
    cases hd

theorem rowText_inj {x y : Nat × Item} (hx : isLabel x.2.name = true) (hy : isLabel y.2.name = true)
    (h : rowText x = rowText y) : x = y := by
  have hblank : ∀ n, (List.replicate n ' ').all (· == ' ') = true := fun n => by simp
  have hchars := congrArg String.toList h
  simp only [rowText_eq, indentation, String.toList_append, String.toList_ofList] at hchars
  obtain ⟨hindent, htext⟩ := Text.append_inj_of_all (hblank _) (hblank _) (Item.head?_text hx)
    (Item.head?_text hy) hchars
  have hdepth := congrArg List.length hindent
  simp only [List.length_replicate] at hdepth
  exact Prod.ext (by omega) (Item.text_inj hx hy (String.toList_inj.1 htext))

theorem map_rowText_inj {r r' : List (Nat × Item)} (hr : Labelled r) (hr' : Labelled r')
    (h : r.map rowText = r'.map rowText) : r = r' := by
  induction r generalizing r' with
  | nil => exact (List.map_eq_nil_iff.1 h.symm).symm
  | cons x r ih =>
    cases r' with
    | nil => cases h
    | cons y r' =>
      obtain ⟨hx, hr⟩ := List.forall_mem_cons.1 hr
      obtain ⟨hy, hr'⟩ := List.forall_mem_cons.1 hr'
      obtain ⟨hrow, htail⟩ := List.cons.inj h
      rw [rowText_inj hx hy hrow, ih hr hr' htail]

/-- Nodes beside each other are told by their lines. -/
theorem linesAll_inj {os os' : List Outline} {depth : Nat} (h : AllFit os) (h' : AllFit os')
    (hlines : (Outline.linesAll depth os).map Outline.Line.shown =
      (Outline.linesAll depth os').map Outline.Line.shown) :
    os.map (Outline.map (Span.inFile file)) = os'.map (Outline.map (Span.inFile file)) := by
  rw [shown_linesAll, shown_linesAll] at hlines
  have hrows := map_rowText_inj (labelled_all depth h) (labelled_all depth h') hlines
  have hnone : ∀ x ∈ ([] : List (Nat × Item)).head?, x.1 < depth := by simp
  rw [← List.append_nil (rowsAll _ _), ← List.append_nil (rowsAll _ (branches os'))] at hrows
  rw [← Outline.mapAll_eq_map, ← Outline.mapAll_eq_map]
  exact branches_inj h h' (Branch.rowsAll_append_inj hnone hnone hrows).1

/-! Lines with a byte range. -/

/-- The line without the blanks before it, if it ends as a range does. -/
def rangePart? (line : String) : Option String :=
  if line.toList.getLast? = some ')' then some (String.ofList (line.toList.dropWhile (· == ' '))) else none

def nodeText (x : String × Span) : String := x.1 ++ " " ++ Outline.spanText x.2

/-- The text of an item with a range. -/
def Item.ranged? : Item → Option String
  | node label (some range) => some (label ++ (" " ++ rangeText range))
  | _ => none

theorem Item.ranged?_eq (i : Item) : i.ranged? = if i.ranged?.isSome then some i.text else none := by
  rcases i with ⟨label, _ | range⟩ | name | ⟨name, v⟩ <;> rfl

theorem getLast?_append {s t : String} {c : Char} (h : t.toList.getLast? = some c) :
    (s ++ t).toList.getLast? = some c := by
  rw [String.toList_append, List.getLast?_append, h]
  rfl

theorem Value.getLast?_shown (v : Value) : ∃ c, v.shown.toList.getLast? = some c ∧ c ≠ ')' := by
  cases v with
  | text s =>
    refine ⟨_, by rw [shown, Text.quote, String.toList_ofList, Text.getLast?_quoteChars], ?_⟩
    rcases Text.quoteFor_eq s.toList with h | h <;> rw [h] <;> decide
  | texts ss => exact ⟨']', getLast?_append rfl, by decide⟩
  | truth b => cases b <;> exact ⟨'e', by decide, by decide⟩
  | number n =>
    have hdecimal := isDecimal_toString n
    cases hlast : (toString n).toList.getLast? with
    | none => rw [List.getLast?_eq_none_iff.1 hlast] at hdecimal; cases hdecimal
    | some c =>
      refine ⟨c, hlast, ?_⟩
      rintro rfl
      exact absurd (isDigit_of_mem_toString (List.mem_of_getLast? hlast)) (by decide)

/-- Only the line of a node with a range ends as a range does. -/
theorem Item.getLast?_text {i : Item} (h : isLabel i.name = true) :
    i.text.toList.getLast? = some ')' ↔ i.ranged?.isSome = true := by
  rcases i with ⟨label, _ | range⟩ | name | ⟨name, v⟩
  · refine iff_of_false (fun hlast => ?_) (by simp [ranged?])
    have hall := List.all_eq_true.1 (Bool.and_eq_true_iff.1 h).2
    have hmem : ')' ∈ label.toList := by
      simpa [text, name, tail] using List.mem_of_getLast? hlast
    cases hall ')' hmem
  · have hlast : (rangeText range).toList.getLast? = some ')' := getLast?_append rfl
    exact iff_of_true (getLast?_append (getLast?_append hlast)) rfl
  · refine iff_of_false (fun hlast => ?_) (by simp [ranged?])
    cases hlast.symm.trans (getLast?_append (s := name) (t := ":") rfl)
  · obtain ⟨c, hlast, hne⟩ := v.getLast?_shown
    refine iff_of_false (fun hlast' => ?_) (by simp [ranged?])
    exact hne (Option.some.inj ((getLast?_append (getLast?_append hlast)).symm.trans hlast'))

theorem rangePart?_rowText {row : Nat × Item} (h : isLabel row.2.name = true) :
    rangePart? (rowText row) = row.2.ranged? := by
  obtain ⟨depth, i⟩ := row
  have hblank : ∀ c ∈ List.replicate (2 * depth) ' ', (c == ' ') = true := by simp
  have hstrip : (rowText (depth, i)).toList.dropWhile (· == ' ') = i.text.toList := by
    rw [rowText_eq, indentation, String.toList_append, String.toList_ofList,
      List.dropWhile_append_of_pos hblank]
    have hhead := Item.head?_text h
    cases hchars : i.text.toList with
    | nil => rfl
    | cons c cs => rw [List.dropWhile_cons, hhead c (by rw [hchars]; rfl)]; rfl
  have hlast : (rowText (depth, i)).toList.getLast? = i.text.toList.getLast? := by
    have hne : i.text.toList ≠ [] := by
      rw [Item.text, String.toList_append]
      exact List.append_ne_nil_of_left_ne_nil (by simpa using (Bool.and_eq_true_iff.1 h).1) _
    rw [rowText_eq, String.toList_append, List.getLast?_append_of_ne_nil _ hne]
  rw [rangePart?, hstrip, hlast, String.ofList_toList, Item.ranged?_eq]
  simp only [Item.getLast?_text h]

mutual

/-- The items with ranges are the nodes with spans, in the same order. -/
theorem filterMap_rows : ∀ (o : Outline) (depth : Nat),
    (rows depth (branch o)).filterMap (fun row => row.2.ranged?) =
      o.spanned.map nodeText
  | ⟨_, some _, fields⟩, depth =>
    congrArg₂ List.cons (String.append_assoc ..).symm (filterMap_fields fields (depth + 1))
  | ⟨_, none, fields⟩, depth => filterMap_fields fields (depth + 1)

theorem filterMap_fields : ∀ (fs : List OutlineField) (depth : Nat),
    (rowsAll depth (fieldBranches fs)).filterMap (fun row => row.2.ranged?) =
      (Outline.spannedFields fs).map nodeText
  | [], _ => rfl
  | .node name o :: fs, depth => by
    rw [fieldBranches, rowsAll, rows, rowsAll, rowsAll, List.append_nil, List.cons_append,
      List.filterMap_cons_none rfl, List.filterMap_append, filterMap_rows o, filterMap_fields fs,
      Outline.spannedFields, List.map_append]
  | .nodes name [] :: fs, depth => filterMap_fields fs depth
  | .nodes name (o :: os) :: fs, depth => by
    rw [fieldBranches, rowsAll, rows, List.cons_append, List.filterMap_cons_none rfl,
      List.filterMap_append, filterMap_all (o :: os), filterMap_fields fs, Outline.spannedFields,
      List.map_append]
    exact List.cons_ne_nil _ _
  | .text _ _ :: fs, depth => filterMap_fields fs depth
  | .texts _ _ :: fs, depth => filterMap_fields fs depth
  | .truth _ _ :: fs, depth => filterMap_fields fs depth
  | .number _ _ :: fs, depth => filterMap_fields fs depth
  | .absent _ :: fs, depth => filterMap_fields fs depth

theorem filterMap_all : ∀ (os : List Outline) (depth : Nat),
    (rowsAll depth (branches os)).filterMap (fun row => row.2.ranged?) =
      (Outline.spannedAll os).map nodeText
  | [], _ => rfl
  | o :: os, depth => by
    rw [branches, rowsAll, Outline.spannedAll, List.filterMap_append, List.map_append,
      filterMap_rows o, filterMap_all os]

end

/-- Of the lines of some nodes those with a range are those of the nodes that have a span. -/
theorem filterMap_linesAll {os : List Outline} (h : AllFit os) (depth : Nat) :
    ((Outline.linesAll depth os).map Outline.Line.shown).filterMap rangePart? =
      (Outline.spannedAll os).map nodeText := by
  rw [shown_linesAll, List.filterMap_map, ← filterMap_all os depth]
  exact List.filterMap_congr fun row hrow => rangePart?_rowText (labelled_all depth h row hrow)

/-! Lines on a page. -/

def isPrintable (s : String) : Bool := s.toList.all Text.isPrintable

theorem isPrintable_append (s t : String) : isPrintable (s ++ t) = (isPrintable s && isPrintable t) := by
  rw [isPrintable, String.toList_append, List.all_append, isPrintable, isPrintable]

theorem isPrintable_of_continuesWord {c : Char} (h : continuesWord c = true) :
    Text.isPrintable c = true := by
  have hverbatim := Text.isVerbatim_of_continuesWord h
  simp only [Text.isVerbatim, Bool.and_eq_true] at hverbatim
  exact hverbatim.1.1

theorem isPrintable_of_isLabel {s : String} (h : isLabel s = true) : isPrintable s = true :=
  List.all_eq_true.2 fun c hc =>
    isPrintable_of_continuesWord (List.all_eq_true.1 (Bool.and_eq_true_iff.1 h).2 c hc)

theorem isPrintable_toString (a : Int) : isPrintable (toString a) = true := by
  refine List.all_eq_true.2 fun c hc => ?_
  obtain rfl | hdigit := eq_or_isDigit_of_mem_toString hc
  · decide
  · exact isPrintable_of_continuesWord (continuesWord_iff.2 (.inr hdigit))

theorem isPrintable_shown (v : Value) : isPrintable v.shown = true := by
  cases v with
  | text s =>
    rw [isPrintable, Value.shown, Text.quote, String.toList_ofList]
    exact Text.isPrintable_quoteChars _
  | texts ss =>
    cases ss with
    | nil => decide
    | cons s ss =>
      rw [isPrintable, Value.shown, Text.toList_quoteAll_cons, List.all_cons, List.all_append,
        Text.isPrintable_quoteChars, Text.isPrintable_quotedTail]
      decide
  | truth b => cases b <;> decide
  | number n => exact isPrintable_toString (Int.ofNat n)

theorem isPrintable_tail (i : Item) : isPrintable i.tail = true := by
  have hpunctuation : ∀ s ∈ ["", " ", "[", "..", ")", ":", ": "], isPrintable s = true := by decide
  rcases i with ⟨label, _ | range⟩ | name | ⟨name, v⟩
  · exact hpunctuation "" (by simp)
  · simp only [Item.tail, rangeText, isPrintable_append, isPrintable_toString, Bool.and_true]
    simp [hpunctuation]
  · exact hpunctuation ":" (by simp)
  · rw [Item.tail, isPrintable_append, isPrintable_shown, hpunctuation _ (by simp)]
    rfl

theorem isPrintable_rowText {row : Nat × Item} (h : isLabel row.2.name = true) :
    isPrintable (rowText row) = true := by
  have hindent : isPrintable (indentation row.1) = true := by
    have hblank : Text.isPrintable ' ' = true := by decide
    rw [isPrintable, indentation, String.toList_ofList]
    simp [hblank]
  rw [rowText_eq, Item.text, isPrintable_append, isPrintable_append, hindent, isPrintable_of_isLabel h,
    isPrintable_tail]
  rfl

end Listing

open Listing

theorem Outline.linesAll_eq_flatMap (os : List Outline) (depth : Nat) :
    linesAll depth os = os.flatMap (lines depth) := by
  induction os with
  | nil => rfl
  | cons o os ih => rw [linesAll, ih, List.flatMap_cons]

namespace Outline

mutual

/-- The lines of a node go as deep as there are nodes around each other. -/
theorem depth_lt_iff : ∀ (o : Outline) (depth calls : Nat),
    (∀ l ∈ o.lines depth, l.depth < depth + 2 * calls) ↔ o.levels ≤ calls
  | ⟨label, s, fields⟩, depth, calls => by
    have hhead : (head depth label s).depth = depth := by cases s <;> rfl
    rw [lines, List.forall_mem_cons, hhead, levels]
    cases calls with
    | zero => simp
    | succ calls =>
      rw [depth_lt_iff_fields fields depth calls, Nat.succ_le_succ_iff]
      exact and_iff_right (by omega)

theorem depth_lt_iff_fields : ∀ (fs : List OutlineField) (depth calls : Nat),
    (∀ l ∈ fieldLines depth fs, l.depth < depth + 2 * (calls + 1)) ↔ levelsFields fs ≤ calls
  | [], _, _ => by simp [fieldLines, levelsFields]
  | .node name o :: fs, depth, calls => by
    have ho := depth_lt_iff o (depth + 2) calls
    rw [fieldLines, List.forall_mem_cons, List.forall_mem_append, depth_lt_iff_fields fs depth calls,
      levelsFields, Nat.max_le, ← ho, show depth + 2 * (calls + 1) = depth + 2 + 2 * calls by omega]
    exact and_iff_right (by simp only [heading]; omega)
  | .nodes name [] :: fs, depth, calls => by
    rw [fieldLines, List.forall_mem_cons, depth_lt_iff_fields fs depth calls, levelsFields, levelsAll,
      Nat.zero_max]
    exact and_iff_right (by simp only [entry]; omega)
  | .nodes name (o :: os) :: fs, depth, calls => by
    have hos := depth_lt_iff_all (o :: os) (depth + 2) calls
    rw [fieldLines, List.forall_mem_cons, List.forall_mem_append, depth_lt_iff_fields fs depth calls,
      levelsFields, Nat.max_le, ← hos, show depth + 2 * (calls + 1) = depth + 2 + 2 * calls by omega]
    · exact and_iff_right (by simp only [heading]; omega)
    · exact List.cons_ne_nil _ _
  | .text _ _ :: fs, depth, calls | .texts _ _ :: fs, depth, calls | .truth _ _ :: fs, depth, calls
  | .number _ _ :: fs, depth, calls => by
    rw [fieldLines, List.forall_mem_cons, depth_lt_iff_fields fs depth calls, levelsFields]
    · exact and_iff_right (by simp only [entry]; omega)
    all_goals simp
  | .absent _ :: fs, depth, calls => by
    rw [fieldLines, depth_lt_iff_fields fs depth calls, levelsFields] <;> simp

theorem depth_lt_iff_all : ∀ (os : List Outline) (depth calls : Nat),
    (∀ l ∈ linesAll depth os, l.depth < depth + 2 * calls) ↔ levelsAll os ≤ calls
  | [], _, _ => by simp [linesAll, levelsAll]
  | o :: os, depth, calls => by
    rw [linesAll, List.forall_mem_append, depth_lt_iff o depth calls, depth_lt_iff_all os depth calls,
      levelsAll, Nat.max_le]

end
end Outline

namespace Program

theorem lines_eq (p : Program Span) : p.lines =
    rowLine (0, .node "Program" (some p.span.range)) :: Outline.linesAll 1 (p.decls.map Decl.outline) := by
  rw [lines, head_eq, Outline.linesAll_eq_flatMap, List.flatMap_map]
  rfl

theorem listing_eq (p : Program Span) : p.listing =
    rowText (0, .node "Program" (some p.span.range)) ::
      (Outline.linesAll 1 (p.decls.map Decl.outline)).map Outline.Line.shown := by
  rw [listing, lines_eq]
  rfl

/-- The listing of a program tells all of it but the names of files. -/
theorem listing_inj {p q : Program Span} (h : p.listing = q.listing) (file : String) :
    p.map (Span.inFile file) = q.map (Span.inFile file) := by
  rw [listing_eq, listing_eq] at h
  obtain ⟨hhead, hlines⟩ := List.cons.inj h
  have hlabel : isLabel "Program" = true := by decide
  have hspan : (some p.span).map Span.range = (some q.span).map Span.range :=
    (Item.node.inj (Prod.mk.inj (rowText_inj (by exact hlabel) (by exact hlabel) hhead)).2).2
  have hdecls : (p.decls.map Decl.outline).map (Outline.map (Span.inFile file)) =
      (q.decls.map Decl.outline).map (Outline.map (Span.inFile file)) :=
    linesAll_inj (Outline.allFit_map Decl.fits _) (Outline.allFit_map Decl.fits _) hlines
  refine Program.outline_injective ?_
  rw [outline_map, outline_map]
  simp only [Program.outline, Outline.map, Outline.mapFields, Outline.mapAll_eq_map, hdecls,
    map_inFile_of_range hspan]

/-- The lines with a byte range are those of the program and of its nodes, in this order. -/
theorem filterMap_listing (p : Program Span) : p.listing.filterMap rangePart? =
    (("Program", p.span) :: (Tree.program p).nodes).map nodeText := by
  have hlabel : isLabel "Program" = true := by decide
  have hrow : rangePart? (rowText (0, .node "Program" (some p.span.range))) =
      some (nodeText ("Program", p.span)) := by
    rw [rangePart?_rowText (by exact hlabel), Item.ranged?, ← String.append_assoc]
    rfl
  rw [listing_eq, List.filterMap_cons_some hrow, filterMap_linesAll (Outline.allFit_map Decl.fits _),
    List.map_cons, Outline.spannedAll_eq_flatMap, List.flatMap_map]
  rfl

/-- The lines of a listing hold nothing that ends a line or is a code for a terminal. -/
theorem isPrintable_listing (p : Program Span) : ∀ line ∈ p.listing, isPrintable line = true := by
  have hlabel : isLabel "Program" = true := by decide
  rw [listing_eq, shown_linesAll]
  refine List.forall_mem_cons.2 ⟨isPrintable_rowText (by exact hlabel), List.forall_mem_map.2 ?_⟩
  exact fun row hrow => isPrintable_rowText (labelled_all 1 (Outline.allFit_map Decl.fits _) row hrow)

/-- All of the listing is printed exactly where so many calls may be open as nodes are around each other. -/
theorem listingWithin_eq_listing_iff {p : Program Span} {calls : Nat} :
    p.listingWithin calls = p.listing ↔ p.levels ≤ calls := by
  have hall : (∀ l ∈ p.lines, decide (l.depth ≤ 2 * calls) = true) ↔ p.levels ≤ calls := by
    rw [levels, ← Outline.depth_lt_iff_all _ 1, lines_eq, List.forall_mem_cons]
    simp [rowLine, Nat.lt_one_add_iff]
  rw [← hall, ← List.takeWhile_eq_self_iff, listingWithin, listing]
  refine ⟨fun h => (List.takeWhile_prefix _).eq_of_length ?_, congrArg _⟩
  simpa using congrArg List.length h

end Program
end TinyFront
