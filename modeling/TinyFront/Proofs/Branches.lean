import TinyFront.Proofs.Recovering

/-!
Outlines as branches of lines. Main statements: the depths of lines tell which of them are below which, the
schema tells the outline from that, and all names on the lines are words.
-/
namespace TinyFront

def Span.inFile (file : String) (s : Span) : Span := ⟨file, s.start, s.stop⟩

def Span.range (s : Span) : Int × Int := (s.start, s.stop)

namespace Listing

open Outline (indentation)

/-- The value of a field that holds no node. -/
inductive Value
  | text (s : String)
  | texts (ss : List String)
  | truth (b : Bool)
  | number (n : Nat)

inductive Item
  | node (label : String) (range : Option (Int × Int))
  | heading (name : String)
  | entry (name : String) (value : Value)

inductive Branch
  | mk (item : Item) (below : List Branch)

namespace Branch

mutual

def rows (depth : Nat) : Branch → List (Nat × Item)
  | ⟨item, below⟩ => (depth, item) :: rowsAll (depth + 1) below

def rowsAll (depth : Nat) : List Branch → List (Nat × Item)
  | [] => []
  | b :: bs => rows depth b ++ rowsAll depth bs

end

variable {depth : Nat} {r r' : List (Nat × Item)}

theorem head?_rowsAll_append (bs : List Branch) (h : ∀ x ∈ r.head?, x.1 < depth) :
    ∀ x ∈ (rowsAll depth bs ++ r).head?, x.1 < depth + 1 := by
  intro x hx
  cases bs with
  | nil => exact Nat.lt_succ_of_lt (h x hx)
  | cons b bs =>
    obtain ⟨item, below⟩ := b
    obtain rfl : (depth, item) = x := by simpa [rowsAll, rows] using hx
    exact Nat.lt_succ_self _

/-- Some branches are told by their rows, if what follows them is less deep. -/
theorem rowsAll_append_inj : ∀ {bs bs' : List Branch} {depth : Nat} {r r' : List (Nat × Item)},
    (∀ x ∈ r.head?, x.1 < depth) → (∀ x ∈ r'.head?, x.1 < depth) →
    rowsAll depth bs ++ r = rowsAll depth bs' ++ r' → bs = bs' ∧ r = r'
  | [], [], _, _, _, _, _, h => ⟨rfl, h⟩
  | [], ⟨item, below⟩ :: bs, depth, r, r', hr, _, h => by
    have hdeep := hr (depth, item) (by rw [← List.nil_append r]; exact h ▸ rfl)
    exact absurd hdeep (Nat.lt_irrefl _)
  | ⟨item, below⟩ :: bs, [], depth, r, r', _, hr', h => by
    have hdeep := hr' (depth, item) (by rw [← List.nil_append r']; exact h ▸ rfl)
    exact absurd hdeep (Nat.lt_irrefl _)
  | ⟨item, below⟩ :: bs, ⟨item', below'⟩ :: bs', depth, r, r', hr, hr', h => by
    simp only [rowsAll, rows, List.cons_append, List.append_assoc] at h
    obtain ⟨hrow, h⟩ := List.cons.inj h
    obtain ⟨hbelow, h⟩ :=
      rowsAll_append_inj (head?_rowsAll_append bs hr) (head?_rowsAll_append bs' hr') h
    obtain ⟨hbs, hrest⟩ := rowsAll_append_inj hr hr' h
    exact ⟨by rw [(Prod.mk.inj hrow).2, hbelow, hbs], hrest⟩

end Branch

def Item.name : Item → String
  | .node label _ => label
  | .heading name => name
  | .entry name _ => name

def Branch.item : Branch → Item
  | ⟨item, _⟩ => item

mutual

/-- A node with its fields below it, and the nodes of a field below the line of the field. -/
def branch : Outline → Branch
  | ⟨label, s, fields⟩ => ⟨.node label (s.map Span.range), fieldBranches fields⟩

def fieldBranches : List OutlineField → List Branch
  | [] => []
  | .node name o :: fs => ⟨.heading name, [branch o]⟩ :: fieldBranches fs
  | .nodes name [] :: fs => ⟨.entry name (.texts []), []⟩ :: fieldBranches fs
  | .nodes name os :: fs => ⟨.heading name, branches os⟩ :: fieldBranches fs
  | .text name v :: fs => ⟨.entry name (.text v), []⟩ :: fieldBranches fs
  | .texts name vs :: fs => ⟨.entry name (.texts vs), []⟩ :: fieldBranches fs
  | .truth name v :: fs => ⟨.entry name (.truth v), []⟩ :: fieldBranches fs
  | .number name v :: fs => ⟨.entry name (.number v), []⟩ :: fieldBranches fs
  | .absent _ :: fs => fieldBranches fs

def branches : List Outline → List Branch
  | [] => []
  | o :: os => branch o :: branches os

end

open Outline (schema Fits FieldsFit AllFit Conforms)
open OutlineField (Fills)

/-- The lines of fields have the names that the schema gives them. -/
theorem name_of_mem_fieldBranches {ks : List (String × FieldKind)} {fs : List OutlineField}
    (h : List.Forall₂ Fills ks fs) : ∀ b ∈ fieldBranches fs, b.item.name ∈ ks.map Prod.fst := by
  induction h with
  | nil => simp [fieldBranches]
  | cons hfills _ ih =>
    cases hfills with
    | nodes name os =>
      cases os <;>
        exact List.forall_mem_cons.2 ⟨List.mem_cons_self .., fun b hb => List.mem_cons_of_mem _ (ih b hb)⟩
    | absent name => exact fun b hb => List.mem_cons_of_mem _ (ih b hb)
    | _ => exact List.forall_mem_cons.2 ⟨List.mem_cons_self .., fun b hb => List.mem_cons_of_mem _ (ih b hb)⟩

theorem heading_ne_fieldBranches {name : String} {below bs : List Branch}
    {ks : List (String × FieldKind)} {fs : List OutlineField} (hnames : name ∉ ks.map Prod.fst)
    (h : List.Forall₂ Fills ks fs) : ⟨.heading name, below⟩ :: bs ≠ fieldBranches fs := fun heq =>
  hnames (name_of_mem_fieldBranches h ⟨.heading name, below⟩ (heq ▸ List.mem_cons_self ..))

theorem nodup_of_lookup_schema {label : String} {ks : List (String × FieldKind)}
    (h : schema.lookup label = some ks) : (ks.map Prod.fst).Nodup := by
  have hall : ∀ e ∈ schema, (e.2.map Prod.fst).Nodup := by decide
  obtain ⟨l, r, hschema, -⟩ := List.lookup_eq_some_iff.1 h
  exact hall (label, ks) (by simp [hschema])

variable {file : String}

theorem map_inFile_of_range {s s' : Option Span} (h : s.map Span.range = s'.map Span.range) :
    s.map (Span.inFile file) = s'.map (Span.inFile file) := by
  cases s with
  | none => rw [Option.map_none, eq_comm, Option.map_eq_none_iff] at h; rw [h]
  | some s =>
    obtain ⟨s', rfl, hrange⟩ := Option.map_eq_some_iff.1 h.symm
    obtain ⟨hstart, hstop⟩ := Prod.mk.inj hrange
    simp [Span.inFile, hstart, hstop]

mutual

/-- The branch of an outline tells all of it but the names of files. -/
theorem branch_inj : ∀ {o o' : Outline}, o.Fits → o'.Fits → branch o = branch o' →
    o.map (Span.inFile file) = o'.map (Span.inFile file)
  | ⟨label, s, fields⟩, ⟨label', s', fields'⟩, ⟨⟨ks, hks, hfills⟩, hfit⟩,
    ⟨⟨ks', hks', hfills'⟩, hfit'⟩, h => by
    obtain ⟨hitem, hbelow⟩ := Branch.mk.inj h
    obtain ⟨rfl, hrange⟩ := Item.node.inj hitem
    obtain rfl := Option.some.inj (hks.symm.trans hks')
    rw [Outline.map, Outline.map, map_inFile_of_range hrange,
      fieldBranches_inj (nodup_of_lookup_schema hks) hfills hfills' hfit hfit' hbelow]

theorem fieldBranches_inj : ∀ {fs fs' : List OutlineField} {ks : List (String × FieldKind)},
    (ks.map Prod.fst).Nodup → List.Forall₂ Fills ks fs → List.Forall₂ Fills ks fs' → FieldsFit fs →
    FieldsFit fs' → fieldBranches fs = fieldBranches fs' →
    Outline.mapFields (Span.inFile file) fs = Outline.mapFields (Span.inFile file) fs'
  | [], fs', ks, _, hfills, hfills', _, _, _ => by
    cases hfills
    cases hfills'
    rfl
  | .node _ _ :: _, _, _, hnames, .cons (.node ..) hfills, .cons (.node ..) hfills', hfit, hfit', h
  | .node _ _ :: _, _, _, hnames, .cons (.present ..) hfills, .cons (.present ..) hfills', hfit, hfit', h => by
    obtain ⟨hbranch, h⟩ := List.cons.inj h
    obtain ⟨hbranch, -⟩ := List.cons.inj (Branch.mk.inj hbranch).2
    rw [Outline.mapFields, Outline.mapFields, branch_inj hfit.1 hfit'.1 hbranch,
      fieldBranches_inj hnames.of_cons hfills hfills' hfit.2 hfit'.2 h]
  -- what is absent has no line, and no later field has its name
  | .node _ _ :: _, _, _, hnames, .cons (.present ..) _, .cons (.absent _) hfills', _, _, h =>
    (heading_ne_fieldBranches (List.nodup_cons.1 hnames).1 hfills' h).elim
  | .absent _ :: _, _, _, hnames, .cons (.absent _) hfills, .cons (.present ..) _, _, _, h =>
    (heading_ne_fieldBranches (List.nodup_cons.1 hnames).1 hfills h.symm).elim
  | .absent _ :: _, _, _, hnames, .cons (.absent _) hfills, .cons (.absent _) hfills', hfit, hfit', h =>
    congrArg (_ :: ·) (fieldBranches_inj hnames.of_cons hfills hfills' hfit hfit' h)
  | .nodes _ [] :: _, _, _, hnames, .cons (.nodes ..) hfills, .cons (.nodes _ []) hfills', hfit, hfit', h =>
    congrArg (_ :: ·)
      (fieldBranches_inj hnames.of_cons hfills hfills' hfit.2 hfit'.2 (List.cons.inj h).2)
  | .nodes _ (_ :: _) :: _, _, _, hnames, .cons (.nodes ..) hfills, .cons (.nodes _ (_ :: _)) hfills',
      hfit, hfit', h => by
    obtain ⟨hbranch, h⟩ := List.cons.inj h
    rw [Outline.mapFields, Outline.mapFields, branches_inj hfit.1 hfit'.1 (Branch.mk.inj hbranch).2,
      fieldBranches_inj hnames.of_cons hfills hfills' hfit.2 hfit'.2 h]
  | .nodes _ [] :: _, _, _, _, .cons (.nodes ..) _, .cons (.nodes _ (_ :: _)) _, _, _, h => by
    cases (List.cons.inj h).1
  | .nodes _ (_ :: _) :: _, _, _, _, .cons (.nodes ..) _, .cons (.nodes _ []) _, _, _, h => by
    cases (List.cons.inj h).1
  | .text _ _ :: _, _, _, hnames, .cons (.text ..) hfills, .cons (.text ..) hfills', hfit, hfit', h
  | .texts _ _ :: _, _, _, hnames, .cons (.texts ..) hfills, .cons (.texts ..) hfills', hfit, hfit', h
  | .truth _ _ :: _, _, _, hnames, .cons (.truth ..) hfills, .cons (.truth ..) hfills', hfit, hfit', h
  | .number _ _ :: _, _, _, hnames, .cons (.number ..) hfills, .cons (.number ..) hfills', hfit, hfit', h => by
    obtain ⟨⟨⟩, hlater⟩ := List.cons.inj h
    exact congrArg (_ :: ·) (fieldBranches_inj hnames.of_cons hfills hfills' hfit hfit' hlater)

theorem branches_inj : ∀ {os os' : List Outline}, AllFit os → AllFit os' → branches os = branches os' →
    Outline.mapAll (Span.inFile file) os = Outline.mapAll (Span.inFile file) os'
  | [], [], _, _, _ => rfl
  | [], o' :: os', _, _, h => by cases h
  | o :: os, [], _, _, h => by cases h
  | o :: os, o' :: os', ⟨ho, hos⟩, ⟨ho', hos'⟩, h => by
    obtain ⟨hbranch, hbranches⟩ := List.cons.inj h
    rw [Outline.mapAll, Outline.mapAll, branch_inj ho ho' hbranch, branches_inj hos hos' hbranches]

end

/-! The names on the lines. -/

/-- A text that can be told from what stands before it and behind it on a line. -/
def isLabel (s : String) : Bool := !s.toList.isEmpty && s.toList.all continuesWord

theorem isLabel_of_schema : ∀ e ∈ schema, isLabel e.1 = true ∧ ∀ k ∈ e.2, isLabel k.1 = true := by decide

theorem isLabel_of_lookup {label : String} {ks : List (String × FieldKind)}
    (h : schema.lookup label = some ks) : isLabel label = true ∧ ∀ k ∈ ks, isLabel k.1 = true := by
  obtain ⟨l, r, hschema, -⟩ := List.lookup_eq_some_iff.1 h
  exact isLabel_of_schema (label, ks) (by simp [hschema])

/-- All items have names that can be told. -/
def Labelled (rows : List (Nat × Item)) : Prop := ∀ row ∈ rows, isLabel row.2.name = true

theorem Labelled.append {r r' : List (Nat × Item)} (h : Labelled r) (h' : Labelled r') :
    Labelled (r ++ r') := List.forall_mem_append.2 ⟨h, h'⟩

theorem Labelled.cons {depth : Nat} {item : Item} {r : List (Nat × Item)}
    (hname : isLabel item.name = true) (h : Labelled r) : Labelled ((depth, item) :: r) :=
  List.forall_mem_cons.2 ⟨hname, h⟩

mutual

theorem labelled_rows : ∀ {o : Outline} (depth : Nat), o.Fits → Labelled (Branch.rows depth (branch o))
  | ⟨_, _, _⟩, depth, ⟨⟨_, hks, hfills⟩, hfit⟩ =>
    .cons (isLabel_of_lookup hks).1 (labelled_fields (depth + 1) (isLabel_of_lookup hks).2 hfills hfit)

theorem labelled_fields : ∀ {fs : List OutlineField} {ks : List (String × FieldKind)} (depth : Nat),
    (∀ k ∈ ks, isLabel k.1 = true) → List.Forall₂ Fills ks fs → FieldsFit fs →
    Labelled (Branch.rowsAll depth (fieldBranches fs))
  | [], _, _, _, _, _ => List.forall_mem_nil _
  | .node _ _ :: _, _, depth, hks, .cons hk hfills, hfit => by
    obtain ⟨hname, hks⟩ := List.forall_mem_cons.1 hks
    have hlater := labelled_fields depth hks hfills hfit.2
    have hbelow := labelled_rows (depth + 1) hfit.1
    cases hk <;> exact .cons hname ((hbelow.append (List.forall_mem_nil _)).append hlater)
  | .nodes _ [] :: _, _, depth, hks, .cons (.nodes ..) hfills, hfit =>
    .cons (List.forall_mem_cons.1 hks).1
      (labelled_fields depth (List.forall_mem_cons.1 hks).2 hfills hfit.2)
  | .nodes _ (_ :: _) :: _, _, depth, hks, .cons (.nodes ..) hfills, hfit =>
    .cons (List.forall_mem_cons.1 hks).1 ((labelled_all (depth + 1) hfit.1).append
      (labelled_fields depth (List.forall_mem_cons.1 hks).2 hfills hfit.2))
  | .text _ _ :: _, _, depth, hks, .cons (.text ..) hfills, hfit
  | .texts _ _ :: _, _, depth, hks, .cons (.texts ..) hfills, hfit
  | .truth _ _ :: _, _, depth, hks, .cons (.truth ..) hfills, hfit
  | .number _ _ :: _, _, depth, hks, .cons (.number ..) hfills, hfit =>
    .cons (List.forall_mem_cons.1 hks).1
      (labelled_fields depth (List.forall_mem_cons.1 hks).2 hfills hfit)
  | .absent _ :: _, _, depth, hks, .cons (.absent _) hfills, hfit => by
    have hlater := labelled_fields depth (List.forall_mem_cons.1 hks).2 hfills hfit
    exact hlater

theorem labelled_all : ∀ {os : List Outline} (depth : Nat), AllFit os →
    Labelled (Branch.rowsAll depth (branches os))
  | [], _, _ => List.forall_mem_nil _
  | _ :: _, depth, ⟨ho, hos⟩ => (labelled_rows depth ho).append (labelled_all depth hos)

end

end Listing
end TinyFront
