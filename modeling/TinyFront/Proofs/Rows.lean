import TinyFront.Proofs.Whole
import TinyFront.Proofs.Yields
import TinyFront.Tree.Outline

/-!
Rows of nodes: nodes beside each other within a range of bytes, and how a row becomes what is beneath
one node. Main statement: what is read one after the other forms a row.
-/
namespace TinyFront

namespace Span

/-- The range holds a byte at least, begins where a token begins and ends where a token ends. -/
structure Aligned (file : String) (ts : List Token) (s : Span) : Prop where
  file_eq : s.file = file
  start : ∃ t ∈ ts, s.start = t.span.start
  stop : ∃ t ∈ ts, s.stop = t.span.stop
  start_lt_stop : s.start < s.stop

def Disjoint (a b : Span) : Prop := a.stop ≤ b.start ∨ b.stop ≤ a.start

theorem Disjoint.symm {a b : Span} (h : a.Disjoint b) : b.Disjoint a := Or.symm h

/-- All of the ranges are within this one, and any two of them are disjoint. -/
structure Encloses (outer : Span) (inner : List Span) : Prop where
  contains : ∀ s ∈ inner, outer.contains s = true
  disjoint : inner.Pairwise Disjoint

end Span

namespace Outline

mutual

/-- The spans of the nodes that come first from the root on: its own, if it has one. -/
def foremost : Outline → List Span
  | ⟨_, some s, _⟩ => [s]
  | ⟨_, none, fields⟩ => foremostFields fields

def foremostFields : List OutlineField → List Span
  | [] => []
  | .node _ o :: fs => foremost o ++ foremostFields fs
  | .nodes _ os :: fs => foremostAll os ++ foremostFields fs
  | _ :: fs => foremostFields fs

def foremostAll : List Outline → List Span
  | [] => []
  | o :: os => foremost o ++ foremostAll os

end

/-- The spans of the nodes directly beneath a node, through those that have none. -/
def beneath (o : Outline) : List Span := foremostFields o.fields

mutual

/-- All nodes that have a span, each before what is beneath it. -/
def nodes : Outline → List Outline
  | ⟨label, some s, fields⟩ => ⟨label, some s, fields⟩ :: nodesFields fields
  | ⟨_, none, fields⟩ => nodesFields fields

def nodesFields : List OutlineField → List Outline
  | [] => []
  | .node _ o :: fs => nodes o ++ nodesFields fs
  | .nodes _ os :: fs => nodesAll os ++ nodesFields fs
  | _ :: fs => nodesFields fs

def nodesAll : List Outline → List Outline
  | [] => []
  | o :: os => nodes o ++ nodesAll os

end

mutual

theorem spanned_eq_map_nodes : ∀ o : Outline,
    o.spanned.map (fun x => (x.1, some x.2)) = o.nodes.map fun n => (n.label, n.span)
  | ⟨label, some s, fields⟩ => by simp [spanned, nodes, spannedFields_eq_map_nodes fields]
  | ⟨label, none, fields⟩ => by simp [spanned, nodes, spannedFields_eq_map_nodes fields]

theorem spannedFields_eq_map_nodes : ∀ fs : List OutlineField,
    (spannedFields fs).map (fun x => (x.1, some x.2)) =
      (nodesFields fs).map fun n => (n.label, n.span)
  | [] => rfl
  | .node _ o :: fs => by
    simp [spannedFields, nodesFields, spanned_eq_map_nodes o, spannedFields_eq_map_nodes fs]
  | .nodes _ os :: fs => by
    simp [spannedFields, nodesFields, spannedAll_eq_map_nodes os, spannedFields_eq_map_nodes fs]
  | .text _ _ :: fs => spannedFields_eq_map_nodes fs
  | .texts _ _ :: fs => spannedFields_eq_map_nodes fs
  | .truth _ _ :: fs => spannedFields_eq_map_nodes fs
  | .number _ _ :: fs => spannedFields_eq_map_nodes fs
  | .absent _ :: fs => spannedFields_eq_map_nodes fs

theorem spannedAll_eq_map_nodes : ∀ os : List Outline,
    (spannedAll os).map (fun x => (x.1, some x.2)) = (nodesAll os).map fun n => (n.label, n.span)
  | [] => rfl
  | o :: os => by
    simp [spannedAll, nodesAll, spanned_eq_map_nodes o, spannedAll_eq_map_nodes os]

end

end Outline

def OutlineField.children : OutlineField → List Outline
  | .node _ o => [o]
  | .nodes _ os => os
  | _ => []

namespace Outline

theorem foremostAll_eq_flatMap (os : List Outline) : foremostAll os = os.flatMap foremost := by
  induction os with
  | nil => rfl
  | cons o os ih => simp [foremostAll, ih]

theorem nodesAll_eq_flatMap (os : List Outline) : nodesAll os = os.flatMap nodes := by
  induction os with
  | nil => rfl
  | cons o os ih => simp [nodesAll, ih]

theorem foremostFields_eq_flatMap (fs : List OutlineField) :
    foremostFields fs = (fs.flatMap (·.children)).flatMap foremost := by
  induction fs with
  | nil => rfl
  | cons f fs ih =>
    cases f <;> simp [foremostFields, OutlineField.children, foremostAll_eq_flatMap, ih]

theorem nodesFields_eq_flatMap (fs : List OutlineField) :
    nodesFields fs = (fs.flatMap (·.children)).flatMap nodes := by
  induction fs with
  | nil => rfl
  | cons f fs ih => cases f <;> simp [nodesFields, OutlineField.children, nodesAll_eq_flatMap, ih]

/-- The node has a span, which is aligned to tokens and encloses what is directly beneath. -/
def Seated (file : String) (ts : List Token) (n : Outline) : Prop :=
  ∃ s, n.span = some s ∧ s.Aligned file ts ∧ s.Encloses n.beneath

end Outline

theorem Outline.aligned_of_mem_spanned {file : String} {ts : List Token} {o : Outline}
    (h : ∀ n ∈ o.nodes, n.Seated file ts) {x : String × Span} (hx : x ∈ o.spanned) :
    x.2.Aligned file ts := by
  have hmem : (x.1, some x.2) ∈ o.nodes.map fun n => (n.label, n.span) := by
    rw [← spanned_eq_map_nodes]
    exact List.mem_map.2 ⟨x, hx, rfl⟩
  obtain ⟨n, hn, heq⟩ := List.mem_map.1 hmem
  obtain ⟨s, hs, haligned, -⟩ := h n hn
  rw [(Prod.mk.inj heq).2] at hs
  exact Option.some.inj hs ▸ haligned

/-- Nodes beside each other within a range of bytes, in any order. -/
structure Row (file : String) (ts : List Token) (start stop : Int) (os : List Outline) : Prop where
  start_le_stop : start ≤ stop
  within : ∀ s ∈ os.flatMap Outline.foremost, start ≤ s.start ∧ s.stop ≤ stop
  disjoint : (os.flatMap Outline.foremost).Pairwise Span.Disjoint
  seated : ∀ n ∈ os.flatMap Outline.nodes, n.Seated file ts

namespace Row

variable {file : String} {ts : List Token} {a b c a' b' : Int} {os os' : List Outline}

theorem nil (h : a ≤ b) : Row file ts a b [] := ⟨h, by simp, by simp, by simp⟩

theorem widen (h : Row file ts a b os) (ha : a' ≤ a) (hb : b ≤ b') : Row file ts a' b' os where
  start_le_stop := by have := h.start_le_stop; omega
  within s hs := by have := h.within s hs; omega
  disjoint := h.disjoint
  seated := h.seated

theorem append (h : Row file ts a b os) (h' : Row file ts b c os') : Row file ts a c (os ++ os') where
  start_le_stop := Int.le_trans h.start_le_stop h'.start_le_stop
  within := by
    have hac := h.start_le_stop
    have hcb := h'.start_le_stop
    rw [List.flatMap_append, List.forall_mem_append]
    constructor
    · intro s hs
      have := h.within s hs
      omega
    · intro s hs
      have := h'.within s hs
      omega
  disjoint := by
    rw [List.flatMap_append, List.pairwise_append]
    exact ⟨h.disjoint, h'.disjoint, fun s hs s' hs' =>
      .inl (Int.le_trans (h.within s hs).2 (h'.within s' hs').1)⟩
  seated := by
    rw [List.flatMap_append, List.forall_mem_append]
    exact ⟨h.seated, h'.seated⟩

/-- The order in which nodes are listed need not be that of their spans. -/
theorem perm (h : Row file ts a b os) (hp : os.Perm os') : Row file ts a b os' where
  start_le_stop := h.start_le_stop
  within s hs := h.within s ((hp.flatMap_right _).mem_iff.2 hs)
  disjoint := (hp.flatMap_right _).pairwise h.disjoint Span.Disjoint.symm
  seated n hn := h.seated n ((hp.flatMap_right _).mem_iff.2 hn)

/-- A node without a span stands for what is beneath it. -/
theorem bare {label : String} {fields : List OutlineField}
    (h : Row file ts a b (fields.flatMap (·.children))) : Row file ts a b [⟨label, none, fields⟩] where
  start_le_stop := h.start_le_stop
  within := by
    rw [List.flatMap_singleton, Outline.foremost, Outline.foremostFields_eq_flatMap]
    exact h.within
  disjoint := by
    rw [List.flatMap_singleton, Outline.foremost, Outline.foremostFields_eq_flatMap]
    exact h.disjoint
  seated := by
    rw [List.flatMap_singleton, Outline.nodes, Outline.nodesFields_eq_flatMap]
    exact h.seated

end Row
end TinyFront
