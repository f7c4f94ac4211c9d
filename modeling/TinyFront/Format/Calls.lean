import TinyFront.Format.Tree

/-!
How many calls are open at once while a tree is laid out. The routine for a node calls those for what is
beneath it, most of them by way of a routine that goes through a list or looks where the part stands.
Nothing but the length of the text bounds a chain of arrows, arguments or operators, and a call too many
ends what it is for. Main statement: details of declarations take no more calls than the whole layout.
-/
namespace TinyFront

/-- How many calls may be open at once in what a command or an editor does with a tree. -/
def maxCalls : Nat := 950

def mostCalls (ns : List Nat) : Nat := ns.foldr max 0

theorem mostCalls_le_iff {ns : List Nat} {n : Nat} : mostCalls ns ≤ n ↔ ∀ m ∈ ns, m ≤ n := by
  induction ns with
  | nil => simp [mostCalls]
  | cons m ns ih => rw [List.forall_mem_cons, ← ih, mostCalls, mostCalls, List.foldr_cons, Nat.max_le]

/-- The elements of a tuple are gone through one after the other, unless there is only one. -/
def tupleCalls (count inner : Nat) : Nat := if count = 1 then inner + 3 else inner + 4

variable {σ : Type}

namespace Pattern

mutual

def calls : Pattern σ → Nat
  | leaf _ _ => 2
  | tuple ps _ => tupleCalls ps.length (callsAll ps)
  | constructor _ [] _ => 1
  | constructor _ ps _ => callsAll ps + 2

def callsAll : List (Pattern σ) → Nat
  | [] => 0
  | p :: ps => max p.calls (callsAll ps)

end
end Pattern

namespace Ty

mutual

def calls : Ty σ → Nat
  | leaf _ _ => 2
  | tuple ts _ => tupleCalls ts.length (callsAll ts)
  | var _ _ => 1
  | app _ ts _ => callsAll ts + 2
  | arrow d c _ => max d.calls c.calls + 1
  | quantified _ t _ => t.calls + 1

def callsAll : List (Ty σ) → Nat
  | [] => 0
  | t :: ts => max t.calls (callsAll ts)

end
end Ty

mutual

/-- An expression takes two calls of its own, one of which looks where it stands. -/
def Expr.calls : Expr σ → Nat
  | .leaf _ _ => 3
  | .tuple es _ => tupleCalls es.length (Expr.callsAll es) + 1
  | .apply (.apply (.leaf (.name n) u) l v) r _ =>
    match Operator.ofName? n with
    | some _ => max l.calls r.calls + 2
    | none => max (Expr.apply (.leaf (.name n) u) l v).calls (r.calls + 1) + 2
  | .apply c a _ => max c.calls (a.calls + 1) + 2
  | .lambda _ b _ => b.calls + 2
  | .caseOf e [] _ => e.calls + 2
  | .caseOf e cs _ => max e.calls (Clause.callsAll cs + 1) + 2
  | .ifLet p e t l _ => max (max (p.calls + 1) e.calls) (max t.calls l.calls) + 2
  | .access e _ _ => e.calls + 3
  | .ascribe e t _ => max e.calls (t.calls + 1) + 2
  | .record e fs _ => max e.calls (FieldValue.callsAll fs) + 3
  | .block ss _ => if isUnitBlock ss then 4 else Statement.callsAll ss + 5

def Expr.callsAll : List (Expr σ) → Nat
  | [] => 0
  | e :: es => max e.calls (Expr.callsAll es)

def Clause.callsAll : List (Clause σ) → Nat
  | [] => 0
  | ⟨p, e, _⟩ :: cs => max (max (p.calls + 1) e.calls) (Clause.callsAll cs)

def FieldValue.callsAll : List (FieldValue σ) → Nat
  | [] => 0
  | ⟨_, e, _⟩ :: fs => max e.calls (FieldValue.callsAll fs)

def Statement.callsAll : List (Statement σ) → Nat
  | [] => 0
  | .bind p e _ :: ss => max (max (p.calls + 1) e.calls) (Statement.callsAll ss)
  | .expr e _ :: ss => max e.calls (Statement.callsAll ss)

end

def Param.calls (p : Param σ) : Nat := max p.pattern.calls p.type.calls + 1

def Variant.calls (v : Variant σ) : Nat := Ty.callsAll v.args

def Field.calls (d : Field σ) : Nat := d.type.calls + 1

namespace Decl

/-- The calls for the details of a declaration alone: parameters and what is returned, or fields. -/
def detailCalls : Decl σ → Nat
  | fn _ ps r _ _ => max (mostCalls (ps.map Param.calls) + 1) (r.elim 0 fun t => t.calls + 1) + 1
  | type _ _ (.sum _) _ => 1
  | type _ _ (.product ds) _ => mostCalls (ds.map Field.calls) + 1

def calls : Decl σ → Nat
  | fn _ ps r b _ =>
    max (max (mostCalls (ps.map Param.calls)) (r.elim 0 fun t => t.calls + 1)) b.calls + 2
  | type _ _ (.sum vs) _ => mostCalls (vs.map Variant.calls) + 2
  | type _ _ (.product ds) _ => mostCalls (ds.map Field.calls) + 3

theorem detailCalls_le_calls (d : Decl σ) : d.detailCalls ≤ d.calls := by
  rcases d with ⟨_, ps, r, b, _⟩ | ⟨_, _, vs | ds, _⟩ <;> simp only [detailCalls, calls] <;> omega

end Decl

namespace Program

def detailCalls (p : Program σ) : Nat := mostCalls (p.decls.map Decl.detailCalls)

def calls (p : Program σ) : Nat := mostCalls (p.decls.map Decl.calls) + 1

theorem detailCalls_le_iff {p : Program σ} {n : Nat} :
    p.detailCalls ≤ n ↔ ∀ d ∈ p.decls, d.detailCalls ≤ n := by
  rw [detailCalls, mostCalls_le_iff, List.forall_mem_map]

theorem detailCalls_le_calls (p : Program σ) : p.detailCalls ≤ p.calls := by
  have hcalls : ∀ d ∈ p.decls, d.calls ≤ mostCalls (p.decls.map Decl.calls) :=
    List.forall_mem_map.1 (mostCalls_le_iff.1 (Nat.le_refl _))
  exact detailCalls_le_iff.2 fun d hd =>
    Nat.le_succ_of_le (Nat.le_trans d.detailCalls_le_calls (hcalls d hd))

end Program
end TinyFront
