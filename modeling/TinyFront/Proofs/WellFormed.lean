import TinyFront.Proofs.Grammar

/-!
The trees that can be read. Main statement: whatever a phrase of proper lexemes stands for is well
formed, wherever lambdas may stand.
-/
namespace TinyFront

open Grammar

/-- The leaves of each family: in a pattern a capitalised name is a constructor, and names of types
are no leaves. -/
def Leaf.Fits (k : Kin) : Leaf → Prop
  | .number n => n ≤ Parser.maxNumber
  | .boolean _ => k ≠ .type
  | .name n =>
    match k with
    | .expression => isName n = true
    | .pattern => isLowerName n = true
    | .type => False
  | .wildcard | .unit => True

variable {σ : Type}

inductive Pattern.WellFormed : Pattern σ → Prop
  | leaf {l : Leaf} {s : σ} (h : l.Fits .pattern) : WellFormed (.leaf l s)
  | tuple {ps : List (Pattern σ)} {s : σ} (hne : ps ≠ []) (h : ∀ p ∈ ps, WellFormed p) :
      WellFormed (.tuple ps s)
  | constructor {n : String} {ps : List (Pattern σ)} {s : σ} (hn : isUpperName n = true)
      (h : ∀ p ∈ ps, WellFormed p) : WellFormed (.constructor n ps s)

inductive Ty.WellFormed : Ty σ → Prop
  | leaf {l : Leaf} {s : σ} (h : l.Fits .type) : WellFormed (.leaf l s)
  | tuple {ts : List (Ty σ)} {s : σ} (hne : ts ≠ []) (h : ∀ t ∈ ts, WellFormed t) :
      WellFormed (.tuple ts s)
  | var {n : String} {s : σ} (hn : isName n = true) : WellFormed (.var n s)
  | app {n : String} {ts : List (Ty σ)} {s : σ} (hn : isUpperName n = true) (hne : ts ≠ [])
      (h : ∀ t ∈ ts, WellFormed t) : WellFormed (.app n ts s)
  | arrow {d c : Ty σ} {s : σ} (hd : WellFormed d) (hc : WellFormed c) : WellFormed (.arrow d c s)
  | quantified {bs : List String} {t : Ty σ} {s : σ} (hb : ∀ b ∈ bs, isLowerName b = true)
      (h : WellFormed t) : WellFormed (.quantified bs t s)

def Expr.isBlock : Expr σ → Bool
  | .block _ _ => true
  | _ => false

namespace Statement

def pattern? : Statement σ → Option (Pattern σ)
  | bind p _ _ => some p
  | expr _ _ => none

def value : Statement σ → Expr σ
  | bind _ e _ => e
  | expr e _ => e

end Statement

inductive Expr.WellFormed : Expr σ → Prop
  | leaf {l : Leaf} {s : σ} (h : l.Fits .expression) : WellFormed (.leaf l s)
  | tuple {es : List (Expr σ)} {s : σ} (hne : es ≠ []) (h : ∀ e ∈ es, WellFormed e) :
      WellFormed (.tuple es s)
  | apply {c a : Expr σ} {s : σ} (hc : WellFormed c) (ha : WellFormed a) :
      WellFormed (.apply c a s)
  | lambda {n : String} {b : Expr σ} {s : σ} (hn : isLowerName n = true) (hb : WellFormed b) :
      WellFormed (.lambda n b s)
  | caseOf {e : Expr σ} {cs : List (Clause σ)} {s : σ} (he : WellFormed e)
      (hp : ∀ c ∈ cs, c.pattern.WellFormed) (h : ∀ c ∈ cs, WellFormed c.body) :
      WellFormed (.caseOf e cs s)
  | ifLet {p : Pattern σ} {e t l : Expr σ} {s : σ} (hp : p.WellFormed) (he : WellFormed e)
      (htb : t.isBlock = true) (ht : WellFormed t) (hlb : l.isBlock = true) (hl : WellFormed l) :
      WellFormed (.ifLet p e t l s)
  | access {e : Expr σ} {n : String} {s : σ} (hn : isLowerName n = true) (he : WellFormed e) :
      WellFormed (.access e n s)
  | ascribe {e : Expr σ} {t : Ty σ} {s : σ} (he : WellFormed e) (ht : t.WellFormed) :
      WellFormed (.ascribe e t s)
  | record {e : Expr σ} {fs : List (FieldValue σ)} {s : σ} (he : WellFormed e) (hne : fs ≠ [])
      (hn : ∀ d ∈ fs, isLowerName d.name = true) (h : ∀ d ∈ fs, WellFormed d.value) :
      WellFormed (.record e fs s)
  | block {ss : List (Statement σ)} {s : σ} (hne : ss ≠ [])
      (hp : ∀ t ∈ ss, ∀ p ∈ t.pattern?, p.WellFormed) (h : ∀ t ∈ ss, WellFormed t.value) :
      WellFormed (.block ss s)

structure Param.WellFormed (p : Param σ) : Prop where
  pattern : p.pattern.WellFormed
  type : p.type.WellFormed

structure Variant.WellFormed (v : Variant σ) : Prop where
  name : isUpperName v.name = true
  args : ∀ t ∈ v.args, t.WellFormed

structure Field.WellFormed (d : Field σ) : Prop where
  name : isLowerName d.name = true
  type : d.type.WellFormed

inductive TypeBody.WellFormed : TypeBody σ → Prop
  | sum {vs : List (Variant σ)} (hne : vs ≠ []) (h : ∀ v ∈ vs, v.WellFormed) : WellFormed (.sum vs)
  | product {ds : List (Field σ)} (h : ∀ d ∈ ds, d.WellFormed) : WellFormed (.product ds)

inductive Decl.WellFormed : Decl σ → Prop
  | fn {n : String} {ps : List (Param σ)} {r : Option (Ty σ)} {b : Expr σ} {s : σ}
      (hn : isLowerName n = true) (hp : ∀ p ∈ ps, p.WellFormed) (hr : ∀ t ∈ r, t.WellFormed)
      (hbb : b.isBlock = true) (hb : b.WellFormed) : WellFormed (.fn n ps r b s)
  | type {n : String} {ps : List String} {b : TypeBody σ} {s : σ} (hn : isUpperName n = true)
      (hp : ∀ p ∈ ps, isLowerName p = true) (hb : b.WellFormed) : WellFormed (.type n ps b s)

def Program.WellFormed (p : Program σ) : Prop := ∀ d ∈ p.decls, d.WellFormed

def Tree.WellFormed : Tree σ → Prop
  | .program p => p.WellFormed
  | .expression e => e.WellFormed
  | .pattern p => p.WellFormed
  | .type t => t.WellFormed

namespace Grammar

@[reducible] def Kin.WellFormed : (k : Kin) → k.Node → Prop
  | expression => Expr.WellFormed
  | pattern => Pattern.WellFormed
  | type => Ty.WellFormed

/-- What a phrase of the sort stands for, if its lexemes are proper. -/
def Sym.WellFormed : (s : Sym) → s.Node → Prop
  | element k, t | atom k, t => k.WellFormed t
  | typeApplication, t => t.WellFormed
  | additive, e | multiplicative, e | application, e | argument, e | operand, e | primary, e =>
    e.WellFormed
  | block, e => e.isBlock = true ∧ e.WellFormed
  | suffix, f => ∀ e : Expr Unit, e.WellFormed → (f e).WellFormed
  | fieldValue, d => isLowerName d.name = true ∧ d.value.WellFormed
  | clause, c => c.pattern.WellFormed ∧ c.body.WellFormed
  | statement, s => (∀ p ∈ s.pattern?, p.WellFormed) ∧ s.value.WellFormed
  | param, p => p.WellFormed
  | variant, v => v.WellFormed
  | field, d => d.WellFormed
  | typeBody, b => b.WellFormed
  | decl, d => d.WellFormed
  | program, p => p.WellFormed

theorem mem_listed {α : Type} {separator : Lexeme} {trailing : Bool} {parts : List (List Lexeme × α)}
    {p : List Lexeme × α} (hp : p ∈ parts) {x : Lexeme} (hx : x ∈ p.1) :
    x ∈ listed separator trailing (parts.map (·.1)) := by
  induction parts with
  | nil => cases hp
  | cons q qs ih =>
    cases qs with
    | nil =>
      obtain rfl : p = q := by simpa using hp
      simp [listed, hx]
    | cons r rs =>
      rw [List.map_cons, List.map_cons, listed]
      · rcases List.mem_cons.1 hp with rfl | hp
        · exact List.mem_append_left _ hx
        · exact List.mem_append_right _ (List.mem_cons_of_mem _ (ih hp))
      · simp

theorem isName_operator (o : Operator) : isName o.name = true := by cases o <;> decide

/-- What holds of all lexemes of a phrase holds of those between its delimiters, of those of each
item in a list, and of those of each part among parts one after the other. -/
theorem forall_enclosed {P : Lexeme → Prop} {a b : Lexeme} {ys : List Lexeme}
    (h : ∀ x ∈ a :: ys ++ [b], P x) : ∀ x ∈ ys, P x :=
  fun x hx => h x (List.mem_append_left _ (List.mem_cons_of_mem _ hx))

theorem forall_listed {α : Type} {P : Lexeme → Prop} {separator : Lexeme} {trailing : Bool}
    {parts : List (List Lexeme × α)}
    (h : ∀ x ∈ listed separator trailing (parts.map (·.1)), P x) : ∀ p ∈ parts, ∀ x ∈ p.1, P x :=
  fun _ hp x hx => h x (mem_listed hp hx)

theorem forall_flatMap {α : Type} {P : Lexeme → Prop} {lexemes : α → List Lexeme} {parts : List α}
    (h : ∀ x ∈ parts.flatMap lexemes, P x) : ∀ p ∈ parts, ∀ x ∈ lexemes p, P x :=
  fun p hp x hx => h x (List.mem_flatMap.2 ⟨p, hp, hx⟩)

theorem wellFormed_foldl_infixed {parts : List (Operator × List Lexeme × Expr Unit)} {e : Expr Unit}
    (he : e.WellFormed) (h : ∀ p ∈ parts, p.2.2.WellFormed) : (parts.foldl infixed e).WellFormed :=
  List.foldlRecOn parts infixed he fun _ he p hp =>
    .apply (.apply (.leaf (isName_operator p.1)) he) (h p hp)

theorem wellFormed_foldl_suffix {parts : List (List Lexeme × (Expr Unit → Expr Unit))} {e : Expr Unit}
    (he : e.WellFormed) (h : ∀ p ∈ parts, Sym.WellFormed .suffix p.2) :
    (parts.foldl (fun e p => p.2 e) e).WellFormed :=
  List.foldlRecOn parts _ he fun e he p hp => h p hp e he

theorem Derives.wellFormed {u : Lambdas} {s : Sym} {xs : List Lexeme} {t : s.Node}
    (h : Derives u s xs t) (hx : ∀ x ∈ xs, x.Proper) : s.WellFormed t := by
  induction h with
  | wildcard f => cases f <;> exact .leaf trivial
  | number f digits hd hl hv => cases f <;> exact .leaf hv
  | boolean f hf b => cases f <;> exact .leaf hf
  | lowerName f n hn =>
    cases f with
    | expression => exact .leaf (isName_of_isLowerName hn)
    | pattern => exact .leaf hn
    | type => exact .var (isName_of_isLowerName hn)
  | upperName f n hn =>
    cases f with
    | expression => exact .leaf (isName_of_isUpperName hn)
    | pattern => exact .constructor hn (by simp)
    | type => exact .var (isName_of_isUpperName hn)
  | unit f => cases f <;> exact .leaf trivial
  | group f h ih => exact ih (forall_enclosed hx)
  | tuple f parts trailing hp h ih =>
    have hparts := forall_listed (forall_enclosed hx)
    have hne : parts.map (·.2) ≠ [] := by
      rintro h
      simp [List.map_eq_nil_iff.1 h] at hp
    cases f <;> exact .tuple hne (List.forall_mem_map.2 fun p hp => ih p hp (hparts p hp))
  | construct n parts h ih =>
    simp only [List.forall_mem_cons] at hx
    exact .constructor hx.1 (List.forall_mem_map.2 fun p hp => ih p hp (forall_flatMap hx.2 p hp))
  | atomicPattern _ ih => exact ih hx
  | quantified binders _ ih =>
    simp only [List.cons_append, List.forall_mem_cons, List.forall_mem_append, List.forall_mem_map] at hx
    exact .quantified hx.2.1 (ih hx.2.2.2)
  | arrow _ _ ihd ihc =>
    simp only [List.forall_mem_cons, List.forall_mem_append] at hx
    exact .arrow (ihd hx.1) (ihc hx.2.2)
  | plainType _ ih => exact ih hx
  | applyType n parts hp h ih =>
    simp only [List.forall_mem_cons] at hx
    exact .app hx.1 (by simpa using hp)
      (List.forall_mem_map.2 fun p hp => ih p hp (forall_flatMap hx.2 p hp))
  | atomicType _ ih => exact ih hx
  | ascribe _ _ ihe iht =>
    simp only [List.forall_mem_cons, List.forall_mem_append] at hx
    exact .ascribe (ihe hx.1) (iht hx.2.2)
  | plain _ ih => exact ih hx
  | wholeLambda _ n _ ih | lambda _ n _ ih =>
    simp only [List.forall_mem_cons] at hx
    exact .lambda hx.2.1 (ih hx.2.2.2)
  | additive parts _ _ _ ihe ih | multiplicative parts _ _ _ ihe ih =>
    simp only [List.forall_mem_append] at hx
    exact wellFormed_foldl_infixed (ihe hx.1) fun p hp =>
      ih p hp (List.forall_mem_cons.1 (forall_flatMap hx.2 p hp)).2
  | application parts _ _ ihe ih =>
    simp only [List.forall_mem_append] at hx
    exact List.foldlRecOn parts _ (ihe hx.1) fun _ he p hp =>
      .apply he (ih p hp (forall_flatMap hx.2 p hp))
  | argument parts _ _ ihe ih | operand parts _ _ ihe ih =>
    simp only [List.forall_mem_append] at hx
    exact wellFormed_foldl_suffix (ihe hx.1) fun p hp => ih p hp (forall_flatMap hx.2 p hp)
  | access n =>
    simp only [List.forall_mem_cons] at hx
    exact fun e he => .access hx.2.1 he
  | record parts trailing hp h ih =>
    have hparts := forall_listed (forall_enclosed hx)
    have hfields := fun p hp => ih p hp (hparts p hp)
    exact fun e he => .record he (by simpa using hp) (List.forall_mem_map.2 fun p hp => (hfields p hp).1)
      (List.forall_mem_map.2 fun p hp => (hfields p hp).2)
  | fieldValue n _ ih =>
    simp only [List.forall_mem_cons] at hx
    exact ⟨hx.1, ih hx.2.2⟩
  | ifLet _ _ _ _ ihp ihe iht ihl =>
    simp only [List.cons_append, List.append_assoc, List.forall_mem_cons, List.forall_mem_append] at hx
    obtain ⟨-, -, hps, -, hxs, hys, -, hzs⟩ := hx
    exact .ifLet (ihp hps) (ihe hxs) (iht hys).1 (iht hys).2 (ihl hzs).1 (ihl hzs).2
  | caseOf parts trailing _ _ ihe ih =>
    simp only [List.cons_append, List.append_assoc, List.forall_mem_cons, List.forall_mem_append] at hx
    have hclauses := fun p hp => ih p hp (forall_listed hx.2.2.2.1 p hp)
    exact .caseOf (ihe hx.2.1) (List.forall_mem_map.2 fun p hp => (hclauses p hp).1)
      (List.forall_mem_map.2 fun p hp => (hclauses p hp).2)
  | blockPrimary _ ih => exact (ih hx).2
  | atomPrimary _ ih => exact ih hx
  | clause _ _ ihp ihe =>
    simp only [List.forall_mem_cons, List.forall_mem_append] at hx
    exact ⟨ihp hx.1, ihe hx.2.2⟩
  | emptyBlock =>
    exact ⟨rfl, .block (by simp) (by simp [Statement.pattern?]) (by simpa using .leaf trivial)⟩
  | block parts trailing hp h ih =>
    have hparts := forall_listed (forall_enclosed hx)
    have hstatements := fun p hp => ih p hp (hparts p hp)
    exact ⟨rfl, .block (by simpa using hp) (List.forall_mem_map.2 fun p hp => (hstatements p hp).1)
      (List.forall_mem_map.2 fun p hp => (hstatements p hp).2)⟩
  | bind _ _ ihp ihe =>
    simp only [List.cons_append, List.forall_mem_cons, List.forall_mem_append] at hx
    refine ⟨fun p hp => ?_, ihe hx.2.2.2⟩
    obtain rfl := Option.some.inj hp
    exact ihp hx.2.1
  | expr _ ih => exact ⟨by simp [Statement.pattern?], ih hx⟩
  | param _ _ ihp iht =>
    simp only [List.cons_append, List.append_assoc, List.forall_mem_cons, List.forall_mem_append] at hx
    exact ⟨ihp hx.2.1, iht hx.2.2.2.1⟩
  | variant n parts h ih =>
    simp only [List.forall_mem_cons] at hx
    exact ⟨hx.1, List.forall_mem_map.2 fun p hp => ih p hp (forall_flatMap hx.2 p hp)⟩
  | field n _ ih =>
    simp only [List.forall_mem_cons] at hx
    exact ⟨hx.1, ih hx.2.2⟩
  | sum parts hp _ ih =>
    exact .sum (by simpa using hp) (List.forall_mem_map.2 fun p hp =>
      ih p hp (List.forall_mem_cons.1 (forall_flatMap hx p hp)).2)
  | product parts trailing _ ih =>
    have hparts := forall_listed (forall_enclosed hx)
    exact .product (List.forall_mem_map.2 fun p hp => ih p hp (hparts p hp))
  | fn n params result hp hr hb ihp ihr ihb =>
    simp only [List.cons_append, List.append_assoc, List.forall_mem_cons, List.forall_mem_append] at hx
    obtain ⟨-, hn, hps, hrs, hbs⟩ := hx
    refine .fn hn (List.forall_mem_map.2 fun p hp => ihp p hp (forall_flatMap hps p hp)) ?_
      (ihb hbs).1 (ihb hbs).2
    rintro t ht
    obtain ⟨r, rfl, rfl⟩ := Option.map_eq_some_iff.1 ht
    exact ihr r rfl (List.forall_mem_cons.1 hrs).2
  | type n params _ ih =>
    simp only [List.cons_append, List.forall_mem_cons, List.forall_mem_append, List.forall_mem_map] at hx
    exact .type hx.2.1 hx.2.2.1 (ih hx.2.2.2.2)
  | program parts h ih =>
    exact List.forall_mem_map.2 fun p hp => ih p hp (forall_flatMap hx p hp)

end Grammar

/-- Whatever proper lexemes are read as is well formed. -/
theorem Tree.wellFormed_of_reads {u : Lambdas} {xs : List Lexeme} {t : Tree Unit}
    (h : Reads u xs t) (hx : ∀ x ∈ xs, x.Proper) : t.WellFormed := by
  cases t <;> exact Derives.wellFormed h hx

end TinyFront
