import TinyFront.Proofs.Kept

/-!
Lambdas among the pairs of a layout. Main statement: the layout has a pair around a lambda only where
the lambda is an operand, so that an operator stands before the pair or the expression goes on behind
it. One rule for each way in which expressions are built.
-/
namespace TinyFront

open Forest

/-- An expression that ends before the signs goes on with them: with an operator, an argument, a
selection, an annotation or the fields of a record. -/
def Sign.prolongs : List Sign → Bool
  | opening :: _ => true
  | word .operator :: _ | word .ender :: _ | word .link :: _ => true
  | word .brace :: word .ender :: word .assign :: _ => true
  | _ => false

namespace Forest

open Sign

variable {f g : Forest} {behind : List Sign} {before : Option Sign}

/-- Each lambda's pair has an operator before it, or what is behind it goes on. -/
def Operands (behind : List Sign) : Option Sign → Forest → Prop
  | _, nil => True
  | _, word w rest => rest.Operands behind (some (.word w))
  | _, unit rest => rest.Operands behind (some closing)
  | before, pair r i rest =>
    (r = .lambda → before = some (.word .operator) ∨ prolongs (rest.signs ++ behind) = true) ∧
      i.Operands (closing :: (rest.signs ++ behind)) (some opening) ∧
        rest.Operands behind (some closing)

theorem Has.operand {i : Forest} {as cs : List Sign} (h : Has .lambda i f as cs)
    (hf : f.Operands behind before) :
    as.getLast?.or before = some (.word .operator) ∨ prolongs (cs ++ behind) = true := by
  induction h generalizing behind before with
  | here f => exact hf.1 rfl
  | word _ ih | unit _ ih => simpa [List.getLast?_cons] using ih hf
  | inside _ ih => simpa [List.getLast?_cons] using ih hf.2.1
  | behind _ ih => simpa [List.getLast?_cons, List.getLast?_append] using ih hf.2.2

/-- Wherever the forest stands, the lambdas with pairs in it are operands. -/
def Settled (f : Forest) : Prop := ∀ behind before, f.Operands behind before

theorem Operands.append (hf : f.Operands (g.signs ++ behind) before) (hg : g.Settled) :
    (f ++ g).Operands behind before := by
  induction f generalizing before with
  | nil => exact hg _ _
  | word w f ih | unit f ih => exact ih hf
  | pair r i f _ ih =>
    obtain ⟨hr, hi, hf⟩ := hf
    have hsigns : (f ++ g).signs ++ behind = f.signs ++ (g.signs ++ behind) := by simp
    rw [pair_append, Operands, hsigns]
    exact ⟨hr, hi, ih hf⟩

namespace Settled

theorem append (hf : f.Settled) (hg : g.Settled) : (f ++ g).Settled := fun _ _ => (hf _ _).append hg

theorem word (h : f.Settled) (w : Word) : (Forest.word w f).Settled := fun _ _ => h _ _

theorem single (w : Word) : (single w).Settled := fun _ _ => trivial

theorem enclosed {r : Reason} (h : f.Settled) (hr : r ≠ .lambda) : (Forest.enclosed r f).Settled :=
  fun _ _ => ⟨fun heq => absurd heq hr, h _ _, trivial⟩

section

variable {fs : List Forest}

theorem row (h : ∀ f ∈ fs, f.Settled) : (row fs).Settled := by
  induction fs with
  | nil => exact fun _ _ => trivial
  | cons f fs ih =>
    obtain ⟨hf, hfs⟩ := List.forall_mem_cons.1 h
    exact hf.append (ih hfs)

theorem separated (h : ∀ f ∈ fs, f.Settled) : (separated fs).Settled := by
  induction fs with
  | nil => exact fun _ _ => trivial
  | cons f fs ih =>
    obtain ⟨hf, hfs⟩ := List.forall_mem_cons.1 h
    cases fs with
    | nil => exact hf
    | cons g gs => exact hf.append ((ih hfs).word .separator)

theorem tuple (h : ∀ f ∈ fs, f.Settled) : (tuple fs).Settled := by
  have hall := separated h
  rcases fs with _ | ⟨f, _ | ⟨g, gs⟩⟩
  · exact hall.enclosed (by simp)
  · exact ((h f (by simp)).append (single .separator)).enclosed (by simp)
  · exact hall.enclosed (by simp)

end

end Settled

end Forest

theorem Leaf.settled (l : Leaf) : l.nests.Settled := by cases l <;> exact fun _ _ => trivial

theorem Pattern.settled {p : Pattern Unit} (h : p.WellFormed) (nested : Bool) :
    (p.nests nested).Settled := by
  induction h generalizing nested with
  | @leaf l s _ => exact l.settled
  | tuple _ _ ih =>
    rw [nests, nestsAll_eq_map]
    exact .tuple (List.forall_mem_map.2 fun p hp => ih p hp false)
  | @constructor n ps s _ _ ih =>
    cases ps with
    | nil => exact .single .ender
    | cons p ps =>
      have hargs : (Forest.word .ender (.row (nestsAll true (p :: ps)))).Settled := by
        rw [nestsAll_eq_map]
        exact (Settled.row (List.forall_mem_map.2 fun p hp => ih p hp true)).word .ender
      rw [nests]
      · cases nested with
        | false => exact hargs
        | true => exact hargs.enclosed (by simp)
      · simp

theorem Settled.names (ns : List String) : (Forest.row (ns.map fun _ => .single .ender)).Settled :=
  .row (List.forall_mem_map.2 fun _ _ => .single .ender)

theorem Ty.settled {t : Ty Unit} (h : t.WellFormed) (context : TypeContext) :
    (t.nests context).Settled := by
  have hcompound : ∀ {f : Forest}, f.Settled → ∀ (p : Prop) [Decidable p],
      (if p then f else .enclosed .needed f).Settled := by
    intro f hf p _
    split
    · exact hf
    · exact hf.enclosed (by simp)
  induction h generalizing context with
  | @leaf l s _ => exact l.settled
  | tuple _ _ ih =>
    rw [nests, nestsAll_eq_map]
    exact .tuple (List.forall_mem_map.2 fun t ht => ih t ht .top)
  | var _ => exact .single .ender
  | app _ _ _ ih =>
    have hargs := Settled.row (List.forall_mem_map.2 fun t ht => ih t ht .argument)
    simp only [nests, nestsAll_eq_map]
    rw [← ite_not]
    exact hcompound (hargs.word .ender) _
  | arrow _ _ ihd ihc => exact hcompound ((ihd .domain).append ((ihc .top).word .other)) _
  | @quantified bs t s _ _ ih =>
    exact hcompound (((Settled.names bs).append ((ih .top).word .link)).word .other) _

/-! Expressions. -/

namespace Expr

variable {e : Expr Unit} {behind : List Sign} {before : Option Sign} {g : Forest}

theorem operands_grouped (h : e.nests.Settled) (s : Strength)
    (hs : before = some (.word .operator) ∨ Sign.prolongs behind = true) :
    (e.grouped s).Operands behind before := by
  cases hw : e.strength.weaker s with
  | false =>
    rw [grouped_of_not_weaker hw]
    exact h _ _
  | true =>
    rw [grouped_of_weaker hw]
    exact ⟨fun _ => hs, h _ _, trivial⟩

theorem settled_behind (h : e.nests.Settled) (s : Strength) :
    (Forest.word .operator (e.grouped s)).Settled := fun _ _ => operands_grouped h s (.inl rfl)

theorem settled_before (h : e.nests.Settled) (s : Strength) (hg : g.Settled)
    (hs : ∀ ss, Sign.prolongs (g.signs ++ ss) = true) : (e.grouped s ++ g).Settled :=
  fun _ _ => (operands_grouped h s (.inr (hs _))).append hg

theorem settled_argued (h : e.nests.Settled) : e.argued.Settled := by
  cases ha : e.isArgument with
  | true => rwa [argued_of_isArgument ha]
  | false =>
    rw [argued_of_not_isArgument ha]
    exact h.enclosed (by split <;> simp)

/-- What can stand as an argument begins with a parenthesis or a word that is an operand. -/
theorem prolongs_nests : ∀ {e : Expr Unit}, e.isArgument = true →
    ∀ ss, Sign.prolongs (e.nests.signs ++ ss) = true
  | leaf l _, _, ss => by cases l <;> rfl
  | tuple [] _, _, ss | tuple [_] _, _, ss | tuple (_ :: _ :: _) _, _, ss => rfl
  | access e n _, h, ss => by
    show Sign.prolongs ((e.grouped .primary ++ .word .link (.single .ender)).signs ++ ss) = true
    rw [grouped_of_isArgument (e := e) h, signs_append, List.append_assoc]
    exact prolongs_nests (e := e) h _
  | record e fs _, h, ss => by
    show Sign.prolongs ((e.grouped .primary ++
      .word .brace (.separated (FieldValue.nestsAll fs) ++ .single .closer)).signs ++ ss) = true
    rw [grouped_of_isArgument (e := e) h, signs_append, List.append_assoc]
    exact prolongs_nests (e := e) h _

theorem prolongs_argued (e : Expr Unit) (ss : List Sign) : Sign.prolongs (e.argued.signs ++ ss) = true := by
  cases ha : e.isArgument with
  | true =>
    rw [argued_of_isArgument ha]
    exact prolongs_nests ha ss
  | false =>
    rw [argued_of_not_isArgument ha]
    rfl

theorem settled_apply {e : Expr Unit} (h : e.WellFormed) :
    e.nests.Settled ∧ ∀ c a s, e = .apply c a s → a.nests.Settled := by
  induction h with
  | @leaf l s _ => exact ⟨l.settled, by simp⟩
  | @tuple es s _ _ ih =>
    refine ⟨?_, by simp⟩
    rw [nests, nestsAll_eq_map]
    exact .tuple (List.forall_mem_map.2 fun e he => (ih e he).1)
  | @apply c a s _ _ ihc iha =>
    refine ⟨?_, fun _ _ _ h => by cases h; exact iha.1⟩
    cases h : (Expr.apply c a s).operation? with
    | none =>
      rw [nests_apply h]
      exact settled_before ihc.1 _ (settled_argued iha.1) a.prolongs_argued
    | some p =>
      obtain ⟨o, l, r⟩ := p
      obtain ⟨u, v, s', heq⟩ := eq_of_operation? h
      cases heq
      rw [nests_operation]
      exact settled_before (ihc.2 _ _ _ rfl) _ (settled_behind iha.1 _) fun _ => rfl
  | lambda _ _ ih =>
    refine ⟨?_, by simp⟩
    rw [nests]
    exact ((ih.1.word .other).word .ender).word .other
  | @caseOf e cs s _ hp _ ihe ih =>
    refine ⟨?_, by simp⟩
    have hclauses : (Forest.row (cs.map Clause.nests)).Settled := .row (List.forall_mem_map.2 fun c hc =>
      (Pattern.settled (hp c hc) false).append (((ih c hc).1.append (.single .separator)).word .other))
    rw [nests, Clause.nestsAll_eq_map]
    exact (ihe.1.append ((hclauses.append (.single .closer)).word .brace)).word .other
  | ifLet hp _ _ _ _ _ ihe iht ihl =>
    refine ⟨?_, by simp⟩
    have hblocks := iht.1.append (ihl.1.word .other)
    rw [nests]
    exact (((Pattern.settled hp false).append ((ihe.1.append hblocks).word .assign)).word .other).word .other
  | access _ _ ih =>
    refine ⟨?_, by simp⟩
    rw [nests]
    exact settled_before ih.1 _ ((Settled.single .ender).word .link) fun _ => rfl
  | ascribe _ ht ih =>
    refine ⟨?_, by simp⟩
    rw [nests]
    exact settled_before ih.1 _ ((Ty.settled ht .top).word .link) fun _ => rfl
  | @record e fs s _ hne _ _ ihe ih =>
    refine ⟨?_, by simp⟩
    have hfields : (Forest.separated (fs.map FieldValue.nests)).Settled :=
      .separated (List.forall_mem_map.2 fun d hd => ((ih d hd).1.word .assign).word .ender)
    rw [nests, FieldValue.nestsAll_eq_map]
    refine settled_before ihe.1 _ ((hfields.append (.single .closer)).word .brace) fun _ => ?_
    rcases fs with _ | ⟨d, _ | ⟨d', fs⟩⟩
    · contradiction
    · rfl
    · rfl
  | @block ss s _ hp _ ih =>
    refine ⟨?_, by simp⟩
    have hstatements : (Forest.separated (ss.map Statement.nests)).Settled := by
      refine .separated (List.forall_mem_map.2 fun t ht => ?_)
      have hvalue := (ih t ht).1
      cases t with
      | expr e s => exact hvalue
      | bind p e s =>
        exact ((Pattern.settled (hp _ ht p rfl) false).append (hvalue.word .assign)).word .other
    rw [nests, Statement.nestsAll_eq_map]
    split
    · exact (Settled.single .closer).word .brace
    · exact (hstatements.append (.single .closer)).word .brace

theorem settled (h : e.WellFormed) : e.nests.Settled := (settled_apply h).1

end Expr

/-! Declarations. -/

theorem Param.settled {p : Param Unit} (h : p.WellFormed) : p.nests.Settled :=
  ((Pattern.settled h.pattern false).append ((Ty.settled h.type .top).word .link)).enclosed (by simp)

theorem Variant.settled {v : Variant Unit} (h : v.WellFormed) : v.nests.Settled :=
  ((Settled.row (List.forall_mem_map.2 fun t ht => Ty.settled (h.args t ht) .argument)).word .ender).word
    .other

theorem TypeBody.settled {d : TypeBody Unit} (h : d.WellFormed) : d.nests.Settled := by
  cases h with
  | sum _ h => exact .row (List.forall_mem_map.2 fun v hv => Variant.settled (h v hv))
  | @product ds h =>
    have hfields : (Forest.separated (ds.map Field.nests)).Settled := .separated
      (List.forall_mem_map.2 fun d hd => ((Ty.settled (h d hd).type .top).word .link).word .ender)
    exact (hfields.append (.single .closer)).word .brace

theorem Decl.settled {d : Decl Unit} (h : d.WellFormed) : d.nests.Settled := by
  cases h with
  | @fn n ps r e s _ hp hr _ hb =>
    have hparams : (Forest.row (ps.map Param.nests)).Settled :=
      .row (List.forall_mem_map.2 fun p h => Param.settled (hp p h))
    have hresult : Forest.Settled (r.elim .nil fun t => .word .link (t.nests .top)) := by
      cases r with
      | none => exact fun _ _ => trivial
      | some t => exact (Ty.settled (hr t rfl) .top).word .link
    exact ((hparams.append (hresult.append (Expr.settled hb))).word .ender).word .other
  | type _ _ hd =>
    exact (((Settled.names _).append ((TypeBody.settled hd).word .assign)).word .ender).word .other

/-- Every pair around a lambda in the layout of a tree is an operand's. -/
theorem Tree.settled {t : Tree Unit} (h : t.WellFormed) : t.nests.Settled := by
  cases t with
  | expression e => exact Expr.settled h
  | pattern p => exact Pattern.settled h false
  | type t => exact Ty.settled h .top
  | program p => exact .row (List.forall_mem_map.2 fun d hd => Decl.settled (h d hd))

end TinyFront
