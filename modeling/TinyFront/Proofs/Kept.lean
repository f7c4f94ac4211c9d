import TinyFront.Proofs.Groups

/-!
What the pairs in a layout are like. Main statement: each needed pair stands around words that no other
sort of pair is around, and each other pair around words that an operand ends with: for a lambda, where
no operand ends before it, and for an argument, where one does.
-/
namespace TinyFront
namespace Forest

variable {f g : Forest} {b : Bool} {n : Nat}

/-- No pair is around everything, and there is more than a unit. -/
structure Split (f : Forest) : Prop where
  unit : f ≠ .unit .nil
  places : ∀ p n, (n, n + f.weight) ∉ f.places p n

/-- No pair that is not needed is around everything. -/
def Bare (f : Forest) : Prop := ∀ r ≠ .needed, ∀ n, (n, n + f.weight) ∉ f.places (· == r) n

/-- A pair around the forest has its reason, which tells whether an operand can end before it. -/
structure Warranted (b : Bool) (r : Reason) (f : Forest) : Prop where
  unit : f ≠ .unit .nil
  needed : r = .needed → f.Bare
  spare : r ≠ .needed → ∀ n, (n, n + f.weight) ∉ f.places (· == .needed) n
  ends : r ≠ .needed → f.ends false = true
  lambda : r = .lambda → b = false ∧ ∃ w, f.signs.head? = some (.word w) ∧ 0 < w.weight
  argument : r = .argument → b = true

/-- Words that an operand ends with, all of whose pairs have their reasons. -/
structure Kept (b : Bool) (f : Forest) : Prop where
  clean : f.Clean
  every : f.Every Warranted b
  positive : 0 < f.weight
  ends : ∀ b, f.ends b = true

theorem Split.bare (h : f.Split) : f.Bare := fun _ _ n => h.places _ n

theorem Split.warranted (h : f.Split) : Warranted b .needed f :=
  ⟨h.unit, fun _ => h.bare, by simp, by simp, by simp, by simp⟩

theorem Split.append (hf : f.Clean) (hg : g.Clean) (hf' : 0 < f.weight) (hg' : 0 < g.weight) :
    (f ++ g).Split where
  unit h := by
    have hweight := congrArg weight h
    rw [weight_append] at hweight
    simp only [weight] at hweight
    omega
  places p n hx := by
    rw [places_append, weight_append] at hx
    rcases Multiset.mem_add.1 hx with hx | hx
    · have := lt_of_mem_places hf hx
      omega
    · have := lt_of_mem_places hg hx
      omega

theorem Split.word {w : Word} (hw : 0 < w.weight) (hf : f.Clean) : (Forest.word w f).Split where
  unit := by simp
  places p n hx := by
    have := lt_of_mem_places (n := n + w.weight) hf hx
    omega

namespace Kept

theorem single {w : Word} (hw : w.ends = true) : Kept b (.single w) :=
  ⟨trivial, trivial, (by cases w <;> first | decide | cases hw), fun _ => hw⟩

theorem unit : Kept b (.unit .nil) := ⟨trivial, trivial, by decide, fun _ => rfl⟩

theorem append (hf : Kept b f) (hg : Kept true g) : Kept b (f ++ g) where
  clean := clean_append.2 ⟨hf.clean, hg.clean⟩
  every := every_append.2 ⟨hf.every, by rw [hf.ends]; exact hg.every⟩
  positive := by
    have := hf.positive
    rw [weight_append]
    omega
  ends b := by rw [ends_append, hg.ends]

theorem word {w : Word} (h : Kept w.ends f) : Kept b (.word w f) where
  clean := h.clean
  every := h.every
  positive := by
    have := h.positive
    rw [weight]
    omega
  ends _ := h.ends _

theorem enclosed {r : Reason} (h : Kept false f) (hr : Warranted b r f) : Kept b (.enclosed r f) where
  clean := ⟨h.positive, h.clean, trivial⟩
  every := ⟨hr, h.every, trivial⟩
  positive := by simpa using h.positive
  ends _ := rfl

theorem append_row {fs : List Forest} (hf : Kept b f) (h : ∀ g ∈ fs, Kept true g) :
    Kept b (f ++ .row fs) := by
  induction fs generalizing f with
  | nil => simpa [row] using hf
  | cons g gs ih =>
    obtain ⟨hg, hgs⟩ := List.forall_mem_cons.1 h
    rw [row, ← append_assoc]
    exact ih (hf.append hg) hgs

theorem names {f : Forest} (ns : List String) (h : ∀ b, Kept b f) :
    Kept b (.row (ns.map fun _ => .single .ender) ++ f) := by
  induction ns generalizing b with
  | nil => exact h b
  | cons n ns ih => exact word ih

theorem separated {fs : List Forest} (hne : fs ≠ []) (h : ∀ f ∈ fs, Kept false f) :
    Kept false (.separated fs) := by
  induction fs with
  | nil => contradiction
  | cons f fs ih =>
    obtain ⟨hf, hfs⟩ := List.forall_mem_cons.1 h
    cases fs with
    | nil => exact hf
    | cons g gs => exact hf.append (.word (ih (by simp) hfs))

theorem braced {fs : List Forest} (h : ∀ f ∈ fs, Kept false f) :
    Kept false (.separated fs ++ .single .closer) := by
  cases fs with
  | nil => exact single rfl
  | cons f fs => exact (separated (by simp) h).append (single rfl)

theorem terminated {fs : List Forest} (h : ∀ f ∈ fs, Kept false f) :
    Kept false (.row (fs.map (· ++ .single .separator)) ++ .single .closer) := by
  cases fs with
  | nil => exact single rfl
  | cons f fs =>
    rw [row_terminated, append_assoc]
    exact (separated (by simp) h).append (.word (single rfl))

theorem separator (h : Kept b f) : (f ++ .single .separator).Clean ∧
    (f ++ .single .separator).Every Warranted b ∧ 0 < (f ++ .single .separator).weight :=
  ⟨clean_append.2 ⟨h.clean, trivial⟩, every_append.2 ⟨h.every, trivial⟩, by
    have := h.positive
    rw [weight_append]
    omega⟩

end Kept

theorem Bare.separator (h : f.Bare) : (f ++ .single .separator).Bare := fun r hr n hx =>
  h r hr n (by simpa [Forest.single, places, weight, Word.weight] using hx)

theorem Kept.tuple {fs : List Forest} (hne : fs ≠ []) (h : ∀ f ∈ fs, Kept false f ∧ f.Bare) :
    Kept b (.tuple fs) ∧ (Forest.tuple fs).Bare := by
  have hpair : ∀ {i : Forest}, i.Clean → i.Every Warranted false → 0 < i.weight → i ≠ .unit .nil →
      i.Bare → Kept b (.enclosed .needed i) ∧ (Forest.enclosed .needed i).Bare := by
    intro i hclean hevery hpos hunit hbare
    have hwarranted : Warranted b .needed i :=
      ⟨hunit, fun _ => hbare, by simp, by simp, by simp, by simp⟩
    refine ⟨⟨⟨hpos, hclean, trivial⟩, ⟨hwarranted, hevery, trivial⟩,
      by simpa using hpos, fun _ => rfl⟩, fun r hr n hx => hbare r hr n ?_⟩
    rw [places_enclosed, weight_enclosed, if_neg (by simpa using hr.symm), zero_add] at hx
    exact hx
  rcases fs with _ | ⟨f, _ | ⟨g, gs⟩⟩
  · contradiction
  · obtain ⟨hf, hbare⟩ := h f (by simp)
    obtain ⟨hclean, hevery, hpos⟩ := hf.separator
    refine hpair hclean hevery hpos (fun h => ?_) hbare.separator
    have hlength := congrArg (·.signs.getLast?) h
    simp [signs] at hlength
  · have hall := separated hne fun f hf => (h f hf).1
    obtain ⟨⟨hf, -⟩, hgs⟩ := List.forall_mem_cons.1 h
    have hrest : Kept false (.separated (g :: gs)) := separated (by simp) fun f hf => (hgs f hf).1
    have hsplit : (Forest.separated (f :: g :: gs)).Split :=
      .append hf.clean (g := .word .separator (.separated (g :: gs))) hrest.clean hf.positive
        (by rw [weight]; exact Nat.lt_add_left _ hrest.positive)
    exact hpair hall.clean hall.every hall.positive hsplit.unit hsplit.bare

end Forest

open Forest

theorem Leaf.kept (l : Leaf) (b : Bool) : Kept b l.nests ∧ l.nests.Bare := by
  cases l <;> first
    | exact ⟨.unit, fun _ _ _ h => by simp [nests, places] at h⟩
    | exact ⟨.single rfl, fun _ _ _ h => by simp [nests, Forest.single, places] at h⟩

/-! Patterns and types. -/

theorem Forest.Kept.word_row {fs : List Forest} {b : Bool} (h : ∀ f ∈ fs, Kept true f) :
    Kept b (.word .ender (.row fs)) ∧ (Forest.word .ender (.row fs)).Split := by
  have hall : ∀ b, Kept b (.word .ender (.row fs)) := fun b => (Kept.single rfl).append_row h
  exact ⟨hall b, .word (by decide) (hall b).clean⟩

theorem Pattern.kept {p : Pattern Unit} (h : p.WellFormed) :
    (∀ b nested, Kept b (p.nests nested)) ∧ (p.nests false).Bare := by
  induction h with
  | @leaf l s _ => exact ⟨fun b _ => (l.kept b).1, (l.kept false).2⟩
  | @tuple ps s hne _ ih =>
    have hall : ∀ f ∈ ps.map (nests false), Kept false f ∧ f.Bare :=
      List.forall_mem_map.2 fun p hp => ⟨(ih p hp).1 false false, (ih p hp).2⟩
    simp only [nests, nestsAll_eq_map]
    exact ⟨fun _ _ => (Kept.tuple (by simpa using hne) hall).1,
      (Kept.tuple (b := false) (by simpa using hne) hall).2⟩
  | @constructor n ps s _ _ ih =>
    cases ps with
    | nil => exact ⟨fun _ _ => .single rfl, fun _ _ _ h => by simp [nests, Forest.single, places] at h⟩
    | cons p ps =>
      have hargs : ∀ f ∈ nestsAll true (p :: ps), Kept true f := by
        rw [nestsAll_eq_map]
        exact List.forall_mem_map.2 fun p hp => (ih p hp).1 true true
      have hall := fun b => Kept.word_row (b := b) hargs
      refine ⟨fun b nested => ?_, ?_⟩
      · rw [nests]
        · cases nested with
          | false => exact (hall b).1
          | true => exact (hall false).1.enclosed (hall false).2.warranted
        · simp
      · rw [nests]
        · exact (hall false).2.bare
        · simp

theorem Ty.kept {t : Ty Unit} (h : t.WellFormed) :
    (∀ b context, Kept b (t.nests context)) ∧ (t.nests .top).Bare := by
  have hcompound : ∀ {f : Forest}, (∀ b, Kept b f) → f.Split → ∀ (b : Bool) (p : Prop) [Decidable p],
      Kept b (if p then f else .enclosed .needed f) := by
    intro f hf hsplit b p _
    split
    · exact hf b
    · exact (hf false).enclosed hsplit.warranted
  induction h with
  | @leaf l s _ => exact ⟨fun b _ => (l.kept b).1, (l.kept false).2⟩
  | @tuple ts s hne _ ih =>
    have hall : ∀ f ∈ ts.map (nests .top), Kept false f ∧ f.Bare :=
      List.forall_mem_map.2 fun t ht => ⟨(ih t ht).1 false .top, (ih t ht).2⟩
    simp only [nests, nestsAll_eq_map]
    exact ⟨fun _ _ => (Kept.tuple (by simpa using hne) hall).1,
      (Kept.tuple (b := false) (by simpa using hne) hall).2⟩
  | var _ =>
    simp only [nests]
    exact ⟨fun _ _ => .single rfl, fun _ _ _ h => by simp [Forest.single, places] at h⟩
  | @app n ts s _ _ _ ih =>
    have hargs : ∀ f ∈ ts.map (nests .argument), Kept true f :=
      List.forall_mem_map.2 fun t ht => (ih t ht).1 true .argument
    have hall := fun b => Kept.word_row (b := b) hargs
    simp only [nests, nestsAll_eq_map]
    refine ⟨fun b context => ?_, ?_⟩
    · rw [← ite_not]
      exact hcompound (fun b => (hall b).1) (hall false).2 b _
    · exact (hall false).2.bare
  | @arrow d c s _ _ ihd ihc =>
    have hall : ∀ b, Kept b (d.nests .domain ++ .word .other (c.nests .top)) :=
      fun b => (ihd.1 b _).append (.word (ihc.1 false _))
    have hsplit : (d.nests .domain ++ .word .other (c.nests .top)).Split :=
      .append (ihd.1 false _).clean (ihc.1 false _).clean (ihd.1 false _).positive
        (Kept.word (ihc.1 false .top) : Kept true (.word .other (c.nests .top))).positive
    simp only [nests]
    exact ⟨fun b context => hcompound hall hsplit b _, hsplit.bare⟩
  | @quantified bs t s _ _ ih =>
    have hbinders : ∀ b, Kept b (.word .other (Forest.row (bs.map fun _ => .single .ender) ++
        .word .link (t.nests .top))) := fun b => .word (.names bs fun b => .word (ih.1 _ _))
    simp only [nests]
    exact ⟨fun b context => hcompound hbinders (.word (by decide) (hbinders false).clean) b _,
      Split.bare (.word (by decide) (hbinders false).clean)⟩

/-! Expressions. -/

/-- It makes no difference what stands before a block. -/
theorem Forest.Kept.block {e : Expr Unit} {b : Bool} (h : Kept b e.nests) (he : e.isBlock = true) :
    Kept true e.nests := by
  cases e with
  | block ss s =>
    refine ⟨h.clean, ?_, h.positive, h.ends⟩
    have hevery := h.every
    rw [Expr.nests] at hevery ⊢
    by_cases hu : isUnitBlock ss = true
    · rw [if_pos hu] at hevery ⊢
      exact hevery
    · rw [if_neg hu] at hevery ⊢
      exact hevery
  | _ => cases he

namespace Expr

variable {e : Expr Unit}

/-- What the layout of an expression is like, also as an argument. -/
structure Keeps (e : Expr Unit) : Prop where
  kept : Kept false e.nests
  argument : e.isArgument = true → Kept true e.nests
  bare : e.nests.Bare
  split : e.isArgument = false → e.nests.Split

namespace Keeps

theorem of_split (h : Kept false e.nests) (hsplit : e.nests.Split)
    (ha : e.isArgument = true → Kept true e.nests) : e.Keeps := ⟨h, ha, hsplit.bare, fun _ => hsplit⟩

theorem grouped (h : e.Keeps) (s : Strength) : Kept false (e.grouped s) := by
  cases hw : e.strength.weaker s with
  | false =>
    rw [grouped_of_not_weaker hw]
    exact h.kept
  | true =>
    have hsplit := h.split (Bool.eq_false_iff.2 fun ha => by simp [strength_of_isArgument ha] at hw)
    rw [grouped_of_weaker hw]
    cases e with
    | lambda n b s =>
      exact h.kept.enclosed ⟨hsplit.unit, by simp [isLambda], fun _ => hsplit.places _,
        fun _ => h.kept.ends _, fun _ => ⟨rfl, .other, rfl, by decide⟩, by simp [isLambda]⟩
    | _ => exact h.kept.enclosed hsplit.warranted

theorem argued (h : e.Keeps) : Kept true e.argued := by
  cases ha : e.isArgument with
  | true =>
    rw [argued_of_isArgument ha]
    exact h.argument ha
  | false =>
    have hsplit := h.split ha
    rw [argued_of_not_isArgument ha]
    cases hs : e.isSelection with
    | true =>
      exact h.kept.enclosed ⟨hsplit.unit, by simp, fun _ => hsplit.places _, fun _ => h.kept.ends _,
        by simp, fun _ => rfl⟩
    | false => exact h.kept.enclosed hsplit.warranted

theorem selection {f : Forest} {w : Word} (h : e.Keeps) (hf : Kept w.ends f) :
    (e.isArgument = true → Kept true (e.grouped .primary ++ .word w f)) ∧
      Kept false (e.grouped .primary ++ .word w f) ∧
        (e.grouped .primary ++ .word w f).Split := by
  have hgrouped := h.grouped .primary
  have hword : ∀ b, Kept b (.word w f) := fun b => .word hf
  refine ⟨fun ha => ?_, hgrouped.append (hword true),
    .append hgrouped.clean (hword true).clean hgrouped.positive (hword true).positive⟩
  rw [grouped_of_isArgument ha]
  exact (h.argument ha).append (hword true)

end Keeps

theorem keeps_apply {e : Expr Unit} (h : e.WellFormed) :
    e.Keeps ∧ ∀ c a s, e = .apply c a s → a.Keeps := by
  induction h with
  | @leaf l s _ =>
    exact ⟨⟨(l.kept false).1, fun _ => (l.kept true).1, (l.kept false).2, fun h => by cases h⟩, by simp⟩
  | @tuple es s hne _ ih =>
    have hall : ∀ f ∈ es.map nests, Kept false f ∧ f.Bare :=
      List.forall_mem_map.2 fun e he => ⟨(ih e he).1.kept, (ih e he).1.bare⟩
    have htuple := fun b => Kept.tuple (b := b) (by simpa using hne) hall
    refine ⟨⟨?_, fun _ => ?_, ?_, fun h => by cases h⟩, by simp⟩ <;> rw [nests, nestsAll_eq_map]
    · exact (htuple false).1
    · exact (htuple true).1
    · exact (htuple true).2
  | @apply c a s _ _ ihc iha =>
    refine ⟨?_, fun _ _ _ h => by cases h; exact iha.1⟩
    suffices h : Kept false (Expr.apply c a s).nests ∧ (Expr.apply c a s).nests.Split from
      .of_split h.1 h.2 fun h => by cases h
    cases h : (Expr.apply c a s).operation? with
    | none =>
      have hc := ihc.1.grouped .application
      have ha := iha.1.argued
      rw [nests_apply h]
      exact ⟨hc.append ha, .append hc.clean ha.clean hc.positive ha.positive⟩
    | some p =>
      obtain ⟨o, l, r⟩ := p
      obtain ⟨u, v, s', heq⟩ := eq_of_operation? h
      cases heq
      have hl := (ihc.2 _ _ _ rfl).grouped o.strength
      have hr : Kept true (.word .operator (a.grouped o.rightStrength)) :=
        .word (iha.1.grouped o.rightStrength)
      rw [nests_operation]
      exact ⟨hl.append hr, .append hl.clean hr.clean hl.positive hr.positive⟩
  | @lambda n b s _ _ ih =>
    have hall : Kept true (.word .ender (.word .other b.nests)) := .word (.word ih.1.kept)
    refine ⟨.of_split ?_ ?_ (fun h => by cases h), by simp⟩ <;> rw [nests]
    · exact .word (.word (.word ih.1.kept))
    · exact .word (by decide) hall.clean
  | @caseOf e cs s _ hp _ ihe ih =>
    have hclauses : Kept false (Forest.row (cs.map Clause.nests) ++ .single .closer) := by
      have hnests : cs.map Clause.nests = (cs.map Clause.phrase).map (· ++ .single .separator) := by
        rw [List.map_map]
        exact List.map_congr_left fun c _ => c.nests_eq
      rw [hnests]
      exact .terminated (List.forall_mem_map.2 fun c hc =>
        ((Pattern.kept (hp c hc)).1 _ _).append (.word (ih c hc).1.kept))
    have hall : Kept false (e.nests ++ .word .brace (Forest.row (cs.map Clause.nests) ++ .single .closer)) :=
      ihe.1.kept.append (.word hclauses)
    refine ⟨.of_split ?_ ?_ (fun h => by cases h), by simp⟩ <;> rw [nests, Clause.nestsAll_eq_map]
    · exact .word hall
    · exact .word (by decide) hall.clean
  | @ifLet p e t l s hp _ htb _ hlb _ ihe iht ihl =>
    have hall : Kept false (.word .other (p.nests false ++ .word .assign (e.nests ++
        (t.nests ++ .word .other l.nests)))) :=
      .word (((Pattern.kept hp).1 _ _).append (.word (ihe.1.kept.append
        ((iht.1.kept.block htb).append (.word ihl.1.kept)))))
    refine ⟨.of_split ?_ ?_ (fun h => by cases h), by simp⟩ <;> rw [nests]
    · exact .word hall
    · exact .word (by decide) hall.clean
  | @access e n s _ _ ih =>
    obtain ⟨harg, hkept, hsplit⟩ := ih.1.selection (w := .link) (.single (w := .ender) rfl)
    refine ⟨.of_split ?_ ?_ fun h => ?_, by simp⟩ <;> rw [nests]
    · exact hkept
    · exact hsplit
    · exact harg h
  | @ascribe e t s _ ht ih =>
    have he := ih.1.grouped .additive
    have htype : Kept true (.word .link (t.nests .top)) := .word ((Ty.kept ht).1 _ _)
    refine ⟨.of_split ?_ ?_ (fun h => by cases h), by simp⟩ <;> rw [nests]
    · exact he.append htype
    · exact .append he.clean htype.clean he.positive htype.positive
  | @record e fs s _ _ _ _ ihe ih =>
    have hfields : Kept false (.separated (fs.map FieldValue.nests) ++ .single .closer) :=
      .braced (List.forall_mem_map.2 fun d hd => .word (.word (ih d hd).1.kept))
    obtain ⟨harg, hkept, hsplit⟩ := ihe.1.selection (w := .brace) hfields
    refine ⟨.of_split ?_ ?_ fun h => ?_, by simp⟩ <;> rw [nests, FieldValue.nestsAll_eq_map]
    · exact hkept
    · exact hsplit
    · exact harg h
  | @block ss s _ hp _ ih =>
    have hstatements : Kept false (.separated (ss.map Statement.nests) ++ .single .closer) := by
      refine .braced (List.forall_mem_map.2 fun t ht => ?_)
      have hvalue := (ih t ht).1.kept
      cases t with
      | expr e s => exact hvalue
      | bind p e s => exact .word (((Pattern.kept (hp _ ht p rfl)).1 _ _).append (.word hvalue))
    refine ⟨.of_split ?_ ?_ (fun h => by cases h), by simp⟩ <;> rw [nests, Statement.nestsAll_eq_map] <;>
      split
    · exact .word (.single rfl)
    · exact .word hstatements
    · exact .word (by decide) trivial
    · exact .word (by decide) hstatements.clean

theorem keeps {e : Expr Unit} (h : e.WellFormed) : e.Keeps := (keeps_apply h).1

end Expr

/-! Declarations. -/

/-- A parameter is more than its pattern or its type, so the pair around it is a needed one. -/
theorem Param.kept {p : Param Unit} (h : p.WellFormed) (b : Bool) : Kept b p.nests := by
  have hp := (Pattern.kept h.pattern).1 false false
  have ht : Kept true (.word .link (p.type.nests .top)) := .word ((Ty.kept h.type).1 _ _)
  exact (hp.append ht).enclosed
    (Split.append hp.clean ht.clean hp.positive ht.positive).warranted

theorem Variant.kept {v : Variant Unit} (h : v.WellFormed) (b : Bool) : Kept b v.nests := by
  have hargs : ∀ f ∈ v.args.map (Ty.nests .argument), Kept true f :=
    List.forall_mem_map.2 fun t ht => (Ty.kept (h.args t ht)).1 true .argument
  exact .word (Kept.word_row hargs).1

theorem TypeBody.kept {d : TypeBody Unit} (h : d.WellFormed) : Kept false d.nests := by
  cases h with
  | @sum vs hne h =>
    cases vs with
    | nil => contradiction
    | cons v vs =>
      obtain ⟨hv, hvs⟩ := List.forall_mem_cons.1 h
      exact (Variant.kept hv _).append_row (List.forall_mem_map.2 fun v hv => Variant.kept (hvs v hv) true)
  | @product ds h =>
    exact .word (.braced (List.forall_mem_map.2 fun d hd =>
      .word (.word ((Ty.kept (h d hd).type).1 _ _))))

theorem Decl.kept {d : Decl Unit} (h : d.WellFormed) (b : Bool) : Kept b d.nests := by
  cases h with
  | @fn n ps r e s _ hp hr hbb hb =>
    have hbody : Kept true e.nests := (Expr.keeps hb).kept.block hbb
    have hresult : Kept true (r.elim .nil (fun t => .word .link (t.nests .top)) ++ e.nests) := by
      cases r with
      | none => exact hbody
      | some t => exact Kept.append (.word ((Ty.kept (hr t rfl)).1 _ _)) hbody
    have hall : Kept false (.word .ender (.row (ps.map Param.nests))) :=
      (Kept.word_row (List.forall_mem_map.2 fun p h => Param.kept (hp p h) true)).1
    exact .word (hall.append hresult)
  | @type n ps d s _ _ hd =>
    exact .word (.word (.names ps fun b => .word (TypeBody.kept hd)))

/-- Every pair in the layout of a tree has its reason. -/
theorem Tree.kept {t : Tree Unit} (h : t.WellFormed) : t.nests.Clean ∧ t.nests.Every Warranted false := by
  cases t with
  | expression e => exact ⟨(Expr.keeps h).kept.clean, (Expr.keeps h).kept.every⟩
  | pattern p => exact ⟨((Pattern.kept h).1 false false).clean, ((Pattern.kept h).1 false false).every⟩
  | type t => exact ⟨((Ty.kept h).1 false .top).clean, ((Ty.kept h).1 false .top).every⟩
  | program p =>
    obtain ⟨ds, s⟩ := p
    cases ds with
    | nil => exact ⟨trivial, trivial⟩
    | cons d ds =>
      have hall : Kept false (d.nests ++ .row (ds.map Decl.nests)) :=
        (Decl.kept (h d (by simp)) false).append_row
          (List.forall_mem_map.2 fun d hd => Decl.kept (h d (by simp [hd])) true)
      exact ⟨hall.clean, hall.every⟩

/-! Needed pairs and others. -/

namespace Forest

/-- No pair that is needed is around the same words as one that is not. -/
theorem needed_of_mem_places {f : Forest} {b : Bool} (hf : f.Clean) (h : f.Every Warranted b) {n : Nat}
    {x : Nat × Nat} {r : Reason} (hx : x ∈ f.places (· == .needed) n) (hx' : x ∈ f.places (· == r) n) :
    r = .needed := by
  induction f generalizing b n with
  | nil => simp [places] at hx
  | word w f ih | unit f ih => exact ih hf h hx hx'
  | pair r' i f ihi ih =>
    obtain ⟨hw, hi, hf⟩ := hf
    obtain ⟨hr, hwi, hwf⟩ := h
    by_contra hne
    simp only [places, Multiset.mem_add] at hx hx'
    have hself : ∀ {r}, x ∈ (if (r' == r) = true then {(n, n + i.weight)} else (0 : Multiset (Nat × Nat))) →
        r' = r ∧ x = (n, n + i.weight) := by
      intro r hx
      by_cases h : (r' == r) = true
      · rw [if_pos h] at hx
        exact ⟨by simpa using h, by simpa using hx⟩
      · rw [if_neg h] at hx
        simp at hx
    have hinside : ∀ {r}, x ∈ i.places (· == r) n → x.1 < x.2 ∧ x.2 ≤ n + i.weight :=
      fun hx => (lt_of_mem_places hi hx).2
    have hbehind : ∀ {r}, x ∈ f.places (· == r) (n + i.weight) → n + i.weight ≤ x.1 :=
      fun hx => (lt_of_mem_places hf hx).1
    rcases hx with hx | hx | hx <;> rcases hx' with hx' | hx' | hx'
    · exact hne ((hself hx').1.symm.trans (hself hx).1)
    · obtain ⟨hr', rfl⟩ := hself hx
      exact hr.needed hr' r hne n hx'
    · obtain ⟨-, rfl⟩ := hself hx
      have := hbehind hx'
      simp only at this
      omega
    · obtain ⟨hr', rfl⟩ := hself hx'
      exact hr.spare (hr' ▸ hne) n hx
    · exact hne (ihi hi hwi hx hx')
    · have := hinside hx
      have := hbehind hx'
      omega
    · obtain ⟨-, rfl⟩ := hself hx'
      have := hbehind hx
      simp only at this
      omega
    · have := hinside hx'
      have := hbehind hx
      omega
    · exact hne (ih hf hwf hx hx')

end Forest
end TinyFront
