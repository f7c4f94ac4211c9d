import TinyFront.Proofs.Exact
import TinyFront.Proofs.Laid

/-!
The spans of a tree as a tree of byte ranges. Main statement: each node reaches from the start of one
token to the end of another, over all nodes directly beneath it, and these do not overlap.
-/
namespace TinyFront

def Clause.outline (c : Clause Span) : Outline :=
  ⟨"Clause", some c.span, [.node "pattern" c.pattern.outline, .node "expr" c.body.outline]⟩

def FieldValue.outline (d : FieldValue Span) : Outline :=
  ⟨"ExprField", some d.span, [.text "name" d.name, .node "expr" d.value.outline]⟩

def Statement.outline : Statement Span → Outline
  | .bind p e s =>
    ⟨"LetStatement", some s, [.node "pattern" p.outline, .node "value" e.outline]⟩
  | .expr e s => ⟨"ExprStatement", some s, [.node "expr" e.outline]⟩

theorem Pattern.outlineAll_eq_map (ps : List (Pattern Span)) :
    Pattern.outlineAll ps = ps.map Pattern.outline := by
  induction ps with
  | nil => rfl
  | cons p ps ih => simp [Pattern.outlineAll, ih]

theorem Ty.outlineAll_eq_map (ts : List (Ty Span)) : Ty.outlineAll ts = ts.map Ty.outline := by
  induction ts with
  | nil => rfl
  | cons t ts ih => simp [Ty.outlineAll, ih]

theorem Expr.outlineAll_eq_map (es : List (Expr Span)) :
    Expr.outlineAll es = es.map Expr.outline := by
  induction es with
  | nil => rfl
  | cons e es ih => simp [Expr.outlineAll, ih]

theorem Clause.outlineAll_eq_map (cs : List (Clause Span)) :
    Clause.outlineAll cs = cs.map Clause.outline := by
  induction cs with
  | nil => rfl
  | cons c cs ih =>
    obtain ⟨p, e, s⟩ := c
    simp [Clause.outlineAll, Clause.outline, ih]

theorem FieldValue.outlineAll_eq_map (fs : List (FieldValue Span)) :
    FieldValue.outlineAll fs = fs.map FieldValue.outline := by
  induction fs with
  | nil => rfl
  | cons d fs ih =>
    obtain ⟨n, e, s⟩ := d
    simp [FieldValue.outlineAll, FieldValue.outline, ih]

theorem Statement.outlineAll_eq_map (ss : List (Statement Span)) :
    Statement.outlineAll ss = ss.map Statement.outline := by
  induction ss with
  | nil => rfl
  | cons s ss ih => cases s <;> simp [Statement.outlineAll, Statement.outline, ih]

namespace Parser

variable {file : String} {ts : List Token} {c : Cursor}

/-! Atoms. -/

/-- The outlines of a family show leaves and tuples as nodes. -/
structure Views {ε : Type} (file : String) (ts : List Token) (f : Family ε) (view : ε → Outline) :
    Prop where
  leaf : ∀ l {a b : Int}, Laid file ts a b [] → Laid file ts a b [view (f.ofLeaf l ⟨file, a, b⟩)]
  tuple : ∀ es {a b : Int}, Laid file ts a b (es.map view) →
    Laid file ts a b [view (f.ofTuple es ⟨file, a, b⟩)]

theorem Laid.ofLeaf {a b : Int} (h : Laid file ts a b []) (label : String) (l : Leaf) :
    Laid file ts a b [.ofLeaf label l ⟨file, a, b⟩] := by
  have hleaf : Laid file ts a b [l.outline] := by cases l <;> exact .bare h
  exact .node hleaf

theorem Laid.ofTuple {a b : Int} {os : List Outline} (h : Laid file ts a b os) (label : String) :
    Laid file ts a b [.ofTuple label os ⟨file, a, b⟩] :=
  .node (Laid.bare (by simpa [OutlineField.children] using h))

theorem pattern_views : Views file ts Family.pattern Pattern.outline where
  leaf l a b h := by
    cases l with
    | name n =>
      simp only [Family.pattern, Family.patternOfLeaf]
      split
      · exact .node h
      · exact h.ofLeaf _ _
    | _ => exact h.ofLeaf _ _
  tuple ps a b h := by
    simp only [Family.pattern, Pattern.outline, Pattern.outlineAll_eq_map]
    exact h.ofTuple _

theorem type_views : Views file ts Family.type Ty.outline where
  leaf l a b h := by
    cases l with
    | name n => exact .node h
    | _ => exact h.ofLeaf _ _
  tuple es a b h := by
    simp only [Family.type, Ty.outline, Ty.outlineAll_eq_map]
    exact h.ofTuple _

theorem expression_views : Views file ts Family.expression Expr.outline where
  leaf l a b h := h.ofLeaf _ _
  tuple es a b h := by
    simp only [Family.expression, Expr.outline, Expr.outlineAll_eq_map]
    exact h.ofTuple _

theorem atom_lays {ε : Type} {f : Family ε} {view : ε → Outline} (hf : Views file ts f view)
    {element : Parser ε} (h : ∀ c, Lays file ts element view c) (c : Cursor) :
    Lays file ts (atom f element) view c := by
  unfold Lays atom
  refine .within fun hc => .current ?_
  split
  · rename_i hk
    refine .located (Laid.opening (by simp [hk]) fun hl => hl.commas h fun x c' hl =>
      hl.expectClosing fun hl => .pure ?_)
    obtain ⟨es, trailing⟩ := x
    rcases es with _ | ⟨e, _ | ⟨e', es⟩⟩
    · exact hf.leaf _ hl
    · cases trailing with
      | false => exact hl
      | true => exact hf.tuple _ hl
    · exact hf.tuple _ hl
  · refine (leaf_yields f).bind fun l c' _ hz => .pure ?_
    rw [hz.1, hc.span_eq]
    have hl := Laid.first hc hz.2
    rw [Cursor.advance_lastEnd] at hl
    exact hf.leaf l hl

/-! Patterns and types. -/

theorem pattern_lays (d : Nat) (c : Cursor) : Lays file ts (pattern d) Pattern.outline c := by
  induction d generalizing c with
  | zero => exact .reject
  | succ d ih =>
    have hatom := atom_lays pattern_views ih
    unfold Lays
    rw [pattern]
    unfold patternWithin
    refine .current ?_
    split
    · rename_i hk
      refine Laid.opening (by simp [hk]) fun hl => hl.many (fun c _ => hatom c) fun ps c' _ hl =>
        .spanFrom (.pure (.node ?_))
      simpa [OutlineField.children, Pattern.outlineAll_eq_map] using hl
    · exact hatom c

section

variable {inner : Parser (Ty Span)} (hinner : ∀ c, Lays file ts inner Ty.outline c)

include hinner

theorem typeApplication_lays (c : Cursor) : Lays file ts (typeApplication inner) Ty.outline c := by
  have hatom := atom_lays type_views hinner
  unfold Lays typeApplication
  refine .within fun hc => .current ?_
  split
  · rename_i hk
    refine Laid.opening (by simp [hk]) fun hl => hl.many (fun c _ => hatom c) fun args c' hrun hl => ?_
    split
    · -- without arguments nothing behind the name was consumed
      rename_i hnil
      obtain rfl := List.isEmpty_iff.1 hnil
      obtain rfl := eq_of_manyUpTo_nil hrun
      rw [Cursor.advance_lastEnd] at hl
      refine .pure ?_
      rw [Cursor.advance_lastEnd, hc.span_eq]
      exact .node hl
    · refine .spanFrom (.pure (.node ?_))
      simpa [OutlineField.children, Ty.outlineAll_eq_map] using hl
  · exact hatom c

theorem quantified_lays (hk : c.current.kind ≠ .eof) :
    Lays file ts (quantified inner) Ty.outline c := by
  unfold Lays quantified
  exact .located (Laid.opening hk fun hl => hl.names fun _ _ hl => hl.expect fun hl =>
    hl.read (hinner _) fun t c' hl => .pure (.node hl))

end

theorem typeWithin_lays {d : Nat} (htype : ∀ c, Lays file ts (type d) Ty.outline c) (c : Cursor) :
    Lays file ts (typeWithin (type d)) Ty.outline c := by
  induction hlen : c.remaining.length using Nat.strongRecOn generalizing c with
  | ind n ih =>
    refine .within fun hc => .congr (typeWithin_eq (fun c hc => typeApplication_shortens d hc) hc.ended) ?_
    refine .test (fun hforall => quantified_lays htype (by simp [Cursor.kind_of_isAt hforall]))
      fun _ => .start ?_
    refine (typeApplication_lays htype c).bind fun t c₁ hrun hl => ?_
    obtain ⟨hended₁, hlt⟩ := typeApplication_shortens d hc.ended t c₁ hrun
    refine .test (fun harrow => hl.step fun hl => ?_) fun _ => .pure hl
    have hlt₁ := (hended₁.advance_of_isAt harrow (by decide)).2
    exact hl.read (ih _ (by omega) _ rfl) fun t' c₂ hl => .spanFrom (.pure (.node hl))

theorem type_lays (d : Nat) (c : Cursor) : Lays file ts (type d) Ty.outline c := by
  induction d generalizing c with
  | zero => exact .reject
  | succ d ih => exact typeWithin_lays ih c

/-! Expressions. -/

theorem chain_lays {β : Type} {operand : Parser (Expr Span)} {starts : Cursor → Bool}
    {item : Parser β} {build : Int → Expr Span → β → Expr Span}
    (ho : ∀ c, Lays file ts operand Expr.outline c)
    (hitem : ∀ c, starts c = true → ∀ s e, Laid file ts s c.lastEnd [e.outline] →
      item.Yields (Rides file ts) file c fun z x => Laid file ts s z [(build s e x).outline])
    (c : Cursor) : Lays file ts (chain operand starts item build) Expr.outline c := by
  have hloop : ∀ m c s e, Laid file ts s c.lastEnd [e.outline] →
      (manyUpTo starts item m).Yields (Rides file ts) file c
        fun z xs => Laid file ts s z [(xs.foldl (build s) e).outline] := by
    intro m
    induction m with
    | zero => exact fun c s e hl => .pure hl
    | succ m ih =>
      intro c s e hl
      unfold manyUpTo
      refine .test (fun hs => (hitem c hs s e hl).bind fun x c' _ hx => ?_) fun _ => .pure hl
      exact (ih c' s _ hx).bind fun xs _ _ hxs => .pure hxs
  unfold Lays chain
  refine .start ((ho c).bind fun e c' _ hl => ?_)
  have hmany : (many starts item).Yields (Rides file ts) file c' fun z xs =>
      Laid file ts c.current.span.start z [(xs.foldl (build c.current.span.start) e).outline] :=
    hloop _ c' _ e hl
  exact hmany.bind fun xs _ _ hxs => .pure hxs

section

variable {inner : Parser (Expr Span)} {pattern : Parser (Pattern Span)}
  (hinner : ∀ c, Lays file ts inner Expr.outline c)
  (hpattern : ∀ c, Lays file ts pattern Pattern.outline c)

include hinner

theorem fieldValue_lays (c : Cursor) : Lays file ts (fieldValue inner) FieldValue.outline c := by
  unfold Lays fieldValue
  exact .located (Laid.expectOpening (by decide) fun hl => hl.expect fun hl =>
    hl.read (hinner _) fun e c' hl => .pure (.node hl))

theorem suffix_lays {s : Int} {e : Expr Span} (hl : Laid file ts s c.lastEnd [e.outline]) :
    (closing (suffix inner)).Yields (Rides file ts) file c
      fun z x => Laid file ts s z [(Suffix.apply s e x).outline] := by
  unfold suffix
  refine .closing (hl.step fun hl => ?_)
  split
  · exact hl.expect fun hl => .pure (.node hl)
  · refine hl.commas (fieldValue_lays hinner) fun x c' hl => hl.expectClosing fun hl => .pure (.node ?_)
    simpa [OutlineField.children, FieldValue.outlineAll_eq_map] using hl

theorem withSuffixes_lays {operand : Parser (Expr Span)}
    (ho : ∀ c, Lays file ts operand Expr.outline c) (c : Cursor) :
    Lays file ts (withSuffixes inner operand) Expr.outline c :=
  chain_lays ho (fun _ _ _ _ hl => suffix_lays hinner hl) c

theorem lambda_lays (hk : c.current.kind ≠ .eof) : Lays file ts (lambda inner) Expr.outline c := by
  unfold Lays lambda
  exact .located (Laid.opening hk fun hl => hl.expect fun hl => hl.expect fun hl =>
    hl.read (hinner _) fun e c' hl => .pure (.node hl))

include hpattern

theorem clause_lays (c : Cursor) : Lays file ts (clause inner pattern) Clause.outline c := by
  unfold Lays clause
  refine .located ((hpattern c).bind fun p c' _ hl => hl.expect fun hl =>
    hl.read (hinner _) fun e c'' hl => .pure (.node hl))

theorem caseOf_lays (hk : c.current.kind ≠ .eof) :
    Lays file ts (caseOf inner pattern) Expr.outline c := by
  unfold Lays caseOf
  refine .located (Laid.opening hk fun hl => hl.read (hinner _) fun e _ hl => hl.expect fun hl =>
    hl.commas (clause_lays hinner hpattern) fun x _ hl => hl.expectClosing fun hl => .pure (.node ?_))
  simpa [OutlineField.children, Clause.outlineAll_eq_map] using hl

theorem statement_lays (c : Cursor) : Lays file ts (statement inner pattern) Statement.outline c := by
  unfold Lays statement
  refine .located (.test (fun hlet => ?_) fun _ => (hinner c).bind fun e _ _ hl => .pure (.node hl))
  exact Laid.opening (by simp [Cursor.kind_of_isAt hlet]) fun hl => hl.read (hpattern _) fun p _ hl =>
    hl.expect fun hl => hl.read (hinner _) fun e _ hl => .pure (.node hl)

theorem block_lays (c : Cursor) : Lays file ts (block inner pattern) Expr.outline c := by
  unfold Lays block
  refine .located (Laid.expectOpening (by decide) fun hl => .test (fun _ => .reject) fun _ =>
    .test (fun _ => hl.step fun hl => .pure (.node (.node (hl.ofLeaf _ _)))) fun _ => ?_)
  refine hl.statements (statement_lays hinner hpattern) fun ss _ hl => hl.expectClosing fun hl =>
    .pure (.node ?_)
  simpa [OutlineField.children, Statement.outlineAll_eq_map] using hl

theorem ifLet_lays (hk : c.current.kind ≠ .eof) :
    Lays file ts (ifLet inner pattern) Expr.outline c := by
  have hblock := block_lays hinner hpattern
  unfold Lays ifLet
  exact .located (Laid.opening hk fun hl => hl.expect fun hl => hl.read (hpattern _) fun p _ hl =>
    hl.expect fun hl => hl.read (hinner _) fun e _ hl => hl.read (hblock _) fun t _ hl =>
      hl.expect fun hl => hl.read (hblock _) fun l _ hl => .pure (.node hl))

theorem primary_lays (c : Cursor) : Lays file ts (primary inner pattern) Expr.outline c := by
  unfold Lays primary
  refine .current ?_
  split
  · rename_i hk
    exact lambda_lays hinner (by simp [hk])
  · rename_i hk
    exact ifLet_lays hinner hpattern (by simp [hk])
  · rename_i hk
    exact caseOf_lays hinner hpattern (by simp [hk])
  · exact block_lays hinner hpattern c
  · exact .test (fun _ => atom_lays expression_views hinner c) fun _ => .unexpected

theorem application_lays (c : Cursor) : Lays file ts (application inner pattern) Expr.outline c := by
  show Lays file ts (chain _ _ _ Argument.apply) Expr.outline c
  refine chain_lays (withSuffixes_lays hinner (primary_lays hinner hpattern))
    (fun c _ s e hl => ?_) c
  refine .closing (.within fun hc =>
    (withSuffixes_lays hinner (atom_lays expression_views hinner) c).mono fun z a ha => ?_)
  exact .node (hl.append hc ha)

end

/-- The name of an operator comes in front of its left operand, whose span does not. -/
theorem operation_lays {operand : TokenKind → Parser (Expr Span)} {s : Int} {e : Expr Span}
    (ho : ∀ k c, Lays file ts (operand k) Expr.outline c) (hk : c.current.kind ≠ .eof)
    (hl : Laid file ts s c.lastEnd [e.outline]) :
    (do
      let ((o, t), operatorEnd) ← closing operator
      let (right, operandEnd) ← closing (operand t.kind)
      return (⟨o, t.span, operatorEnd, right, operandEnd⟩ : Operation) : Parser _).Yields
      (Rides file ts) file c fun z x => Laid file ts s z [(Operation.apply s e x).outline] := by
  intro hc x c' hrun
  obtain ⟨⟨⟨o, t⟩, operatorEnd⟩, c₁, hop, hrun⟩ := bind_eq_done.1 hrun
  obtain ⟨hop, hopEnd⟩ := closing_eq_done.1 hop
  obtain ⟨ht, -, rfl⟩ := operator_eq_done hop
  obtain ⟨⟨right, operandEnd⟩, c₂, hright, hrun⟩ := bind_eq_done.1 hrun
  obtain ⟨hright, hrightEnd⟩ := closing_eq_done.1 hright
  obtain ⟨rfl, rfl⟩ := pure_eq_done.1 hrun
  obtain ⟨hc₂, hlright⟩ := ho _ c.advance hc.advance right c₂ hright
  obtain rfl : t = c.current := ht
  obtain rfl : operatorEnd = _ := hopEnd
  obtain rfl : operandEnd = _ := hrightEnd
  have hname : Laid file ts c.current.span.start c.advance.lastEnd
      [.ofLeaf "ExprAtom" (.name o.name) c.current.span] := by
    have hfirst := (Laid.first hc hk).ofLeaf "ExprAtom" (.name o.name)
    rwa [Cursor.advance_lastEnd, ← hc.span_eq, ← Cursor.advance_lastEnd] at hfirst
  have happlied := (hl.append hc hname).perm (List.Perm.swap _ _ _)
  exact ⟨hc₂, .node (Laid.append (.node happlied) hc.advance hlright)⟩

theorem climb_lays {operand : Parser (Expr Span)} (ho : ∀ c, Lays file ts operand Expr.outline c)
    (climbs power : Nat) (c : Cursor) : Lays file ts (climb operand climbs power) Expr.outline c := by
  induction climbs generalizing power c with
  | zero => exact ho c
  | succ climbs ih =>
    refine chain_lays ho (fun c hs s e hl => operation_lays (fun k => ih (rightPower k)) ?_ hl) c
    rintro hk
    simp [bindsAtLeast, hk, TokenKind.powers?] at hs

theorem expression_lays (d : Nat) (c : Cursor) : Lays file ts (expression d) Expr.outline c := by
  induction d generalizing c with
  | zero => exact .reject
  | succ d ih =>
    unfold Lays
    rw [expression]
    unfold expressionWithin
    refine .start ((climb_lays (application_lays ih (pattern_lays (d + 1))) tiers 0 c).bind
      fun e c' _ hl => .test (fun _ => hl.step fun hl => ?_) fun _ => .pure hl)
    exact hl.read (type_lays (d + 1) _) fun t _ hl => .spanFrom (.pure (.node hl))

/-! Declarations. -/

section

variable {block : Parser (Expr Span)} {pattern : Parser (Pattern Span)} {type atomic : Parser (Ty Span)}
  (hblock : ∀ c, Lays file ts block Expr.outline c)
  (hpattern : ∀ c, Lays file ts pattern Pattern.outline c)
  (htype : ∀ c, Lays file ts type Ty.outline c) (hatomic : ∀ c, Lays file ts atomic Ty.outline c)

include hpattern htype in
theorem param_lays (hk : c.current.kind ≠ .eof) :
    Lays file ts (param pattern type) Param.outline c := by
  unfold Lays param
  exact .located (Laid.opening hk fun hl => hl.read (hpattern _) fun p _ hl => hl.expect fun hl =>
    hl.read (htype _) fun t _ hl => hl.expectClosing fun hl => .pure (.node hl))

include htype in
theorem returnType_lays {s : Int} {os : List Outline} (hl : Laid file ts s c.lastEnd os) :
    (returnType type).Yields (Rides file ts) file c
      fun z r => Laid file ts s z (os ++ r.toList.map Ty.outline) := by
  unfold returnType
  exact .test (fun _ => hl.step fun hl => hl.read (htype _) fun t _ hl => .pure hl)
    fun _ => .pure (by simpa using hl)

include hblock hpattern htype in
theorem fnDecl_lays (hk : c.current.kind ≠ .eof) :
    Lays file ts (fnDecl block pattern type) Decl.outline c := by
  unfold Lays fnDecl
  refine .located (Laid.opening hk fun hl => hl.expect fun hl => ?_)
  refine hl.many (fun c hs => param_lays hpattern htype (by simp [Cursor.kind_of_isAt hs]))
    fun ps c' _ hl => (returnType_lays htype hl).bind fun r _ _ hl =>
      hl.read (hblock _) fun b _ hl => .pure (.node ?_)
  cases r <;> simpa [OutlineField.children] using hl

include hatomic in
theorem variant_lays (c : Cursor) : Lays file ts (variant atomic) Variant.outline c := by
  unfold Lays variant
  refine .located (Laid.expectOpening (by decide) fun hl => hl.many (fun c _ => hatomic c)
    fun as _ _ hl => .pure (.node ?_))
  simpa [OutlineField.children, Ty.outlineAll_eq_map] using hl

include htype in
theorem field_lays (c : Cursor) : Lays file ts (field type) Field.outline c := by
  unfold Lays field
  exact .located (Laid.expectOpening (by decide) fun hl => hl.expect fun hl =>
    hl.read (htype _) fun t _ hl => .pure (.node hl))

include htype hatomic in
/-- The body of a type declaration is no node, and its parts are beneath the declaration. -/
theorem typeBody_lays (name : String) {s : Int} (hl : Laid file ts s c.lastEnd []) :
    (typeBody type atomic name).Yields (Rides file ts) file c
      fun z b => Laid file ts s z [b.outline] := by
  have hvariant : ∀ c : Cursor, c.isAt .pipe = true →
      Lays file ts (do let _ ← advance; variant atomic) Variant.outline c := fun c hs =>
    Laid.opening (by simp [Cursor.kind_of_isAt hs]) fun hl => hl.last (variant_lays hatomic _)
  unfold typeBody sum product
  refine .test (fun _ => ?_) fun _ => .test (fun _ => hl.step fun hl => ?_) fun _ => .reject
  · refine hl.many hvariant fun vs c' _ hl => .pure (.bare ?_)
    simpa [OutlineField.children] using hl
  · refine hl.commas (field_lays htype) fun x _ hl => hl.expectClosing fun hl => .pure (.bare ?_)
    simpa [OutlineField.children] using hl

include htype hatomic in
theorem typeDecl_lays (hk : c.current.kind ≠ .eof) :
    Lays file ts (typeDecl type atomic) Decl.outline c := by
  unfold Lays typeDecl
  exact .located (Laid.opening hk fun hl => hl.expect fun hl => hl.names fun ns _ hl =>
    hl.expect fun hl => (typeBody_lays htype hatomic _ hl).bind fun b _ _ hl => .pure (.node hl))

end

theorem declaration_lays (d : Nat) (c : Cursor) : Lays file ts (declaration d) Decl.outline c := by
  have hexpr := @expression_lays file ts d
  have hblock := block_lays hexpr (pattern_lays d)
  unfold Lays
  rw [declaration]
  unfold declarationWithin
  refine .current ?_
  split
  · rename_i hk
    exact fnDecl_lays hblock (pattern_lays d) (type_lays d) (by simp [hk])
  · rename_i hk
    exact typeDecl_lays (type_lays d) (atom_lays type_views (type_lays d)) (by simp [hk])
  · exact .unexpected

/-! Trees. -/

/-- All nodes are aligned to tokens, but for the program around the others, and each of them encloses
what is directly beneath it. -/
structure Nests (file : String) (ts : List Token) (t : Tree Span) : Prop where
  aligned : ∀ x ∈ t.nodes, x.2.Aligned file ts
  encloses : ∀ n ∈ t.outline.nodes, ∃ s, n.span = some s ∧ s.Encloses n.beneath

theorem nests_of_laid {t : Tree Span} {s z : Int} (hnodes : t.nodes = t.outline.spanned)
    (h : Laid file ts s z [t.outline]) : Nests file ts t := by
  have hseated : ∀ n ∈ t.outline.nodes, n.Seated file ts := by
    rw [← List.flatMap_singleton Outline.nodes]
    exact h.seated
  refine ⟨fun x hx => Outline.aligned_of_mem_spanned hseated (hnodes ▸ hx), fun n hn => ?_⟩
  obtain ⟨s, hs, -, hencloses⟩ := hseated n hn
  exact ⟨s, hs, hencloses⟩

theorem nests_of_row {ds : List (Decl Span)} {a b stop : Int} (ha : 0 ≤ a) (hb : b ≤ stop)
    (h : Row file ts a b (ds.map Decl.outline)) : Nests file ts (.program ⟨ds, ⟨file, 0, stop⟩⟩) where
  aligned x hx := by
    obtain ⟨d, hd, hx⟩ := List.mem_flatMap.1 hx
    refine Outline.aligned_of_mem_spanned (fun n hn => h.seated n ?_) hx
    exact List.mem_flatMap.2 ⟨_, List.mem_map.2 ⟨d, hd, rfl⟩, hn⟩
  encloses := by
    have hbeneath : (Tree.program ⟨ds, ⟨file, 0, stop⟩⟩).outline.beneath =
        (ds.map Decl.outline).flatMap Outline.foremost := by
      simp [Tree.outline, Program.outline, Outline.beneath, Outline.foremostFields_eq_flatMap,
        OutlineField.children]
    have hnodes : Outline.nodesFields [.nodes "declarations" (ds.map Decl.outline)] =
        (ds.map Decl.outline).flatMap Outline.nodes := by
      simp [Outline.nodesFields_eq_flatMap, OutlineField.children]
    refine List.forall_mem_cons.2 ⟨⟨_, rfl, ?_⟩, fun n hn => ?_⟩
    · refine hbeneath ▸ ⟨fun s hs => ?_, h.disjoint⟩
      have := h.within s hs
      simp only [Span.contains, Bool.and_eq_true, decide_eq_true_eq]
      omega
    · obtain ⟨s, hs, -, hencloses⟩ := h.seated n (hnodes ▸ hn)
      exact ⟨s, hs, hencloses⟩

theorem tree_nests (depth : Nat) (form : Form) (hc : 0 ≤ c.lastEnd) :
    (tree depth form).Yields (Rides file ts) file c fun _ => Nests file ts := by
  cases form with
  | program =>
    refine Yields.bind (P := fun _ p => Nests file ts (.program p)) ?_ fun p _ _ hp => .pure hp
    unfold program
    have hgathers : Yields.Gathers (Rides file ts) fun z (ds : List (Decl Span)) z' =>
        Row file ts z z' (ds.map Decl.outline) := by
      refine ⟨fun z => Row.nil (Int.le_refl _), fun c ds z hc h => h.widen ?_ (Int.le_refl _)⟩
      rw [Cursor.advance_lastEnd]
      exact Int.le_trans hc.behind hc.start_le_stop
    refine (Yields.many_gathers hgathers fun c _ => .within fun hc => (declaration_lays depth c).mono
      fun z d hd ds z' hds => (hd.toRow.widen hc.behind (Int.le_refl _)).append hds).bind
        fun ds c' _ hds => ?_
    rintro hc' p c'' ⟨⟩
    exact ⟨hc', nests_of_row hc (Int.le_trans hc'.behind hc'.start_le_stop) hds⟩
  | expression =>
    exact (expression_lays depth c).bind fun e _ _ h => atEnd_yields (.pure (nests_of_laid rfl h))
  | pattern =>
    exact (pattern_lays depth c).bind fun p _ _ h => atEnd_yields (.pure (nests_of_laid rfl h))
  | type => exact (type_lays depth c).bind fun t _ _ h => atEnd_yields (.pure (nests_of_laid rfl h))

end Parser

/-- The spans of a tree that was read are disjoint byte ranges within each other. Each node begins
where a token begins and ends behind it where a token ends, and its span contains the spans of the
nodes directly beneath it, no two of which overlap. A program contains its declarations likewise. -/
theorem nests_of_runSource {depth : Nat} {form : Form} {file source : String} {t : Tree Span}
    (h : (Parser.tree depth form).runSource file source = .ok t) :
    ∃ ts, lex file source = .ok ts ∧ Parser.Nests file ts t := by
  obtain ⟨ts, hlex, hrun⟩ := Parser.runSource_eq_ok.1 h
  obtain ⟨file', c, hfile, hc, hlast, heq⟩ :=
    Parser.run_eq (Parser.tree depth form) (some file) (lex_ne_nil hlex)
  obtain rfl := hfile file rfl
  refine ⟨ts, hlex, ?_⟩
  have hrides : Parser.Rides file ts c :=
    ⟨ruled_of_lex hlex, hc ▸ List.suffix_refl _, Int.le_of_eq hlast⟩
  have hstart : 0 ≤ c.lastEnd := by
    have hmem := hrides.mem
    rw [(lex_eq_ok hlex).2] at hmem
    have := Token.start_of_mem_ofPieces _ hmem
    omega
  rw [heq] at hrun
  cases hdone : Parser.tree depth form file c with
  | failed e c' =>
    rw [hdone] at hrun
    cases hrun
  | done u c' =>
    rw [hdone] at hrun
    obtain rfl := Except.ok.inj hrun
    exact (Parser.tree_nests depth form hstart hrides u c' hdone).2

theorem nests_of_empty_block : ∃ p, (Parser.tree 3 .program).runSource "a" "fn f (x: A) \x7b\x7d" =
    .ok (.program p) ∧ ∃ ts, lex "a" "fn f (x: A) \x7b\x7d" = .ok ts ∧
      Parser.Nests "a" ts (.program p) := by
  obtain ⟨t, h⟩ : ∃ t, (Parser.tree 3 .program).runSource "a" "fn f (x: A) \x7b\x7d" = .ok t :=
    exists_of_isOk (by decide +kernel)
  have hform := (wellFormed_of_runSource h).1
  cases t with
  | program p => exact ⟨p, h, nests_of_runSource h⟩
  | _ => cases hform

end TinyFront
