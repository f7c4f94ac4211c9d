import TinyFront.Proofs.MendsExprs
import TinyFront.Proofs.Reading

/-!
Declarations, programs and whole trees in the logic of refusals. Main statement: each parser of a
tree mends wherever it is run on a stream.
-/
namespace TinyFront

open Grammar

instance : Nonempty (Variant Span) := ⟨⟨"", [], default⟩⟩

instance : Nonempty (TypeBody Span) := ⟨.sum []⟩

namespace Parser

variable {ι α β : Type} {n : Nat} {s : Sym} {file : String} {c : Cursor}

theorem param_mends (hc : TokenStream c.remaining) (hk : c.current.kind = .lparen) :
    Mends n 1 s [.lparen, .underscore, .colon, .underscore, .rparen] (param (pattern n) (type n))
      (fun m (_ : ι) => param (pattern m) (type m)) file c :=
  .located (.advance (l := 1) hc (by decide) hk fun _ _ _ hc =>
    .bind (v := [.underscore]) (i := 1) hc ((pattern_mended n).mends hc)
      (fun _ _ hc => .expect (l := 1) hc (by decide) fun _ _ _ hc =>
        .bind (v := [.underscore]) (i := 1) hc ((type_mended n).mends hc)
          (fun _ _ hc => .expectClosing (l := 0) hc (by decide) fun _ _ _ _ => .pure)
          (.inl (Nat.le_refl 1)) (fun R _ => .cons rfl (by decide)) fun hk => nomatch hk)
      (.inl (Nat.le_refl 1)) (fun R _ => .cons rfl (by decide)) fun hk => nomatch hk)

theorem params_mends (hc : TokenStream c.remaining) :
    Mends n 0 .typeApplication [] (many (·.isAt .lparen) (param (pattern n) (type n)))
      (fun m (_ : ι) => many (·.isAt .lparen) (param (pattern m) (type m))) file c := by
  have hitems : Items n (.atom .type) (·.isAt .lparen) fun m => param (pattern m) (type m) := by
    refine items_of_kind (f := (· == .lparen)) (fun _ => rfl) (fun file c hc hs => ?_)
      fun m file c hc hs => ?_
    · exact (param_mends hc (Cursor.kind_of_isAt hs)).viable
    · exact (param_steady (pattern_self m) (type_self m) hc
        (by simp [Cursor.kind_of_isAt hs])).shortens hc
  have hscouts : Scouts .typeApplication (·.isAt .lparen) := by
    refine scouts_of_kind (f := (· == .lparen)) (fun _ => rfl) fun k hk => ?_
    cases k <;> first | rfl | cases hk
  exact many_mends hscouts hitems (fun _ hk => nomatch hk) (fun hk => nomatch hk) hc

theorem returnType_mends (hc : TokenStream c.remaining) :
    Mends n 0 (.element .expression) [] (returnType (type n)) (fun m (_ : ι) => returnType (type m))
      file c := by
  have hgoes : ∀ k, (Sym.element .type).goesOn k = true → (Sym.element .expression).goesOn k = true := by
    intro k hk
    cases k <;> first | rfl | cases hk
  have htype : ∀ c : Cursor, TokenStream c.remaining → Mends n 1 (.element .expression) [.underscore]
      (type n >>= fun t => pure (some t)) (fun m (_ : ι) => type m >>= fun t => pure (some t)) file c :=
    fun c hc => (((type_mended n).mends hc).of_sort hgoes).last (fun _ => .pure _) fun _ _ _ => .pure _
  exact .perhaps hc (by decide) rfl (fun c' hc' _ => htype c' hc') (htype c hc).fills

theorem fnDecl_mends (hc : TokenStream c.remaining) (hk : c.current.kind = .kwFn) :
    Mends n 1 .decl [.kwFn, .identifier, .lbrace, .rbrace]
      (fnDecl (block (expression n) (pattern n)) (pattern n) (type n))
      (fun m (_ : ι) => fnDecl (block (expression m) (pattern m)) (pattern m) (type m)) file c := by
  have hgoes : ∀ k, Sym.typeApplication.goesOn k = true → Sym.decl.goesOn k = true :=
    fun k hk => Bool.or_eq_true_iff.2 (.inr hk)
  refine .located (.advance (l := 1) hc (by decide) hk fun _ _ _ hc => .expect (l := 0) hc (by decide)
    fun _ _ _ hc => .bind (v := []) (i := 0) hc (params_mends hc) (fun _ _ hc => ?_) (.inr hgoes)
      (fun R _ => .brace rfl fun hk => nomatch hk) fun hk => nomatch hk)
  refine .bind (v := []) (i := 1) hc (returnType_mends hc) (fun _ _ hc => ?_) (.inl (Nat.le_refl 1))
    (fun R _ => .brace rfl fun hk => nomatch hk) fun _ => respects_of_shy fun m _ x _ file d hd ho b d' hrun => ?_
  · exact (block_mends (j := 0) (expression_mended n) hc).last (fun _ => .pure _) fun _ _ _ => .pure _
  · obtain ⟨e, d₁, he, -⟩ := bind_eq_done.1 hrun
    exact absurd he (block_ne_done (j := 0) hd ho)

theorem variant_mends (hc : TokenStream c.remaining) :
    Mends n 1 .variant [.typeIdentifier] (variant (atom .type (type n)))
      (fun m (_ : ι) => variant (atom .type (type m))) file c :=
  .located (.expect (l := 0) hc (by decide) fun _ _ _ hc =>
    (typeAtoms_mends (s := .variant) (type_mended n) (fun _ hk => hk) hc).last (fun _ => .pure _)
      fun _ _ _ => .pure _)

def barred (atomicType : Parser (Ty Span)) : Parser (Variant Span) := do
  let _ ← advance
  variant atomicType

theorem barred_mends (hc : TokenStream c.remaining) (hk : c.current.kind = .pipe) :
    Mends n 1 .variant [.pipe, .typeIdentifier] (barred (atom .type (type n)))
      (fun m (_ : ι) => barred (atom .type (type m))) file c :=
  .advance (l := 1) hc (by decide) hk fun _ _ _ hc => variant_mends hc

theorem barred_shortens (m : Nat) (hc : c.Ended) (hk : c.isAt .pipe = true) :
    (barred (atom .type (type m))).Shortens file c := by
  refine .bind (fun t d hrun => ?_) fun _ d _ hd v d' hrun => ?_
  · obtain ⟨-, rfl⟩ := advance_eq_done.1 hrun
    exact hc.advance_of_isAt hk (by decide)
  · have hvariant := (variant_follows (atom_follows (Family.type_natural _) (type_self m))).shortens hd v d' hrun
    exact ⟨hvariant.1, Nat.le_of_lt hvariant.2⟩

theorem variants_mends (hc : TokenStream c.remaining) :
    Mends n 0 .typeBody [] (many (·.isAt .pipe) (barred (atom .type (type n))))
      (fun m (_ : ι) => many (·.isAt .pipe) (barred (atom .type (type m)))) file c := by
  have hitems : Items n .variant (·.isAt .pipe) fun m => barred (atom .type (type m)) :=
    items_of_kind (f := (· == .pipe)) (fun _ => rfl)
      (fun _ _ hc hs => (barred_mends hc (Cursor.kind_of_isAt hs)).viable)
      fun m _ _ hc hs => barred_shortens m hc hs
  have hscouts : Scouts .typeBody (·.isAt .pipe) := by
    refine scouts_of_kind (f := (· == .pipe)) (fun _ => rfl) fun k hk => ?_
    cases k <;> first | rfl | cases hk
  exact many_mends hscouts hitems (fun _ hk => Bool.or_eq_true_iff.2 (.inr hk)) (fun hk => nomatch hk) hc

theorem field_mends (hc : TokenStream c.remaining) :
    Mends n 1 (.element .type) [.identifier, .colon, .underscore] (field (type n))
      (fun m (_ : ι) => field (type m)) file c :=
  .located (.expect (l := 1) hc (by decide) fun _ _ _ hc => .expect (l := 1) hc (by decide) fun _ _ _ hc =>
    ((type_mended n).mends hc).last (fun _ => .pure _) fun _ _ _ => .pure _)

theorem product_mends (hc : TokenStream c.remaining) (hk : c.current.kind = .lbrace) :
    Mends n 1 s [.lbrace, .rbrace] (product (type n)) (fun m (_ : ι) => product (type m)) file c := by
  have hlist : Mends n 1 s [.lbrace, .rbrace]
      (advance >>= fun _ => closedList .declaration .lbrace .rbrace (field (type n))
        fun x _ => pure (TypeBody.product x.1))
      (fun m (_ : ι) => advance >>= fun _ => closedList .declaration .lbrace .rbrace (field (type m))
        fun x _ => pure (TypeBody.product x.1)) file c :=
    .advance (l := 1) hc (by decide) hk fun _ _ _ hc => closedList_mends (closes_rbrace .type)
      (fun _ _ hc => (field_mends hc).viable)
      (fun m _ _ hc => (field_follows (type_self m)).shortens hc)
      (fun _ _ => .pure _) (fun _ _ _ => .pure _) hc
  exact hlist

section

variable {ty : Parser (Ty Span)} {at' : Parser (Ty Span)} {name : String} {d : Cursor}

theorem typeBody_of_lbrace (hd : d.current.kind = .lbrace) :
    typeBody ty at' name file d = product ty file d := by
  rw [typeBody, test_bind, if_neg (by simp [Cursor.isAt, hd]), test_bind, if_pos (Cursor.isAt_iff.2 hd)]

theorem typeBody_of_none (hpipe : d.current.kind ≠ .pipe) (hbrace : d.current.kind ≠ .lbrace) :
    typeBody ty at' name file d =
      .failed (.rejected ⟨.incompleteDeclaration name, .declaration, d.current.span⟩) d := by
  rw [typeBody, test_bind, if_neg (by simpa [Cursor.isAt] using hpipe), test_bind,
    if_neg (by simpa [Cursor.isAt] using hbrace)]
  rfl

theorem typeBody_of_pipe {m : Nat} (hd : d.Ended) (hk : d.current.kind = .pipe) :
    typeBody ty (atom .type (type m)) name file d = (do
      let v ← barred (atom .type (type m))
      let vs ← many (·.isAt .pipe) (barred (atom .type (type m)))
      return .sum (v :: vs) : Parser (TypeBody Span)) file d := by
  rw [typeBody, test_bind, if_pos (Cursor.isAt_iff.2 hk)]
  refine (bind_congr (many_cons (fun _ hc hs => barred_shortens m hc hs) hd (Cursor.isAt_iff.2 hk))
    fun _ _ _ => rfl).trans ?_
  simp only [bind_assoc, pure_bind]

end

theorem typeBody_mends (t : Token) (hc : TokenStream c.remaining) :
    Mends n 1 .typeBody [.lbrace, .rbrace] (typeBody (type n) (atom .type (type n)) t.text)
      (fun m (u : ι × Like t) => typeBody (type m) (atom .type (type m)) u.2.1.text) file c := by
  have hclose : Fills n .typeBody [.rbrace] fun m (_ : ι × Like t) =>
      closedList .declaration .lbrace .rbrace (field (type m)) fun x _ => pure (TypeBody.product x.1) :=
    closedList_fills (closes_rbrace .type)
      (fun m _ _ hc => (field_follows (type_self m)).shortens hc)
      fun _ _ _ => .pure _
  refine ⟨hclose.step (by decide) fun m _ x file d _ hd => ⟨x, ?_⟩, ?_⟩
  · rw [typeBody_of_lbrace (congrArg Prod.fst hd)]
    rfl
  by_cases hpipe : c.current.kind = .pipe
  · have hsum : Mends n 1 .typeBody [.pipe, .typeIdentifier]
        (barred (atom .type (type n)) >>= fun v => many (·.isAt .pipe) (barred (atom .type (type n))) >>=
          fun vs => pure (TypeBody.sum (v :: vs)))
        (fun m (_ : ι × Like t) => barred (atom .type (type m)) >>= fun v =>
          many (·.isAt .pipe) (barred (atom .type (type m))) >>= fun vs => pure (TypeBody.sum (v :: vs)))
        file c :=
      .bind (v := [.pipe, .typeIdentifier]) (i := 0) hc (barred_mends hc hpipe)
        (fun _ _ hc => (variants_mends hc).last (fun _ => .pure _) fun _ _ _ => .pure _)
        (.inr fun _ hk => Bool.or_eq_true_iff.2 (.inr hk))
        (fun R hR => hR.mono fun _ hk => Bool.or_eq_true_iff.2 (.inr hk)) fun hk => nomatch hk
    exact hsum.viable.branch (by decide) (by decide) (typeBody_of_pipe hc.ended' hpipe)
      fun m _ x file d hd ha => ⟨x, typeBody_of_pipe hd ((kind_of_agree ha (by decide)).trans hpipe)⟩
  by_cases hbrace : c.current.kind = .lbrace
  · exact (product_mends hc hbrace).viable.at_kind (typeBody_of_lbrace hbrace) fun m x _ _ hd =>
      ⟨x, typeBody_of_lbrace (hd.trans hbrace)⟩
  · refine .refuse (typeBody_of_none hpipe hbrace) rfl fun m _ u file d _ ha =>
      ⟨_, d, typeBody_of_none ?_ ?_, rfl, ?_⟩
    · rwa [kind_of_agree ha (by decide)]
    · rwa [kind_of_agree ha (by decide)]
    · rw [show u.2.1.text = t.text from congrArg Prod.snd u.2.2]
      rfl

theorem typeDecl_mends (hc : TokenStream c.remaining) (hk : c.current.kind = .kwType) :
    Mends n 1 .decl [.kwType, .typeIdentifier, .assign, .lbrace, .rbrace]
      (typeDecl (type n) (atom .type (type n))) (fun m (_ : ι) => typeDecl (type m) (atom .type (type m)))
      file c := by
  refine .located (.advance (l := 1) hc (by decide) hk fun u _ _ hc => .expect (l := 0) hc (by decide)
    fun t _ _ hc => .bind (v := []) (i := 1) hc (names_mends hc) (fun _ _ hc => ?_) (.inl (Nat.le_refl 1))
      (fun R _ => .cons rfl (by decide)) fun hk => nomatch hk)
  refine .expect (l := 1) hc (by decide) fun v _ c' hc' => ?_
  have hbody : Mends n 1 .decl [.lbrace, .rbrace] (typeBody (type n) (atom .type (type n)) t.text)
      (fun m (y : Unit × Like t) => typeBody (type m) (atom .type (type m)) y.2.1.text) file c' :=
    (typeBody_mends t hc').of_sort fun _ hk => hk
  exact (hbody.reindex fun x : (((ι × Like u) × Like t) × List Token) × Like v => ((), x.1.1.2)).last
    (fun _ => .pure _) fun _ _ _ => .pure _

theorem declaration_viable (hc : TokenStream c.remaining) :
    Viable n 1 .decl (declaration n) (fun m (_ : ι) => declaration m) file c := by
  cases hk : c.current.kind with
  | kwFn =>
    have hfn : ∀ m file (d : Cursor), d.current.kind = .kwFn → declaration m file d =
        fnDecl (block (expression m) (pattern m)) (pattern m) (type m) file d := fun m file d hd => by
      rw [declaration, declarationWithin, current_bind, hd]
    exact (fnDecl_mends hc hk).viable.at_kind (hfn _ _ _ hk) fun m x _ _ hd =>
      ⟨x, hfn _ _ _ (hd.trans hk)⟩
  | kwType =>
    have htype : ∀ m file (d : Cursor), d.current.kind = .kwType → declaration m file d =
        typeDecl (type m) (atom .type (type m)) file d := fun m file d hd => by
      rw [declaration, declarationWithin, current_bind, hd]
    exact (typeDecl_mends hc hk).viable.at_kind (htype _ _ _ hk) fun m x _ _ hd =>
      ⟨x, htype _ _ _ (hd.trans hk)⟩
  | _ =>
    have hnone : ∀ m file (d : Cursor), d.current.kind = c.current.kind → declaration m file d =
        unexpected .declaration .declarationStart file d := fun m file d hd => by
      rw [declaration, declarationWithin, current_bind, hd, hk]
    exact .unexpected (hnone _ _ _ rfl) fun m _ _ _ _ _ hd _ => hnone _ _ _ hd

theorem program_mends (hc : TokenStream c.remaining) :
    Mends n 0 .program [] (program n) (fun m (_ : ι) => program m) file c := by
  have hitems : Items n .decl (fun c => !c.isAt .eof) declaration :=
    items_of_kind (f := (· != .eof)) (fun _ => rfl) (fun _ _ hc _ => declaration_viable hc)
      fun m _ _ hc _ => declaration_shortens m hc
  have hscouts : Scouts .program (fun c => !c.isAt .eof) :=
    scouts_of_kind (f := (· != .eof)) (fun _ => rfl) fun _ hk => hk
  have hgoes : ∀ k, Sym.decl.goesOn k = true → Sym.program.goesOn k = true := by
    intro k hk
    cases k <;> first | rfl | cases hk
  have hspan : ∀ t : Token, Quiet fun file c => .done (⟨file, 0, t.span.stop⟩ : Span) c :=
    fun _ _ _ => ⟨_, rfl⟩
  have hcurrent : Quiet current := fun _ c => ⟨c.current, rfl⟩
  have hmany : Mends n 0 .program [] (many (fun c => !c.isAt .eof) (declaration n))
      (fun m (_ : ι) => many (fun c => !c.isAt .eof) (declaration m)) file c :=
    many_mends hscouts hitems hgoes (fun hk => nomatch hk) hc
  exact hmany.last (fun _ => hcurrent.bind fun t => (hspan t).bind fun _ => .pure _)
    fun _ _ _ => hcurrent.bind fun t => (hspan t).bind fun _ => .pure _

/-- Behind what is no program the input ends. -/
theorem atEnd_mends {cat : Category} {k : Unit → Parser α} {K : ι → Unit → Parser β}
    (hk : ∀ u, (k u).Quiet) (hK : ∀ i u, (K i u).Quiet) :
    Mends n 0 .program [] (tree.atEnd cat >>= k) (fun _ i => tree.atEnd cat >>= K i) file c := by
  have heof : ∀ {δ : Type} {k : Unit → Parser δ} {file : String} {d : Cursor}, d.current.kind = .eof →
      (tree.atEnd cat >>= k) file d = k () file d := by
    intro δ k file d hd
    exact bind_done (by rw [tree.atEnd, test_bind, if_pos (Cursor.isAt_iff.2 hd), pure_apply])
  have hne : ∀ {δ : Type} {k : Unit → Parser δ} {file : String} {d : Cursor}, d.current.kind ≠ .eof →
      (tree.atEnd cat >>= k) file d = (unexpected cat (.kind .eof) : Parser δ) file d := by
    intro δ k file d hd
    exact bind_failed (by rw [tree.atEnd, test_bind, if_neg (by simpa [Cursor.isAt] using hd)]; rfl)
  have hend : ∀ {d : Cursor}, Sym.program.goesOn d.current.kind = false → d.current.kind = .eof := by
    intro d h
    simpa [Sym.goesOn] using h
  refine ⟨⟨by simp, fun m _ i R hR file d _ hx => ?_⟩, ?_⟩
  · obtain ⟨b, hb⟩ := hK i () file d
    exact ⟨b, d, [], (heof (hend (kind_of_ends hR hx))).trans hb, .refl d, rfl⟩
  by_cases hcur : c.current.kind = .eof
  · obtain ⟨a, ha⟩ := hk () file c
    refine .stay ((heof hcur).trans ha) fun m _ i file d _ hfit => ?_
    obtain ⟨b, hb⟩ := hK i () file d
    refine ⟨b, (heof ?_).trans hb⟩
    obtain hhead | hgoes := hfit.head
    · rw [d.current_kind_eq, hhead, ← c.current_kind_eq, hcur]
    · exact hend (by rwa [d.current_kind_eq])
  · exact .unexpected (hne hcur) fun m _ i file d _ hd _ => hne (by rwa [hd])

theorem tree_of_element_mends (k : Kin) {cat : Category} {w : List TokenKind} {f : k.Spanned → Tree Span}
    (h : Mended n (.element k) w k.element) (hc : TokenStream c.remaining) :
    Mends n 1 .program (w ++ []) (k.element n >>= fun e => tree.atEnd cat >>= fun _ => pure (f e))
      (fun m (_ : ι) => k.element m >>= fun e => tree.atEnd cat >>= fun _ => pure (f e)) file c := by
  have hgoes : ∀ j, (Sym.element k).goesOn j = true → Sym.program.goesOn j = true := by
    intro j hj
    cases k <;> cases j <;> first | rfl | cases hj
  have : Nonempty k.Spanned := by cases k <;> infer_instance
  refine .bind (i := 0) hc (h.run file c hc) (fun e c' _ => atEnd_mends (fun _ => .pure _) fun _ _ => .pure _)
    (.inr hgoes) (fun R hR => hR.mono hgoes) fun _ => respects_of_shy fun m _ _ e file d _ _ b d' hrun => ?_
  obtain ⟨u, d₁, hu, hrun⟩ := bind_eq_done.1 hrun
  obtain ⟨-, rfl⟩ := pure_eq_done.1 hrun
  exact (atEnd_eq_done.1 hu).2.symm

/-- What stands for a whole tree: nothing at all for a program, else a wildcard. -/
def filler : Form → List TokenKind
  | .program => []
  | _ => [.underscore]

theorem tree_mends (form : Form) (hc : TokenStream c.remaining) :
    Mends n 0 .program (filler form) (tree n form) (fun m (_ : Unit) => tree m form) file c := by
  cases form with
  | program => exact (program_mends hc).last (fun _ => .pure _) fun _ _ _ => .pure _
  | expression => exact (tree_of_element_mends .expression (expression_mended n) hc).weaken (Nat.zero_le 1)
  | pattern => exact (tree_of_element_mends .pattern (pattern_mended n) hc).weaken (Nat.zero_le 1)
  | type => exact (tree_of_element_mends .type (type_mended n) hc).weaken (Nat.zero_le 1)

end Parser
end TinyFront
