import TinyFront.Proofs.Mends

/-!
Loops in the logic of refusals: items one after the other, lists between commas and statements, the
latter two together with the delimiter that closes them. Each is an induction on what is left to be
read; where no item stands, a loop is filled in with nothing.
-/
namespace TinyFront

open Grammar

namespace Parser

variable {ι α β γ δ : Type} {n l : Nat} {s s₁ : Sym} {file : String} {c : Cursor}

/-- The test with which a loop looks out for an item. What may stand behind the loop stops it. -/
structure Scouts (s : Sym) (starts : Cursor → Bool) : Prop where
  stop : ∀ c d : Cursor, starts c = false → Fits s c.lexemes d.lexemes → starts d = false
  none : ∀ d : Cursor, Ends s d.lexemes → starts d = false

theorem scouts_of_kind {starts : Cursor → Bool} {f : TokenKind → Bool}
    (hf : ∀ c, starts c = f c.current.kind) (hs : ∀ k, f k = true → s.goesOn k = true) :
    Scouts s starts where
  stop c d hc h := by
    rw [hf] at hc ⊢
    cases hd : f d.current.kind with
    | false => rfl
    | true =>
      have heq := h.headKind_eq (by rw [← d.current_kind_eq]; exact hs _ hd)
      rw [← d.current_kind_eq, ← c.current_kind_eq] at heq
      rw [heq, hc] at hd
      cases hd
  none d h := by
    rw [hf]
    cases hd : f d.current.kind with
    | false => rfl
    | true => exact absurd (hs _ hd) (by simp [kind_of_ends h rfl])

theorem startsSuffix_eq (c : Cursor) : startsSuffix c = (c.isAt .dot || opensRecord c.lexemes) := by
  rw [startsSuffix, startsRecord_of_lexemes]

theorem scouts_suffix (hs : s.goesOn .dot = true) : Scouts s startsSuffix where
  stop c d hc h := by
    rw [startsSuffix_eq, Bool.or_eq_false_iff] at hc ⊢
    refine ⟨h.isAt_eq_false hs hc.1, ?_⟩
    cases ho : opensRecord d.lexemes with
    | false => rfl
    | true =>
      rw [h.record hs ho] at hc
      cases hc.2
  none d h := startsSuffix_of_ends h hs rfl

/-- The items of a loop. An item is recognised by no more than what it surely consumes. -/
structure Items (n : Nat) (s : Sym) (starts : Cursor → Bool) (item : Nat → Parser α) : Prop where
  viable : ∀ file c, TokenStream c.remaining → starts c = true → ∃ l, 0 < l ∧ l ≤ 3 ∧
    (∀ d : Cursor, Agree l c.lexemes d.lexemes → starts d = true) ∧
      Viable n l s (item n) (fun m (_ : Unit) => item m) file c
  shortens : ∀ m file c, c.Ended → starts c = true → (item m).Shortens file c

theorem items_of_kind {starts : Cursor → Bool} {f : TokenKind → Bool} {item : Nat → Parser α}
    (hf : ∀ c, starts c = f c.current.kind)
    (h : ∀ file c, TokenStream c.remaining → starts c = true →
      Viable n 1 s (item n) (fun m (_ : Unit) => item m) file c)
    (hshort : ∀ m file c, c.Ended → starts c = true → (item m).Shortens file c) :
    Items n s starts item := by
  refine ⟨fun file c hc hs => ⟨1, by decide, by decide, fun d ha => ?_, h file c hc hs⟩, hshort⟩
  rw [hf, kind_of_agree ha (by decide), ← hf, hs]

theorem many_cons {starts : Cursor → Bool} {item : Parser α}
    (hitem : ∀ c, c.Ended → starts c = true → item.Shortens file c) (hc : c.Ended)
    (hs : starts c = true) :
    many starts item file c =
      (item >>= fun a => many starts item >>= fun as => pure (a :: as)) file c := by
  rw [many_eq hitem hc, if_pos hs]

theorem many_respects {starts : Cursor → Bool} {item : Nat → Parser α}
    (hrecord : ∀ c : Cursor, starts c = true → c.current.kind = .lbrace → opensRecord c.lexemes = true)
    {k : γ → List α → Parser β} (hk : ∀ e as, (k e as).Quiet) {L : Nat → ι → γ → Parser δ} :
    Respects n (fun e => many starts (item n) >>= k e) L file := by
  intro e c _ hmove m _ x _ d zs R _ _ _ hhead _ ho
  have hgoes : starts c = true := by
    cases hstop : starts c with
    | true => rfl
    | false =>
      obtain ⟨b, hb⟩ := hk e [] file c
      exact absurd ((bind_done (many_of_stop hstop)).trans hb) (hmove b)
  refine hrecord c hgoes ?_
  rw [c.current_kind_eq, ← hhead, headKind_of_opensRecord ho]

theorem many_viable {starts : Cursor → Bool} {item : Nat → Parser α} (hs : Scouts s starts)
    (hi : Items n s₁ starts item) (hsort : ∀ k, s₁.goesOn k = true → s.goesOn k = true)
    (hrecord : s₁.goesOn .dot = true → ∀ c : Cursor, starts c = true → c.current.kind = .lbrace →
      opensRecord c.lexemes = true)
    (hfill : Fills n s [] fun m (_ : Unit × α) => many starts (item m))
    (hc : TokenStream c.remaining) :
    Viable n 0 s (many starts (item n)) (fun m (_ : Unit) => many starts (item m)) file c := by
  induction hlen : c.remaining.length using Nat.strongRecOn generalizing c with
  | ind len ih =>
    cases hstart : starts c with
    | false =>
      refine .stay (many_of_stop hstart) fun m _ _ file d _ hfit =>
        ⟨[], many_of_stop (hs.stop c d hstart hfit)⟩
    | true =>
      obtain ⟨l, hl, hl3, hagain, hitem⟩ := hi.viable file c hc hstart
      have hrest : ∀ a c', item n file c = .done a c' → TokenStream c'.remaining →
          Viable n 0 s (many starts (item n) >>= fun as => pure (a :: as))
            (fun m (x : Unit × α) => many starts (item m) >>= fun as => pure (x.2 :: as)) file c' := by
        intro a c' hrun hc'
        have hlt := (hi.shortens n file c hc.ended' hstart a c' hrun).2
        have hmends : Mends n 0 s [] (many starts (item n))
            (fun m (_ : Unit × α) => many starts (item m)) file c' :=
          ⟨hfill, (ih _ (by omega) hc' rfl).reindex fun _ => ()⟩
        exact (hmends.last (fun as => .pure _) fun _ _ as => .pure _).viable
      have hnone : Fills n s [] fun m (x : Unit × α) =>
          many starts (item m) >>= fun as => pure (x.2 :: as) :=
        ⟨by simp, fun m hm x R hR => .bind_quiet (hfill.takes m hm x R hR) fun _ => .pure _⟩
      have hmore : Viable n l s (item n >>= fun a => many starts (item n) >>= fun as => pure (a :: as))
          (fun m (_ : Unit) => item m >>= fun a => many starts (item m) >>= fun as => pure (a :: as))
          file c :=
        hitem.bind hc hnone hrest (.inr hsort) (fun R hR => hR.mono hsort) fun hdot =>
          many_respects (hrecord hdot) fun _ _ => .pure _
      refine (hmore.branch hl hl3 (many_cons (hi.shortens n file) hc.ended' hstart)
        fun m _ _ file d hd ha => ⟨(), ?_⟩).weaken (Nat.zero_le l)
      exact many_cons (hi.shortens m file) hd (hagain d ha)

theorem many_mends {starts : Cursor → Bool} {item : Nat → Parser α} (hs : Scouts s starts)
    (hi : Items n s₁ starts item) (hsort : ∀ k, s₁.goesOn k = true → s.goesOn k = true)
    (hrecord : s₁.goesOn .dot = true → ∀ c : Cursor, starts c = true → c.current.kind = .lbrace →
      opensRecord c.lexemes = true) (hc : TokenStream c.remaining) :
    Mends n 0 s [] (many starts (item n)) (fun m (_ : ι) => many starts (item m)) file c := by
  have hfill : ∀ κ : Type, Fills n s [] fun m (_ : κ) => many starts (item m) := by
    refine fun κ => ⟨by simp, fun m _ _ R hR file d _ hx => ⟨[], d, [], ?_, .refl d, rfl⟩⟩
    exact many_of_stop (hs.none d (by rwa [show d.lexemes = R from hx]))
  exact ⟨hfill ι, (many_viable hs hi hsort hrecord (hfill _) hc).reindex fun _ => ()⟩

/-! Lists between commas, with the delimiter that closes them. -/

section

variable {closer : TokenKind} {cat : Category} {o : TokenKind}

theorem commas_bind {item : Parser α}
    (hitem : ∀ c, c.Ended → listEnds closer c = false → item.Shortens file c) (hc : c.Ended)
    (k : List α × Bool → Parser β) :
    (commas closer item >>= k) file c =
      if listEnds closer c then k ([], false) file c
      else (do
        let a ← item
        if ← test (·.isAt .comma) then
          let _ ← advance
          let x ← commas closer item
          k (a :: x.1, x.2 || x.1.isEmpty)
        else k ([a], false) : Parser _) file c := by
  by_cases hends : listEnds closer c = true
  · rw [if_pos hends, bind_done (by rw [commas_eq hitem hc, if_pos hends])]
  · rw [if_neg hends]
    refine (bind_congr (q := do
      let a ← item
      if ← test (·.isAt .comma) then
        let _ ← advance
        let x ← commas closer item
        return (a :: x.1, x.2 || x.1.isEmpty)
      else return ([a], false)) (by rw [commas_eq hitem hc, if_neg hends]) fun _ _ _ => rfl).trans ?_
    simp only [bind_assoc, ite_bind, pure_bind]

structure Closes (s : Sym) (closer : TokenKind) : Prop where
  ne_eof : closer ≠ .eof
  ne_comma : closer ≠ .comma
  ne_lbrace : closer ≠ .lbrace
  goesOn : s.goesOn closer = false
  goesOn_comma : s.goesOn .comma = false

theorem expectClosing_bind_of_kind {k : Token → Parser β} (h : c.current.kind = closer) :
    (expectClosing cat o closer >>= k) file c = k c.current file c.advance :=
  bind_done (expectClosing_eq_done.2 ⟨h, rfl, rfl⟩)

theorem listEnds_of_kind {c d : Cursor} (h : d.current.kind = c.current.kind) :
    listEnds closer d = listEnds closer c := by
  simp [listEnds, Cursor.isAt, h]

variable {item : Nat → Parser α}

/-- What stands behind an item: a comma and more items, or the closer. -/
def afterItem (cat : Category) (o closer : TokenKind) (item : Parser α)
    (k : List α × Bool → Token → Parser β) (a : α) : Parser β := do
  if ← test (·.isAt .comma) then
    let _ ← advance
    let x ← commas closer item
    let t ← expectClosing cat o closer
    k (a :: x.1, x.2 || x.1.isEmpty) t
  else
    let t ← expectClosing cat o closer
    k ([a], false) t

def closedList (cat : Category) (o closer : TokenKind) (item : Parser α)
    (k : List α × Bool → Token → Parser β) : Parser β := do
  let x ← commas closer item
  let t ← expectClosing cat o closer
  k x t

theorem closedList_of_listEnds {item : Parser α} {k : List α × Bool → Token → Parser β}
    (hitem : ∀ c, c.Ended → listEnds closer c = false → item.Shortens file c) (hc : c.Ended)
    (h : listEnds closer c = true) : closedList cat o closer item k file c =
      (expectClosing cat o closer >>= k ([], false)) file c := by
  rw [closedList, commas_bind hitem hc, if_pos h]

theorem closedList_of_not_listEnds {item : Parser α} {k : List α × Bool → Token → Parser β}
    (hitem : ∀ c, c.Ended → listEnds closer c = false → item.Shortens file c) (hc : c.Ended)
    (h : listEnds closer c = false) : closedList cat o closer item k file c =
      (item >>= afterItem cat o closer item k) file c := by
  rw [closedList, commas_bind hitem hc, if_neg (by simp [h])]
  rfl

theorem closedList_fills (hcl : Closes s₁ closer)
    (hshort : ∀ m file c, c.Ended → (item m).Shortens file c)
    {K : ι → List α × Bool → Token → Parser β} (hK : ∀ i x t, (K i x t).Quiet) :
    Fills n s [closer] fun m i => closedList cat o closer (item m) (K i) := by
  refine .step (Q := fun _ (y : ι × Token) => K y.1 ([], false) y.2) hcl.ne_eof
    (.quiet fun _ y => hK y.1 _ y.2) fun m _ i file d hd hlex => ⟨(i, d.current), ?_⟩
  have hk : d.current.kind = closer := (congrArg Prod.fst hlex).trans (sample_fst closer)
  rw [closedList_of_listEnds (fun c hc _ => hshort m file c hc) hd (by simp [listEnds, Cursor.isAt, hk]),
    expectClosing_bind_of_kind hk]

theorem afterItem_fills (hcl : Closes s₁ closer)
    {K : ι → List α × Bool → Token → Parser β} (hK : ∀ i x t, (K i x t).Quiet) :
    Fills n s [closer] fun m (y : ι × α) => afterItem cat o closer (item m) (K y.1) y.2 := by
  refine .step (Q := fun _ (z : (ι × α) × Token) => K z.1.1 ([z.1.2], false) z.2) hcl.ne_eof
    (.quiet fun _ z => hK z.1.1 _ z.2) fun m _ y file d _ hlex => ⟨(y, d.current), ?_⟩
  have hk : d.current.kind = closer := (congrArg Prod.fst hlex).trans (sample_fst closer)
  rw [afterItem, test_bind, if_neg (by simp [Cursor.isAt, hk, hcl.ne_comma]),
    expectClosing_bind_of_kind hk]

theorem afterItem_ne_done (hcl : Closes s₁ closer) {item : Parser α}
    {k : List α × Bool → Token → Parser β} {a : α} {b : β} {c' : Cursor}
    (ho : opensRecord c.lexemes = true) : afterItem cat o closer item k a file c ≠ .done b c' := by
  have hk : c.current.kind = .lbrace := by rw [c.current_kind_eq, headKind_of_opensRecord ho]
  intro hrun
  rw [afterItem, test_bind, if_neg (by simp [Cursor.isAt, hk])] at hrun
  obtain ⟨_, _, hclose, -⟩ := bind_eq_done.1 hrun
  exact hcl.ne_lbrace ((expectClosing_eq_done.1 hclose).1.symm.trans hk)

theorem afterItem_respects (hcl : Closes s₁ closer) {k : List α × Bool → Token → Parser β}
    {K : ι → List α × Bool → Token → Parser γ} : Respects n (afterItem cat o closer (item n) k)
      (fun m i => afterItem cat o closer (item m) (K i)) file :=
  respects_of_shy fun _ _ _ _ _ _ _ ho _ _ hrun => absurd hrun (afterItem_ne_done hcl ho)

section

variable (hcl : Closes s₁ closer) (hshort : ∀ m file c, c.Ended → (item m).Shortens file c)
  {k : List α × Bool → Token → Parser β} {K : ι → List α × Bool → Token → Parser γ}
  (hk : ∀ x t, (k x t).Quiet) (hK : ∀ i x t, (K i x t).Quiet)

include hcl hshort hk hK

theorem afterItem_viable_of (hc : TokenStream c.remaining) (a : α)
    (hrest : c.current.kind = .comma → Viable n 1 s
      (closedList cat o closer (item n) fun x => k (a :: x.1, x.2 || x.1.isEmpty))
      (fun m (y : ι × α) => closedList cat o closer (item m)
        fun x => K y.1 (y.2 :: x.1, x.2 || x.1.isEmpty)) file c.advance) :
    Viable n 1 s (afterItem cat o closer (item n) k a)
      (fun m (y : ι × α) => afterItem cat o closer (item m) (K y.1) y.2) file c := by
  by_cases hcomma : c.current.kind = .comma
  · have hgo : ∀ {δ : Type} {item : Parser α} {k : List α × Bool → Token → Parser δ} {a : α}
        {file : String} {d : Cursor}, d.current.kind = .comma → afterItem cat o closer item k a file d =
          closedList cat o closer item (fun x => k (a :: x.1, x.2 || x.1.isEmpty)) file d.advance := by
      intro δ item k a file d hd
      rw [afterItem, test_bind, if_pos (Cursor.isAt_iff.2 hd), advance_bind]
      rfl
    exact .skip_token hc (by decide) hcomma (hgo hcomma) (fun m _ y file d _ hd _ => ⟨y, hgo hd⟩)
      (closedList_fills hcl hshort fun y x => hK y.1 _) (hrest hcomma)
  · have hnot : ∀ {δ : Type} {item : Parser α} {k : List α × Bool → Token → Parser δ} {a : α}
        {file : String} {d : Cursor}, d.current.kind ≠ .comma →
        afterItem cat o closer item k a file d =
          (expectClosing cat o closer >>= k ([a], false)) file d := by
      intro δ item k a file d hd
      rw [afterItem, test_bind, if_neg (by simpa [Cursor.isAt] using hd)]
    have hclose : Mends n 1 s [closer] (expectClosing cat o closer >>= k ([a], false))
        (fun m (y : ι × α) => expectClosing cat o closer >>= K y.1 ([y.2], false)) file c :=
      .expectClosing hc hcl.ne_eof fun t _ c' _ => .quiet (hk _ t) fun _ x => hK x.1.1 _ x.2.1
    refine hclose.viable.branch (by decide) (by decide) (hnot hcomma) fun m _ y file d _ ha =>
      ⟨y, hnot ?_⟩
    rwa [kind_of_agree ha (by decide)]

end

section

variable (hcl : Closes s₁ closer)
  (hitem : ∀ file c, TokenStream c.remaining →
    Viable n 1 s₁ (item n) (fun m (_ : Unit) => item m) file c)
  (hshort : ∀ m file c, c.Ended → (item m).Shortens file c)
  {k : List α × Bool → Token → Parser β} {K : ι → List α × Bool → Token → Parser γ}
  (hk : ∀ x t, (k x t).Quiet) (hK : ∀ i x t, (K i x t).Quiet)

include hcl hitem hshort hk hK

theorem closedList_viable (hc : TokenStream c.remaining) :
    Viable n 1 s (closedList cat o closer (item n) k)
      (fun m i => closedList cat o closer (item m) (K i)) file c := by
  induction hlen : c.remaining.length using Nat.strongRecOn generalizing ι k K c with
  | ind len ih =>
    have hshort' : ∀ m file c, c.Ended → listEnds closer c = false → (item m).Shortens file c :=
      fun m file c hc _ => hshort m file c hc
    cases hends : listEnds closer c with
    | true =>
      have hclose : Mends n 1 s [closer] (expectClosing cat o closer >>= k ([], false))
          (fun m i => expectClosing cat o closer >>= K i ([], false)) file c :=
        .expectClosing hc hcl.ne_eof fun t _ c' _ => .quiet (hk _ t) fun _ x => hK x.1 _ x.2.1
      refine hclose.viable.branch (by decide) (by decide)
        (closedList_of_listEnds (hshort' n file) hc.ended' hends) fun m _ i file d hd ha => ⟨i, ?_⟩
      exact closedList_of_listEnds (hshort' m file) hd
        (by rw [listEnds_of_kind (kind_of_agree ha (by decide)), hends])
    | false =>
      have hafter : ∀ a c', item n file c = .done a c' → TokenStream c'.remaining →
          Viable n 1 s (afterItem cat o closer (item n) k a)
            (fun m (y : ι × α) => afterItem cat o closer (item m) (K y.1) y.2) file c' := by
        intro a c' hrun hc'
        have hlt := (hshort n file c hc.ended' a c' hrun).2
        refine afterItem_viable_of hcl hshort hk hK hc' a fun hcomma => ?_
        have hne : c'.current.kind ≠ .eof := by simp [hcomma]
        have hlen' := (hc'.ended'.consumes_advance hne).length
        rw [List.length_singleton] at hlen'
        exact ih _ (by omega) (fun x => hk _) (fun y x => hK y.1 _) (hc'.advance hne).1 rfl
      have hmore : Viable n 1 s (item n >>= afterItem cat o closer (item n) k)
          (fun m i => item m >>= afterItem cat o closer (item m) (K i)) file c :=
        (hitem file c hc).bind hc (afterItem_fills hcl hK) hafter (.inl (Nat.le_refl 1))
          (fun R _ => .cons (by simp [hcl.goesOn]) (by simp [hcl.ne_lbrace]))
          fun _ => afterItem_respects hcl
      refine hmore.branch (by decide) (by decide)
        (closedList_of_not_listEnds (hshort' n file) hc.ended' hends) fun m _ i file d hd ha => ⟨i, ?_⟩
      exact closedList_of_not_listEnds (hshort' m file) hd
        (by rw [listEnds_of_kind (kind_of_agree ha (by decide)), hends])

theorem closedList_mends (hc : TokenStream c.remaining) :
    Mends n 1 s [closer] (closedList cat o closer (item n) k)
      (fun m i => closedList cat o closer (item m) (K i)) file c :=
  ⟨closedList_fills hcl hshort hK, closedList_viable hcl hitem hshort hk hK hc⟩

theorem afterItem_mends (hc : TokenStream c.remaining) (a : α) :
    Mends n 1 s [closer] (afterItem cat o closer (item n) k a)
      (fun m (y : ι × α) => afterItem cat o closer (item m) (K y.1) y.2) file c := by
  refine ⟨afterItem_fills hcl hK, afterItem_viable_of hcl hshort hk hK hc a fun hcomma => ?_⟩
  exact closedList_viable hcl hitem hshort (fun x => hk _) (fun y x => hK y.1 _)
    (hc.advance (by simp [hcomma])).1

end

end

/-! Statements, with the brace that closes them. -/

section

variable {inner : Nat → Parser (Expr Span)} {pat : Nat → Parser (Pattern Span)}

def closedStatements (inner : Parser (Expr Span)) (pat : Parser (Pattern Span))
    (k : List (Statement Span) → Token → Parser β) : Parser β := do
  let ss ← statements inner pat
  let t ← expectClosing .expression .lbrace .rbrace
  k ss t

def afterSemicolon (inner : Parser (Expr Span)) (pat : Parser (Pattern Span))
    (k : List (Statement Span) → Token → Parser β) (a : Statement Span) : Parser β := do
  if ← test (listEnds .rbrace) then
    let t ← expectClosing .expression .lbrace .rbrace
    k [a] t
  else closedStatements inner pat fun ss => k (a :: ss)

def afterStatement (inner : Parser (Expr Span)) (pat : Parser (Pattern Span))
    (k : List (Statement Span) → Token → Parser β) (a : Statement Span) : Parser β := do
  if ← test (·.isAt .semicolon) then
    let _ ← advance
    afterSemicolon inner pat k a
  else
    let t ← expectClosing .expression .lbrace .rbrace
    k [a] t

theorem closedStatements_eq {inner : Parser (Expr Span)} {pat : Parser (Pattern Span)}
    {k : List (Statement Span) → Token → Parser β}
    (hitem : ∀ c, c.Ended → (statement inner pat).Shortens file c) (hc : c.Ended) :
    closedStatements inner pat k file c =
      (statement inner pat >>= afterStatement inner pat k) file c := by
  refine (bind_congr (statements_eq hitem hc) fun _ _ _ => rfl).trans ?_
  simp only [bind_assoc, ite_bind, pure_bind]
  rfl

theorem afterSemicolon_fills {k : ι → List (Statement Span) → Token → Parser β}
    (hk : ∀ i ss t, (k i ss t).Quiet) : Fills n s [.rbrace] fun m (y : ι × Statement Span) =>
      afterSemicolon (inner m) (pat m) (k y.1) y.2 := by
  refine .step (Q := fun _ (z : (ι × Statement Span) × Token) => k z.1.1 [z.1.2] z.2) (by decide)
    (.quiet fun _ z => hk z.1.1 _ z.2) fun m _ y file d _ hlex => ⟨(y, d.current), ?_⟩
  have hkind : d.current.kind = .rbrace := congrArg Prod.fst hlex
  rw [afterSemicolon, test_bind, if_pos (by simp [listEnds, Cursor.isAt, hkind]),
    expectClosing_bind_of_kind hkind]

theorem afterStatement_fills {k : ι → List (Statement Span) → Token → Parser β}
    (hk : ∀ i ss t, (k i ss t).Quiet) : Fills n s [.rbrace] fun m (y : ι × Statement Span) =>
      afterStatement (inner m) (pat m) (k y.1) y.2 := by
  refine .step (Q := fun _ (z : (ι × Statement Span) × Token) => k z.1.1 [z.1.2] z.2) (by decide)
    (.quiet fun _ z => hk z.1.1 _ z.2) fun m _ y file d _ hlex => ⟨(y, d.current), ?_⟩
  have hkind : d.current.kind = .rbrace := congrArg Prod.fst hlex
  rw [afterStatement, test_bind, if_neg (by simp [Cursor.isAt, hkind]),
    expectClosing_bind_of_kind hkind]

theorem afterStatement_respects {k : List (Statement Span) → Token → Parser β}
    {K : ι → List (Statement Span) → Token → Parser γ} :
    Respects n (afterStatement (inner n) (pat n) k)
      (fun m i => afterStatement (inner m) (pat m) (K i)) file := by
  refine respects_of_shy fun m _ i a file d _ ho b d' hrun => ?_
  have hk : d.current.kind = .lbrace := by rw [d.current_kind_eq, headKind_of_opensRecord ho]
  rw [afterStatement, test_bind, if_neg (by simp [Cursor.isAt, hk])] at hrun
  obtain ⟨_, _, hclose, -⟩ := bind_eq_done.1 hrun
  cases (expectClosing_eq_done.1 hclose).1.symm.trans hk

theorem closing_viable {k : List (Statement Span) → Token → Parser β}
    {K : ι → List (Statement Span) → Token → Parser γ} (a : Statement Span)
    (hk : ∀ ss t, (k ss t).Quiet) (hK : ∀ i ss t, (K i ss t).Quiet) (hc : TokenStream c.remaining) :
    Viable n 1 s (expectClosing .expression .lbrace .rbrace >>= k [a])
      (fun _ (y : ι × Statement Span) => expectClosing .expression .lbrace .rbrace >>= K y.1 [y.2])
      file c :=
  have hclose : Mends n 1 s [.rbrace] (expectClosing .expression .lbrace .rbrace >>= k [a])
      (fun _ (y : ι × Statement Span) => expectClosing .expression .lbrace .rbrace >>= K y.1 [y.2])
      file c := .expectClosing hc (by decide) fun t _ _ _ => .quiet (hk _ t) fun _ x => hK x.1.1 _ x.2.1
  hclose.viable

section

variable {k : List (Statement Span) → Token → Parser β} {K : ι → List (Statement Span) → Token → Parser γ}
  (hk : ∀ ss t, (k ss t).Quiet) (hK : ∀ i ss t, (K i ss t).Quiet)

include hk hK

theorem afterSemicolon_viable_of (hc : TokenStream c.remaining) (a : Statement Span)
    (hrest : Viable n 1 s (closedStatements (inner n) (pat n) fun ss => k (a :: ss))
      (fun m (y : ι × Statement Span) => closedStatements (inner m) (pat m)
        fun ss => K y.1 (y.2 :: ss)) file c) :
    Viable n 1 s (afterSemicolon (inner n) (pat n) k a)
      (fun m (y : ι × Statement Span) => afterSemicolon (inner m) (pat m) (K y.1) y.2) file c := by
  cases hends : listEnds .rbrace c with
  | true =>
    refine (closing_viable a hk hK hc).branch (by decide) (by decide) ?_ fun m _ y file d _ ha => ⟨y, ?_⟩
    · rw [afterSemicolon, test_bind, if_pos hends]
    · rw [afterSemicolon, test_bind,
        if_pos ((listEnds_of_kind (kind_of_agree ha (by decide))).trans hends)]
  | false =>
    refine hrest.branch (by decide) (by decide) ?_ fun m _ y file d _ ha => ⟨y, ?_⟩
    · rw [afterSemicolon, test_bind, if_neg (by simp [hends])]
    · rw [afterSemicolon, test_bind,
        if_neg (by simp [listEnds_of_kind (kind_of_agree ha (by decide)), hends])]

theorem afterStatement_viable_of (hc : TokenStream c.remaining) (a : Statement Span)
    (hrest : c.current.kind = .semicolon → Viable n 1 s
      (closedStatements (inner n) (pat n) fun ss => k (a :: ss))
      (fun m (y : ι × Statement Span) => closedStatements (inner m) (pat m)
        fun ss => K y.1 (y.2 :: ss)) file c.advance) :
    Viable n 1 s (afterStatement (inner n) (pat n) k a)
      (fun m (y : ι × Statement Span) => afterStatement (inner m) (pat m) (K y.1) y.2) file c := by
  by_cases hsemi : c.current.kind = .semicolon
  · have hne : c.current.kind ≠ .eof := by simp [hsemi]
    have hgo : ∀ {δ : Type} {inner : Parser (Expr Span)} {pat : Parser (Pattern Span)}
        {k : List (Statement Span) → Token → Parser δ} {a : Statement Span} {file : String} {d : Cursor},
        d.current.kind = .semicolon →
          afterStatement inner pat k a file d = afterSemicolon inner pat k a file d.advance := by
      intro δ inner pat k a file d hd
      rw [afterStatement, test_bind, if_pos (Cursor.isAt_iff.2 hd), advance_bind]
    exact .skip_token hc (by decide) hsemi (hgo hsemi) (fun m _ y file d _ hd _ => ⟨y, hgo hd⟩)
      (afterSemicolon_fills hK)
      (afterSemicolon_viable_of hk hK (hc.advance hne).1 a (hrest hsemi))
  · have hnot : ∀ {δ : Type} {inner : Parser (Expr Span)} {pat : Parser (Pattern Span)}
        {k : List (Statement Span) → Token → Parser δ} {a : Statement Span} {file : String}
        {d : Cursor}, d.current.kind ≠ .semicolon → afterStatement inner pat k a file d =
          (expectClosing .expression .lbrace .rbrace >>= k [a]) file d := by
      intro δ inner pat k a file d hd
      rw [afterStatement, test_bind, if_neg (by simpa [Cursor.isAt] using hd)]
    refine (closing_viable a hk hK hc).branch (by decide) (by decide) (hnot hsemi)
      fun m _ y file d _ ha => ⟨y, hnot ?_⟩
    rwa [kind_of_agree ha (by decide)]

theorem closedStatements_viable {s₁ : Sym} (hrbrace : s₁.goesOn .rbrace = false)
    (hitem : ∀ file c, TokenStream c.remaining → Viable n 1 s₁ (statement (inner n) (pat n))
      (fun m (_ : Unit) => statement (inner m) (pat m)) file c)
    (hshort : ∀ m file c, c.Ended → (statement (inner m) (pat m)).Shortens file c)
    (hc : TokenStream c.remaining) : Viable n 1 s (closedStatements (inner n) (pat n) k)
      (fun m i => closedStatements (inner m) (pat m) (K i)) file c := by
  induction hlen : c.remaining.length using Nat.strongRecOn generalizing ι k K c with
  | ind len ih =>
    have hafter : ∀ a c', statement (inner n) (pat n) file c = .done a c' → TokenStream c'.remaining →
        Viable n 1 s (afterStatement (inner n) (pat n) k a)
          (fun m (y : ι × Statement Span) => afterStatement (inner m) (pat m) (K y.1) y.2) file c' := by
      intro a c' hrun hc'
      have hlt := (hshort n file c hc.ended' a c' hrun).2
      refine afterStatement_viable_of hk hK hc' a fun hsemi => ?_
      have hne : c'.current.kind ≠ .eof := by simp [hsemi]
      have hlen' := (hc'.ended'.consumes_advance hne).length
      rw [List.length_singleton] at hlen'
      exact ih _ (by omega) (fun ss => hk _) (fun y ss => hK y.1 _) (hc'.advance hne).1 rfl
    have hmore : Viable n 1 s (statement (inner n) (pat n) >>= afterStatement (inner n) (pat n) k)
        (fun m i => statement (inner m) (pat m) >>= afterStatement (inner m) (pat m) (K i)) file c :=
      (hitem file c hc).bind hc (afterStatement_fills hK) hafter (.inl (Nat.le_refl 1))
        (fun R _ => .cons (by simpa using hrbrace) (by simp)) fun _ => afterStatement_respects
    exact hmore.congr (closedStatements_eq (hshort n file) hc.ended') fun m _ i file d hd =>
      ⟨i, closedStatements_eq (hshort m file) hd⟩

end

end

end Parser
end TinyFront
