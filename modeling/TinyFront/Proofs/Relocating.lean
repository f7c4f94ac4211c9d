import TinyFront.Proofs.Joining
import TinyFront.Proofs.Nesting
import TinyFront.Proofs.Outlines

/-!
Reading the same tokens at other places. Main statement: what is read, and what is refused, depends on
the kinds and texts of tokens alone, and each span in the answer runs from the start of one token to the
end of another, whichever places the tokens have.
-/
namespace TinyFront

namespace Parser

variable {ρ : Placing} {file : String} {c c' : Cursor}

/-- The second tree is the first one at other places, but for the span of a program. -/
structure Relocates (ρ : Placing) (t u : Tree Span) : Prop where
  bare : u.bare = t.bare
  nodes : u.nodes = t.nodes.map (Prod.map id ρ.span)

theorem relocates_map (ρ : Placing) (t : Tree Span) : Relocates ρ t (t.map ρ.span) :=
  ⟨t.bare_map _, t.nodes_map _⟩

/-- A parser that reads up to the end of the input reads the same tokens again before another end of
the input, and answers with the relocated tree. -/
def Relocatable (ρ : Placing) (p : Parser (Tree Span)) : Prop :=
  ∀ file c, c.Ended → ∀ t c', p file c = .done t c' → c'.current.kind = .eof ∧
    ∃ ts, c.remaining = ts ++ c'.remaining ∧ ∀ (d : Cursor) stop tail, d.Ended → stop.kind = .eof →
      d.remaining = ts.map ρ.token ++ stop :: tail →
        ∃ u d', p (ρ.file file) d = .done u d' ∧ Relocates ρ t u

theorem Follows.relocatable {α : Type} {p : Parser α} {place : α → α} (h : Follows ρ False p p place)
    {category : Category} {node : α → Tree Span} (hnode : ∀ a, node (place a) = (node a).map ρ.span) :
    Relocatable ρ (do
      let a ← p
      let _ ← tree.atEnd category
      return node a) := by
  intro file c hc t c' hrun
  obtain ⟨a, e, ha, hrest⟩ := bind_eq_done.1 hrun
  obtain ⟨_, e', hend, hpure⟩ := bind_eq_done.1 hrest
  obtain ⟨hk, rfl⟩ := atEnd_eq_done.1 hend
  obtain ⟨rfl, rfl⟩ := pure_eq_done.1 hpure
  obtain ⟨-, ts, hlen, hts, hagain⟩ := h file c hc a e ha
  refine ⟨hk, ts, hts.remaining, fun d stop tail hd hstop hrem => ?_⟩
  have hcut : Cut ρ e.remaining (stop :: tail) := .here (by rw [hstop]; rfl)
  obtain ⟨b, d', hb, hd', rfl⟩ | ⟨hdeep, -⟩ :=
    hagain ts.length (Nat.le_refl _) _ hcut d hrem (by omega)
  · have hrem' := (List.append_cancel_left (hrem.symm.trans hd'.remaining)).symm
    have hk' : d'.current.kind = .eof := by rwa [(Cursor.current_of_remaining hrem').1]
    refine ⟨node (place a), d', ?_, hnode a ▸ relocates_map ρ _⟩
    rw [bind_done hb, bind_done (atEnd_eq_done.2 ⟨hk', rfl⟩)]
    rfl
  · exact hdeep.elim

theorem tree_relocatable (ρ : Placing) (depth : Nat) (form : Form) :
    Relocatable ρ (tree depth form) := by
  cases form with
  | expression =>
    exact (expression_follows depth depth fun h => absurd h (Nat.lt_irrefl _)).relocatable fun _ => rfl
  | pattern =>
    exact (pattern_follows depth depth fun h => absurd h (Nat.lt_irrefl _)).relocatable fun _ => rfl
  | type =>
    exact (type_follows depth depth fun h => absurd h (Nat.lt_irrefl _)).relocatable fun _ => rfl
  | program =>
    intro file c hc t c' hrun
    obtain ⟨p, e, hp, hpure⟩ := bind_eq_done.1 hrun
    obtain ⟨rfl, rfl⟩ := pure_eq_done.1 hpure
    obtain ⟨ds, e', hds, hrest⟩ := bind_eq_done.1 hp
    obtain ⟨rfl, rfl⟩ : ⟨ds, ⟨file, 0, e'.current.span.stop⟩⟩ = p ∧ e' = e := Outcome.done.inj hrest
    obtain ⟨hk, ts, hts, hagain⟩ := (declaration_follows_self ρ depth).all_again hc hds
    refine ⟨hk, ts, hts, fun d stop tail hd hstop hrem => ?_⟩
    obtain ⟨d', hrem', -, hloop⟩ := hagain d stop tail hd (by rw [hstop]; rfl) hrem
    have hk' : d'.current.kind = .eof := by rwa [(Cursor.current_of_remaining hrem').1]
    have hall := hloop.trans (bind_done (all_of_eof hk'))
    rw [List.append_nil] at hall
    refine ⟨.program ⟨ds.map (Decl.map ρ.span), ⟨ρ.file file, 0, d'.current.span.stop⟩⟩, d', ?_, ?_, ?_⟩
    · rw [tree, program]
      rw [bind_done (bind_done hall)]
      rfl
    · exact (Tree.program ⟨ds, default⟩).bare_map ρ.span
    · exact (Tree.program ⟨ds, default⟩).nodes_map ρ.span

theorem Relocatable.run {p : Parser (Tree Span)} (h : Relocatable ρ p) {file? : Option String}
    {vs : List Token} {e e' : Token} (he : e.kind = .eof) (he' : e'.kind = .eof) {t : Tree Span}
    (hrun : p.run file? (vs ++ [e]) = .ok t) :
    ∃ file u, p.run (some (ρ.file file)) (vs.map ρ.token ++ [e']) = .ok u ∧ Relocates ρ t u := by
  obtain ⟨file, c, c', -, hc, -, hdone⟩ := exists_done_of_run (by simp) hrun
  obtain ⟨file', d, hfile, hd, -, heq⟩ :=
    run_eq p (some (ρ.file file)) (show vs.map ρ.token ++ [e'] ≠ [] by simp)
  obtain rfl := hfile _ rfl
  obtain ⟨hk, ts, hts, hagain⟩ := h file c ⟨vs, e, hc, he⟩ t c' hdone
  obtain ⟨stop, tail, hstop, hrem⟩ : ∃ stop tail, stop.kind = .eof ∧
      d.remaining = ts.map ρ.token ++ stop :: tail := by
    obtain ⟨us, last, hus, -⟩ : c'.Ended := .of_suffix ⟨vs, e, rfl, he⟩ ⟨ts, by rw [← hts, hc]⟩
    rw [hc, hus, ← List.append_assoc] at hts
    obtain ⟨rfl, -⟩ := List.append_inj' hts rfl
    cases us with
    | nil => exact ⟨e', [], he', by simpa using hd⟩
    | cons u us =>
      refine ⟨ρ.token u, us.map ρ.token ++ [e'], ?_, by simpa using hd⟩
      rwa [(Cursor.current_of_remaining hus).1] at hk
  obtain ⟨u, d', hu, hplaces⟩ := hagain d stop tail ⟨_, e', hd, he'⟩ hstop hrem
  exact ⟨file, u, by rw [heq, hu], hplaces⟩

end Parser

/-- Tokens that tell by their places where they stand in the list. -/
def numbered (xs : List Lexeme) : List Token :=
  xs.zipIdx.map fun x => ⟨x.1.1, x.1.2, ⟨"", 2 * x.2 + 1, 2 * x.2 + 2⟩⟩

theorem getElem?_numbered (xs : List Lexeme) (i : Nat) :
    (numbered xs)[i]? = xs[i]?.map fun x => ⟨x.1, x.2, ⟨"", 2 * i + 1, 2 * i + 2⟩⟩ := by
  simp [numbered, List.getElem?_zipIdx, Function.comp_def]

/-- Numbered tokens with an end marker right behind the last one. -/
def numberedToEnd (xs : List Lexeme) (text : String) : List Token :=
  numbered xs ++ [⟨.eof, text, ⟨"", 2 * xs.length, 2 * xs.length⟩⟩]

theorem lexemes_numbered (xs : List Lexeme) : (numbered xs).map Token.lexeme = xs := by
  refine List.ext_getElem? fun i => ?_
  rw [List.getElem?_map, getElem?_numbered, Option.map_map]
  exact Option.map_id'

theorem mem_numbered {xs : List Lexeme} {t : Token} (h : t ∈ numbered xs) :
    ∃ i < xs.length, t.span = ⟨"", 2 * i + 1, 2 * i + 2⟩ := by
  obtain ⟨i, hi⟩ := List.mem_iff_getElem?.1 h
  rw [getElem?_numbered] at hi
  obtain ⟨x, hx, rfl⟩ := Option.map_eq_some_iff.1 hi
  exact ⟨i, (List.getElem?_eq_some_iff.1 hx).1, rfl⟩

theorem mem_numberedToEnd {xs : List Lexeme} {text : String} {t : Token}
    (h : t ∈ numberedToEnd xs text) :
    (∃ i < xs.length, t.span = ⟨"", 2 * i + 1, 2 * i + 2⟩) ∨
      t.span = ⟨"", 2 * xs.length, 2 * xs.length⟩ := by
  rcases List.mem_append.1 h with h | h
  · exact .inl (mem_numbered h)
  · exact .inr (by rw [List.mem_singleton.1 h])

theorem ruled_numberedToEnd (xs : List Lexeme) (text : String) :
    Ruled "" (numberedToEnd xs text) where
  file_eq t ht := by
    obtain ⟨i, -, hspan⟩ | hspan := mem_numberedToEnd ht <;> rw [hspan]
  ordered := by
    refine List.pairwise_append.2 ⟨?_, List.pairwise_singleton .., fun t ht u hu => ?_⟩
    · refine List.pairwise_iff_getElem.2 fun i j hi hj hij => ?_
      simp only [numbered, List.getElem_map, List.getElem_zipIdx]
      omega
    · obtain ⟨i, hi, hspan⟩ := mem_numbered ht
      rw [List.mem_singleton.1 hu, hspan]
      show (2 * i + 2 : Int) ≤ 2 * xs.length
      omega
  parted := by
    refine ⟨_, _, rfl, ⟨rfl, rfl⟩, fun t ht => ?_⟩
    obtain ⟨i, -, hspan⟩ := mem_numbered ht
    rw [hspan]
    exact Int.lt_succ _

/-- Spans between numbered tokens tell the two tokens that they run between. -/
theorem exists_of_aligned_numbered {xs : List Lexeme} {text : String} {s : Span}
    (h : s.Aligned "" (numberedToEnd xs text)) :
    ∃ i j, i ≤ j ∧ j < xs.length ∧ s = ⟨"", 2 * i + 1, 2 * j + 2⟩ := by
  obtain ⟨hfile, ⟨t, ht, hstart⟩, ⟨u, hu, hstop⟩, hlt⟩ := h
  obtain ⟨j, hj, hstop⟩ : ∃ j ≤ xs.length, s.stop = 2 * j := by
    obtain ⟨j, hj, hspan⟩ | hspan := mem_numberedToEnd hu
    · refine ⟨j + 1, hj, ?_⟩
      rw [hstop, hspan]
      push_cast
      omega
    · exact ⟨xs.length, Nat.le_refl _, by rw [hstop, hspan]⟩
  obtain ⟨i, -, hspan⟩ | hspan := mem_numberedToEnd ht
  · have hstart : s.start = 2 * i + 1 := by rw [hstart, hspan]
    have hlast : s.stop = 2 * (j - 1 : Nat) + 2 := by omega
    refine ⟨i, j - 1, by omega, by omega, ?_⟩
    rw [← hfile, ← hstart, ← hlast]
  · -- nothing ends behind the end marker
    have hstart : s.start = 2 * xs.length := by rw [hstart, hspan]
    omega

/-- Sends each number to the end of the token that it tells. -/
def Placing.ofTokens (ts : List Token) : Placing where
  file _ := ""
  offset z :=
    if z % 2 = 1 then ts[(z / 2).toNat]?.elim 0 (·.span.start)
    else ts[(z / 2 - 1).toNat]?.elim 0 (·.span.stop)

/-- Leaves everything where it is, in a file without a name. -/
def Placing.fileless : Placing := ⟨fun _ => "", id⟩

theorem Placing.offset_ofTokens {ts : List Token} {i : Nat} {t : Token} (h : ts[i]? = some t) :
    (ofTokens ts).offset (2 * i + 1) = t.span.start ∧
      (ofTokens ts).offset (2 * i + 2) = t.span.stop := by
  have hodd : (2 * i + 1 : Int) % 2 = 1 := by omega
  have heven : ¬ (2 * i + 2 : Int) % 2 = 1 := by omega
  have hstart : ((2 * i + 1 : Int) / 2).toNat = i := by omega
  have hstop : ((2 * i + 2 : Int) / 2 - 1).toNat = i := by omega
  simp only [ofTokens, if_pos hodd, if_neg heven, hstart, hstop, h, Option.elim_some, and_self]

theorem map_ofTokens_numbered (ts : List Token) (e : Token) :
    (numbered (ts.map Token.lexeme)).map (Placing.ofTokens (ts ++ [e])).token =
      ts.map Placing.fileless.token := by
  refine List.ext_getElem? fun i => ?_
  rw [List.getElem?_map, getElem?_numbered, List.getElem?_map, List.getElem?_map]
  cases h : ts[i]? with
  | none => rfl
  | some t =>
    have hi : (ts ++ [e])[i]? = some t := by
      rw [List.getElem?_append_left (List.getElem?_eq_some_iff.1 h).1, h]
    obtain ⟨hstart, hstop⟩ := Placing.offset_ofTokens hi
    simp only [Option.map_some, Placing.token, Placing.span, hstart, hstop]
    rfl

/-- The span runs from the start of one token of the list to the end of another. -/
structure Span.Reaches (ts : List Token) (i j : Nat) (s : Span) : Prop where
  start : ∃ t ∈ ts[i]?, s.start = t.span.start
  stop : ∃ t ∈ ts[j]?, s.stop = t.span.stop

theorem Span.reaches_of_numbered {ts : List Token} {i j : Nat} {s : Span} (hij : i ≤ j)
    (hj : j < ts.length)
    (h : Placing.fileless.span s = (Placing.ofTokens ts).span ⟨"", 2 * i + 1, 2 * j + 2⟩) :
    s.Reaches ts i j := by
  have hi : i < ts.length := by omega
  have hstart := congrArg Span.start h
  have hstop := congrArg Span.stop h
  refine ⟨⟨ts[i], List.getElem?_eq_getElem hi, ?_⟩, ⟨ts[j], List.getElem?_eq_getElem hj, ?_⟩⟩
  · rw [← (Placing.offset_ofTokens (List.getElem?_eq_getElem hi)).1]
    exact hstart
  · rw [← (Placing.offset_ofTokens (List.getElem?_eq_getElem hj)).2]
    exact hstop

theorem forall₂_of_map_eq {α β γ δ ε : Type} {R : α → β → Prop} {f : α → δ} {g : γ → δ} {f' : β → ε}
    {g' : γ → ε} {as : List α} {bs : List β} {cs : List γ} (h : as.map f = cs.map g)
    (h' : bs.map f' = cs.map g') (hR : ∀ c ∈ cs, ∀ a b, f a = g c → f' b = g' c → R a b) :
    List.Forall₂ R as bs := by
  induction cs generalizing as bs with
  | nil =>
    obtain rfl := List.map_eq_nil_iff.1 h
    obtain rfl := List.map_eq_nil_iff.1 h'
    exact .nil
  | cons c cs ih =>
    obtain ⟨a, as, rfl, ha, has⟩ := List.map_eq_cons_iff.1 h
    obtain ⟨b, bs, rfl, hb, hbs⟩ := List.map_eq_cons_iff.1 h'
    obtain ⟨hc, hcs⟩ := List.forall_mem_cons.1 hR
    exact .cons (hc a b ha hb) (ih has hbs hcs)

/-- Pairs the tokens of two lists that stand in the same place of each. -/
def Pairing.ofIndex {ts us : List Token} (h : ts.map Token.lexeme = us.map Token.lexeme) : Pairing where
  rel t u := ∃ i : Nat, ts[i]? = some t ∧ us[i]? = some u
  lexeme := by
    rintro t u ⟨i, ht, hu⟩
    have hi : (ts.map Token.lexeme)[i]? = (us.map Token.lexeme)[i]? := by rw [h]
    simpa [ht, hu] using hi

theorem Pairing.forall₂_ofIndex {ts us : List Token} (h : ts.map Token.lexeme = us.map Token.lexeme) :
    List.Forall₂ (ofIndex h).rel ts us := by
  have hlength : ts.length = us.length := by simpa using congrArg List.length h
  refine List.forall₂_iff_get.2 ⟨hlength, fun i hi hi' => ⟨i, ?_, ?_⟩⟩
  · simp
  · simp

namespace Parser

variable {depth : Nat} {form : Form}

/-- What is read from numbered tokens runs between them. -/
theorem aligned_of_run_numbered {xs : List Lexeme} {text : String} {t : Tree Span}
    (hrun : (tree depth form).run (some "") (numberedToEnd xs text) = .ok t) :
    ∀ x ∈ t.nodes, x.2.Aligned "" (numberedToEnd xs text) := by
  have hne : numberedToEnd xs text ≠ [] := by simp [numberedToEnd]
  obtain ⟨file, c, c', hfile, hc, hlast, hdone⟩ := exists_done_of_run hne hrun
  obtain rfl := hfile "" rfl
  have hrides : Rides "" (numberedToEnd xs text) c :=
    ⟨ruled_numberedToEnd xs text, hc ▸ List.suffix_refl _, Int.le_of_eq hlast⟩
  have hstart : 0 ≤ c.lastEnd := by
    rw [hlast]
    obtain ⟨i, -, hspan⟩ | hspan := mem_numberedToEnd hrides.mem <;> simp only [hspan] <;> omega
  exact (tree_nests depth form hstart hrides t c' hdone).2.aligned

theorem exists_run_numbered {file? : Option String} {ts : List Token} {e : Token} (he : e.kind = .eof)
    {t : Tree Span} (hrun : (tree depth form).run file? (ts ++ [e]) = .ok t) :
    ∃ u, (tree depth form).run (some "") (numberedToEnd (ts.map Token.lexeme) e.text) = .ok u ∧
      t.bare = u.bare ∧ t.nodes.map (Prod.map id Placing.fileless.span) =
        u.nodes.map (Prod.map id (Placing.ofTokens (ts ++ [e])).span) := by
  have hlexemes : (ts ++ [e]).map Token.lexeme =
      (numberedToEnd (ts.map Token.lexeme) e.text).map Token.lexeme := by
    rw [numberedToEnd, List.map_append, List.map_append, lexemes_numbered]
    simp [Token.lexeme, he]
  obtain ⟨-, u, -, hu, -⟩ | ⟨f, -, hf, -⟩ :=
    (tree_echo depth form).run (Pairing.forall₂_ofIndex hlexemes) ⟨ts, e, rfl, he⟩ file? (some "")
  · -- both trees are sent to the tokens as they are without their files, and meet there
    obtain ⟨_, v, hv, hbare, hnodes⟩ := (tree_relocatable .fileless depth form).run he he hrun
    obtain ⟨_, w, hw, hbare', hnodes'⟩ :=
      (tree_relocatable (.ofTokens (ts ++ [e])) depth form).run rfl he hu
    rw [map_ofTokens_numbered] at hw
    obtain rfl : v = w := Except.ok.inj (hv.symm.trans hw)
    exact ⟨u, hu, hbare.symm.trans hbare', hnodes.symm.trans hnodes'⟩
  · rw [hrun] at hf
    cases hf

/-- Nodes of two trees with one label, which run between tokens of the same places in two lists. -/
def Corresponds (ts us : List Token) (x y : String × Span) : Prop :=
  x.1 = y.1 ∧ ∃ i j, i ≤ j ∧ x.2.Reaches ts i j ∧ y.2.Reaches us i j

theorem corresponds_of_run {ts us : List Token} {e e' : Token} (he : e.kind = .eof)
    (h : (ts ++ [e]).map Token.lexeme = (us ++ [e']).map Token.lexeme) {file? file'? : Option String}
    {t u : Tree Span} (ht : (tree depth form).run file? (ts ++ [e]) = .ok t)
    (hu : (tree depth form).run file'? (us ++ [e']) = .ok u) :
    t.bare = u.bare ∧ List.Forall₂ (Corresponds (ts ++ [e]) (us ++ [e'])) t.nodes u.nodes := by
  rw [List.map_append, List.map_append] at h
  obtain ⟨hfront, hlast⟩ := List.append_inj' h rfl
  obtain ⟨hk, htext⟩ := Prod.mk.inj (List.singleton_inj.1 hlast)
  have hlength : ts.length = us.length := by simpa using congrArg List.length hfront
  obtain ⟨v, hv, hbare, hnodes⟩ := exists_run_numbered he ht
  obtain ⟨w, hw, hbare', hnodes'⟩ := exists_run_numbered (hk.symm.trans he) hu
  rw [← hfront, ← htext, hv] at hw
  obtain rfl := Except.ok.inj hw
  refine ⟨hbare.trans hbare'.symm, forall₂_of_map_eq hnodes hnodes' fun z hz x y hx hy => ?_⟩
  obtain ⟨i, j, hij, hj, hspan⟩ := exists_of_aligned_numbered (aligned_of_run_numbered hv z hz)
  rw [List.length_map] at hj
  obtain ⟨hlabel, hx⟩ := Prod.mk.inj hx
  obtain ⟨hlabel', hy⟩ := Prod.mk.inj hy
  rw [hspan] at hx hy
  have hj' : j < (ts ++ [e]).length ∧ j < (us ++ [e']).length := by
    rw [List.length_append, List.length_append]
    omega
  exact ⟨hlabel.trans hlabel'.symm, i, j, hij, Span.reaches_of_numbered hij hj'.1 hx,
    Span.reaches_of_numbered hij hj'.2 hy⟩

/-- What is read depends on the kinds and texts of tokens alone. Two lists of tokens that have those in
common and have an end marker at their ends are both read or both refused, in whatever files and at
whatever places the tokens are. The trees are the same but for their places, and nodes that correspond
run from the start of one token to the end of another that have the same places in both lists. Refusals
have the same reason, and are about tokens that have the same place in both lists. -/
theorem run_of_lexemes {ts us : List Token} (h : ts.map Token.lexeme = us.map Token.lexeme)
    (hended : ∃ vs e, ts = vs ++ [e] ∧ e.kind = .eof) (depth : Nat) (form : Form)
    (file? file'? : Option String) :
    (∃ t u, (tree depth form).run file? ts = .ok t ∧ (tree depth form).run file'? us = .ok u ∧
      t.bare = u.bare ∧ List.Forall₂ (Corresponds ts us) t.nodes u.nodes) ∨
    ∃ e f, (tree depth form).run file? ts = .error e ∧ (tree depth form).run file'? us = .error f ∧
      e.Alike (.ofIndex h) f := by
  obtain ⟨t, u, ht, hu, -⟩ | hfailed :=
    (tree_echo depth form).run (Pairing.forall₂_ofIndex h) hended file? file'?
  · obtain ⟨vs, e, rfl, he⟩ := hended
    obtain ⟨ws, e', rfl⟩ : ∃ ws e', us = ws ++ [e'] := by
      refine (List.eq_nil_or_concat' us).resolve_left fun hnil => ?_
      simp [hnil] at h
    exact .inl ⟨t, u, ht, hu, corresponds_of_run he h ht hu⟩
  · exact .inr hfailed

theorem run_of_lexemes_of_moved : ∃ ts us, lex "a" "f (x)" = .ok ts ∧
    us = ts.map (fun t => { t with span := ⟨"b", 7, -3⟩ }) ∧
    ∃ h : ts.map Token.lexeme = us.map Token.lexeme, (∃ vs e, ts = vs ++ [e] ∧ e.kind = .eof) ∧
      ((∃ t u, (tree 3 .expression).run none ts = .ok t ∧ (tree 3 .expression).run (some "c") us = .ok u ∧
        t.bare = u.bare ∧ List.Forall₂ (Corresponds ts us) t.nodes u.nodes) ∨
      ∃ e f, (tree 3 .expression).run none ts = .error e ∧
        (tree 3 .expression).run (some "c") us = .error f ∧ e.Alike (.ofIndex h) f) := by
  obtain ⟨ts, hlex⟩ : ∃ ts, lex "a" "f (x)" = .ok ts := ⟨_, rfl⟩
  have hended := (stream_of_lex hlex).ended
  have h : ts.map Token.lexeme =
      (ts.map fun t => { t with span := ⟨"b", 7, -3⟩ }).map Token.lexeme := by
    rw [List.map_map]
    rfl
  exact ⟨ts, _, hlex, rfl, h, hended, run_of_lexemes h hended 3 .expression none (some "c")⟩

end Parser

end TinyFront
