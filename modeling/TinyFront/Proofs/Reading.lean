import TinyFront.Parser.Reader
import TinyFront.Proofs.Completeness

/-!
Reading a text as a tree. Main statement: a token list is read as a tree only if it is a phrase for
that tree, and every phrase without lambdas is read as its tree unless it nests too deeply.
-/
namespace TinyFront

open Grammar

namespace Parser

variable {α : Type} {file : String} {c c' : Cursor}

theorem run_eq (p : Parser α) (file? : Option String) {ts : List Token} (hts : ts ≠ []) :
    ∃ file c, (∀ f ∈ file?, f = file) ∧ c.remaining = ts ∧ c.lastEnd = c.current.span.start ∧
      p.run file? ts =
        match p file c with
        | .done a _ => .ok a
        | .failed e _ => .error e := by
  obtain ⟨t, ts, rfl⟩ := List.exists_cons_of_ne_nil hts
  obtain ⟨last, hlast⟩ : ∃ last, (t :: ts).getLast? = some last :=
    ⟨_, List.getLast?_eq_some_getLast (by simp)⟩
  refine ⟨file?.getD last.span.file, ⟨t, ts, t.span.start⟩, ?_, rfl, rfl, ?_⟩
  · rintro f rfl
    rfl
  simp only [run, Reader.ofTokens?, Cursor.ofTokens?, hlast, Option.bind_eq_bind, Option.bind_some]
  rfl

/-- A token list that ends with `e` is read under that token's file, if under no other one. -/
theorem run_concat (p : Parser α) (file? : Option String) (ts : List Token) (e : Token) :
    ∃ c : Cursor, c.remaining = ts ++ [e] ∧ p.run file? (ts ++ [e]) =
      match p (file?.getD e.span.file) c with
      | .done a _ => .ok a
      | .failed f _ => .error f := by
  obtain ⟨t, us, hus⟩ := List.exists_cons_of_ne_nil (show ts ++ [e] ≠ [] by simp)
  have hlast : (t :: us).getLast? = some e := by rw [← hus, List.getLast?_concat]
  refine ⟨⟨t, us, t.span.start⟩, hus.symm, ?_⟩
  rw [hus]
  simp only [run, Reader.ofTokens?, Cursor.ofTokens?, hlast, Option.bind_eq_bind, Option.bind_some]
  rfl

theorem exists_done_of_run {p : Parser α} {file? : Option String} {ts : List Token} (hts : ts ≠ [])
    {a : α} (h : p.run file? ts = .ok a) :
    ∃ file c c', (∀ f ∈ file?, f = file) ∧ c.remaining = ts ∧ c.lastEnd = c.current.span.start ∧
      p file c = .done a c' := by
  obtain ⟨file, c, hfile, hc, hlast, heq⟩ := run_eq p file? hts
  rw [heq] at h
  cases hdone : p file c with
  | failed f c' =>
    rw [hdone] at h
    cases h
  | done b c' =>
    rw [hdone] at h
    obtain rfl := Except.ok.inj h
    exact ⟨file, c, c', hfile, hc, hlast, hdone⟩

theorem atEnd_eq_done {category : Category} :
    tree.atEnd category file c = .done () c' ↔ c.current.kind = .eof ∧ c = c' := by
  unfold tree.atEnd
  rw [test_bind]
  by_cases h : c.isAt .eof = true
  · simp [h, Cursor.kind_of_isAt h]
  · have hk : c.current.kind ≠ .eof := fun hk => h (Cursor.isAt_iff.2 hk)
    simp [h, hk, unexpected]

theorem element_ensures {k : Kin} {p : Parser k.Spanned} {category : Category}
    (hp : p.Sound (.element k) k.bare) (wrap : k.Spanned → Tree Span) (hc : TokenStream c.remaining) :
    Ensures (do
      let a ← p
      let _ ← tree.atEnd category
      return wrap a) file c fun xs t =>
        ∃ a, t = wrap a ∧ Derives .anywhere (.element k) xs (k.bare a) := by
  refine (hp file c hc).bind fun xs a d hd hx => ?_
  intro t c' hrun
  obtain ⟨_, d', hend, hrun⟩ := bind_eq_done.1 hrun
  obtain ⟨-, rfl⟩ := atEnd_eq_done.1 hend
  obtain ⟨rfl, rfl⟩ := pure_eq_done.1 hrun
  exact ⟨hd, [], rfl, a, rfl, by rwa [List.append_nil]⟩

theorem tree_ensures (depth : Nat) (form : Form) (hc : TokenStream c.remaining) :
    (tree depth form).Ensures file c fun xs t => t.form = form ∧ Reads .anywhere xs t.bare := by
  cases form with
  | program =>
    unfold tree
    refine (program_sound depth file c hc).bind fun xs p d hd hx => .pure hd ⟨rfl, ?_⟩
    rwa [List.append_nil]
  | expression =>
    refine (element_ensures (k := .expression) (expression_sound depth) .expression hc).mono ?_
    rintro xs t ⟨a, rfl, h⟩
    exact ⟨rfl, h⟩
  | pattern =>
    refine (element_ensures (k := .pattern) (pattern_sound depth) .pattern hc).mono ?_
    rintro xs t ⟨a, rfl, h⟩
    exact ⟨rfl, h⟩
  | type =>
    refine (element_ensures (k := .type) (type_sound depth) .type hc).mono ?_
    rintro xs t ⟨a, rfl, h⟩
    exact ⟨rfl, h⟩

theorem declaration_shortens (depth : Nat) (hc : c.Ended) : (declaration depth).Shortens file c :=
  (declaration_follows_self (.shift 0) depth).shortens hc

theorem tree_stops {depth : Nat} {form : Form} {t : Tree Span} (hc : c.Ended)
    (hrun : tree depth form file c = .done t c') : c'.current.kind = .eof := by
  cases form with
  | program =>
    obtain ⟨p, d, hp, hrun⟩ := bind_eq_done.1 hrun
    obtain ⟨-, rfl⟩ := pure_eq_done.1 hrun
    obtain ⟨ds, d', hds, hrest⟩ := bind_eq_done.1 hp
    obtain ⟨hstop, -, -⟩ := many_stops (fun c hc _ => declaration_shortens depth hc) hc hds
    rw [current_bind] at hrest
    cases hrest
    simpa [Cursor.isAt] using hstop
  | _ =>
    obtain ⟨a, d, -, hrun⟩ := bind_eq_done.1 hrun
    obtain ⟨_, d', hend, hrun⟩ := bind_eq_done.1 hrun
    obtain ⟨hk, rfl⟩ := atEnd_eq_done.1 hend
    obtain ⟨-, rfl⟩ := pure_eq_done.1 hrun
    exact hk

theorem atEnd_accepts {deep : Prop} {category : Category} {e : Lexeme} (he : e.1 = .eof)
    {k : Unit → Parser α} {Q : α → Prop} (h : (k ()).Accepts deep [] [e] Q) :
    (tree.atEnd category >>= k).Accepts deep [] [e] Q := by
  intro file c hc hx
  have hrun : tree.atEnd category file c = .done () c :=
    atEnd_eq_done.2 ⟨by rw [Cursor.current_kind (show c.lexemes = [e] from hx), he], rfl⟩
  simpa only [Overflows, bind_done hrun] using h file c hc hx

theorem tree_accepts {u : Lambdas} (hu : u ≠ .anywhere) {xs : List Lexeme} {t : Tree Unit}
    (h : Reads u xs t) (depth : Nat) {e : Lexeme} (he : e.1 = .eof) :
    (tree depth t.form).Accepts (depth < xs.length) xs [e] (·.bare = t) := by
  have hends : ∀ {s : Sym}, s.goesOn .eof = false → Ends s [e] := fun hs =>
    .cons (by rw [he]; exact hs) (by simp [he])
  cases t with
  | program p =>
    exact .bind_last (complete_of_derives hu h depth _ (hends rfl)) fun a ha =>
      .pure (congrArg Tree.program ha)
  | expression x =>
    exact .bind_last (complete_of_derives hu h depth _ (hends rfl)) fun a ha =>
      atEnd_accepts he (.pure (congrArg Tree.expression ha))
  | pattern p =>
    exact .bind_last (complete_of_derives hu h depth _ (hends rfl)) fun a ha =>
      atEnd_accepts he (.pure (congrArg Tree.pattern ha))
  | type x =>
    exact .bind_last (complete_of_derives hu h depth _ (hends rfl)) fun a ha =>
      atEnd_accepts he (.pure (congrArg Tree.type ha))

end Parser

theorem lexemes_of_stops {c : Cursor} (hc : TokenStream c.remaining) (hk : c.current.kind = .eof) :
    c.remaining = [c.current] := by
  have hrest := hc.last [] c.current c.rest rfl hk
  rw [Cursor.remaining, hrest]

variable {file source : String} {ts : List Token}

/-- A successful run has read all lexemes but the end marker. -/
theorem reads_of_run {depth : Nat} {form : Form} {file? : Option String} {us : List Token} {e : Token}
    {t : Tree Span} (hts : TokenStream (us ++ [e]))
    (hrun : (Parser.tree depth form).run file? (us ++ [e]) = .ok t) :
    t.form = form ∧ Reads .anywhere (us.map Token.lexeme) t.bare := by
  obtain ⟨file, c, c', -, hc, -, hdone⟩ := Parser.exists_done_of_run (by simp) hrun
  rw [← hc] at hts
  obtain ⟨hc', xs, hx, hform, hreads⟩ := Parser.tree_ensures depth form hts _ _ hdone
  have hlast := lexemes_of_stops hc' (Parser.tree_stops hts.ended hdone)
  rw [Cursor.lexemes, Cursor.lexemes, hc, hlast, List.map_append] at hx
  rw [(List.append_inj' hx rfl).1]
  exact ⟨hform, hreads⟩

/-- Reading stopped because the input nests too deeply. -/
def Parser.TooDeep {α : Type} (result : Except Failure α) : Prop :=
  ∃ r, result = .error (.rejected r) ∧ r.cause = .nestingTooDeep

theorem run_of_reads {u : Lambdas} (hu : u ≠ .anywhere) (depth : Nat) (file? : Option String)
    {us : List Token} {e : Token} (he : e.kind = .eof) {t : Tree Unit}
    (h : Reads u (us.map Token.lexeme) t) :
    (∃ a, (Parser.tree depth t.form).run file? (us ++ [e]) = .ok a ∧ a.bare = t) ∨
      depth < us.length ∧ Parser.TooDeep ((Parser.tree depth t.form).run file? (us ++ [e])) := by
  obtain ⟨file, c, -, hc, -, heq⟩ := Parser.run_eq (Parser.tree depth t.form) file?
    (show us ++ [e] ≠ [] by simp)
  have hx : c.lexemes = us.map Token.lexeme ++ [e.lexeme] := by simp [Cursor.lexemes, hc]
  rw [heq]
  obtain ⟨a, c', hrun, -, -, ha⟩ | ⟨hd, r, c', hrun, hr⟩ :=
    Parser.tree_accepts hu h depth (e := e.lexeme) he file c ⟨us, e, hc, he⟩ hx
  · rw [hrun]
    exact .inl ⟨a, rfl, ha⟩
  · rw [hrun]
    exact .inr ⟨by simpa using hd, r, rfl, hr⟩

/-- The grammar determines the tree of a phrase without lambdas. -/
theorem reads_unique {u : Lambdas} (hu : u ≠ .anywhere) {xs : List Lexeme} {t t' : Tree Unit}
    (h : Reads u xs t) (h' : Reads u xs t') (hform : t.form = t'.form) : t = t' := by
  let us : List Token := xs.map fun x => ⟨x.1, x.2, ⟨"", 0, 0⟩⟩
  have hus : us.map Token.lexeme = xs := by simp [us, Function.comp_def, Token.lexeme]
  have hrun : ∀ {t : Tree Unit}, Reads u xs t →
      ∃ a, (Parser.tree us.length t.form).run none (us ++ [Token.endMarker "" 0]) = .ok a ∧ a.bare = t := by
    intro t h
    rw [← hus] at h
    exact (run_of_reads hu us.length none rfl h).resolve_right fun h => Nat.lt_irrefl _ h.1
  obtain ⟨a, ha, rfl⟩ := hrun h
  obtain ⟨b, hb, rfl⟩ := hrun h'
  rw [← hform, ha] at hb
  rw [Except.ok.inj hb]

/-- The parser implements the grammar. What stands before the end marker of the tokens of a text is
a phrase for every tree that is read from it, and a phrase without lambdas is read as its only tree,
unless the input nests more deeply than there is room for. -/
theorem tree_implements_grammar (hlex : lex file source = .ok ts) (depth : Nat) (form : Form)
    (file? : Option String) :
    ∃ us e, ts = us ++ [e] ∧ e.kind = .eof ∧
      (∀ t, (Parser.tree depth form).run file? ts = .ok t →
        t.form = form ∧ Reads .anywhere (us.map Token.lexeme) t.bare) ∧
      (∀ t, t.form = form → Reads .none (us.map Token.lexeme) t →
        ((∃ a, (Parser.tree depth form).run file? ts = .ok a ∧ a.bare = t) ∨
          depth < us.length ∧ Parser.TooDeep ((Parser.tree depth form).run file? ts)) ∧
        ∀ t', t'.form = form → Reads .none (us.map Token.lexeme) t' → t' = t) := by
  have hts := stream_of_lex hlex
  obtain ⟨us, e, rfl, he⟩ := hts.ended
  refine ⟨us, e, rfl, he, fun t hrun => reads_of_run hts hrun, ?_⟩
  rintro t rfl h
  exact ⟨run_of_reads (by simp) depth file? he h, fun t' hform h' => reads_unique (by simp) h' h hform⟩

theorem tree_implements_grammar_of_tuple : ∃ ts, lex "a" "Some (x, 1,)" = .ok ts ∧
    ∃ us e, ts = us ++ [e] ∧ e.kind = .eof ∧
      (∀ t, (Parser.tree 2 .pattern).run none ts = .ok t →
        t.form = .pattern ∧ Reads .anywhere (us.map Token.lexeme) t.bare) ∧
      (∀ t, t.form = .pattern → Reads .none (us.map Token.lexeme) t →
        ((∃ a, (Parser.tree 2 .pattern).run none ts = .ok a ∧ a.bare = t) ∨
          2 < us.length ∧ Parser.TooDeep ((Parser.tree 2 .pattern).run none ts)) ∧
        ∀ t', t'.form = .pattern → Reads .none (us.map Token.lexeme) t' → t' = t) :=
  have hlex : lex "a" "Some (x, 1,)" = .ok _ := rfl
  ⟨_, hlex, tree_implements_grammar hlex 2 .pattern none⟩

end TinyFront
