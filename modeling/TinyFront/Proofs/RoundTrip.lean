import TinyFront.Proofs.Printing
import TinyFront.Proofs.Reading

/-!
Trees as texts and back. Main statements: the layout of a tree that was read is read as the same
tree, and the trees that can be read are exactly the well-formed ones.
-/
namespace TinyFront

open Grammar Mark

/-- Reading stopped because the text nests too deeply. -/
def SourceFailure.IsTooDeep (e : SourceFailure) : Prop :=
  ∃ r, e = .unreadable (.rejected r) ∧ r.cause = .nestingTooDeep

/-- The text is read as a tree with the property, unless there is less room for nesting than the
text could need; then it may be refused as nesting too deeply, but for no other reason. -/
def ReadAs (form : Form) (file source : String) (P : Tree Span → Prop) : Prop :=
  ∃ room, ∀ depth, (∃ u, (Parser.tree depth form).runSource file source = .ok u ∧ P u) ∨
    depth < room ∧ ∃ e, (Parser.tree depth form).runSource file source = .error e ∧ e.IsTooDeep

theorem ReadAs.mono {form : Form} {file source : String} {P Q : Tree Span → Prop}
    (h : ReadAs form file source P) (hPQ : ∀ u, P u → Q u) : ReadAs form file source Q := by
  obtain ⟨room, h⟩ := h
  exact ⟨room, fun depth => (h depth).imp_left fun ⟨u, hu, hp⟩ => ⟨u, hu, hPQ u hp⟩⟩

theorem Parser.runSource_eq_ok {α : Type} {p : Parser α} {file source : String} {a : α} :
    p.runSource file source = .ok a ↔
      ∃ ts, lex file source = .ok ts ∧ p.run (some file) ts = .ok a := by
  unfold runSource
  cases lex file source with
  | error reports => simp
  | ok ts => cases h : p.run (some file) ts <;> simp [h]

theorem Parser.runSource_eq_run {file source : String} {ts : List Token}
    (hlex : lex file source = .ok ts) {α : Type} (p : Parser α) :
    p.runSource file source = (p.run (some file) ts).mapError .unreadable := by
  simp only [runSource, hlex]
  cases p.run (some file) ts <;> rfl

theorem exists_of_isOk {ε α : Type} {x : Except ε α} (h : x.isOk = true) : ∃ a, x = .ok a := by
  cases x with
  | error e => cases h
  | ok a => exact ⟨a, rfl⟩

theorem wellFormed_of_run {depth : Nat} {form : Form} {file? : Option String} {ts : List Token}
    {t : Tree Span} (hts : TokenStream ts) (hrun : (Parser.tree depth form).run file? ts = .ok t) :
    t.form = form ∧ t.bare.WellFormed := by
  obtain ⟨us, e, rfl, -⟩ := hts.ended
  obtain ⟨hform, hreads⟩ := reads_of_run hts hrun
  refine ⟨hform, Tree.wellFormed_of_reads hreads ?_⟩
  exact List.forall_mem_map.2 fun u hu => hts.proper u (List.mem_append_left _ hu)

theorem wellFormed_of_runSource {depth : Nat} {form : Form} {file source : String} {t : Tree Span}
    (h : (Parser.tree depth form).runSource file source = .ok t) :
    t.form = form ∧ t.bare.WellFormed := by
  obtain ⟨ts, hlex, hrun⟩ := Parser.runSource_eq_ok.1 h
  exact wellFormed_of_run (stream_of_lex hlex) hrun

/-- A text that spells a phrase is read as the tree of the phrase, if there is as much room for nesting
as it has lexemes. -/
theorem runSource_text {ms : List Mark} {xs : List Lexeme} {t : Tree Unit} (hs : Spelled ms xs)
    (h : Reads .whole xs t) (file : String) (indent depth : Nat) :
    (∃ u, (Parser.tree depth t.form).runSource file (Mark.text indent ms) = .ok u ∧ u.bare = t) ∨
      depth < xs.length ∧
        ∃ e, (Parser.tree depth t.form).runSource file (Mark.text indent ms) = .error e ∧ e.IsTooDeep := by
  obtain ⟨ts, hlex, hx⟩ := lex_text hs file indent
  obtain ⟨us, es, rfl, rfl, he⟩ := List.map_eq_append_iff.1 hx
  obtain ⟨e, es, rfl, hk, hes⟩ := List.map_eq_cons_iff.1 he
  obtain rfl := List.map_eq_nil_iff.1 hes
  obtain ⟨a, hrun, ha⟩ | ⟨hd, r, hrun, hr⟩ :=
    run_of_reads (by simp) depth (some file) (congrArg Prod.fst hk) h
  · exact .inl ⟨a, by rw [Parser.runSource_eq_run hlex, hrun]; rfl, ha⟩
  · exact .inr ⟨by simpa using hd, _, by rw [Parser.runSource_eq_run hlex, hrun]; rfl, r, rfl, hr⟩

theorem readAs_text {ms : List Mark} {xs : List Lexeme} {t : Tree Unit} (hs : Spelled ms xs)
    (h : Reads .whole xs t) (file : String) (indent : Nat) :
    ReadAs t.form file (Mark.text indent ms) (·.bare = t) := ⟨xs.length, runSource_text hs h file indent⟩

theorem readAs_format {t : Tree Unit} (h : t.WellFormed) (file : String) (indent : Nat) :
    ReadAs t.form file (t.format indent) (·.bare = t) := by
  obtain ⟨xs, hs, hreads⟩ := Tree.spelled_of_wellFormed h
  exact readAs_text hs hreads file indent

/-- Layouts tell trees of one form apart. -/
theorem Tree.eq_of_format_eq {t u : Tree Unit} (ht : t.WellFormed) (hu : u.WellFormed)
    (hform : t.form = u.form) (indent : Nat) (h : t.format indent = u.format indent) : t = u := by
  obtain ⟨room, htree⟩ := readAs_format ht "" indent
  obtain ⟨room', htree'⟩ := readAs_format hu "" indent
  obtain ⟨a, ha, rfl⟩ := (htree (room + room')).resolve_right fun h => by omega
  obtain ⟨b, hb, rfl⟩ := (htree' (room + room')).resolve_right fun h => by omega
  rw [← hform, ← h, ha] at hb
  rw [Except.ok.inj hb]

theorem Tree.form_bare {σ : Type} (t : Tree σ) : t.bare.form = t.form := t.map_form _

theorem Tree.format_bare {σ : Type} (indent : Nat) (t : Tree σ) :
    t.bare.format indent = t.format indent := t.format_map _ indent

theorem Tree.format_eq_of_bare {σ τ : Type} {t : Tree σ} {u : Tree τ} (h : t.bare = u.bare)
    (indent : Nat) : t.format indent = u.format indent := by
  rw [← t.format_bare, h, u.format_bare]

/-- Layout keeps the meaning of a text. Whatever tree a text is read as, its layout is read as the
same tree but for places, which is laid out as the same text again. -/
theorem readAs_format_of_runSource {depth : Nat} {form : Form} {file source : String} {t : Tree Span}
    (h : (Parser.tree depth form).runSource file source = .ok t) (file' : String) (indent : Nat) :
    ReadAs form file' (t.format indent) fun u =>
      u.bare = t.bare ∧ u.format indent = t.format indent := by
  obtain ⟨rfl, hwf⟩ := wellFormed_of_runSource h
  have hread := readAs_format hwf file' indent
  rw [t.form_bare, t.format_bare] at hread
  exact hread.mono fun u hu => ⟨hu, Tree.format_eq_of_bare hu indent⟩

theorem readAs_format_of_product : ∃ t,
    (Parser.tree 3 .expression).runSource "a" "(f(x))  *y" = .ok t ∧
      ReadAs .expression "b" (t.format 2) fun u => u.bare = t.bare ∧ u.format 2 = t.format 2 := by
  obtain ⟨t, h⟩ : ∃ t, (Parser.tree 3 .expression).runSource "a" "(f(x))  *y" = .ok t :=
    exists_of_isOk (by decide +kernel)
  exact ⟨t, h, readAs_format_of_runSource h "b" 2⟩

/-- The trees that can be read are the well-formed ones. -/
theorem runSource_trees_eq_wellFormed (file : String) :
    (∀ depth form source t, (Parser.tree depth form).runSource file source = .ok t →
      t.form = form ∧ t.bare.WellFormed) ∧
    ∀ t : Tree Unit, t.WellFormed → ∃ source, ReadAs t.form file source (·.bare = t) :=
  ⟨fun _ _ _ _ h => wellFormed_of_runSource h, fun t h => ⟨t.format standardIndent,
    readAs_format h file standardIndent⟩⟩

theorem wellFormed_of_lambda : ∃ t,
    (Parser.tree 2 .expression).runSource "a" "|x| x.f" = .ok t ∧ t.bare.WellFormed ∧
      ∃ source, ReadAs t.bare.form "a" source (·.bare = t.bare) := by
  obtain ⟨hread, hform⟩ := runSource_trees_eq_wellFormed "a"
  obtain ⟨t, hrun⟩ : ∃ t, (Parser.tree 2 .expression).runSource "a" "|x| x.f" = .ok t :=
    exists_of_isOk (by decide +kernel)
  have h := (hread 2 .expression _ t hrun).2
  exact ⟨t, hrun, h, hform _ h⟩

end TinyFront
