import TinyFront.Proofs.Printing

/-!
How the lines of a layout are nested. Main statement: the layout of a well-formed tree is built from
words, side by side or on lines of their own, and from pairs of braces; a brace that ends its line has
the lines down to its partner one level deeper.
-/
namespace TinyFront

open Grammar

namespace Mark

/-- A text in which nothing breaks, indents or is a brace. -/
def isPlain (s : String) : Bool :=
  !s.toList.isEmpty && s.toList.all fun c => !" \n\x7b\x7d".toList.contains c

theorem isPlain_of_all {s : String} {f : Char → Bool} (hne : s.toList ≠ [])
    (hf : (" \n\x7b\x7d".toList.all fun c => !f c) = true) (h : s.toList.all f = true) :
    isPlain s = true := by
  simp only [isPlain, Bool.and_eq_true, Bool.not_eq_true', List.isEmpty_eq_false_iff]
  refine ⟨hne, List.all_eq_true.2 fun c hc => ?_⟩
  rw [Bool.not_eq_true', Bool.eq_false_iff]
  intro hmem
  have hfalse := List.all_eq_true.1 hf c (by simpa using hmem)
  rw [List.all_eq_true.1 h c hc] at hfalse
  cases hfalse

theorem isPlain_of_isName {n : String} (hn : isName n = true) : isPlain n = true := by
  unfold isName at hn
  split at hn
  · cases hn
  · rename_i c cs hs
    simp only [Bool.and_eq_true] at hn
    refine isPlain_of_all (f := continuesWord) (by simp [hs]) (by decide) ?_
    rw [hs, List.all_cons, Piece.continuesWord_of_startsWord hn.1.1.1, hn.1.1.2]
    rfl

theorem isPlain_of_isLowerName {n : String} (hn : isLowerName n = true) : isPlain n = true :=
  isPlain_of_isName (isName_of_isLowerName hn)

theorem isPlain_of_isUpperName {n : String} (hn : isUpperName n = true) : isPlain n = true :=
  isPlain_of_isName (isName_of_isUpperName hn)

theorem isPlain_toString (n : Nat) : isPlain (toString n) = true := by
  have h := Bool.and_eq_true_iff.1 (isDecimal_toString n)
  exact isPlain_of_all (f := Char.isDigit) (by simp) (by decide) h.2

theorem isPlain_symbol (o : Operator) : isPlain o.symbol = true := by cases o <;> decide

/-- The marks of a text whose lines are nested `n` deep, but for those between braces that are
nested deeper. -/
inductive Block : Nat → List Mark → Prop
  | word {n : Nat} {s : String} (h : isPlain s = true) : Block n [lexeme s]
  | join {n : Nat} {as bs : List Mark} (ha : Block n as) (hb : Block n bs) : Block n (as ++ bs)
  | gap {n : Nat} {as bs : List Mark} (ha : Block n as) (hb : Block n bs) : Block n (as ++ gap :: bs)
  | row {n : Nat} {as bs : List Mark} (ha : Block n as) (hb : Block n bs) :
      Block n (as ++ line n :: bs)
  | empty {n : Nat} : Block n [lexeme "\x7b", lexeme "\x7d"]
  | inline {n : Nat} {as : List Mark} (h : Block n as) :
      Block n (lexeme "\x7b" :: gap :: as ++ [gap, lexeme "\x7d"])
  | indented {n : Nat} {as : List Mark} (h : Block (n + 1) as) :
      Block n (lexeme "\x7b" :: line (n + 1) :: as ++ [line n, lexeme "\x7d"])

namespace Block

variable {n : Nat} {s : String} {as bs : List Mark} {mss : List (List Mark)}

theorem cons (hs : isPlain s = true) (h : Block n as) : Block n (lexeme s :: as) := join (word hs) h

theorem cons_gap (hs : isPlain s = true) (h : Block n as) : Block n (lexeme s :: Mark.gap :: as) :=
  gap (word hs) h

theorem concat (h : Block n as) (hs : isPlain s = true) : Block n (as ++ [lexeme s]) :=
  join h (word hs)

theorem infixed (ha : Block n as) (hs : isPlain s = true) (hb : Block n bs) :
    Block n (as ++ [Mark.gap, lexeme s, Mark.gap] ++ bs) := by
  simpa using gap ha (cons_gap hs hb)

theorem enclosed (h : Block n as) (needed : Bool) : Block n (Mark.enclosed needed as) := by
  cases needed with
  | false => exact h
  | true => exact concat (cons (by decide) h) (by decide)

theorem separated {ms : List Mark} (hsep : ∀ {as bs}, Block n as → Block n bs → Block n (as ++ ms ++ bs))
    (hne : mss ≠ []) (h : ∀ ms ∈ mss, Block n ms) : Block n (Mark.separated ms mss) := by
  induction mss with
  | nil => contradiction
  | cons as rest ih =>
    obtain ⟨has, hrest⟩ := List.forall_mem_cons.1 h
    cases rest with
    | nil => exact has
    | cons bs rest => exact hsep has (ih (by simp) hrest)

theorem commas (hne : mss ≠ []) (h : ∀ ms ∈ mss, Block n ms) : Block n (Mark.separated comma mss) := by
  refine separated (fun ha hb => ?_) hne h
  simpa [comma] using gap (concat ha (s := ",") (by decide)) hb

theorem gaps (hne : mss ≠ []) (h : ∀ ms ∈ mss, Block n ms) :
    Block n (Mark.separated [Mark.gap] mss) := by
  refine separated (fun ha hb => ?_) hne h
  simpa using gap ha hb

theorem rows (hne : mss ≠ []) (h : ∀ ms ∈ mss, Block n ms) :
    Block n (Mark.separated [lexeme ";", line n] mss) := by
  refine separated (fun ha hb => ?_) hne h
  simpa using row (concat ha (s := ";") (by decide)) hb

theorem gapped (ha : Block n as) (h : ∀ ms ∈ mss, Block n ms) : Block n (as ++ Mark.gapped mss) := by
  induction mss generalizing as with
  | nil => simpa [Mark.gapped] using ha
  | cons ms rest ih =>
    obtain ⟨hms, hrest⟩ := List.forall_mem_cons.1 h
    simpa [Mark.gapped] using ih (gap ha hms) hrest

theorem tuple (hne : mss ≠ []) (h : ∀ ms ∈ mss, Block n ms) : Block n (Mark.tuple mss) := by
  have hopen : isPlain "(" = true := by decide
  have hclose : isPlain ")" = true := by decide
  rcases mss with _ | ⟨ms, _ | ⟨ms', rest⟩⟩
  · contradiction
  · have hms := concat (concat (h ms (by simp)) (s := ",") (by decide)) hclose
    simpa [Mark.tuple] using cons hopen hms
  · simpa [Mark.tuple] using concat (cons hopen (commas hne h)) hclose

end Block
end Mark

open Mark

theorem Leaf.block {k : Kin} {l : Leaf} (h : l.Fits k) (n : Nat) : Block n l.word := by
  cases l with
  | wildcard => exact .word (by decide)
  | number m => exact .word (isPlain_toString m)
  | boolean b => exact .word (by cases b <;> decide)
  | unit => exact .cons (by decide) (.word (by decide))
  | name s =>
    refine .word ?_
    cases k with
    | expression => exact isPlain_of_isName h
    | pattern => exact isPlain_of_isLowerName h
    | type => exact h.elim

theorem Pattern.block {p : Pattern Unit} (h : p.WellFormed) (nested : Bool) (n : Nat) :
    Block n (p.marks nested) := by
  induction h generalizing nested with
  | leaf h => exact Leaf.block h n
  | tuple hne _ ih =>
    rw [marks, marksAll_eq_map]
    exact .tuple (by simpa using hne) (List.forall_mem_map.2 fun p hp => ih p hp false)
  | @constructor m ps s hm _ ih =>
    have hname : Block n [lexeme m] := .word (isPlain_of_isUpperName hm)
    cases ps with
    | nil => exact hname
    | cons p ps =>
      rw [marks, marksAll_eq_map]
      · exact .enclosed (.gapped hname (List.forall_mem_map.2 fun p hp => ih p hp true)) nested
      · simp

theorem Ty.block {t : Ty Unit} (h : t.WellFormed) (context : TypeContext) (n : Nat) :
    Block n (t.marks context) := by
  induction h generalizing context with
  | leaf h => exact Leaf.block h n
  | tuple hne _ ih =>
    rw [marks, marksAll_eq_map]
    exact .tuple (by simpa using hne) (List.forall_mem_map.2 fun t ht => ih t ht .top)
  | var hm => exact .word (isPlain_of_isName hm)
  | app hm hne _ ih =>
    have hargs := Block.gaps (n := n) (by simpa using hne)
      (List.forall_mem_map.2 fun t ht => ih t ht .argument)
    rw [marks, marksAll_eq_map]
    exact .enclosed (.cons_gap (isPlain_of_isUpperName hm) hargs) _
  | arrow _ _ ihd ihc => exact .enclosed (.infixed (ihd .domain) (by decide) (ihc .top)) _
  | @quantified bs t s hb _ ih =>
    have hbinders : ∀ ms ∈ bs.map fun b => [lexeme b], Block n ms :=
      List.forall_mem_map.2 fun b h => .word (isPlain_of_isLowerName (hb b h))
    have hhead := (Block.gapped (.word (s := "forall") (by decide)) hbinders).concat (s := ".") (by decide)
    rw [marks]
    refine .enclosed ?_ _
    simpa using hhead.gap (ih .top)

theorem FieldValue.block {d : FieldValue Unit} {n : Nat} (hn : isLowerName d.name = true)
    (h : Block n (d.value.marks n)) : Block n (d.marks n) :=
  .cons_gap (isPlain_of_isLowerName hn) (.cons_gap (by decide) h)

theorem Statement.block {s : Statement Unit} {n : Nat} (hp : ∀ p ∈ s.pattern?, p.WellFormed)
    (h : Block n (s.value.marks n)) : Block n (s.marks n) := by
  cases s with
  | expr e s => exact h
  | bind p e s =>
    have hhead := Block.cons_gap (s := "let") (by decide) (Pattern.block (hp p rfl) false n)
    simpa [Statement.marks, value] using hhead.infixed (s := "=") (by decide) h

theorem Clause.block {c : Clause Unit} {cs : List (Clause Unit)} {n : Nat}
    (hp : ∀ d ∈ c :: cs, d.pattern.WellFormed)
    (h : ∀ d ∈ c :: cs, Block (n + 1) (d.body.marks (n + 1))) :
    ∃ ms, Clause.marksAll n (c :: cs) = line (n + 1) :: ms ∧ Block (n + 1) ms := by
  have hclause : ∀ d ∈ c :: cs, ∃ ms, d.marks n ++ [lexeme ","] = line (n + 1) :: ms ∧
      Block (n + 1) ms := fun d hd => ⟨_, rfl,
    (Block.infixed (Pattern.block (hp d hd) false _) (by decide) (h d hd)).concat (by decide)⟩
  obtain ⟨ms, hms, hb⟩ := hclause c (List.mem_cons_self ..)
  rw [marksAll_eq_flatMap, List.flatMap_cons, hms, List.cons_append]
  refine ⟨_, rfl, ?_⟩
  clear hp h hms
  induction cs generalizing ms with
  | nil => simpa using hb
  | cons d cs ih =>
    obtain ⟨ms', hms', hb'⟩ := hclause d (by simp)
    rw [List.flatMap_cons, hms', ← List.append_assoc]
    refine ih (fun f hf => hclause f ?_) _ (hb.row hb')
    rcases List.mem_cons.1 hf with rfl | hf
    · exact List.mem_cons_self ..
    · exact List.mem_cons_of_mem _ (List.mem_cons_of_mem _ hf)

namespace Expr

/-- An infix operation is one application within another, so what is known of an application's
argument is kept beside. -/
theorem block_apply {e : Expr Unit} (h : e.WellFormed) :
    (∀ n, Block n (e.marks n)) ∧ ∀ c a s, e = .apply c a s → ∀ n, Block n (a.marks n) := by
  induction h with
  | leaf h => exact ⟨Leaf.block h, by simp⟩
  | tuple hne _ ih =>
    refine ⟨fun n => ?_, by simp⟩
    rw [marks, marksAll_eq_map]
    exact .tuple (by simpa using hne) (List.forall_mem_map.2 fun e he => (ih e he).1 n)
  | @apply c a s _ _ ihc iha =>
    refine ⟨fun n => ?_, fun _ _ _ h => by cases h; exact iha.1⟩
    cases h : (Expr.apply c a s).operation? with
    | none =>
      rw [marks_apply h]
      exact .gap ((ihc.1 n).enclosed _) ((iha.1 n).enclosed _)
    | some p =>
      obtain ⟨o, l, r⟩ := p
      obtain ⟨u, v, s', heq⟩ := eq_of_operation? h
      cases heq
      rw [marks_operation]
      exact .infixed ((ihc.2 _ _ _ rfl n).enclosed _) (isPlain_symbol o) ((iha.1 n).enclosed _)
  | lambda hm _ ih =>
    refine ⟨fun n => ?_, by simp⟩
    have hhead : Block n [lexeme "|", lexeme _, lexeme "|"] :=
      .cons (by decide) (.cons (isPlain_of_isLowerName hm) (.word (by decide)))
    simpa [marks] using hhead.gap (ih.1 n)
  | @caseOf e cs s _ hp _ ihe ih =>
    refine ⟨fun n => ?_, by simp⟩
    have hhead := Block.cons_gap (s := "match") (by decide) (ihe.1 n)
    cases cs with
    | nil => simpa [marks] using hhead.gap .empty
    | cons c cs =>
      obtain ⟨ms, hms, hb⟩ := Clause.block hp fun d hd => (ih d hd).1 (n + 1)
      simpa [marks, hms] using hhead.gap hb.indented
  | ifLet hp _ _ _ _ _ ihe iht ihl =>
    refine ⟨fun n => ?_, by simp⟩
    have hhead := Block.cons_gap (s := "if") (by decide)
      (.cons_gap (s := "let") (by decide) (Pattern.block hp false n))
    have hmatch := hhead.infixed (s := "=") (by decide) (ihe.1 n)
    simpa [marks] using (hmatch.gap (iht.1 n)).infixed (s := "else") (by decide) (ihl.1 n)
  | access hm _ ih =>
    refine ⟨fun n => ?_, by simp⟩
    rw [marks]
    exact .join ((ih.1 n).enclosed _) (.cons (by decide) (.word (isPlain_of_isLowerName hm)))
  | ascribe _ ht ih =>
    refine ⟨fun n => ?_, by simp⟩
    rw [marks]
    exact .infixed ((ih.1 n).enclosed _) (by decide) (Ty.block ht .top n)
  | @record e fs s _ hne hm _ ihe ih =>
    refine ⟨fun n => ?_, by simp⟩
    have hfields := Block.commas (n := n) (by simpa using hne)
      (List.forall_mem_map.2 fun d hd => FieldValue.block (hm d hd) ((ih d hd).1 n))
    rw [marks, FieldValue.marksAll_eq_map]
    simpa using ((ihe.1 n).enclosed _).gap hfields.inline
  | @block ss s hne hp _ ih =>
    refine ⟨fun n => ?_, by simp⟩
    rw [marks, Statement.marksAll_eq_map]
    split
    · exact .empty
    · have hrows := Block.rows (n := n + 1) (by simpa using hne)
        (List.forall_mem_map.2 fun t ht => Statement.block (hp t ht) ((ih t ht).1 (n + 1)))
      simpa using hrows.indented

theorem block_of_wellFormed {e : Expr Unit} (h : e.WellFormed) (n : Nat) : Block n (e.marks n) :=
  (block_apply h).1 n

end Expr

theorem Param.block {p : Param Unit} (h : p.WellFormed) (n : Nat) : Block n p.marks :=
  .enclosed (.infixed (Pattern.block h.pattern false n) (by decide) (Ty.block h.type .top n)) true

theorem Variant.block {v : Variant Unit} (h : v.WellFormed) (n : Nat) : Block n v.marks := by
  have hname : Block n [lexeme "|", Mark.gap, lexeme v.name] :=
    .cons_gap (by decide) (.word (isPlain_of_isUpperName h.name))
  rw [marks, Ty.marksAll_eq_map]
  exact .gapped hname (List.forall_mem_map.2 fun t ht => Ty.block (h.args t ht) .argument n)

theorem Field.block {d : Field Unit} (h : d.WellFormed) (n : Nat) : Block n d.marks :=
  .cons_gap (isPlain_of_isLowerName h.name) (.cons_gap (by decide) (Ty.block h.type .top n))

theorem TypeBody.block {b : TypeBody Unit} (n : Nat) : b.WellFormed → Block n b.marks
  | .sum hne h =>
    .gaps (by simpa using hne) (List.forall_mem_map.2 fun v hv => Variant.block (h v hv) n)
  | @TypeBody.WellFormed.product _ ds h => by
    cases ds with
    | nil => exact .empty
    | cons d ds =>
      have hfields := Block.commas (n := n) (by simp)
        (List.forall_mem_map.2 fun f hf => Field.block (h f hf) n)
      simpa [marks] using hfields.inline

/-- The first line of a declaration is not nested. -/
theorem Decl.block {d : Decl Unit} : d.WellFormed → Block 0 d.marks
  | .fn (n := m) (r := r) hm hp hr _ hb => by
    have hname : Block 0 [lexeme "fn", Mark.gap, lexeme m] :=
      .cons_gap (by decide) (.word (isPlain_of_isLowerName hm))
    have hparams := hname.gapped (List.forall_mem_map.2 fun p h => Param.block (hp p h) 0)
    have hbody := Expr.block_of_wellFormed hb 0
    cases r with
    | none => simpa [marks] using hparams.gap hbody
    | some t =>
      have hresult := hparams.infixed (s := ":") (by decide) (Ty.block (hr t rfl) .top 0)
      simpa [marks] using hresult.gap hbody
  | .type (n := m) hm hp hb => by
    have hname : Block 0 [lexeme "type", Mark.gap, lexeme m] :=
      .cons_gap (by decide) (.word (isPlain_of_isUpperName hm))
    have hparams := hname.gapped
      (List.forall_mem_map.2 fun p h => Block.word (isPlain_of_isLowerName (hp p h)))
    simpa [marks] using hparams.infixed (s := "=") (by decide) (TypeBody.block 0 hb)

end TinyFront
