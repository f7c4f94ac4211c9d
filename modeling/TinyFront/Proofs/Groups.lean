import TinyFront.Proofs.Forests
import TinyFront.Proofs.Printing

/-!
The pairs of parentheses in a layout, with why they stand there. Main statement: the signs of a laid-out
tree are those of its words and pairs.
-/
namespace TinyFront

open Mark

namespace Forest

def single (w : Word) : Forest := word w nil

def enclosed (r : Reason) (f : Forest) : Forest := pair r f nil

@[simp] theorem weight_single (w : Word) : (single w).weight = w.weight := by simp [single, weight]
@[simp] theorem weight_enclosed (r : Reason) (f : Forest) : (enclosed r f).weight = f.weight := by
  simp [enclosed, weight]

@[simp] theorem operators_enclosed (r : Reason) (f : Forest) :
    (enclosed r f).operators = f.operators := by simp [enclosed, operators]

@[simp] theorem places_enclosed (p : Reason → Bool) (n : Nat) (r : Reason) (f : Forest) :
    (enclosed r f).places p n = (if p r then {(n, n + f.weight)} else 0) + f.places p n := by
  simp [enclosed, places]

def row : List Forest → Forest
  | [] => nil
  | f :: fs => f ++ row fs

def separated : List Forest → Forest
  | [] => nil
  | [f] => f
  | f :: fs => f ++ word .separator (separated fs)

theorem row_terminated (g : Forest) (gs : List Forest) :
    row ((g :: gs).map (· ++ single .separator)) = separated (g :: gs) ++ single .separator := by
  induction gs generalizing g with
  | nil => simp [row, separated]
  | cons g' gs ih =>
    rw [List.map_cons, row, ih, append_assoc]
    exact (append_assoc g (word .separator (separated (g' :: gs))) _).symm

/-- Elements in parentheses; a single one keeps a separator behind it. -/
def tuple : List Forest → Forest
  | [f] => enclosed .needed (f ++ single .separator)
  | fs => enclosed .needed (separated fs)

end Forest

def Leaf.nests : Leaf → Forest
  | unit => .unit .nil
  | _ => .single .ender

namespace Pattern

mutual

def nests (nested : Bool) : Pattern Unit → Forest
  | leaf l _ => l.nests
  | tuple ps _ => Forest.tuple (nestsAll false ps)
  | constructor _ [] _ => .single .ender
  | constructor _ ps _ =>
    let f := .word .ender (Forest.row (nestsAll true ps))
    if nested then .enclosed .needed f else f

def nestsAll (nested : Bool) : List (Pattern Unit) → List Forest
  | [] => []
  | p :: ps => p.nests nested :: nestsAll nested ps

end

theorem nestsAll_eq_map (nested : Bool) (ps : List (Pattern Unit)) :
    nestsAll nested ps = ps.map (nests nested) := by
  induction ps with
  | nil => rfl
  | cons p ps ih => simp [nestsAll, ih]

end Pattern

namespace Ty

mutual

def nests (context : TypeContext) : Ty Unit → Forest
  | leaf l _ => l.nests
  | tuple ts _ => Forest.tuple (nestsAll .top ts)
  | var _ _ => .single .ender
  | app _ ts _ =>
    let f := .word .ender (Forest.row (nestsAll .argument ts))
    if context = .argument then .enclosed .needed f else f
  | arrow d c _ =>
    let f := nests .domain d ++ .word .other (nests .top c)
    if context = .top then f else .enclosed .needed f
  | quantified bs t _ =>
    let f := .word .other (Forest.row (bs.map fun _ => .single .ender) ++ .word .link (nests .top t))
    if context = .top then f else .enclosed .needed f

def nestsAll (context : TypeContext) : List (Ty Unit) → List Forest
  | [] => []
  | t :: ts => t.nests context :: nestsAll context ts

end

theorem nestsAll_eq_map (context : TypeContext) (ts : List (Ty Unit)) :
    nestsAll context ts = ts.map (nests context) := by
  induction ts with
  | nil => rfl
  | cons t ts ih => simp [nestsAll, ih]

end Ty

namespace Expr

variable {σ : Type}

def isLambda : Expr σ → Bool
  | lambda _ _ _ => true
  | _ => false

/-- Whether something is selected from, or built on, another expression. -/
def isSelection : Expr σ → Bool
  | access _ _ _ | record _ _ _ => true
  | _ => false

/-- Whether something is selected from, or built on, what is no argument as it stands. -/
def isDetached (e : Expr σ) : Bool := e.isSelection && !e.isArgument

theorem isLambda_bare (e : Expr Span) : e.bare.isLambda = e.isLambda := by cases e <;> rfl

theorem isDetached_bare (e : Expr Span) : e.bare.isDetached = e.isDetached := by
  rw [isDetached, isDetached, bare, isArgument_map]
  cases e <;> rfl

/-- The expression where one that holds together so tightly is asked for. -/
def inContext (e : Expr σ) (s : Strength) (f : Forest) : Forest :=
  if e.strength.weaker s then .enclosed (if e.isLambda then .lambda else .needed) f else f

def asArgument (e : Expr σ) (f : Forest) : Forest :=
  if e.isArgument then f else .enclosed (if e.isSelection then .argument else .needed) f

end Expr

mutual

def Expr.nests : Expr Unit → Forest
  | .leaf l _ => l.nests
  | .tuple es _ => Forest.tuple (Expr.nestsAll es)
  | .apply (.apply (.leaf (.name n) u) l v) r _ =>
    match Operator.ofName? n with
    | some o =>
      l.inContext o.strength l.nests ++ .word .operator (r.inContext o.rightStrength r.nests)
    | none => (Expr.apply (.leaf (.name n) u) l v).nests ++ r.asArgument r.nests
  | .apply c a _ => c.inContext .application c.nests ++ a.asArgument a.nests
  | .lambda _ b _ => .word .other (.word .ender (.word .other b.nests))
  | .caseOf e cs _ =>
    .word .other (e.nests ++ .word .brace (Forest.row (Clause.nestsAll cs) ++ .single .closer))
  | .ifLet p e t l _ =>
    .word .other (.word .other (p.nests false ++ .word .assign (e.nests ++
      (t.nests ++ .word .other l.nests))))
  | .access e _ _ => e.inContext .primary e.nests ++ .word .link (.single .ender)
  | .ascribe e t _ => e.inContext .additive e.nests ++ .word .link (t.nests .top)
  | .record e fs _ =>
    e.inContext .primary e.nests ++
      .word .brace (Forest.separated (FieldValue.nestsAll fs) ++ .single .closer)
  | .block ss _ =>
    if isUnitBlock ss then .word .brace (.single .closer)
    else .word .brace (Forest.separated (Statement.nestsAll ss) ++ .single .closer)

def Expr.nestsAll : List (Expr Unit) → List Forest
  | [] => []
  | e :: es => e.nests :: Expr.nestsAll es

def Clause.nestsAll : List (Clause Unit) → List Forest
  | [] => []
  | ⟨p, e, _⟩ :: cs =>
    (p.nests false ++ .word .other (e.nests ++ .single .separator)) :: Clause.nestsAll cs

def FieldValue.nestsAll : List (FieldValue Unit) → List Forest
  | [] => []
  | ⟨_, e, _⟩ :: fs => .word .ender (.word .assign e.nests) :: FieldValue.nestsAll fs

def Statement.nestsAll : List (Statement Unit) → List Forest
  | [] => []
  | .bind p e _ :: ss =>
    .word .other (p.nests false ++ .word .assign e.nests) :: Statement.nestsAll ss
  | .expr e _ :: ss => e.nests :: Statement.nestsAll ss

end

namespace Expr

/-- The expression where one that holds together so tightly is asked for. -/
def grouped (e : Expr Unit) (s : Strength) : Forest := e.inContext s e.nests

def argued (e : Expr Unit) : Forest := e.asArgument e.nests

theorem grouped_of_not_weaker {e : Expr Unit} {s : Strength} (h : e.strength.weaker s = false) :
    e.grouped s = e.nests := by
  simp [grouped, inContext, h]

theorem grouped_of_weaker {e : Expr Unit} {s : Strength} (h : e.strength.weaker s = true) :
    e.grouped s = .enclosed (if e.isLambda then .lambda else .needed) e.nests := by
  simp [grouped, inContext, h]

theorem grouped_of_isArgument {e : Expr Unit} (h : e.isArgument = true) (s : Strength) :
    e.grouped s = e.nests :=
  grouped_of_not_weaker (by simp [strength_of_isArgument h])

theorem argued_of_isArgument {e : Expr Unit} (h : e.isArgument = true) : e.argued = e.nests := by
  simp [argued, asArgument, h]

theorem argued_of_not_isArgument {e : Expr Unit} (h : e.isArgument = false) :
    e.argued = .enclosed (if e.isSelection then .argument else .needed) e.nests := by
  simp [argued, asArgument, h]

theorem nestsAll_eq_map (es : List (Expr Unit)) : Expr.nestsAll es = es.map Expr.nests := by
  induction es with
  | nil => rfl
  | cons e es ih => simp [Expr.nestsAll, ih]

theorem nests_operation {l r : Expr Unit} {o : Operator} {u v s : Unit} :
    (apply (apply (leaf (.name o.name) u) l v) r s).nests =
      l.grouped o.strength ++ .word .operator (r.grouped o.rightStrength) := by
  rw [Expr.nests, Operator.ofName?_name]
  rfl

theorem nests_apply {c a : Expr Unit} {s : Unit} (h : (apply c a s).operation? = none) :
    (apply c a s).nests = c.grouped .application ++ a.argued := by
  by_cases hc : ∃ n u l v, c = apply (leaf (.name n) u) l v
  · obtain ⟨n, u, l, v, rfl⟩ := hc
    have hn : Operator.ofName? n = none := by simpa [operation?] using h
    rw [Expr.nests, hn]
    rfl
  · rw [Expr.nests]
    · rfl
    · exact fun n u l v heq => hc ⟨n, u, l, v, heq⟩

end Expr

def Clause.nests (c : Clause Unit) : Forest :=
  c.pattern.nests false ++ .word .other (c.body.nests ++ .single .separator)

def Clause.phrase (c : Clause Unit) : Forest := c.pattern.nests false ++ .word .other c.body.nests

theorem Clause.nests_eq (c : Clause Unit) : c.nests = c.phrase ++ .single .separator := by
  rw [phrase, Forest.append_assoc]
  rfl

theorem Clause.nestsAll_eq_map (cs : List (Clause Unit)) :
    Clause.nestsAll cs = cs.map Clause.nests := by
  induction cs with
  | nil => rfl
  | cons c cs ih =>
    obtain ⟨p, e, s⟩ := c
    simp [Clause.nestsAll, Clause.nests, ih]

def FieldValue.nests (d : FieldValue Unit) : Forest := .word .ender (.word .assign d.value.nests)

theorem FieldValue.nestsAll_eq_map (fs : List (FieldValue Unit)) :
    FieldValue.nestsAll fs = fs.map FieldValue.nests := by
  induction fs with
  | nil => rfl
  | cons d fs ih =>
    obtain ⟨n, e, s⟩ := d
    simp [FieldValue.nestsAll, FieldValue.nests, ih]

def Statement.nests : Statement Unit → Forest
  | .bind p e _ => .word .other (p.nests false ++ .word .assign e.nests)
  | .expr e _ => e.nests

theorem Statement.nestsAll_eq_map (ss : List (Statement Unit)) :
    Statement.nestsAll ss = ss.map Statement.nests := by
  induction ss with
  | nil => rfl
  | cons s ss ih => cases s <;> simp [Statement.nestsAll, Statement.nests, ih]

def Param.nests (p : Param Unit) : Forest :=
  .enclosed .needed (p.pattern.nests false ++ .word .link (p.type.nests .top))

def Variant.nests (v : Variant Unit) : Forest :=
  .word .other (.word .ender (Forest.row (v.args.map (Ty.nests .argument))))

def Field.nests (d : Field Unit) : Forest := .word .ender (.word .link (d.type.nests .top))

def TypeBody.nests : TypeBody Unit → Forest
  | .sum vs => Forest.row (vs.map Variant.nests)
  | .product ds => .word .brace (Forest.separated (ds.map Field.nests) ++ .single .closer)

def Decl.nests : Decl Unit → Forest
  | .fn _ ps r b _ =>
    .word .other (.word .ender (Forest.row (ps.map Param.nests) ++
      (r.elim .nil (fun t => .word .link (t.nests .top)) ++ b.nests)))
  | .type _ ps b _ =>
    .word .other (.word .ender (Forest.row (ps.map fun _ => .single .ender) ++ .word .assign b.nests))

def Program.nests (p : Program Unit) : Forest := Forest.row (p.decls.map Decl.nests)

def Tree.nests : Tree Unit → Forest
  | .program p => p.nests
  | .expression e => e.nests
  | .pattern p => p.nests false
  | .type t => t.nests .top

/-! What the signs of a layout are. -/

/-- The sign of a lexeme, told by its text. -/
def Sign.ofText (s : String) : Sign :=
  match TokenKind.ofSymbol? s, TokenKind.ofKeyword? s with
  | some k, _ | none, some k => k.sign
  | none, none => .word .ender

theorem Sign.ofText_eq_ender {p : String → Bool} (hp : ∀ q ∈ TokenKind.symbols, p q.1 = false)
    (hp' : ∀ q ∈ TokenKind.keywords, p q.1 = false) {s : String} (hs : p s = true) :
    ofText s = .word .ender := by
  have hsymbol : TokenKind.ofSymbol? s = none := by
    refine Option.eq_none_iff_forall_ne_some.2 fun k hk => ?_
    simp [hp _ (TokenKind.mem_of_lookup hk)] at hs
  have hkeyword : TokenKind.ofKeyword? s = none := by
    refine Option.eq_none_iff_forall_ne_some.2 fun k hk => ?_
    simp [hp' _ (TokenKind.mem_of_lookup hk)] at hs
  rw [ofText, hsymbol, hkeyword]

theorem Sign.ofText_of_isName {n : String} (hn : isName n = true) : ofText n = .word .ender :=
  ofText_eq_ender (p := isName) (by decide) (by decide) hn

theorem Sign.ofText_of_isDecimal {s : String} (hs : isDecimal s.toList = true) :
    ofText s = .word .ender :=
  ofText_eq_ender (p := fun s => isDecimal s.toList) (by decide) (by decide) hs

/-- A text tells the sign that a kind does. -/
theorem Lexeme.Proper.sign {x : Lexeme} (hx : x.Proper) (hk : x.1 ≠ .eof) :
    x.sign = Sign.ofText x.2 := by
  obtain ⟨k, s⟩ := x
  cases k with
  | eof => exact absurd rfl hk
  | integer => exact (Sign.ofText_of_isDecimal hx).symm
  | boolean => rcases hx with rfl | rfl <;> decide
  | identifier => exact (Sign.ofText_of_isName (isName_of_isLowerName hx)).symm
  | typeIdentifier => exact (Sign.ofText_of_isName (isName_of_isUpperName hx)).symm
  | _ =>
    cases hx
    decide

namespace Mark

def signs (ms : List Mark) : List Sign := (lexemes ms).map Sign.ofText

@[simp] theorem signs_nil : signs [] = [] := rfl
@[simp] theorem signs_gap (ms : List Mark) : signs (gap :: ms) = signs ms := rfl
@[simp] theorem signs_line (depth : Nat) (ms : List Mark) : signs (line depth :: ms) = signs ms := rfl

@[simp] theorem signs_lexeme (s : String) (ms : List Mark) :
    signs (lexeme s :: ms) = Sign.ofText s :: signs ms := rfl

@[simp] theorem signs_append (as bs : List Mark) : signs (as ++ bs) = signs as ++ signs bs := by
  simp [signs]

@[simp] theorem signs_opening : Sign.ofText "(" = .opening := by decide
@[simp] theorem signs_closing : Sign.ofText ")" = .closing := by decide
@[simp] theorem signs_comma : Sign.ofText "," = .word .separator := by decide
@[simp] theorem signs_semicolon : Sign.ofText ";" = .word .separator := by decide
@[simp] theorem signs_underscore : Sign.ofText "_" = .word .ender := by decide
@[simp] theorem signs_bar : Sign.ofText "|" = .word .other := by decide
@[simp] theorem signs_dot : Sign.ofText "." = .word .link := by decide
@[simp] theorem signs_colon : Sign.ofText ":" = .word .link := by decide
@[simp] theorem signs_assign : Sign.ofText "=" = .word .assign := by decide
@[simp] theorem signs_arrow : Sign.ofText "->" = .word .other := by decide
@[simp] theorem signs_fatArrow : Sign.ofText "=>" = .word .other := by decide
@[simp] theorem signs_lbrace : Sign.ofText "\x7b" = .word .brace := by decide
@[simp] theorem signs_rbrace : Sign.ofText "\x7d" = .word .closer := by decide
@[simp] theorem signs_forall : Sign.ofText "forall" = .word .other := by decide
@[simp] theorem signs_match : Sign.ofText "match" = .word .other := by decide
@[simp] theorem signs_if : Sign.ofText "if" = .word .other := by decide
@[simp] theorem signs_let : Sign.ofText "let" = .word .other := by decide
@[simp] theorem signs_else : Sign.ofText "else" = .word .other := by decide
@[simp] theorem signs_fn : Sign.ofText "fn" = .word .other := by decide
@[simp] theorem signs_type : Sign.ofText "type" = .word .other := by decide

@[simp] theorem signs_operator (o : Operator) : Sign.ofText o.symbol = .word .operator := by
  cases o <;> decide

end Mark

theorem Spelled.signs {ms : List Mark} {xs : List Lexeme} (h : Spelled ms xs) :
    Mark.signs ms = xs.map Lexeme.sign := by
  induction h with
  | nil => rfl
  | gap _ ih => exact ih
  | line depth _ ih => exact ih
  | lexeme hx hk _ _ ih => rw [Mark.signs_lexeme, List.map_cons, ih, hx.sign hk]

@[simp] theorem Forest.signs_single (w : Word) : (Forest.single w).signs = [.word w] := rfl

@[simp] theorem Forest.signs_enclosed (r : Reason) (f : Forest) :
    (Forest.enclosed r f).signs = .opening :: (f.signs ++ [.closing]) := rfl

section

variable {α : Type} {marks : α → List Mark} {k : α → Forest} {as : List α} {m : List Mark}

theorem signs_separated (hm : Mark.signs m = [.word .separator])
    (h : ∀ a ∈ as, Mark.signs (marks a) = (k a).signs) :
    Mark.signs (Mark.separated m (as.map marks)) = (Forest.separated (as.map k)).signs := by
  induction as with
  | nil => rfl
  | cons a as ih =>
    obtain ⟨ha, has⟩ := List.forall_mem_cons.1 h
    cases as with
    | nil => simpa [Mark.separated, Forest.separated] using ha
    | cons b bs =>
      have ih := ih has
      simp only [List.map_cons] at ih
      simp [Mark.separated, Forest.separated, Forest.signs, ha, hm, ih]

theorem signs_spaced (hm : Mark.signs m = [])
    (h : ∀ a ∈ as, Mark.signs (marks a) = (k a).signs) :
    Mark.signs (Mark.separated m (as.map marks)) = (Forest.row (as.map k)).signs := by
  induction as with
  | nil => rfl
  | cons a as ih =>
    obtain ⟨ha, has⟩ := List.forall_mem_cons.1 h
    cases as with
    | nil => simpa [Mark.separated, Forest.row] using ha
    | cons b bs =>
      show Mark.signs (marks a ++ m ++ Mark.separated m ((b :: bs).map marks)) =
        (k a ++ Forest.row ((b :: bs).map k)).signs
      rw [Mark.signs_append, Mark.signs_append, ha, hm, ih has, List.append_nil,
        Forest.signs_append]

theorem signs_gapped (h : ∀ a ∈ as, Mark.signs (marks a) = (k a).signs) :
    Mark.signs (Mark.gapped (as.map marks)) = (Forest.row (as.map k)).signs := by
  induction as with
  | nil => rfl
  | cons a as ih =>
    obtain ⟨ha, has⟩ := List.forall_mem_cons.1 h
    simp [Mark.gapped, Forest.row, ha, ih has]

theorem signs_tuple (h : ∀ a ∈ as, Mark.signs (marks a) = (k a).signs) :
    Mark.signs (Mark.tuple (as.map marks)) = (Forest.tuple (as.map k)).signs := by
  have hall := signs_separated (m := comma) rfl h
  rcases as with _ | ⟨a, _ | ⟨b, as⟩⟩
  · rfl
  · simp [Mark.tuple, Forest.tuple, h a]
  · simp only [List.map_cons] at hall
    simp [Mark.tuple, Forest.tuple, hall]

end

theorem signs_names {ns : List String} (h : ∀ n ∈ ns, isLowerName n = true) :
    Mark.signs (Mark.gapped (ns.map fun n => [lexeme n])) =
      (Forest.row (ns.map fun _ => .single .ender)).signs :=
  signs_gapped fun n hn => by simp [Sign.ofText_of_isName (isName_of_isLowerName (h n hn))]

theorem Leaf.signs_word {k : Grammar.Kin} {l : Leaf} (hl : l.Fits k) :
    Mark.signs l.word = l.nests.signs := by
  cases l with
  | wildcard | unit => simp [word, nests, Forest.signs]
  | boolean b => cases b <;> decide
  | number n => exact congrArg (· :: []) (Sign.ofText_of_isDecimal (isDecimal_toString n))
  | name n =>
    have hn : isName n = true := by
      cases k with
      | expression => exact hl
      | pattern => exact isName_of_isLowerName hl
      | type => exact hl.elim
    simp [word, nests, Sign.ofText_of_isName hn]

theorem Pattern.signs_marks {p : Pattern Unit} (h : p.WellFormed) (nested : Bool) :
    Mark.signs (p.marks nested) = (p.nests nested).signs := by
  induction h generalizing nested with
  | leaf h => exact Leaf.signs_word h
  | tuple _ _ ih =>
    rw [marks, nests, marksAll_eq_map, nestsAll_eq_map]
    exact signs_tuple fun p hp => ih p hp false
  | @constructor n ps s hn _ ih =>
    have hname := Sign.ofText_of_isName (isName_of_isUpperName hn)
    cases ps with
    | nil => simp [marks, nests, hname]
    | cons p ps =>
      have hargs := signs_gapped (k := nests true) fun p hp => ih p hp true
      rw [marks, nests, marksAll_eq_map, nestsAll_eq_map]
      · cases nested <;>
          simp only [Mark.enclosed, Forest.signs, hname, hargs, Mark.signs_lexeme, Mark.signs_append,
            Forest.signs_enclosed, Mark.signs_opening, Mark.signs_closing, Mark.signs_nil, if_true,
            Bool.false_eq_true, if_false, List.cons_append]
      all_goals simp

theorem Ty.signs_marks {t : Ty Unit} (h : t.WellFormed) (context : TypeContext) :
    Mark.signs (t.marks context) = (t.nests context).signs := by
  induction h generalizing context with
  | leaf h => exact Leaf.signs_word h
  | tuple _ _ ih =>
    rw [marks, nests, marksAll_eq_map, nestsAll_eq_map]
    exact signs_tuple fun t ht => ih t ht .top
  | var hn => simp [marks, nests, Sign.ofText_of_isName hn]
  | app hn _ _ ih =>
    have hargs := signs_spaced (m := [gap]) rfl fun t ht => ih t ht .argument
    rw [marks, nests, marksAll_eq_map, nestsAll_eq_map]
    cases context <;>
      simp [Mark.enclosed, Forest.signs, Sign.ofText_of_isName (isName_of_isUpperName hn), hargs]
  | arrow _ _ ihd ihc =>
    rw [marks, nests]
    cases context <;> simp [Mark.enclosed, Forest.signs, ihd, ihc]
  | quantified hb _ ih =>
    rw [marks, nests]
    cases context <;> simp [Mark.enclosed, Forest.signs, signs_names hb, ih]

namespace Expr

variable {e : Expr Unit} {depth : Nat}

theorem signs_grouped (h : Mark.signs (e.marks depth) = e.nests.signs) (s : Strength) :
    Mark.signs (Mark.enclosed (e.strength.weaker s) (e.marks depth)) = (e.grouped s).signs := by
  rw [grouped, inContext]
  cases e.strength.weaker s <;> simp [Mark.enclosed, h]

theorem signs_argued (h : Mark.signs (e.marks depth) = e.nests.signs) :
    Mark.signs (Mark.enclosed (!e.isArgument) (e.marks depth)) = e.argued.signs := by
  rw [argued, asArgument]
  cases e.isArgument <;> simp [Mark.enclosed, h]

theorem signs_clauses {cs : List (Clause Unit)} (hp : ∀ c ∈ cs, c.pattern.WellFormed)
    (h : ∀ c ∈ cs, ∀ depth, Mark.signs (c.body.marks depth) = c.body.nests.signs) :
    Mark.signs (Clause.marksAll depth cs) = (Forest.row (cs.map Clause.nests)).signs := by
  rw [Clause.marksAll_eq_flatMap]
  induction cs with
  | nil => rfl
  | cons c cs ih =>
    simp only [List.forall_mem_cons] at hp h
    have hclause : Mark.signs (c.marks depth ++ [lexeme ","]) = c.nests.signs := by
      simp [Clause.marks, Clause.nests, Forest.signs, Pattern.signs_marks hp.1, h.1]
    rw [List.flatMap_cons, Mark.signs_append, hclause, ih hp.2 h.2, List.map_cons, Forest.row,
      Forest.signs_append]

theorem isUnitBlock_eq {ss : List (Statement Unit)} (h : isUnitBlock ss = true) :
    ss = [.expr (.leaf .unit ()) ()] := by
  unfold isUnitBlock at h
  split at h
  · rfl
  · cases h

theorem signs_marks_apply (h : e.WellFormed) :
    (∀ depth, Mark.signs (e.marks depth) = e.nests.signs) ∧
      ∀ c a s, e = .apply c a s → ∀ depth, Mark.signs (a.marks depth) = a.nests.signs := by
  induction h with
  | leaf h => exact ⟨fun _ => Leaf.signs_word h, by simp⟩
  | tuple _ _ ih =>
    refine ⟨fun depth => ?_, by simp⟩
    rw [marks, nests, marksAll_eq_map, nestsAll_eq_map]
    exact signs_tuple fun e he => (ih e he).1 depth
  | @apply c a s _ _ ihc iha =>
    refine ⟨fun depth => ?_, fun _ _ _ h => by cases h; exact iha.1⟩
    cases h : (Expr.apply c a s).operation? with
    | none =>
      rw [marks_apply h, nests_apply h, Mark.signs_append, Mark.signs_gap, Forest.signs_append,
        signs_grouped (ihc.1 depth), signs_argued (iha.1 depth)]
    | some p =>
      obtain ⟨o, l, r⟩ := p
      obtain ⟨u, v, s', heq⟩ := eq_of_operation? h
      cases heq
      rw [marks_operation, nests_operation]
      simp [Forest.signs, signs_grouped (ihc.2 _ _ _ rfl depth), signs_grouped (iha.1 depth)]
  | lambda hn _ ih =>
    refine ⟨fun depth => ?_, by simp⟩
    simp [marks, nests, Forest.signs, Sign.ofText_of_isName (isName_of_isLowerName hn), ih.1 depth]
  | @caseOf e cs s _ hp _ ihe ih =>
    refine ⟨fun depth => ?_, by simp⟩
    have hclauses : Mark.signs (Clause.marksAll depth cs) = (Forest.row (cs.map Clause.nests)).signs :=
      signs_clauses hp fun c hc => (ih c hc).1
    cases cs with
    | nil => simp [marks, nests, Clause.nestsAll, Forest.row, Forest.signs, ihe.1 depth]
    | cons c cs =>
      simp only [marks, nests, Clause.nestsAll_eq_map, Mark.signs_append, Mark.signs_lexeme,
        Mark.signs_gap, hclauses]
      simp [Forest.signs, ihe.1 depth]
  | ifLet hp _ _ _ _ _ ihe iht ihl =>
    refine ⟨fun depth => ?_, by simp⟩
    simp [marks, nests, Forest.signs, Pattern.signs_marks hp, ihe.1 depth, iht.1 depth, ihl.1 depth]
  | access hn _ ih =>
    refine ⟨fun depth => ?_, by simp⟩
    rw [marks, nests, Mark.signs_append, signs_grouped (ih.1 depth)]
    simp [grouped, Forest.signs, Sign.ofText_of_isName (isName_of_isLowerName hn)]
  | ascribe _ ht ih =>
    refine ⟨fun depth => ?_, by simp⟩
    simp only [marks, nests, Mark.signs_append, signs_grouped (ih.1 depth), Ty.signs_marks ht]
    simp [grouped, Forest.signs]
  | @record e fs s _ _ hn _ ihe ih =>
    refine ⟨fun depth => ?_, by simp⟩
    have hfield : ∀ d ∈ fs, Mark.signs (d.marks depth) = d.nests.signs := fun d hd => by
      simp [FieldValue.marks, FieldValue.nests, Forest.signs,
        Sign.ofText_of_isName (isName_of_isLowerName (hn d hd)), (ih d hd).1 depth]
    have hfields := signs_separated (m := comma) rfl hfield
    simp only [marks, nests, Mark.signs_append, signs_grouped (ihe.1 depth),
      FieldValue.marksAll_eq_map, FieldValue.nestsAll_eq_map, hfields]
    simp [grouped, Forest.signs]
  | @block ss s _ hp _ ih =>
    refine ⟨fun depth => ?_, by simp⟩
    have hstatement : ∀ t ∈ ss, Mark.signs (t.marks (depth + 1)) = t.nests.signs := fun t ht => by
      have hvalue := (ih t ht).1 (depth + 1)
      cases t with
      | expr e s => exact hvalue
      | bind p e s =>
        simp only [Statement.value] at hvalue
        simp [Statement.marks, Statement.nests, Forest.signs, Pattern.signs_marks (hp _ ht p rfl),
          hvalue]
    have hstatements := signs_separated (m := [lexeme ";", line (depth + 1)]) rfl hstatement
    rw [marks, nests, Statement.marksAll_eq_map, Statement.nestsAll_eq_map]
    split
    · rfl
    · simp [Forest.signs, hstatements]

theorem signs_marks (h : e.WellFormed) (depth : Nat) :
    Mark.signs (e.marks depth) = e.nests.signs := (signs_marks_apply h).1 depth

end Expr

theorem Param.signs_marks {p : Param Unit} (h : p.WellFormed) :
    Mark.signs p.marks = p.nests.signs := by
  simp [marks, nests, typedMarks, Mark.enclosed, Forest.signs, Pattern.signs_marks h.pattern,
    Ty.signs_marks h.type]

theorem Variant.signs_marks {v : Variant Unit} (h : v.WellFormed) :
    Mark.signs v.marks = v.nests.signs := by
  have hargs := signs_gapped fun t ht => Ty.signs_marks (h.args t ht) .argument
  simp [marks, nests, Ty.marksAll_eq_map, Forest.signs,
    Sign.ofText_of_isName (isName_of_isUpperName h.name), hargs]

theorem Field.signs_marks {d : Field Unit} (h : d.WellFormed) :
    Mark.signs d.marks = d.nests.signs := by
  simp [marks, nests, Forest.signs, Sign.ofText_of_isName (isName_of_isLowerName h.name),
    Ty.signs_marks h.type]

theorem TypeBody.signs_marks {b : TypeBody Unit} : b.WellFormed → Mark.signs b.marks = b.nests.signs
  | .sum _ h => signs_spaced rfl fun v hv => Variant.signs_marks (h v hv)
  | @TypeBody.WellFormed.product _ ds h => by
    have hfields := signs_separated (m := comma) rfl fun d hd => Field.signs_marks (h d hd)
    cases ds with
    | nil => simp [marks, nests, Forest.separated, Forest.signs]
    | cons d ds =>
      simp only [List.map_cons] at hfields
      simp [marks, nests, Forest.signs, hfields]

theorem Decl.signs_marks {d : Decl Unit} : d.WellFormed → Mark.signs d.marks = d.nests.signs
  | .fn (r := r) hn hp hr _ hb => by
    have hparams := signs_gapped fun p h => Param.signs_marks (hp p h)
    cases r with
    | none =>
      simp [marks, nests, Forest.signs, Sign.ofText_of_isName (isName_of_isLowerName hn), hparams,
        Expr.signs_marks hb]
    | some t =>
      simp [marks, nests, Forest.signs, Sign.ofText_of_isName (isName_of_isLowerName hn), hparams,
        Ty.signs_marks (hr t rfl), Expr.signs_marks hb]
  | .type hn hp hb => by
    simp [marks, nests, Forest.signs, Sign.ofText_of_isName (isName_of_isUpperName hn), signs_names hp,
      TypeBody.signs_marks hb]

/-- The signs of a laid-out tree are those of its words and pairs. -/
theorem Tree.signs_marks {t : Tree Unit} (h : t.WellFormed) : Mark.signs t.marks = t.nests.signs := by
  cases t with
  | expression e => exact Expr.signs_marks h 0
  | pattern p => exact Pattern.signs_marks h false
  | type t => exact Ty.signs_marks h .top
  | program p =>
    obtain ⟨ds, s⟩ := p
    have hdecls := signs_spaced (m := [line 0, line 0]) rfl fun d hd => Decl.signs_marks (h d hd)
    cases ds with
    | nil => rfl
    | cons d ds =>
      simp only [List.map_cons] at hdecls
      simp [marks, nests, Program.marks, Program.nests, hdecls]

end TinyFront
