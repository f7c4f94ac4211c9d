import Mathlib.Data.List.Forall2
import TinyFront.Proofs.Placeless
import TinyFront.Proofs.Spelling
import TinyFront.Proofs.WellFormed

/-!
The layout of a well-formed tree. Main statement: its marks spell a phrase that stands for the tree,
in which every lambda is a whole expression.
-/
namespace TinyFront

open Grammar Mark

namespace Spelled

variable {ms as bs : List Mark} {xs ys : List Lexeme}

theorem append (h : Spelled as xs) (h' : Spelled bs ys) (hb : ∀ m ∈ bs.head?, m.isLoose = true) :
    Spelled (as ++ bs) (xs ++ ys) := by
  induction h with
  | nil => exact h'
  | gap h ih => exact .gap ih
  | line depth h ih => exact .line depth ih
  | @lexeme x ms xs hx hk hnext h ih =>
    refine .lexeme hx hk (hnext.imp_right fun hms => ?_) ih
    cases ms with
    | nil => exact hb
    | cons m ms => exact hms

theorem symbol {k : TokenKind} {s : String} (hs : k.spelling? = some s)
    (hnext : (Mark.lexeme s).isLoose = true ∨ ∀ m ∈ ms.head?, m.isLoose = true) (h : Spelled ms xs) :
    Spelled (.lexeme s :: ms) (k.lexeme :: xs) := by
  obtain rfl : k.lexeme.2 = s := by simp [TokenKind.lexeme, hs]
  refine .lexeme ?_ ?_ hnext h
  · cases k <;> first | exact hs | cases hs
  · rintro he
    obtain rfl : k = .eof := he
    cases hs

theorem lowerName {n : String} (hn : isLowerName n = true)
    (hnext : ∀ m ∈ ms.head?, m.isLoose = true) (h : Spelled ms xs) :
    Spelled (.lexeme n :: ms) ((.identifier, n) :: xs) :=
  .lexeme (x := (.identifier, n)) hn (by simp) (.inr hnext) h

theorem upperName {n : String} (hn : isUpperName n = true)
    (hnext : ∀ m ∈ ms.head?, m.isLoose = true) (h : Spelled ms xs) :
    Spelled (.lexeme n :: ms) ((.typeIdentifier, n) :: xs) :=
  .lexeme (x := (.typeIdentifier, n)) hn (by simp) (.inr hnext) h

theorem singleton {x : Lexeme} (hx : x.Proper) (hk : x.1 ≠ .eof) : Spelled [.lexeme x.2] [x] :=
  .lexeme hx hk (.inr (by simp)) .nil

theorem close {k : TokenKind} {s : String} (hs : k.spelling? = some s)
    (hloose : (Mark.lexeme s).isLoose = true) (h : Spelled ms xs) :
    Spelled (ms ++ [.lexeme s]) (xs ++ [k.lexeme]) :=
  h.append (symbol hs (.inl hloose) .nil) (by simpa using hloose)

theorem enclosed (h : Spelled ms xs) :
    Spelled (Mark.enclosed true ms) (TokenKind.lparen.lexeme :: xs ++ [TokenKind.rparen.lexeme]) :=
  (symbol rfl (.inl (by decide)) h).close rfl (by decide)

end Spelled

/-- The marks spell a phrase that stands for the tree. -/
def Phrased (s : Sym) (ms : List Mark) (t : s.Node) : Prop :=
  ∃ xs, Spelled ms xs ∧ Derives .whole s xs t

theorem Phrased.all {s : Sym} {marks : s.Node → List Mark} {as : List s.Node}
    (h : ∀ a ∈ as, Phrased s (marks a) a) : ∃ parts : List (List Lexeme × s.Node),
      parts.map (·.2) = as ∧ List.Forall₂ (fun a p => Spelled (marks a) p.1) as parts ∧
      ∀ p ∈ parts, Derives .whole s p.1 p.2 := by
  induction as with
  | nil => exact ⟨[], rfl, .nil, by simp⟩
  | cons a as ih =>
    obtain ⟨xs, hs, hd⟩ := h a (List.mem_cons_self ..)
    obtain ⟨parts, hnodes, hspelled, hparts⟩ := ih fun b hb => h b (List.mem_cons_of_mem _ hb)
    exact ⟨(xs, a) :: parts, by simp [hnodes], .cons hs hspelled,
      List.forall_mem_cons.2 ⟨hd, hparts⟩⟩

namespace Spelled

variable {α β : Type} {marks : α → List Mark} {as : List α} {parts : List (List Lexeme × β)}

theorem separated {k : TokenKind} {s : String} {m : Mark} (hs : k.spelling? = some s)
    (hloose : (Mark.lexeme s).isLoose = true) (hm : ∀ {ms xs}, Spelled ms xs → Spelled (m :: ms) xs)
    (h : List.Forall₂ (fun a p => Spelled (marks a) p.1) as parts) :
    Spelled (Mark.separated [.lexeme s, m] (as.map marks))
      (listed k.lexeme false (parts.map (·.1))) := by
  induction h with
  | nil => exact .nil
  | @cons a p as parts ha h ih =>
    cases h with
    | nil => simpa [Mark.separated, listed] using ha
    | cons hb h =>
      simp only [List.map_cons, Mark.separated, listed, List.append_assoc, List.cons_append,
        List.nil_append] at ih ⊢
      exact ha.append (symbol hs (.inl hloose) (hm ih)) (by simpa using hloose)

theorem spaced {γ : Type} {lexemes : γ → List Lexeme} {cs : List γ} (bs : List Mark)
    (hb : ∀ m ∈ bs.head?, m.isLoose = true) (hne : bs ≠ [])
    (hbs : ∀ {ms xs}, Spelled ms xs → Spelled (bs ++ ms) xs)
    (h : List.Forall₂ (fun a c => Spelled (marks a) (lexemes c)) as cs) :
    Spelled (Mark.separated bs (as.map marks)) (cs.flatMap lexemes) := by
  induction h with
  | nil => exact .nil
  | cons ha h ih =>
    cases h with
    | nil => simpa [Mark.separated] using ha
    | cons hb' h =>
      simp only [List.map_cons, Mark.separated, List.flatMap_cons, List.append_assoc] at ih ⊢
      refine ha.append (hbs ih) ?_
      obtain ⟨m, ms, rfl⟩ := List.exists_cons_of_ne_nil hne
      simpa using hb

theorem head_gapped (mss : List (List Mark)) : ∀ m ∈ (Mark.gapped mss).head?, m.isLoose = true := by
  cases mss <;> simp [Mark.gapped, Mark.isLoose]

theorem gapped (h : List.Forall₂ (fun a p => Spelled (marks a) p.1) as parts) :
    Spelled (Mark.gapped (as.map marks)) (parts.flatMap (·.1)) := by
  induction h with
  | nil => exact .nil
  | cons ha h ih =>
    rw [List.map_cons, Mark.gapped, List.flatMap_cons, List.cons_append]
    exact .gap (ha.append ih (head_gapped _))

theorem names {ns : List String} (h : ∀ n ∈ ns, isLowerName n = true) :
    Spelled (Mark.gapped (ns.map fun n => [Mark.lexeme n])) (ns.map (TokenKind.identifier, ·)) := by
  induction ns with
  | nil => exact .nil
  | cons n ns ih =>
    exact .gap (.lowerName (h n (List.mem_cons_self ..)) (head_gapped _)
      (ih fun m hm => h m (List.mem_cons_of_mem _ hm)))

end Spelled

/-! Leaves and tuples, which all families lay out in the same way. -/

theorem toList_toString (n : Nat) : (toString n).toList = Nat.toDigits 10 n := Nat.toList_repr

theorem isDecimal_toString (n : Nat) : isDecimal (toString n).toList = true := by
  rw [toList_toString, isDecimal, Bool.and_eq_true]
  refine ⟨by simp [Nat.toDigits_ne_nil], List.all_eq_true.2 fun c hc => ?_⟩
  exact Nat.isDigit_of_mem_toDigits (by decide) (by decide) hc

theorem decimalValue_toString (n : Nat) : decimalValue (toString n).toList = n := by
  rw [toList_toString, decimalValue, ← Nat.ofDigitChars_eq_foldl]
  exact Nat.ofDigitChars_toDigits (by decide) (by decide)

theorem length_toString_le {n : Nat} (hn : n ≤ Parser.maxNumber) :
    (toString n).toList.length ≤ digitLimit := by
  rw [toList_toString]
  have h : (Nat.toDigits 10 n).length ≤ 20 :=
    (Nat.length_toDigits_le_iff (by decide) (by decide)).2 (Nat.lt_of_le_of_lt hn (by decide))
  exact Nat.le_trans h (by decide)

theorem phrased_lexeme {s : Sym} {t : s.Node} {x : Lexeme} (hx : x.Proper) (hk : x.1 ≠ .eof)
    (h : Derives .whole s [x] t) : Phrased s [.lexeme x.2] t := ⟨[x], .singleton hx hk, h⟩

theorem phrased_leaf {k : Kin} {l : Leaf} (hl : l.Fits k) : Phrased (.atom k) l.word (k.ofLeaf l) := by
  cases l with
  | wildcard => exact phrased_lexeme (x := TokenKind.underscore.lexeme) rfl (by simp) (.wildcard k)
  | number n =>
    have h := Derives.number (u := .whole) k (toString n) (isDecimal_toString n)
      (length_toString_le hl) (by rwa [decimalValue_toString])
    rw [decimalValue_toString] at h
    exact phrased_lexeme (x := (.integer, toString n)) (isDecimal_toString n) (by simp) h
  | boolean b =>
    refine phrased_lexeme (x := (.boolean, _)) ?_ (by simp) (.boolean k hl b)
    cases b
    · exact .inr rfl
    · exact .inl rfl
  | name n =>
    cases k with
    | expression =>
      rcases isName_iff.1 hl with hn | hn
      · exact phrased_lexeme (x := (.identifier, n)) hn (by simp) (.lowerName .expression n hn)
      · exact phrased_lexeme (x := (.typeIdentifier, n)) hn (by simp) (.upperName .expression n hn)
    | pattern => exact phrased_lexeme (x := (.identifier, n)) hl (by simp) (.lowerName .pattern n hl)
    | type => exact hl.elim
  | unit => exact ⟨_, .symbol rfl (.inl (by decide)) (.symbol rfl (.inl (by decide)) .nil), .unit k⟩

theorem phrased_tuple {k : Kin} {marks : k.Node → List Mark} {as : List k.Node} (hne : as ≠ [])
    (h : ∀ a ∈ as, Phrased (.element k) (marks a) a) :
    Phrased (.atom k) (Mark.tuple (as.map marks)) (k.ofTuple as) := by
  obtain ⟨parts, hnodes, hspelled, hparts⟩ := Phrased.all (s := .element k) h
  have hlen := hspelled.length_eq
  rcases as with _ | ⟨a, _ | ⟨b, as⟩⟩
  · contradiction
  · -- one element keeps a comma behind it
    obtain ⟨p, _ | _, hp, ⟨⟩, rfl⟩ := List.forall₂_cons_left_iff.1 hspelled
    obtain rfl : p.2 = a := by simpa using hnodes
    refine ⟨_, ?_, .tuple k [p] true (.inr ⟨rfl, rfl⟩) hparts⟩
    have hcomma : Spelled [.lexeme ",", .lexeme ")"]
        [TokenKind.comma.lexeme, TokenKind.rparen.lexeme] :=
      .symbol rfl (.inl (by decide)) (.symbol rfl (.inl (by decide)) .nil)
    have hall := hp.append hcomma (by simp [Mark.isLoose, looseTexts])
    simpa [Mark.tuple, listed] using Spelled.symbol rfl (.inl (by decide)) hall
  · have hd := Derives.tuple k parts false (.inl (by simp [← hlen])) hparts
    rw [hnodes] at hd
    refine ⟨_, ?_, hd⟩
    have hlist := Spelled.separated (k := .comma) rfl (by decide) .gap hspelled
    have hall := (Spelled.symbol (k := .lparen) rfl (.inl (by decide)) hlist).close
      (k := .rparen) rfl (by decide)
    simpa [Mark.tuple, comma] using hall

theorem Phrased.enclosed {k : Kin} {ms : List Mark} {t : k.Node} (h : Phrased (.element k) ms t) :
    Phrased (.atom k) (Mark.enclosed true ms) t := by
  obtain ⟨xs, hs, hd⟩ := h
  exact ⟨_, hs.enclosed, .group k hd⟩

/-! Patterns and types. -/

theorem phrased_pattern {p : Pattern Unit} (h : p.WellFormed) :
    Phrased (.element .pattern) (p.marks false) p ∧ Phrased (.atom .pattern) (p.marks true) p := by
  have both : ∀ {ms : List Mark} {p : Pattern Unit}, Phrased (.atom .pattern) ms p →
      Phrased (.element .pattern) ms p := fun ⟨xs, hs, hd⟩ => ⟨xs, hs, .atomicPattern hd⟩
  induction h with
  | leaf h => exact ⟨both (phrased_leaf h), phrased_leaf h⟩
  | tuple hne h ih =>
    have htuple := phrased_tuple (k := .pattern) hne fun p hp => (ih p hp).1
    simp only [Pattern.marks, Pattern.marksAll_eq_map]
    exact ⟨both htuple, htuple⟩
  | @constructor n ps s hn h ih =>
    cases ps with
    | nil =>
      have hname := phrased_lexeme (x := (.typeIdentifier, n)) hn (by simp)
        (.upperName (u := .whole) .pattern n hn)
      exact ⟨both hname, hname⟩
    | cons p ps =>
      obtain ⟨parts, hnodes, hspelled, hparts⟩ := Phrased.all (s := .atom .pattern)
        fun p hp => (ih p hp).2
      have hphrase : Phrased (.element .pattern)
          (lexeme n :: gapped (Pattern.marksAll true (p :: ps))) (.constructor n (p :: ps) ()) := by
        rw [Pattern.marksAll_eq_map]
        have hd := Derives.construct n parts hparts
        rw [hnodes] at hd
        exact ⟨_, .upperName hn (Spelled.head_gapped _) (.gapped hspelled), hd⟩
      exact ⟨hphrase, hphrase.enclosed⟩

/-- The phrases that types are laid out as in each context. -/
def TypeContext.Phrased : TypeContext → List Mark → Ty Unit → Prop
  | .top => TinyFront.Phrased (.element .type)
  | .domain => TinyFront.Phrased .typeApplication
  | .argument => TinyFront.Phrased (.atom .type)

theorem TypeContext.phrased_of_atom {ms : List Mark} {t : Ty Unit}
    (h : TinyFront.Phrased (.atom .type) ms t) : ∀ context : TypeContext, context.Phrased ms t
  | .argument => h
  | .domain => h.imp fun _ h => ⟨h.1, .atomicType h.2⟩
  | .top => h.imp fun _ h => ⟨h.1, .plainType (.atomicType h.2)⟩

theorem TypeContext.phrased_enclosed {ms : List Mark} {t : Ty Unit}
    (h : TinyFront.Phrased (.element .type) ms t) :
    ∀ context : TypeContext, context.Phrased (Mark.enclosed (context != .top) ms) t
  | .top => h
  | .domain => TypeContext.phrased_of_atom (Phrased.enclosed (k := .type) h) .domain
  | .argument => Phrased.enclosed (k := .type) h

theorem phrased_type {t : Ty Unit} (h : t.WellFormed) :
    ∀ context : TypeContext, context.Phrased (t.marks context) t := by
  induction h with
  | leaf h => exact fun context => TypeContext.phrased_of_atom (phrased_leaf h) context
  | tuple hne h ih =>
    intro context
    have htuple := phrased_tuple (k := .type) hne fun t ht => ih t ht .top
    rw [Ty.marks, Ty.marksAll_eq_map]
    exact TypeContext.phrased_of_atom htuple context
  | @var n s hn =>
    refine TypeContext.phrased_of_atom ?_
    rcases isName_iff.1 hn with hn | hn
    · exact phrased_lexeme (x := (.identifier, n)) hn (by simp) (.lowerName .type n hn)
    · exact phrased_lexeme (x := (.typeIdentifier, n)) hn (by simp) (.upperName .type n hn)
  | @app n ts s hn hne h ih =>
    obtain ⟨parts, hnodes, hspelled, hparts⟩ := Phrased.all (s := .atom .type)
      fun t ht => ih t ht .argument
    have hargs := Spelled.spaced [gap] (by simp [Mark.isLoose]) (by simp) .gap hspelled
    have hphrase : Phrased .typeApplication
        (lexeme n :: gap :: separated [gap] (Ty.marksAll .argument ts)) (.app n ts ()) := by
      rw [Ty.marksAll_eq_map]
      have hd := Derives.applyType n parts (by rintro rfl; exact hne hnodes.symm) hparts
      rw [hnodes] at hd
      exact ⟨_, .upperName hn (by simp [Mark.isLoose]) (.gap hargs), hd⟩
    have helement : Phrased (.element .type) _ _ := hphrase.imp fun _ h => ⟨h.1, .plainType h.2⟩
    intro context
    rw [Ty.marks]
    cases context with
    | top => exact helement
    | domain => exact hphrase
    | argument => exact Phrased.enclosed (k := .type) helement
  | @arrow d c s _ _ ihd ihc =>
    obtain ⟨xs, hxs, hd⟩ := ihd .domain
    obtain ⟨ys, hys, hc⟩ := ihc .top
    have harrow : Spelled ([gap, lexeme "->", gap] ++ c.marks .top) (TokenKind.arrow.lexeme :: ys) :=
      .gap (.symbol rfl (.inr (by simp [Mark.isLoose])) (.gap hys))
    have hall := hxs.append harrow (by simp [Mark.isLoose])
    rw [← List.append_assoc] at hall
    intro context
    rw [Ty.marks]
    exact TypeContext.phrased_enclosed ⟨_, hall, .arrow hd hc⟩ context
  | @quantified bs t s hb _ ih =>
    obtain ⟨xs, hxs, ht⟩ := ih .top
    have hdot : Spelled ([lexeme ".", gap] ++ t.marks .top) (TokenKind.dot.lexeme :: xs) :=
      .symbol rfl (.inl (by decide)) (.gap hxs)
    have hall := (Spelled.symbol (k := .kwForall) rfl (.inr (Spelled.head_gapped _))
      (.names hb)).append
      hdot (by simp [Mark.isLoose, looseTexts])
    rw [← List.append_assoc] at hall
    intro context
    rw [Ty.marks]
    exact TypeContext.phrased_enclosed ⟨_, hall, .quantified bs ht⟩ context

end TinyFront
