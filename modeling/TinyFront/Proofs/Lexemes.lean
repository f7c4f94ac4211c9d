import TinyFront.Parser.Atom
import TinyFront.Token.Lex

/-!
Lexemes: tokens without their places. Main statements: each piece of a text that stands for a token
has the spelling that its kind asks for, and the tokens of a text are such lexemes with one end
marker behind them.
-/
namespace TinyFront

/-- What the grammar sees of a token: its kind and its text. -/
abbrev Lexeme := TokenKind × String

namespace TokenKind

/-- The only lexeme of a keyword or symbol. -/
def lexeme (k : TokenKind) : Lexeme := (k, k.spelling?.getD "")

@[simp] theorem lexeme_fst (k : TokenKind) : k.lexeme.1 = k := rfl

end TokenKind

/-- A word begins with a character of ASCII, between the letters at either end. -/
theorem toNat_of_startsWord {c : Char} (h : startsWord c = true) : 65 ≤ c.toNat ∧ c.toNat ≤ 122 := by
  have halpha : c.isAlpha = (decide (65 ≤ c.val ∧ c.val ≤ 90) ||
      (decide (97 ≤ c.val) && decide (c.val ≤ 122))) := rfl
  simp only [startsWord, Bool.or_eq_true, beq_iff_eq, halpha, Bool.and_eq_true, decide_eq_true_eq,
    UInt32.le_iff_toNat_le] at h
  rcases h with (⟨hl, hu⟩ | ⟨hl, hu⟩) | rfl
  · exact ⟨hl, Nat.le_trans hu (by decide)⟩
  · exact ⟨Nat.le_trans (by decide) hl, hu⟩
  · decide

/-- A word that is no keyword and not the lone underscore. -/
def isName (s : String) : Bool :=
  match s.toList with
  | [] => false
  | c :: cs =>
    startsWord c && cs.all continuesWord && (TokenKind.ofKeyword? s).isNone && s != "_"

def isUpperName (s : String) : Bool := isName s && s.toList.head?.any Char.isUpper

def isLowerName (s : String) : Bool := isName s && !s.toList.head?.any Char.isUpper

theorem isName_of_isUpperName {s : String} (h : isUpperName s = true) : isName s = true := by
  simp only [isUpperName, Bool.and_eq_true] at h
  exact h.1

theorem isName_of_isLowerName {s : String} (h : isLowerName s = true) : isName s = true := by
  simp only [isLowerName, Bool.and_eq_true] at h
  exact h.1

theorem isName_iff {s : String} : isName s = true ↔ isLowerName s = true ∨ isUpperName s = true := by
  simp only [isLowerName, isUpperName, Bool.and_eq_true, Bool.not_eq_true']
  cases s.toList.head?.any Char.isUpper <;> simp

namespace Lexeme

/-- The text is one that the kind allows. -/
def Proper : Lexeme → Prop
  | (.integer, s) => isDecimal s.toList = true
  | (.boolean, s) => s = "true" ∨ s = "false"
  | (.identifier, s) => isLowerName s = true
  | (.typeIdentifier, s) => isUpperName s = true
  | (.eof, s) => s = ""
  | (k, s) => k.spelling? = some s

theorem Proper.eq_lexeme {x : Lexeme} (h : x.Proper) (hk : x.1.spelling?.isSome = true) :
    x = x.1.lexeme := by
  obtain ⟨k, s⟩ := x
  cases k <;> simp_all [Proper, TokenKind.lexeme, TokenKind.spelling?]

end Lexeme

namespace Piece

/-- What a piece of a text can hold, by its shape. -/
def Formed (p : Piece) : Prop :=
  match p.shape with
  | .word => ∃ c cs, p.text = c :: cs ∧ startsWord c = true ∧ cs.all continuesWord = true
  | .number => isDecimal p.text = true
  | .symbol => (∃ c, p.text = [c] ∧ symbolChars.contains c = true) ∨
      p.text = ['-', '>'] ∨ p.text = ['=', '>']
  | _ => True

/-- The text so far of an open piece, latest character first. -/
def Held (shape : Shape) (held : List Char) : Prop := Formed ⟨shape, held.reverse⟩

theorem held_ofChar (c : Char) : Held (Shape.ofChar c) [c] := by
  unfold Held Formed Shape.ofChar
  by_cases hb : Text.isBlank c = true
  · simp [hb]
  by_cases hd : c.isDigit = true
  · simp [hb, hd, isDecimal]
  by_cases hw : startsWord c = true
  · simp only [hb, hd, hw, if_true, Bool.false_eq_true, if_false]
    exact ⟨c, [], rfl, hw, rfl⟩
  by_cases hs : symbolChars.contains c = true
  · simp only [hb, hd, hw, hs, if_true, Bool.false_eq_true, if_false]
    exact .inl ⟨c, rfl, hs⟩
  · simp only [hb, hd, hw, hs, Bool.false_eq_true, if_false]

theorem held_grow {shape grown : Shape} {held : List Char} {c : Char} (h : Held shape held)
    (hg : shape.grow held c = some grown) : Held grown (c :: held) := by
  cases shape with
  | word =>
    simp only [Shape.grow, Option.ite_none_right_eq_some, Option.some.injEq] at hg
    obtain ⟨hc, rfl⟩ := hg
    obtain ⟨d, ds, htext, hd, hds⟩ := h
    exact ⟨d, ds ++ [c], by simp_all, hd, by simp [hds, hc]⟩
  | number =>
    simp only [Shape.grow, Option.ite_none_right_eq_some, Option.some.injEq] at hg
    obtain ⟨hc, rfl⟩ := hg
    simp_all [Held, Formed, isDecimal]
  | comment =>
    simp only [Shape.grow, Option.ite_none_left_eq_some, Option.some.injEq] at hg
    rw [← hg.2]
    trivial
  | symbol =>
    simp only [Shape.grow] at hg
    split at hg
    · cases hg
      trivial
    · simp only [Option.ite_none_right_eq_some, Option.some.injEq] at hg
      obtain ⟨⟨rfl, rfl | rfl⟩, rfl⟩ := hg
      · exact .inr (.inl rfl)
      · exact .inr (.inr rfl)
  | blank => cases hg
  | stray => cases hg

theorem formed_of_mem_cutFrom {shape : Shape} {held cs : List Char} (h : Held shape held) {p : Piece}
    (hp : p ∈ cutFrom shape held cs) : p.Formed := by
  induction cs generalizing shape held with
  | nil =>
    simp only [cutFrom, List.mem_singleton] at hp
    rwa [hp]
  | cons c cs ih =>
    unfold cutFrom at hp
    split at hp
    · rename_i grown hg
      exact ih (held_grow h hg) hp
    · rcases List.mem_cons.1 hp with rfl | hp
      · exact h
      · exact ih (held_ofChar c) hp

theorem formed_of_mem_cut {cs : List Char} {p : Piece} (hp : p ∈ cut cs) : p.Formed := by
  cases cs with
  | nil => simp at hp
  | cons c cs => exact formed_of_mem_cutFrom (held_ofChar c) hp

theorem proper_of_wordKind {s : String} {c : Char} {cs : List Char} (hs : s.toList = c :: cs)
    (hc : startsWord c = true) (hcs : cs.all continuesWord = true) :
    Lexeme.Proper (wordKind s.toList, s) := by
  unfold wordKind
  rw [String.ofList_toList]
  split
  · rename_i h
    rw [← String.ofList_toList (s := s), h]
    rfl
  · rename_i h
    split
    · rename_i k hk
      have listed : ∀ p ∈ TokenKind.keywords, Lexeme.Proper (p.2, p.1) := by
        simp [TokenKind.keywords, Lexeme.Proper, TokenKind.spelling?]
      exact listed _ (TokenKind.mem_of_lookup hk)
    · rename_i hk
      have hne : s ≠ "_" := by
        rintro rfl
        exact h rfl
      have hname : isName s = true := by
        rw [isName, hs]
        simp [hc, hcs, hk, hne, -List.all_eq_true]
      split
      · rename_i hu
        simp [Lexeme.Proper, isUpperName, hname, hu]
      · rename_i hu
        simp [Lexeme.Proper, isLowerName, hname, hu]

/-- The token that a piece stands for has a text that its kind allows. -/
theorem proper_of_kind? {p : Piece} {k : TokenKind} (h : p.Formed) (hk : p.kind? = some k) :
    Lexeme.Proper (k, p.string) := by
  obtain ⟨shape, text⟩ := p
  cases shape with
  | word =>
    obtain ⟨c, cs, rfl, hc, hcs⟩ := h
    simp only [kind?, Option.some.injEq] at hk
    have hp := proper_of_wordKind (s := String.ofList (c :: cs)) String.toList_ofList hc hcs
    rw [String.toList_ofList] at hp
    rw [← hk]
    exact hp
  | number =>
    simp only [kind?, Option.some.injEq] at hk
    rw [← hk]
    simpa [Lexeme.Proper, string, Formed] using h
  | symbol =>
    have hs := TokenKind.spelling?_of_ofSymbol? (show TokenKind.ofSymbol? _ = some k from hk)
    cases k <;> first | exact hs | cases hs
  | blank => cases hk
  | comment => cases hk
  | stray => cases hk

theorem ne_eof_of_kind? {p : Piece} {k : TokenKind} (hk : p.kind? = some k) : k ≠ .eof := by
  have keyword : ∀ q ∈ TokenKind.keywords, q.2 ≠ .eof := by decide
  have symbol : ∀ q ∈ TokenKind.symbols, q.2 ≠ .eof := by decide
  obtain ⟨shape, text⟩ := p
  cases shape with
  | word =>
    obtain rfl : wordKind text = k := Option.some.inj hk
    unfold wordKind
    split
    · simp
    · split
      · rename_i h
        exact keyword _ (TokenKind.mem_of_lookup h)
      · split <;> simp
  | number =>
    obtain rfl : TokenKind.integer = k := Option.some.inj hk
    simp
  | symbol => exact symbol _ (TokenKind.mem_of_lookup hk)
  | blank => cases hk
  | comment => cases hk
  | stray => cases hk

end Piece

/-- The tokens of a text: proper lexemes with an end marker behind them and nowhere else. -/
structure TokenStream (ts : List Token) : Prop where
  ended : ∃ us e, ts = us ++ [e] ∧ e.kind = .eof
  last : ∀ us t vs, ts = us ++ t :: vs → t.kind = .eof → vs = []
  proper : ∀ t ∈ ts, Lexeme.Proper t.lexeme

theorem TokenStream.ne_nil {ts : List Token} (h : TokenStream ts) : ts ≠ [] := by
  obtain ⟨us, e, rfl, -⟩ := h.ended
  simp

/-- The end marker is the last token, and the only one. -/
theorem TokenStream.exists_front {ts : List Token} (h : TokenStream ts) :
    ∃ us e, ts = us ++ [e] ∧ e.lexeme = TokenKind.eof.lexeme ∧ ∀ u ∈ us, u.kind ≠ .eof := by
  obtain ⟨us, e, rfl, he⟩ := h.ended
  refine ⟨us, e, rfl, ?_, fun u hu hk => ?_⟩
  · have htext := h.proper e (by simp)
    rw [Token.lexeme, he] at htext ⊢
    exact Prod.ext rfl htext
  · obtain ⟨as, bs, rfl⟩ := List.append_of_mem hu
    simpa using h.last as u (bs ++ [e]) (by simp) hk

namespace Token

theorem stream_ofPieces {file : String} {ps : List Piece} (h : ∀ p ∈ ps, p.Formed) (offset : Nat) :
    TokenStream (ofPieces file offset ps) := by
  induction ps generalizing offset with
  | nil =>
    refine ⟨⟨[], _, rfl, rfl⟩, fun us t vs h _ => ?_, ?_⟩
    · cases us <;> simp_all [ofPieces]
    · simp [ofPieces, endMarker, lexeme, Lexeme.Proper]
  | cons p ps ih =>
    have hps := ih (fun q hq => h q (List.mem_cons_of_mem _ hq)) (offset + p.width)
    unfold ofPieces
    split
    · rename_i k hk
      refine ⟨?_, fun us t vs hts ht => ?_, fun t ht => ?_⟩
      · obtain ⟨us, e, hus, he⟩ := hps.ended
        exact ⟨_ :: us, e, by rw [hus]; rfl, he⟩
      · rcases us with _ | ⟨u, us⟩
        · obtain ⟨rfl, rfl⟩ := List.cons.inj hts
          exact absurd ht (Piece.ne_eof_of_kind? hk)
        · exact hps.last us t vs (List.cons.inj hts).2 ht
      · rcases List.mem_cons.1 ht with rfl | ht
        · exact Piece.proper_of_kind? (h p (List.mem_cons_self ..)) hk
        · exact hps.proper t ht
    · exact hps

end Token

theorem lex_eq_ok {file source : String} {ts : List Token} (h : lex file source = .ok ts) :
    Diagnostic.ofPieces file 0 (Piece.cut source.toList) = [] ∧
      ts = Token.ofPieces file 0 (Piece.cut source.toList) := by
  simp only [lex] at h
  split at h
  · rename_i hd
    injection h with h
    exact ⟨hd, h.symm⟩
  · contradiction

theorem stream_of_lex {file source : String} {ts : List Token} (h : lex file source = .ok ts) :
    TokenStream ts := by
  rw [(lex_eq_ok h).2]
  exact Token.stream_ofPieces (fun p hp => Piece.formed_of_mem_cut hp) 0

end TinyFront
