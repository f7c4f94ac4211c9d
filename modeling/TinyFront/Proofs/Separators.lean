import TinyFront.Proofs.Joining

/-!
What stands between tokens. Main statements: a text that a line feed parts in two has the tokens, or
the reports, of its two halves, and tokens stay the same whatever blanks and comments separate them.
-/
namespace TinyFront

/-- What two texts give together when a line feed parts them: the tokens of both without the first end
marker, or the reports on both. The second text begins at the given distance. -/
def joinLexed (distance : Int) : Except (List Diagnostic) (List Token) →
    Except (List Diagnostic) (List Token) → Except (List Diagnostic) (List Token)
  | .ok ts, .ok us => .ok (ts.filter (·.kind ≠ .eof) ++ us.map (Token.shift distance))
  | .ok _, .error reports => .error (reports.map (Diagnostic.shift distance))
  | .error reports, .ok _ => .error reports
  | .error reports, .error reports' =>
    .error (reports ++ reports'.map (Diagnostic.shift distance))

theorem lex_eq_error {file source : String} {reports : List Diagnostic}
    (h : lex file source = .error reports) :
    Diagnostic.ofPieces file 0 (Piece.cut source.toList) = reports ∧ reports ≠ [] := by
  rw [lex_eq] at h
  split at h
  · cases h
  · rename_i hne
    obtain rfl := Except.error.inj h
    exact ⟨rfl, hne⟩

theorem TokenStream.filter_eq_dropLast {ts : List Token} (h : TokenStream ts) :
    ts.filter (·.kind ≠ .eof) = ts.dropLast := by
  obtain ⟨us, e, rfl, he, hus⟩ := h.exists_front
  have hk : e.kind = .eof := congrArg Prod.fst he
  rw [List.dropLast_concat, List.filter_append, List.filter_eq_self.2 (by simpa using hus)]
  simp [hk]

/-- A line feed parts what is read: it has tokens where both halves have tokens, which are those of the
first half without its end marker and those of the second at their places behind the first; otherwise
the reports on the first half and on the second are made, those on the second at their places. -/
theorem lex_feed (file first second : String) :
    lex file (first ++ "\n" ++ second) =
      joinLexed (first.utf8ByteSize + 1) (lex file first) (lex file second) := by
  cases hfirst : lex file first with
  | ok ts =>
    cases hsecond : lex file second with
    | ok us => rw [lex_joined hfirst hsecond, joinLexed, (stream_of_lex hfirst).filter_eq_dropLast]
    | error reports =>
      obtain ⟨rfl, hne⟩ := lex_eq_error hsecond
      rw [lex_eq, reports_joined, (lex_eq_ok hfirst).1, List.nil_append, if_neg (by simpa using hne)]
      rfl
  | error reports =>
    obtain ⟨rfl, hne⟩ := lex_eq_error hfirst
    rw [lex_eq, reports_joined, if_neg (by simp [hne])]
    cases hsecond : lex file second with
    | ok us => simp [joinLexed, (lex_eq_ok hsecond).1]
    | error reports' =>
      obtain ⟨rfl, -⟩ := lex_eq_error hsecond
      rfl

/-- Blanks, and comments that end with their lines. -/
inductive Gap : List Char → Prop
  | nil : Gap []
  | blank {c : Char} {cs : List Char} (hc : Text.isBlank c = true) (h : Gap cs) : Gap (c :: cs)
  | comment {note cs : List Char} (hnote : '\n' ∉ note) (h : Gap cs) :
      Gap ('/' :: '/' :: note ++ '\n' :: cs)

/-- A gap, or one with a comment behind it that nothing ends. -/
def Ending (cs : List Char) : Prop :=
  Gap cs ∨ ∃ as note, cs = as ++ '/' :: '/' :: note ∧ Gap as ∧ '\n' ∉ note

/-- The texts of tokens, each with a separator behind it. -/
def spaced (ts : List Token) (gaps : List (List Char)) : List Char :=
  (List.zipWith (fun t gap => t.text.toList ++ gap) ts gaps).flatten

namespace Piece

/-- Whatever is no blank and no comment ends where a blank follows. -/
theorem Fits.before_blank {p : Piece} {rest cs : List Char} (h : p.Fits rest) (hp : p.isSolid = true)
    (hcs : ∀ c ∈ cs.head?, Text.isBlank c = true) : p.Fits cs := by
  obtain ⟨shape, text⟩ := p
  cases shape with
  | blank => cases hp
  | comment => cases hp
  | stray => exact h
  | word =>
    obtain ⟨c, w, htext, hc, hw, -⟩ := h
    exact ⟨c, w, htext, hc, hw, fun d hd => continuesWord_of_isBlank (hcs d hd)⟩
  | number =>
    obtain ⟨c, w, htext, hc, hw, -⟩ := h
    refine ⟨c, w, htext, hc, hw, fun d hd => ?_⟩
    rw [← Bool.not_eq_true]
    intro hdigit
    have hword := continuesWord_iff.2 (.inr hdigit)
    rw [continuesWord_of_isBlank (hcs d hd)] at hword
    cases hword
  | symbol =>
    obtain hdash | hequals | ⟨c, htext, hc, -⟩ := h
    · exact .inl hdash
    · exact .inr (.inl hequals)
    · refine .inr (.inr ⟨c, htext, hc, fun d hd => ?_⟩)
      have hblank := hcs d hd
      by_contra hne
      obtain ⟨grown, hgrown⟩ := Option.ne_none_iff_exists'.1 hne
      obtain ⟨-, rfl, -⟩ | ⟨-, rfl, -⟩ := Shape.grow_symbol_eq_some.1 hgrown <;> cases hblank

theorem Stand.before_blank {x : Lexeme} (hx : x.Proper) (hk : x.1 ≠ .eof) {cs : List Char}
    {xs : List Lexeme} (hcs : ∀ c ∈ cs.head?, Text.isBlank c = true) (h : Stand (cut cs) xs) :
    Stand (cut (x.2.toList ++ cs)) (x :: xs) := by
  obtain ⟨shape, hs, hkind, hfits⟩ := fits_of_proper hx hk
  have hsolid : isSolid ⟨shape, x.2.toList⟩ = true := by
    cases shape <;> first | rfl | cases hkind
  rw [cut_of_fits (p := ⟨shape, x.2.toList⟩) (hfits.before_blank hsolid hcs)]
  exact h.cons_lexeme hs hkind

theorem Stand.cons_comment {ps : List Piece} {xs : List Lexeme} (h : Stand ps xs) (cs : List Char) :
    Stand (⟨.comment, cs⟩ :: ps) xs :=
  ⟨(List.filterMap_cons_none rfl).trans h.lexemes, by simpa using h.stray⟩

end Piece

open Piece (Stand cut)

theorem Gap.stand {gap cs : List Char} {xs : List Lexeme} (h : Gap gap) (hcs : Stand (cut cs) xs) :
    Stand (cut (gap ++ cs)) xs := by
  induction h with
  | nil => exact hcs
  | @blank c gap hc h ih =>
    have hfits : Piece.Fits ⟨.blank, [c]⟩ (gap ++ cs) := ⟨c, rfl, hc⟩
    show Stand (cut ([c] ++ (gap ++ cs))) xs
    rw [Piece.cut_of_fits hfits]
    exact ih.cons_blank _
  | @comment note gap hnote h ih =>
    have hfits : Piece.Fits ⟨.comment, '/' :: '/' :: note⟩ ('\n' :: (gap ++ cs)) :=
      ⟨note, rfl, hnote, by simp⟩
    have htext : '/' :: '/' :: note ++ '\n' :: gap ++ cs = '/' :: '/' :: note ++ '\n' :: (gap ++ cs) := by
      simp
    rw [htext, Piece.cut_of_fits hfits]
    exact ih.feed.cons_comment _

theorem Ending.stand {gap : List Char} (h : Ending gap) : Stand (cut gap) [] := by
  have hnil : Stand (cut []) [] := ⟨rfl, by simp⟩
  obtain h | ⟨as, note, rfl, h, hnote⟩ := h
  · simpa using h.stand hnil
  · have hfits : Piece.Fits ⟨.comment, '/' :: '/' :: note⟩ [] := ⟨note, rfl, hnote, by simp⟩
    have hcut := Piece.cut_of_fits hfits
    rw [List.append_nil] at hcut
    refine h.stand ?_
    rw [hcut]
    exact hnil.cons_comment _

theorem stand_spaced {ts : List Token} (hts : ∀ t ∈ ts, Lexeme.Proper t.lexeme ∧ t.kind ≠ .eof)
    {first : List Char} {gaps : List (List Char)} (hlength : gaps.length = ts.length)
    (hblank : ∀ gap ∈ gaps, ∃ c ∈ gap.head?, Text.isBlank c = true)
    (hgaps : ∀ gap ∈ (first :: gaps).dropLast, Gap gap)
    (hlast : ∀ gap ∈ (first :: gaps).getLast?, Ending gap) :
    Stand (cut (first ++ spaced ts gaps)) (ts.map Token.lexeme) := by
  induction ts generalizing first gaps with
  | nil =>
    obtain rfl := List.length_eq_zero_iff.1 hlength
    simpa [spaced] using (hlast first rfl).stand
  | cons t ts ih =>
    obtain ⟨⟨hproper, hk⟩, hts⟩ := List.forall_mem_cons.1 hts
    obtain ⟨gap, gaps, rfl⟩ := List.exists_cons_of_length_eq_add_one hlength
    obtain ⟨⟨c, hhead, hc⟩, hblank⟩ := List.forall_mem_cons.1 hblank
    obtain ⟨hfirst, hgaps⟩ := List.forall_mem_cons.1 hgaps
    have hstand := ih hts (Nat.succ.inj hlength) hblank hgaps (by simpa using hlast)
    have hstop : ∀ d ∈ (gap ++ spaced ts gaps).head?, Text.isBlank d = true := by
      obtain ⟨gap, rfl⟩ := List.head?_eq_some_iff.1 hhead
      rintro d ⟨rfl⟩
      exact hc
    have htext : spaced (t :: ts) (gap :: gaps) = t.lexeme.2.toList ++ (gap ++ spaced ts gaps) := by
      simp [spaced, Token.lexeme]
    rw [htext]
    exact hfirst.stand (hstand.before_blank hproper hk hstop)

/-- Blanks and comments between tokens do not matter. The texts of the tokens of a text, with blanks and
comments before the first and behind each, at least one blank first behind each, and at the very end
perhaps a comment that no line feed ends, are read as tokens of the same kinds and texts. -/
theorem lex_spaced {file source : String} {ts : List Token} (hlex : lex file source = .ok ts)
    {first : List Char} {gaps : List (List Char)} (hlength : gaps.length + 1 = ts.length)
    (hblank : ∀ gap ∈ gaps, ∃ c ∈ gap.head?, Text.isBlank c = true)
    (hgaps : ∀ gap ∈ (first :: gaps).dropLast, Gap gap)
    (hlast : ∀ gap ∈ (first :: gaps).getLast?, Ending gap) (file' : String) :
    ∃ us, lex file' (String.ofList (first ++ spaced ts gaps)) = .ok us ∧
      us.map Token.lexeme = ts.map Token.lexeme := by
  have hstream := stream_of_lex hlex
  obtain ⟨vs, e, rfl, he, hvs⟩ := hstream.exists_front
  have hlength : gaps.length = vs.length := by simpa using hlength
  have hproper : ∀ t ∈ vs, Lexeme.Proper t.lexeme ∧ t.kind ≠ .eof := fun t ht =>
    ⟨hstream.proper t (List.mem_append_left _ ht), hvs t ht⟩
  have htext : spaced (vs ++ [e]) gaps = spaced vs gaps := by
    rw [spaced, ← List.append_nil gaps, List.zipWith_append hlength.symm, List.append_nil]
    simp [spaced]
  rw [htext, List.map_append, List.map_singleton, he]
  exact (stand_spaced hproper hlength hblank hgaps hlast).exists_lex file'

theorem lex_spaced_of_difference : ∃ ts, lex "a" "x-" = .ok ts ∧
    [['\t', '\n'], " //".toList].length + 1 = ts.length ∧
    (∀ gap ∈ [['\t', '\n'], " //".toList], ∃ c ∈ gap.head?, Text.isBlank c = true) ∧
    (∀ gap ∈ (['/', '/', '\n'] :: [['\t', '\n'], " //".toList]).dropLast, Gap gap) ∧
    (∀ gap ∈ (['/', '/', '\n'] :: [['\t', '\n'], " //".toList]).getLast?, Ending gap) ∧
    ∃ us, lex "b" (String.ofList (['/', '/', '\n'] ++ spaced ts [['\t', '\n'], " //".toList])) = .ok us ∧
      us.map Token.lexeme = ts.map Token.lexeme := by
  have hlex : lex "a" "x-" = .ok _ := rfl
  have hblank : ∀ gap ∈ [['\t', '\n'], " //".toList], ∃ c ∈ gap.head?, Text.isBlank c = true :=
    List.forall_mem_cons.2 ⟨⟨'\t', rfl, by decide⟩, List.forall_mem_singleton.2 ⟨' ', rfl, by decide⟩⟩
  have hgaps : ∀ gap ∈ (['/', '/', '\n'] :: [['\t', '\n'], " //".toList]).dropLast, Gap gap :=
    List.forall_mem_cons.2 ⟨.comment List.not_mem_nil .nil,
      List.forall_mem_singleton.2 (.blank (by decide) (.blank (by decide) .nil))⟩
  have hlast : ∀ gap ∈ (['/', '/', '\n'] :: [['\t', '\n'], " //".toList]).getLast?, Ending gap := by
    rintro gap ⟨rfl⟩
    exact .inr ⟨[' '], [], rfl, .blank (by decide) .nil, List.not_mem_nil⟩
  exact ⟨_, hlex, rfl, hblank, hgaps, hlast, lex_spaced hlex rfl hblank hgaps hlast "b"⟩

end TinyFront
