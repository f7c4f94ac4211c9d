import Mathlib.Data.List.Forall2
import TinyFront.Proofs.Echoes
import TinyFront.Proofs.Partition

/-!
Line ends of two characters. Main statement: where every carriage return stands before a line feed, a
text and the same text without its carriage returns have the same tokens and the same stray
characters, each on the same line and in the same column.
-/
namespace TinyFront

/-- Every carriage return stands before a line feed. -/
def ReturnsEndLines (cs : List Char) : Prop :=
  ∀ as bs, cs = as ++ '\r' :: bs → bs.head? = some '\n'

def withoutReturns (cs : List Char) : List Char := cs.filter (· != '\r')

@[simp] theorem withoutReturns_nil : withoutReturns [] = [] := rfl

@[simp] theorem withoutReturns_return (cs : List Char) :
    withoutReturns ('\r' :: cs) = withoutReturns cs := rfl

theorem withoutReturns_cons {c : Char} (h : c ≠ '\r') (cs : List Char) :
    withoutReturns (c :: cs) = c :: withoutReturns cs := by
  simp [withoutReturns, h]

@[simp] theorem withoutReturns_append (as bs : List Char) :
    withoutReturns (as ++ bs) = withoutReturns as ++ withoutReturns bs := List.filter_append as bs

theorem withoutReturns_of_not_mem {cs : List Char} (h : '\r' ∉ cs) : withoutReturns cs = cs := by
  refine List.filter_eq_self.2 fun c hc => ?_
  have hne : c ≠ '\r' := fun he => h (he ▸ hc)
  simpa using hne

namespace ReturnsEndLines

variable {as bs cs : List Char} {c : Char}

theorem right (h : ReturnsEndLines (as ++ bs)) : ReturnsEndLines bs :=
  fun xs ys hbs => h (as ++ xs) ys (by rw [hbs, List.append_assoc])

theorem tail (h : ReturnsEndLines (c :: cs)) : ReturnsEndLines cs := by
  rw [← List.singleton_append] at h
  exact h.right

/-- A carriage return at the end of the first part would be before something else. -/
theorem left (h : ReturnsEndLines (as ++ bs)) (hbs : bs.head? ≠ some '\n') : ReturnsEndLines as := by
  rintro xs ys rfl
  have hhead := h xs (ys ++ bs) (by simp)
  cases ys with
  | nil => exact absurd hhead hbs
  | cons y ys => exact hhead

theorem exists_feed (h : ReturnsEndLines ('\r' :: cs)) : ∃ ds, cs = '\n' :: ds :=
  List.head?_eq_some_iff.1 (h [] cs rfl)

theorem nil : ReturnsEndLines [] := fun _ _ h => by simp at h

theorem cons_iff : ReturnsEndLines (c :: cs) ↔
    (c = '\r' → cs.head? = some '\n') ∧ ReturnsEndLines cs := by
  refine ⟨fun h => ⟨fun hc => h [] cs (by rw [hc]; rfl), h.tail⟩, fun ⟨hc, h⟩ as bs heq => ?_⟩
  cases as with
  | nil =>
    obtain ⟨rfl, rfl⟩ := List.cons.inj heq
    exact hc rfl
  | cons a as => exact h as bs (List.cons.inj heq).2

instance : (cs : List Char) → Decidable (ReturnsEndLines cs)
  | [] => isTrue nil
  | _ :: cs =>
    have := instDecidable cs
    decidable_of_iff _ cons_iff.symm

theorem head?_withoutReturns (h : ReturnsEndLines cs) :
    (withoutReturns cs).head? = cs.head? ∨ (withoutReturns cs).head? = some '\n' := by
  cases cs with
  | nil => exact .inl rfl
  | cons c cs =>
    by_cases hc : c = '\r'
    · subst hc
      obtain ⟨ds, rfl⟩ := h.exists_feed
      exact .inr rfl
    · exact .inl (by rw [withoutReturns_cons hc]; rfl)

theorem unifyNewlines_eq (h : ReturnsEndLines cs) : Text.unifyNewlines cs = withoutReturns cs := by
  fun_induction Text.unifyNewlines cs with
  | case1 => rfl
  | case2 cs ih => rw [ih h.tail.tail]; rfl
  | case3 cs hne ih =>
    obtain ⟨ds, rfl⟩ := h.exists_feed
    exact absurd rfl (hne ds)
  | case4 c cs hfeed hreturn ih =>
    rw [ih h.tail, withoutReturns_cons fun he => hreturn he]

/-- A line feed makes up for the carriage return before it. -/
theorem foldl_past (h : ReturnsEndLines cs) (p : Position) :
    (withoutReturns cs).foldl Position.past p = cs.foldl Position.past p := by
  induction cs generalizing p with
  | nil => rfl
  | cons c cs ih =>
    by_cases hc : c = '\r'
    · subst hc
      obtain ⟨ds, rfl⟩ := h.exists_feed
      exact ih h.tail (p.past '\r')
    · rw [withoutReturns_cons hc]
      exact ih h.tail _

end ReturnsEndLines

namespace Piece

/-- What follows a piece does not go on with it when it loses its carriage returns. -/
theorem Fits.withoutReturns {p : Piece} {rest : List Char} (h : p.Fits rest)
    (hrest : ReturnsEndLines rest) (hp : p.text ≠ ['\r']) :
    Fits ⟨p.shape, TinyFront.withoutReturns p.text⟩ (TinyFront.withoutReturns rest) := by
  have hnext : ∀ d ∈ (TinyFront.withoutReturns rest).head?, d ∈ rest.head? ∨ d = '\n' := by
    intro d hd
    rcases hrest.head?_withoutReturns with heq | heq
    · exact .inl (heq ▸ hd)
    · exact .inr (Option.some.inj (hd.symm.trans heq))
  have hsolid : p.isSolid = true → TinyFront.withoutReturns p.text = p.text := fun hs =>
    withoutReturns_of_not_mem fun hc => absurd (h.isBlank_eq_false hs hc) (by decide)
  obtain ⟨shape, text⟩ := p
  cases shape with
  | blank =>
    obtain ⟨c, rfl, hc⟩ := h
    have hne : c ≠ '\r' := fun he => hp (by rw [he])
    exact ⟨c, withoutReturns_cons hne [], hc⟩
  | comment =>
    obtain ⟨cs, rfl, hcs, hstop⟩ := h
    refine ⟨TinyFront.withoutReturns cs, rfl, fun hmem => hcs (List.mem_filter.1 hmem).1, fun d hd => ?_⟩
    exact (hnext d hd).elim (hstop d) id
  | word =>
    rw [hsolid rfl]
    obtain ⟨c, cs, rfl, hc, hcs, hstop⟩ := h
    exact ⟨c, cs, rfl, hc, hcs, fun d hd => (hnext d hd).elim (hstop d) fun he => he ▸ by decide⟩
  | number =>
    rw [hsolid rfl]
    obtain ⟨c, cs, rfl, hc, hcs, hstop⟩ := h
    exact ⟨c, cs, rfl, hc, hcs, fun d hd => (hnext d hd).elim (hstop d) fun he => he ▸ by decide⟩
  | symbol =>
    rw [hsolid rfl]
    refine h.imp_right (.imp_right fun ⟨c, hc, hsymbol, hstop⟩ => ⟨c, hc, hsymbol, fun d hd => ?_⟩)
    exact (hnext d hd).elim (hstop d) fun he => he ▸ Shape.grow_feed _ _
  | stray =>
    rw [hsolid rfl]
    exact h

end Piece

theorem Source.location_append {source : Source} {as bs : List Char} (h : source.chars = as ++ bs) :
    source.location (byteWidth as) = as.foldl Position.past ⟨1, 1⟩ := by
  have hclamp : source.clamp (byteWidth as) = byteWidth as := by
    simp [Source.clamp, Source.byteSize, h]
  rw [location, hclamp, h, Position.walk_append _ _ _ _ _ (by simp), Nat.zero_add]
  cases bs with
  | nil => rfl
  | cons b bs => exact if_neg (Nat.lt_irrefl _)

/-- A text with returns, and the text without them under another name. -/
structure Twins (source twin : Source) : Prop where
  returns : ReturnsEndLines source.chars
  chars : twin.chars = withoutReturns source.chars

namespace Twins

open Piece

variable {source twin : Source}

/-- Before anything but a line feed both texts have come to the same place. -/
theorem location_eq (h : Twins source twin) {as bs : List Char} (hcs : source.chars = as ++ bs)
    (hbs : bs.head? ≠ some '\n') :
    source.location (byteWidth as) = twin.location (byteWidth (withoutReturns as)) := by
  have hreturns : ReturnsEndLines (as ++ bs) := hcs ▸ h.returns
  rw [Source.location_append hcs,
    Source.location_append (h.chars.trans ((congrArg _ hcs).trans (withoutReturns_append as bs))),
    (hreturns.left hbs).foldl_past]

/-- The same piece, at the same place in both texts. -/
def Same (source twin : Source) (x y : Nat × Piece) : Prop :=
  x.2 = y.2 ∧ source.location x.1 = twin.location y.1

theorem placed_same (h : Twins source twin) : List.Forall₂ (Same source twin)
    ((placed 0 (cut source.chars)).filter (·.2.isSolid))
    ((placed 0 (cut twin.chars)).filter (·.2.isSolid)) := by
  rw [h.chars]
  suffices hsuffix : ∀ bs as, source.chars = as ++ bs → List.Forall₂ (Same source twin)
      ((placed (byteWidth as) (cut bs)).filter (·.2.isSolid))
      ((placed (byteWidth (withoutReturns as)) (cut (withoutReturns bs))).filter (·.2.isSolid)) from
    hsuffix source.chars [] rfl
  refine cut_induction (fun _ _ => .nil) fun p rest hfits ih as hcs => ?_
  have ih := ih (as ++ p.text) (by rw [hcs, List.append_assoc])
  have hreturns : ReturnsEndLines (as ++ (p.text ++ rest)) := hcs ▸ h.returns
  rw [byteWidth_append, withoutReturns_append, byteWidth_append] at ih
  rw [cut_of_fits hfits, placed, withoutReturns_append]
  by_cases hp : p.text = ['\r']
  · have hs : p.isSolid = false := by
      rw [← Bool.not_eq_true]
      exact fun hs => absurd (hfits.isBlank_eq_false hs (hp ▸ List.mem_singleton_self _)) (by decide)
    rw [List.filter_cons_of_neg (by simp [hs])]
    rw [hp] at ih ⊢
    rw [width, hp]
    exact ih
  · rw [cut_of_fits (hfits.withoutReturns hreturns.right.right hp), placed]
    cases hs : p.isSolid with
    | false =>
      rw [List.filter_cons_of_neg (by simp [hs]), List.filter_cons_of_neg (by simpa [isSolid] using hs)]
      exact ih
    | true =>
      have hfree : ∀ c, Text.isBlank c = true → c ∉ p.text := fun c hc hmem => by
        simp [hfits.isBlank_eq_false hs hmem] at hc
      have hsame := withoutReturns_of_not_mem (hfree '\r' (by decide))
      rw [List.filter_cons_of_pos (by simpa using hs),
        List.filter_cons_of_pos (by simpa [isSolid] using hs)]
      refine .cons ⟨by rw [hsame], h.location_eq hcs fun hfeed => ?_⟩ ih
      obtain ⟨c, cs, htext⟩ := List.exists_cons_of_ne_nil hfits.text_ne_nil
      obtain rfl : c = '\n' := by simpa [htext] using hfeed
      exact hfree '\n' (by decide) (htext ▸ List.mem_cons_self)

/-- Tokens that differ in their places only, and stand at one place of the two texts. -/
def pairing (source twin : Source) : Pairing where
  rel t u := t.lexeme = u.lexeme ∧ u.span.file = twin.name ∧
    source.location t.span.start = twin.location u.span.start
  lexeme h := h.1

theorem tokens_paired (h : Twins source twin) : List.Forall₂ (pairing source twin).rel
    (Token.ofPieces source.name 0 (cut source.chars)) (Token.ofPieces twin.name 0 (cut twin.chars)) := by
  have hsolid : ∀ (file : String) (xs : List (Nat × Piece)), xs.filterMap (Token.ofPlaced? file) =
      (xs.filter (·.2.isSolid)).filterMap (Token.ofPlaced? file) := by
    intro file xs
    rw [List.filterMap_filter]
    refine List.filterMap_congr fun x _ => ?_
    obtain ⟨offset, shape, text⟩ := x
    cases shape <;> rfl
  rw [Token.ofPieces_eq_filterMap, Token.ofPieces_eq_filterMap, hsolid source.name, hsolid twin.name]
  refine List.rel_append (List.rel_filterMap ?_ h.placed_same) (.cons ⟨rfl, rfl, ?_⟩ .nil)
  · rintro ⟨offset, p⟩ ⟨offset', q⟩ ⟨heq, hplace⟩
    obtain rfl : p = q := heq
    simp only [Token.ofPlaced?]
    cases p.kind? with
    | none => exact .none
    | some k => exact .some ⟨rfl, rfl, hplace⟩
  · have hend := h.location_eq (show source.chars = source.chars ++ [] by simp) (by simp)
    rw [← h.chars] at hend
    simpa [Token.endMarker, widthOf_cut] using hend

theorem strays_paired (h : Twins source twin) : List.Forall₂
    (fun d e => ∃ p span span', d = Diagnostic.stray p span ∧ e = Diagnostic.stray p span' ∧
      span'.file = twin.name ∧ source.location span.start = twin.location span'.start)
    (Diagnostic.ofPieces source.name 0 (cut source.chars))
    (Diagnostic.ofPieces twin.name 0 (cut twin.chars)) := by
  have hsolid : ∀ xs : List (Nat × Piece), xs.filter (fun x => x.2.shape = .stray) =
      (xs.filter (·.2.isSolid)).filter fun x => x.2.shape = .stray := by
    intro xs
    rw [List.filter_filter]
    refine List.filter_congr fun x _ => ?_
    obtain ⟨offset, shape, text⟩ := x
    cases shape <;> rfl
  rw [Diagnostic.ofPieces_eq_map, Diagnostic.ofPieces_eq_map, hsolid, hsolid (placed _ (cut twin.chars))]
  rw [List.forall₂_map_left_iff, List.forall₂_map_right_iff]
  refine (List.rel_filter ?_ h.placed_same).imp ?_
  · rintro x y ⟨heq, -⟩
    simp [heq]
  · rintro ⟨offset, p⟩ ⟨offset', q⟩ ⟨heq, hplace⟩
    obtain rfl : p = q := heq
    exact ⟨p, _, _, rfl, rfl, rfl, hplace⟩

end Twins
end TinyFront
