import TinyFront.Proofs.Moves
import TinyFront.Proofs.Spelling

/-!
Slices of a text. Main statement: the bytes that some consecutive tokens of a text reach over are a
text of their own, whose tokens are these, moved to its beginning.
-/
namespace TinyFront

/-- The span reaches over the text, byte for byte. -/
structure Span.Delimits (s : Span) (source text : String) : Prop where
  start_nonneg : 0 ≤ s.start
  start_le_stop : s.start ≤ s.stop
  stop_le_size : s.stop ≤ source.utf8ByteSize
  bytes : source.toByteArray.extract s.start.toNat s.stop.toNat = text.toByteArray

theorem Span.delimits_of_append (file : String) (as bs cs : List Char) :
    Span.Delimits ⟨file, byteWidth as, byteWidth as + byteWidth bs⟩ (String.ofList (as ++ (bs ++ cs)))
      (String.ofList bs) := by
  have hsize : ∀ cs : List Char, cs.utf8Encode.size = byteWidth cs := fun cs => by
    rw [byteWidth_eq_length, List.utf8Encode, List.size_toByteArray]
  refine ⟨Int.natCast_nonneg _, Int.le_add_of_nonneg_right (Int.natCast_nonneg _), ?_, ?_⟩
  · rw [← byteWidth_toList, String.toList_ofList, byteWidth_append, byteWidth_append]
    exact Int.ofNat_le.2 (by omega)
  · rw [String.toByteArray_ofList, String.toByteArray_ofList, List.utf8Encode_append,
      List.utf8Encode_append]
    show (as.utf8Encode ++ (bs.utf8Encode ++ cs.utf8Encode)).extract (byteWidth as)
      (byteWidth as + byteWidth bs) = _
    have htail := ByteArray.extract_append_size_add (a := as.utf8Encode)
      (b := bs.utf8Encode ++ cs.utf8Encode) (i := 0) (j := bs.utf8Encode.size)
    rw [Nat.add_zero] at htail
    rw [← hsize as, ← hsize bs, htail, ByteArray.extract_append_eq_left rfl]

namespace Piece

/-- The pieces of a text may be parted anywhere, and each part is cut in the same way alone. -/
theorem cutFrom_eq_append {shape : Shape} {held cs : List Char} {ps qs : List Piece} (hps : ps ≠ [])
    (h : cutFrom shape held cs = ps ++ qs) :
    ∃ as bs, cs = as ++ bs ∧ cutFrom shape held as = ps ∧ cut bs = qs := by
  induction cs generalizing shape held ps with
  | nil =>
    obtain ⟨p, ps, rfl⟩ := List.exists_cons_of_ne_nil hps
    obtain ⟨rfl, hnil⟩ := List.cons.inj h
    obtain ⟨rfl, rfl⟩ := List.append_eq_nil_iff.1 hnil.symm
    exact ⟨[], [], rfl, rfl, rfl⟩
  | cons c cs ih =>
    rw [cutFrom] at h
    cases hg : shape.grow held c with
    | some grown =>
      rw [hg] at h
      obtain ⟨as, bs, rfl, has, hbs⟩ := ih hps h
      exact ⟨c :: as, bs, rfl, by rw [cutFrom, hg]; exact has, hbs⟩
    | none =>
      rw [hg] at h
      obtain ⟨p, ps, rfl⟩ := List.exists_cons_of_ne_nil hps
      obtain ⟨rfl, htail⟩ := List.cons.inj h
      cases ps with
      | nil => exact ⟨[], c :: cs, rfl, rfl, htail⟩
      | cons p ps =>
        obtain ⟨as, bs, rfl, has, hbs⟩ := ih (by simp) htail
        exact ⟨c :: as, bs, rfl, by rw [cutFrom, hg]; exact congrArg _ has, hbs⟩

theorem cut_eq_append {cs : List Char} {ps qs : List Piece} (h : cut cs = ps ++ qs) :
    ∃ as bs, cs = as ++ bs ∧ cut as = ps ∧ cut bs = qs := by
  by_cases hps : ps = []
  · subst hps
    exact ⟨[], cs, rfl, rfl, h⟩
  · cases cs with
    | nil => exact absurd (List.append_eq_nil_iff.1 h.symm).1 hps
    | cons c cs =>
      obtain ⟨as, bs, rfl, has, hbs⟩ := cutFrom_eq_append hps h
      exact ⟨c :: as, bs, rfl, has, hbs⟩

def widthOf (ps : List Piece) : Nat := byteWidth (ps.flatMap text)

@[simp] theorem widthOf_nil : widthOf [] = 0 := rfl

@[simp] theorem widthOf_cons (p : Piece) (ps : List Piece) : widthOf (p :: ps) = p.width + widthOf ps := by
  simp [widthOf, width]

@[simp] theorem widthOf_append (ps qs : List Piece) : widthOf (ps ++ qs) = widthOf ps + widthOf qs := by
  simp [widthOf]

theorem widthOf_cut (cs : List Char) : widthOf (cut cs) = byteWidth cs := by
  rw [widthOf, flatMap_text_cut]

end Piece

namespace Token

open Piece

theorem ofPieces_add (file : String) (offset k : Nat) (ps : List Piece) :
    ofPieces file (offset + k) ps = (ofPieces file offset ps).map (shift k) := by
  induction ps generalizing offset with
  | nil => simp [ofPieces, endMarker, shift, Span.shift]
  | cons p ps ih =>
    rw [ofPieces, ofPieces, Nat.add_right_comm, ih]
    cases p.kind? with
    | none => rfl
    | some kind =>
      simp only [List.map_cons, List.cons.injEq, and_true]
      simp [shift, Span.shift, Int.add_right_comm]

theorem map_shift_ofPieces (file : String) (offset : Nat) (ps : List Piece) :
    (ofPieces file offset ps).map (shift (-offset)) = ofPieces file 0 ps := by
  have h := ofPieces_add file 0 offset ps
  rw [Nat.zero_add] at h
  rw [h, List.map_map]
  refine (List.map_congr_left fun t _ => ?_).trans (List.map_id _)
  simp only [Function.comp_apply, shift, Span.shift_shift, Int.add_right_neg, Span.shift_zero, id_eq]

theorem start_of_mem_ofPieces {file : String} {offset : Nat} {ps : List Piece} :
    ∀ t ∈ ofPieces file offset ps, (offset : Int) ≤ t.span.start := by
  induction ps generalizing offset with
  | nil => simp [ofPieces, endMarker]
  | cons p ps ih =>
    have hlater : ∀ t ∈ ofPieces file (offset + p.width) ps, (offset : Int) ≤ t.span.start :=
      fun t ht => by have := ih t ht; omega
    rw [ofPieces]
    split
    · exact List.forall_mem_cons.2 ⟨Int.le_refl _, hlater⟩
    · exact hlater

theorem ordered_ofPieces (file : String) (offset : Nat) (ps : List Piece) :
    (ofPieces file offset ps).Pairwise fun t u => t.span.stop ≤ u.span.start := by
  induction ps generalizing offset with
  | nil => simp [ofPieces]
  | cons p ps ih =>
    rw [ofPieces]
    split
    · refine List.pairwise_cons.2 ⟨fun t ht => ?_, ih _⟩
      have := start_of_mem_ofPieces t ht
      simpa using this
    · exact ih _

/-- Behind its last token a list of pieces may be parted. -/
theorem ofPieces_eq_append {file : String} {offset : Nat} {ps : List Piece} {ts us : List Token}
    (hus : us ≠ []) (h : ofPieces file offset ps = ts ++ us) : ∃ qs rs, ps = qs ++ rs ∧
      ofPieces file offset qs = ts ++ [endMarker file (offset + widthOf qs)] ∧
      ofPieces file (offset + widthOf qs) rs = us ∧
      Cursor.endOf offset ts = (offset + widthOf qs : Nat) := by
  induction ps generalizing offset ts with
  | nil =>
    cases ts with
    | nil => exact ⟨[], [], rfl, rfl, h, rfl⟩
    | cons t ts =>
      have hnil := (List.cons.inj h).2
      exact absurd (List.append_eq_nil_iff.1 hnil.symm).2 hus
  | cons p ps ih =>
    by_cases hts : ts = []
    · subst hts
      exact ⟨[], p :: ps, rfl, rfl, h, rfl⟩
    · rw [ofPieces] at h
      cases hk : p.kind? with
      | none =>
        rw [hk] at h
        obtain ⟨qs, rs, rfl, hqs, hrs, hend⟩ := ih h
        have hwidth : offset + widthOf (p :: qs) = offset + p.width + widthOf qs := by
          rw [widthOf_cons, Nat.add_assoc]
        refine ⟨p :: qs, rs, rfl, ?_, ?_, ?_⟩
        · rw [ofPieces, hk, hwidth]
          exact hqs
        · rw [hwidth]
          exact hrs
        · rw [hwidth, ← hend]
          exact Cursor.endOf_of_ne_nil hts _ _
      | some kind =>
        rw [hk] at h
        obtain ⟨t, ts, rfl⟩ := List.exists_cons_of_ne_nil hts
        obtain ⟨rfl, htail⟩ := List.cons.inj h
        obtain ⟨qs, rs, rfl, hqs, hrs, hend⟩ := ih htail
        have hwidth : offset + widthOf (p :: qs) = offset + p.width + widthOf qs := by
          rw [widthOf_cons, Nat.add_assoc]
        refine ⟨p :: qs, rs, rfl, ?_, ?_, ?_⟩
        · rw [ofPieces, hk, hwidth]
          exact congrArg _ hqs
        · rw [hwidth]
          exact hrs
        · rw [hwidth, ← hend, ← List.singleton_append, Cursor.endOf_append]
          simp

theorem ofPieces_eq_cons {file : String} {offset : Nat} {ps : List Piece} {t : Token}
    {ts : List Token} (h : ofPieces file offset ps = t :: ts) : ∃ qs rs, ps = qs ++ rs ∧
      ofPieces file (offset + widthOf qs) rs = t :: ts ∧ t.span.start = (offset + widthOf qs : Nat) := by
  induction ps generalizing offset with
  | nil =>
    obtain ⟨rfl, rfl⟩ := List.cons.inj h
    exact ⟨[], [], rfl, rfl, rfl⟩
  | cons p ps ih =>
    cases hk : p.kind? with
    | none =>
      rw [ofPieces, hk] at h
      obtain ⟨qs, rs, rfl, hrs, hstart⟩ := ih h
      refine ⟨p :: qs, rs, rfl, ?_, ?_⟩
      · rwa [widthOf_cons, ← Nat.add_assoc]
      · rwa [widthOf_cons, ← Nat.add_assoc]
    | some kind =>
      refine ⟨[], p :: ps, rfl, h, ?_⟩
      rw [ofPieces, hk] at h
      obtain ⟨rfl, -⟩ := List.cons.inj h
      rfl

def spanOf (file : String) (ts : List Token) : Span :=
  ⟨file, (ts.head?.map (·.span.start)).getD 0, Cursor.endOf 0 ts⟩

/-- Tokens at the beginning of a text that ends behind the last one. -/
def alone (file : String) (ts : List Token) : List Token :=
  ts.map (shift (-(spanOf file ts).start)) ++
    [⟨.eof, "", ⟨file, (spanOf file ts).stop - (spanOf file ts).start,
      (spanOf file ts).stop - (spanOf file ts).start⟩⟩]

end Token

theorem Diagnostic.stray_of_ofPieces {file : String} {offset : Nat} {ps : List Piece}
    (h : ofPieces file offset ps = []) : ∀ p ∈ ps, p.shape ≠ .stray := by
  induction ps generalizing offset with
  | nil => simp
  | cons p ps ih =>
    rw [ofPieces] at h
    split at h
    · cases h
    · rename_i hp
      exact List.forall_mem_cons.2 ⟨hp, ih h⟩

/-- What consecutive tokens of a text reach over is a text with just these tokens. -/
theorem lex_slice {file source : String} {us ts vs : List Token}
    (hlex : lex file source = .ok (us ++ (ts ++ vs))) (hts : ts ≠ []) (hvs : vs ≠ []) :
    ∃ text, (Token.spanOf file ts).Delimits source text ∧
      lex file text = .ok (Token.alone file ts) := by
  obtain ⟨hstray, heq⟩ := lex_eq_ok hlex
  obtain ⟨ps, qs, hps, -, hqs, -⟩ := Token.ofPieces_eq_append (by simp [hts]) heq.symm
  obtain ⟨t, ts', rfl⟩ := List.exists_cons_of_ne_nil hts
  obtain ⟨blanks, qs, rfl, hqs, hstart⟩ := Token.ofPieces_eq_cons hqs
  replace hqs : Token.ofPieces file _ qs = (t :: ts') ++ vs := hqs
  obtain ⟨rs, qs, rfl, hrs, -, hend⟩ := Token.ofPieces_eq_append hvs hqs
  rw [← List.append_assoc] at hps
  obtain ⟨as, ds, hsource, has, hds⟩ := Piece.cut_eq_append hps
  obtain ⟨bs, cs, rfl, hbs, -⟩ := Piece.cut_eq_append hds
  have hwidth : 0 + Piece.widthOf ps + Piece.widthOf blanks = byteWidth as := by
    rw [← Piece.widthOf_cut as, has, Piece.widthOf_append, Nat.zero_add]
  have hwidth' : Piece.widthOf rs = byteWidth bs := by rw [← hbs, Piece.widthOf_cut]
  rw [hwidth] at hrs hstart hend
  rw [hwidth'] at hrs hend
  have hspan : Token.spanOf file (t :: ts') =
      ⟨file, byteWidth as, byteWidth as + byteWidth bs⟩ := by
    rw [Cursor.endOf_of_ne_nil (by simp) _ 0] at hend
    simp [Token.spanOf, hstart, hend]
  refine ⟨String.ofList bs, ?_, ?_⟩
  · rw [hspan, ← String.ofList_toList (s := source), hsource]
    exact Span.delimits_of_append file as bs cs
  · have hstray' := Diagnostic.stray_of_ofPieces hstray
    have hmoved := congrArg (List.map (Token.shift (-(byteWidth as : Int)))) hrs
    rw [Token.map_shift_ofPieces] at hmoved
    rw [lex, String.toList_ofList, hbs, Diagnostic.ofPieces_eq_nil fun p hp => hstray' p ?_, hmoved]
    · simp only [Token.alone, hspan, Token.endMarker, Token.shift, Span.shift, List.map_append,
        List.map_cons, List.map_nil, Int.natCast_add, Int.sub_eq_add_neg]
    · rw [hps]
      simp [hp]

end TinyFront
