import Mathlib.Data.List.Induction
import Mathlib.Data.Prod.Lex
import TinyFront.Proofs.Returns

/-!
Offsets as lines and columns. Main statement: the position of an offset counts the line feeds among the
bytes before it and the characters that begin behind the last of them, grows with the offset, and is
where the line that is shown has the character of that offset.
-/
namespace TinyFront

/-- The list ends with this line, which begins behind the last feed if there is one. -/
structure LastLine {α : Type} (feed : α) (all before line : List α) : Prop where
  parted : all = before ++ line
  begins : before = [] ∨ before.getLast? = some feed
  feedless : feed ∉ line

theorem exists_lastLine {α : Type} [DecidableEq α] (feed : α) (all : List α) :
    ∃ before line, LastLine feed all before line := by
  induction all using List.reverseRecOn with
  | nil => exact ⟨[], [], rfl, .inl rfl, List.not_mem_nil⟩
  | append_singleton as a ih =>
    by_cases ha : a = feed
    · exact ⟨as ++ [a], [], by simp, .inr (by simp [ha]), List.not_mem_nil⟩
    · obtain ⟨before, line, rfl, hbegins, hline⟩ := ih
      exact ⟨before, line ++ [a], by simp, hbegins, by simp [hline, Ne.symm ha]⟩

namespace Text

theorem head?_splitAt (separator : Char) (cs : List Char) :
    (splitAt separator cs).head? = some (cs.takeWhile (· ≠ separator)) := by
  induction cs with
  | nil => rfl
  | cons c cs ih =>
    by_cases hc : c = separator
    · simp [hc]
    · obtain ⟨piece, pieces, hs⟩ := List.exists_cons_of_ne_nil (splitAt_ne_nil separator cs)
      rw [hs] at ih
      simp_all [splitAt]

/-- Only a carriage return at the very end is not shown. -/
theorem getElem?_dropReturn {line rest : List Char} {c : Char} (h : c = '\r' → rest ≠ []) :
    (dropReturn (line ++ c :: rest))[line.length]? = some c := by
  unfold dropReturn
  split
  · rename_i hlast
    have hrest : rest ≠ [] := by
      rintro rfl
      exact h (by simpa using hlast) rfl
    obtain ⟨front, last, rfl⟩ := (List.eq_nil_or_concat' rest).resolve_left hrest
    rw [← List.cons_append, ← List.append_assoc, List.dropLast_concat]
    simp
  · simp

/-- The line that begins behind the last line feed of a text, counted from zero. -/
theorem getElem?_splitLines {as before line : List Char} (h : LastLine '\n' as before line)
    (bs : List Char) :
    (splitLines (as ++ bs))[as.count '\n']? = some (line ++ bs.takeWhile (· ≠ '\n')) := by
  obtain ⟨rfl, hbegins, hline⟩ := h
  have htake : (line ++ bs).takeWhile (· ≠ '\n') = line ++ bs.takeWhile (· ≠ '\n') :=
    List.takeWhile_append_of_pos fun c hc => by simpa using fun he : c = '\n' => hline (he ▸ hc)
  have hcount : line.count '\n' = 0 := List.count_eq_zero.2 hline
  rw [List.count_append, hcount, Nat.add_zero, List.append_assoc, ← htake, ← head?_splitAt]
  rcases hbegins with rfl | hlast
  · rw [List.head?_eq_getElem?]
    rfl
  · obtain ⟨front, rfl⟩ := List.getLast?_eq_some_iff.1 hlast
    have hlength : (splitAt '\n' front).length = (front ++ ['\n']).count '\n' := by
      rw [length_splitAt, List.count_append]
      rfl
    rw [List.append_assoc, List.singleton_append, splitLines, splitAt_append, ← hlength,
      List.getElem?_append_right (Nat.le_refl _), Nat.sub_self, List.head?_eq_getElem?]

end Text

namespace Position

theorem foldl_past_of_not_mem {cs : List Char} (h : '\n' ∉ cs) (p : Position) :
    cs.foldl past p = ⟨p.line, p.column + cs.length⟩ := by
  induction cs generalizing p with
  | nil => rfl
  | cons c cs ih =>
    obtain ⟨hc, hcs⟩ := not_or.1 (mt List.mem_cons.2 h)
    rw [List.foldl_cons, ih hcs, past, if_neg (Ne.symm hc), List.length_cons]
    simp only [mk.injEq, true_and]
    omega

/-- The position behind a text is on its last line, behind as many characters as that line has. -/
theorem foldl_past_of_lastLine {cs before line : List Char} (h : LastLine '\n' cs before line) :
    cs.foldl past ⟨1, 1⟩ = ⟨1 + cs.count '\n', line.length + 1⟩ := by
  obtain ⟨rfl, hbegins, hline⟩ := h
  have hcolumn : (before.foldl past ⟨1, 1⟩).column = 1 := by
    rcases hbegins with rfl | hfeed
    · rfl
    · obtain ⟨front, rfl⟩ := List.getLast?_eq_some_iff.1 hfeed
      rw [List.foldl_append]
      rfl
  rw [List.foldl_append, foldl_past_of_not_mem hline, foldl_past_line, hcolumn, List.count_append,
    List.count_eq_zero.2 hline, Nat.add_zero, Nat.add_comm 1 line.length]

/-- The position behind one more byte: bytes inside a character do not count. -/
def pastByte (p : Position) (b : UInt8) : Position :=
  if b = 10 then ⟨p.line + 1, 1⟩ else if b.IsUTF8FirstByte then ⟨p.line, p.column + 1⟩ else p

theorem le_pastByte (p : Position) (b : UInt8) :
    toLex (p.line, p.column) ≤ toLex ((p.pastByte b).line, (p.pastByte b).column) := by
  rw [Prod.Lex.toLex_le_toLex]
  unfold pastByte
  split
  · exact .inl (Nat.lt_succ_self _)
  · split
    · exact .inr ⟨rfl, Nat.le_succ _⟩
    · exact .inr ⟨rfl, Nat.le_refl _⟩

theorem le_foldl_pastByte (bs : List UInt8) (p : Position) :
    toLex (p.line, p.column) ≤
      toLex ((bs.foldl pastByte p).line, (bs.foldl pastByte p).column) := by
  induction bs generalizing p with
  | nil => exact le_refl _
  | cons b bs ih => exact (le_pastByte p b).trans (ih _)

theorem foldl_pastByte_line (bs : List UInt8) (p : Position) :
    (bs.foldl pastByte p).line = p.line + bs.count 10 := by
  induction bs generalizing p with
  | nil => rfl
  | cons b bs ih =>
    rw [List.foldl_cons, ih, List.count_cons, pastByte]
    split
    · simp_all
      omega
    · split <;> simp_all

theorem foldl_pastByte_column {bs : List UInt8} (h : 10 ∉ bs) (p : Position) :
    (bs.foldl pastByte p).column = p.column + bs.countP (·.IsUTF8FirstByte) := by
  induction bs generalizing p with
  | nil => rfl
  | cons b bs ih =>
    obtain ⟨hb, hbs⟩ := not_or.1 (mt List.mem_cons.2 h)
    rw [List.foldl_cons, ih hbs, List.countP_cons, pastByte, if_neg (Ne.symm hb)]
    split
    · simp_all
      omega
    · simp_all

theorem foldl_pastByte_begins {bs : List UInt8} (h : bs = [] ∨ bs.getLast? = some 10) :
    (bs.foldl pastByte ⟨1, 1⟩).column = 1 := by
  rcases h with rfl | h
  · rfl
  · obtain ⟨front, rfl⟩ := List.getLast?_eq_some_iff.1 h
    rw [List.foldl_append]
    rfl

theorem pastByte_inside {b : UInt8} (h : ¬ b.IsUTF8FirstByte) (p : Position) : p.pastByte b = p := by
  have hb : b ≠ 10 := by
    rintro rfl
    exact h (by decide)
  rw [pastByte, if_neg hb, if_neg h]

theorem feed_of_mem_utf8EncodeChar {c : Char} (h : 10 ∈ String.utf8EncodeChar c) : c = '\n' := by
  have hnat : ∀ n : Nat, (10 : UInt8) = UInt8.ofNat n → n % 256 = 10 := fun n hn => by
    simpa using (congrArg UInt8.toNat hn).symm
  simp only [String.utf8EncodeChar] at h
  split at h
  · have := hnat _ (List.mem_singleton.1 h)
    have hval : c.val.toNat = 10 := by omega
    exact Char.ext (UInt32.toNat_inj.1 hval)
  · -- the bytes of longer characters are 128 at least
    exfalso
    split at h
    · simp only [List.mem_cons, List.not_mem_nil, or_false] at h
      rcases h with h | h <;> have := hnat _ h <;> omega
    · split at h
      · simp only [List.mem_cons, List.not_mem_nil, or_false] at h
        rcases h with h | h | h <;> have := hnat _ h <;> omega
      · simp only [List.mem_cons, List.not_mem_nil, or_false] at h
        rcases h with h | h | h | h <;> have := hnat _ h <;> omega

theorem foldl_pastByte_inside {bs : List UInt8} (h : ∀ b ∈ bs, ¬ b.IsUTF8FirstByte) (p : Position) :
    bs.foldl pastByte p = p := by
  induction bs with
  | nil => rfl
  | cons b bs ih =>
    obtain ⟨hb, hbs⟩ := List.forall_mem_cons.1 h
    rw [List.foldl_cons, pastByte_inside hb, ih hbs]

/-- Only the first byte of a character is the first byte of one. -/
theorem exists_utf8EncodeChar (c : Char) : ∃ b bs, String.utf8EncodeChar c = b :: bs ∧
    b.IsUTF8FirstByte ∧ ∀ x ∈ bs, ¬ x.IsUTF8FirstByte := by
  obtain ⟨b, bs, hbytes⟩ := List.exists_cons_of_ne_nil (String.utf8EncodeChar_ne_nil (c := c))
  have hencoded : ∀ i (hi : i < (String.utf8EncodeChar c).length),
      (String.utf8EncodeChar c)[i].IsUTF8FirstByte ↔ i = 0 :=
    fun _ _ => UInt8.isUTF8FirstByte_getElem_utf8EncodeChar
  have hfirst : ∀ i (hi : i < (b :: bs).length), (b :: bs)[i].IsUTF8FirstByte ↔ i = 0 := by
    simpa only [hbytes] using hencoded
  refine ⟨b, bs, hbytes, (hfirst 0 (by simp)).2 rfl, fun x hx h => ?_⟩
  obtain ⟨i, hi, rfl⟩ := List.getElem_of_mem hx
  have := (hfirst (i + 1) (by simpa using hi)).1 (by simpa using h)
  omega

/-- A character moves the position once, as soon as its first byte is there. -/
theorem foldl_pastByte_char (c : Char) (p : Position) {n : Nat} (hn : 0 < n) :
    ((String.utf8EncodeChar c).take n).foldl pastByte p = p.past c := by
  obtain ⟨b, bs, hbytes, hfirst, hinside⟩ := exists_utf8EncodeChar c
  obtain ⟨n, rfl⟩ := Nat.exists_eq_succ_of_ne_zero hn.ne'
  rw [hbytes, List.take_succ_cons, List.foldl_cons,
    foldl_pastByte_inside fun x hx => hinside x (List.mem_of_mem_take hx)]
  by_cases hc : c = '\n'
  · obtain rfl : b = 10 := by
      rw [hc] at hbytes
      exact (List.cons.inj hbytes).1.symm
    rw [pastByte, if_pos rfl, past, if_pos hc]
  · have hb : b ≠ 10 := by
      rintro rfl
      exact hc (feed_of_mem_utf8EncodeChar (by simp [hbytes]))
    rw [pastByte, if_neg hb, if_pos hfirst, past, if_neg hc]

theorem walk_eq_foldl_pastByte (limit offset : Nat) (p : Position) (cs : List Char) :
    walk limit offset p cs =
      ((cs.flatMap String.utf8EncodeChar).take (limit - offset)).foldl pastByte p := by
  induction cs generalizing offset p with
  | nil => simp [walk]
  | cons c cs ih =>
    by_cases h : offset < limit
    · rw [walk, if_pos h, ih, List.flatMap_cons, List.take_append, List.foldl_append,
        foldl_pastByte_char c p (by omega), String.length_utf8EncodeChar, Nat.sub_sub]
    · rw [walk, if_neg h, Nat.sub_eq_zero_of_le (Nat.le_of_not_lt h), List.take_zero]
      rfl

end Position

namespace Source

def bytes (s : Source) : List UInt8 := s.content.toUTF8.data.toList

theorem bytes_eq (s : Source) : s.bytes = s.chars.flatMap String.utf8EncodeChar := by
  have h : s.content.toByteArray = s.chars.utf8Encode := by
    rw [← String.toByteArray_ofList, chars, String.ofList_toList]
  rw [bytes, String.toUTF8_eq_toByteArray, h, List.utf8Encode, List.data_toByteArray]

theorem location_eq_foldl (s : Source) (o : Int) :
    s.location o = (s.bytes.take (s.clamp o)).foldl Position.pastByte ⟨1, 1⟩ := by
  rw [location, Position.walk_eq_foldl_pastByte, bytes_eq, Nat.sub_zero]

theorem location_mono (s : Source) {o o' : Int} (h : o ≤ o') :
    toLex ((s.location o).line, (s.location o).column) ≤
      toLex ((s.location o').line, (s.location o').column) := by
  have hclamp : s.clamp o ≤ s.clamp o' := by
    simp only [clamp]
    omega
  have htake : s.bytes.take (s.clamp o') =
      s.bytes.take (s.clamp o) ++ (s.bytes.take (s.clamp o')).drop (s.clamp o) := by
    have hparts := List.take_append_drop (s.clamp o) (s.bytes.take (s.clamp o'))
    rwa [List.take_take, Nat.min_eq_left hclamp, eq_comm] at hparts
  rw [location_eq_foldl, location_eq_foldl, htake, List.foldl_append]
  exact Position.le_foldl_pastByte _ _

/-- The line number counts line feeds, the column what begins behind the last of them. -/
theorem location_of_lastLine (s : Source) {o : Int} {before line : List UInt8}
    (h : LastLine 10 (s.bytes.take (s.clamp o)) before line) :
    s.location o = ⟨1 + (s.bytes.take (s.clamp o)).count 10,
      1 + line.countP (·.IsUTF8FirstByte)⟩ := by
  obtain ⟨hparted, hbegins, hline⟩ := h
  have hposition : ∀ p : Position, p = ⟨p.line, p.column⟩ := fun _ => rfl
  rw [location_eq_foldl, hposition (List.foldl ..), Position.foldl_pastByte_line, hparted,
    List.foldl_append, Position.foldl_pastByte_column hline, Position.foldl_pastByte_begins hbegins]

/-- A character that is shown stands on the line of its offset, in the column of its offset. -/
theorem lineAt_location (s : Source) {as bs : List Char} {c : Char} (h : s.chars = as ++ c :: bs)
    (hc : c ≠ '\n') (hreturn : ¬ (c = '\r' ∧ ∀ d ∈ bs.head?, d = '\n')) :
    ∃ l k, s.location (byteWidth as) = ⟨l, k + 1⟩ ∧ (s.lineAt l).toList[k]? = some c := by
  obtain ⟨before, line, hlast⟩ := exists_lastLine '\n' as
  have hshown := Text.getElem?_splitLines hlast (c :: bs)
  rw [← h, List.takeWhile_cons_of_pos (by simpa using hc)] at hshown
  refine ⟨1 + as.count '\n', line.length, ?_, ?_⟩
  · rw [location_append h, Position.foldl_past_of_lastLine hlast]
  · have hline : s.lineAt ((1 + as.count '\n' : Nat) : Int) =
        String.ofList (Text.dropReturn (line ++ c :: bs.takeWhile (· ≠ '\n'))) := by
      have hindex : (1 + as.count '\n' : Nat) - 1 = as.count '\n' := by omega
      rw [lineAt, if_pos (by omega), Int.toNat_natCast, hindex, lines, List.getElem?_map, hshown]
      rfl
    rw [hline, String.toList_ofList]
    refine Text.getElem?_dropReturn fun hr hnil => hreturn ⟨hr, fun d hd => ?_⟩
    have hhead := List.head?_takeWhile (p := (· ≠ '\n')) (l := bs)
    rw [hnil, Option.mem_def.1 hd] at hhead
    simpa [Option.filter] using hhead

/-- The position of an offset, which is moved into the text first: its line counts the line feeds among
the bytes before it, and its column the characters that begin behind the last of them. Positions grow
with the offset, and the line that is shown has each character in the column of that character's offset,
but for line feeds and for a carriage return at the end of its line. -/
theorem location_of_offset (s : Source) :
    (∀ o : Int, ∃ (n : Nat) (before line : List UInt8),
      (n : Int) = max 0 (min o s.content.utf8ByteSize) ∧ LastLine 10 (s.bytes.take n) before line ∧
        s.location o = ⟨1 + (s.bytes.take n).count 10, 1 + line.countP (·.IsUTF8FirstByte)⟩) ∧
    (∀ o o' : Int, o ≤ o' → toLex ((s.location o).line, (s.location o).column) ≤
      toLex ((s.location o').line, (s.location o').column)) ∧
    ∀ as c bs, s.chars = as ++ c :: bs → c ≠ '\n' → ¬ (c = '\r' ∧ ∀ d ∈ bs.head?, d = '\n') →
      ∃ l k, s.location (byteWidth as) = ⟨l, k + 1⟩ ∧ (s.lineAt l).toList[k]? = some c := by
  refine ⟨fun o => ?_, fun o o' h => s.location_mono h, fun as c bs => s.lineAt_location⟩
  obtain ⟨before, line, hlast⟩ := exists_lastLine 10 (s.bytes.take (s.clamp o))
  refine ⟨s.clamp o, before, line, ?_, hlast, s.location_of_lastLine hlast⟩
  rw [clamp, byteSize, chars, byteWidth_toList]
  omega

theorem location_of_offset_of_accent :
    (Source.mk "a" "\né\r\nb").chars = ['\n'] ++ 'é' :: ['\r', '\n', 'b'] ∧ 'é' ≠ '\n' ∧
      ¬ ('é' = '\r' ∧ ∀ d ∈ ['\r', '\n', 'b'].head?, d = '\n') ∧
      ∃ l k, (Source.mk "a" "\né\r\nb").location (byteWidth ['\n']) = ⟨l, k + 1⟩ ∧
        ((Source.mk "a" "\né\r\nb").lineAt l).toList[k]? = some 'é' :=
  ⟨rfl, by decide, by decide, (location_of_offset ⟨"a", "\né\r\nb"⟩).2.2 _ _ _ rfl (by decide) (by decide)⟩

end Source
end TinyFront
