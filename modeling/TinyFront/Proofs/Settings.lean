import TinyFront.Config.Basic
import TinyFront.Proofs.Programs

/-!
Configuration documents that are programs as well. Main statement: a text that can be read both ways has
nothing but blanks in it, so laying it out changes no setting.
-/
namespace TinyFront

namespace Toml

variable {α β : Type} {cs : List Char} {c : Char}

theorem Scan.bind_ok {p : Scan α} {a : α} {rest : List Char} (h : p.run cs = .ok (a, rest))
    (k : α → Scan β) : (p >>= k).run cs = (k a).run rest := by
  rw [StateT.run_bind, h]
  rfl

theorem Scan.bind_error {p : Scan α} {r : Refusal} (h : p.run cs = .error r) (k : α → Scan β) :
    (p >>= k).run cs = .error r := by
  rw [StateT.run_bind, h]
  rfl

theorem Scan.run_skip (p : Char → Bool) (cs : List Char) :
    (skip p).run cs = .ok ((), cs.dropWhile p) := rfl

theorem Scan.run_accept (text : String) (cs : List Char) : (accept text).run cs =
    if text.toList.isPrefixOf cs then .ok (true, cs.drop text.toList.length) else .ok (false, cs) := by
  show (if text.toList.isPrefixOf cs = true then (do modify (·.drop text.toList.length); return true)
    else return false : Scan Bool).run cs = _
  split <;> rfl

theorem Scan.run_expect {text : String} (h : text.toList.isPrefixOf cs = false) :
    (expect text).run cs = .error .malformed := by
  have haccept : (accept text).run cs = .ok (false, cs) := by
    rw [run_accept, h]
    rfl
  exact (bind_ok haccept _).trans rfl

theorem line_space (bound : Nat) (d : Draft) (hc : isSpace c = true) (cs : List Char) :
    (linesUpTo (bound + 1) d).run (c :: cs) = (linesUpTo (bound + 1) d).run cs := by
  rw [linesUpTo, Scan.bind_ok (Scan.run_skip _ _), Scan.bind_ok (Scan.run_skip _ _),
    List.dropWhile_cons_of_pos hc]

theorem line_feed (bound : Nat) (d : Draft) (cs : List Char) :
    (linesUpTo (bound + 1) d).run ('\n' :: cs) = (linesUpTo bound d).run cs := rfl

theorem line_refused (bound : Nat) (d : Draft) (hs : isSpace c = false) (hc : c ∉ ['\n', '#', '['])
    {r : Refusal} (h : (pair value).run (c :: cs) = .error r) :
    (linesUpTo (bound + 1) d).run (c :: cs) = .error r := by
  have hstatement : (statement d).run (c :: cs) = .error r := by
    rw [statement, Scan.bind_ok (p := Scan.head?) rfl]
    simp only [List.mem_cons, not_or, List.not_mem_nil, not_false_eq_true, and_true] at hc
    simp only [List.head?_cons]
    split
    · simp_all
    · simp_all
    · simp_all
    · simp_all
    · exact Scan.bind_error h _
  rw [linesUpTo, Scan.bind_ok (Scan.run_skip _ _), List.dropWhile_cons_of_neg (by simpa using hs)]
  exact Scan.bind_error hstatement _

theorem pair_of_key_error {r : Refusal} (h : keyPart.run cs = .error r) :
    (pair value).run cs = .error r := by
  have hkey : key.run cs = .error r := by
    rw [key, Scan.bind_ok (p := get) rfl, keyUpTo]
    exact Scan.bind_error h _
  exact Scan.bind_error hkey _

theorem keyPart_run (cs : List Char) : keyPart.run cs =
    if (cs.takeWhile isBareKeyChar).isEmpty then
      (do return String.ofList (← Scan.ofReader lineText?) : Scan String).run cs
    else .ok (String.ofList (cs.takeWhile isBareKeyChar), cs.dropWhile isBareKeyChar) := by
  show (if (cs.takeWhile isBareKeyChar).isEmpty = true then
      (do return String.ofList (← Scan.ofReader lineText?) : Scan String)
    else (do Scan.skip isBareKeyChar; return String.ofList (cs.takeWhile isBareKeyChar))).run cs = _
  split <;> rfl

/-- No key begins with a character that is neither a bare one nor a quote. -/
theorem pair_refused (hbare : isBareKeyChar c = false) (hc : c ∉ ['"', '\'']) :
    (pair value).run (c :: cs) = .error .malformed := by
  refine pair_of_key_error ?_
  have hline : lineText? (c :: cs) = none := by
    simp only [List.mem_cons, not_or, List.not_mem_nil, not_false_eq_true, and_true] at hc
    rw [lineText?] <;> simp_all
  have hread : (Scan.ofReader lineText?).run (c :: cs) = .error .malformed := by
    simp only [StateT.run, Scan.ofReader, hline]
  rw [keyPart_run, List.takeWhile_cons_of_neg (by simpa using hbare)]
  exact Scan.bind_error hread _

/-- A bare word at the front of a line goes on as a dotted key or stands before a value. -/
theorem pair_refused_of_bare {w : List Char} (hw : w ≠ []) (hbare : w.all isBareKeyChar = true)
    (hrest : ∀ d ∈ cs.head?, isBareKeyChar d = false)
    (hnext : ∀ d ∈ (cs.dropWhile isSpace).head?, d ≠ '.' ∧ d ≠ '=') :
    (pair value).run (w ++ cs) = .error .malformed := by
  have hall : ∀ a ∈ w, isBareKeyChar a = true := List.all_eq_true.1 hbare
  have hstop : cs.takeWhile isBareKeyChar = [] ∧ cs.dropWhile isBareKeyChar = cs := by
    cases cs with
    | nil => exact ⟨rfl, rfl⟩
    | cons d cs => simp [hrest d rfl]
  have hpart : keyPart.run (w ++ cs) = .ok (String.ofList w, cs) := by
    rw [keyPart_run, List.takeWhile_append_of_pos hall, List.dropWhile_append_of_pos hall, hstop.1,
      hstop.2, List.append_nil, if_neg (by simpa using hw)]
  have hnone : ∀ t ∈ [".", "="], t.toList.isPrefixOf (cs.dropWhile isSpace) = false := by
    intro t ht
    obtain rfl | rfl : t = "." ∨ t = "=" := by simpa using ht
    all_goals
      cases hcs : cs.dropWhile isSpace with
      | nil => rfl
      | cons d ds =>
        obtain ⟨hpoint, hequals⟩ := hnext d (by rw [hcs]; rfl)
        simp [List.isPrefixOf, Ne.symm hpoint, Ne.symm hequals]
  have haccept : (Scan.accept ".").run (cs.dropWhile isSpace) = .ok (false, cs.dropWhile isSpace) := by
    rw [Scan.run_accept, hnone "." (by simp)]
    rfl
  have hkey : key.run (w ++ cs) = .ok ([String.ofList w], cs.dropWhile isSpace) := by
    rw [key, Scan.bind_ok (p := get) rfl, keyUpTo, Scan.bind_ok hpart,
      Scan.bind_ok (Scan.run_skip _ _), Scan.bind_ok haccept]
    rfl
  rw [pair, Scan.bind_ok hkey]
  exact Scan.bind_error (Scan.run_expect (hnone "=" (by simp))) _

theorem lines_skip {bs : List Char} (hbs : bs.all isSpaceOrFeed = true) (cs : List Char) (d : Draft)
    {bound : Nat} (hbound : bs.length < bound) :
    ∃ left, (linesUpTo bound d).run (bs ++ cs) = (linesUpTo (left + 1) d).run cs := by
  induction bs generalizing bound with
  | nil =>
    obtain ⟨left, rfl⟩ := Nat.exists_eq_succ_of_ne_zero (Nat.ne_of_gt hbound)
    exact ⟨left, rfl⟩
  | cons b bs ih =>
    obtain ⟨bound, rfl⟩ : ∃ n, bound = n + 1 := ⟨bound - 1, by omega⟩
    simp only [List.all_cons, Bool.and_eq_true] at hbs
    simp only [List.length_cons] at hbound
    by_cases hb : isSpace b = true
    · have hlt : bs.length < bound + 1 := by omega
      obtain ⟨left, hleft⟩ := ih hbs.2 hlt
      exact ⟨left, (line_space bound d hb (bs ++ cs)).trans hleft⟩
    · obtain rfl : b = '\n' := by simpa [isSpaceOrFeed, hb] using hbs.1
      have hlt : bs.length < bound := by omega
      obtain ⟨left, hleft⟩ := ih hbs.2 hlt
      exact ⟨left, (line_feed bound d (bs ++ cs)).trans hleft⟩

def toFeed (c : Char) : Char := if c = '\r' then '\n' else c

theorem toFeed_eq {c d : Char} (h : toFeed c = d) : c = d ∨ c = '\r' ∧ d = '\n' := by
  unfold toFeed at h
  split at h
  · exact .inr ⟨‹_›, h.symm⟩
  · exact .inl h

/-- A word without line feeds at the front is a word of the text itself. -/
theorem eq_append_of_map_toFeed {cs w rest : List Char} (h : cs.map toFeed = w ++ rest) (hw : '\n' ∉ w) :
    ∃ after, cs = w ++ after ∧ after.map toFeed = rest := by
  obtain ⟨v, after, rfl, rfl, rfl⟩ := List.map_eq_append_iff.1 h
  have hsame : v.map toFeed = v := by
    refine (List.map_congr_left fun a ha => ?_).trans (List.map_id v)
    obtain heq | ⟨-, heq⟩ := toFeed_eq (rfl : toFeed a = toFeed a)
    · exact heq.symm
    · exact absurd (heq ▸ List.mem_map_of_mem ha) hw
  exact ⟨after, by rw [hsame], rfl⟩

theorem unifyNewlines_eq_map (cs : List Char) :
    Text.unifyNewlines cs = (plainFeeds cs).map toFeed := by
  fun_induction Text.unifyNewlines cs with
  | case1 => rfl
  | case2 cs ih => rw [plainFeeds, List.map_cons, ih]; rfl
  | case3 cs h ih =>
    rw [plainFeeds, List.map_cons, ih]
    · rfl
    · exact fun ds _ hds => h ds hds
  | case4 c cs h h' ih =>
    rw [plainFeeds, List.map_cons, ih, toFeed, if_neg fun hc => h' hc]
    exact fun ds hc _ => h' hc

end Toml

namespace Piece

/-- The words that declarations begin with, and those that may follow them. -/
def openingKinds : List TokenKind := [.kwFn, .kwType, .identifier, .typeIdentifier]

theorem shape_eq_word {p : Piece} {k : TokenKind} (h : p.kind? = some k) (hk : k ∈ openingKinds) :
    p.shape = .word := by
  obtain ⟨shape, text⟩ := p
  cases shape with
  | word => rfl
  | number =>
    obtain rfl := Option.some.inj h
    exact absurd hk (by decide)
  | symbol =>
    have hall : TokenKind.symbols.all (fun q => !openingKinds.contains q.2) = true := by decide
    have hfree := List.all_eq_true.1 hall _ (TokenKind.mem_of_lookup h)
    simp [hk] at hfree
  | _ => cases h

namespace Stand

variable {cs : List Char} {c : Char} {xs : List Lexeme}

theorem of_blanks {bs : List Char} (hbs : ∀ b ∈ bs, Text.isBlank b = true)
    (h : Stand (cut (bs ++ cs)) xs) : Stand (cut cs) xs := by
  induction bs with
  | nil => exact h
  | cons b bs ih =>
    have hfits : Fits ⟨.blank, [b]⟩ (bs ++ cs) := ⟨b, rfl, hbs b List.mem_cons_self⟩
    have hcut : cut (b :: bs ++ cs) = ⟨.blank, [b]⟩ :: cut (bs ++ cs) := cut_of_fits hfits
    rw [hcut] at h
    refine ih (fun a ha => hbs a (List.mem_cons_of_mem _ ha)) ⟨?_, fun p hp => h.stray p (by simp [hp])⟩
    rw [← h.lexemes, List.filterMap_cons_none rfl]

/-- What a text that is not empty begins with: a blank, a comment, or its first lexeme. -/
theorem opening (h : Stand (cut (c :: cs)) xs) : Text.isBlank c = true ∨ c = '/' ∨
    ∃ (p : Piece) (rest : List Char) (k : TokenKind) (ys : List Lexeme), c :: cs = p.text ++ rest ∧
      p.Fits rest ∧ p.kind? = some k ∧ xs = (k, p.string) :: ys ∧ Stand (cut rest) ys := by
  obtain ⟨p, rest, heq, hfits⟩ := exists_fits c cs
  rw [heq, cut_of_fits hfits] at h
  cases hk : p.kind? with
  | none =>
    obtain ⟨shape, text⟩ := p
    obtain hs | hs | hs := hfits.shape_of_kind? hk
    · obtain rfl : shape = .blank := hs
      obtain ⟨b, rfl, hb⟩ := hfits
      obtain ⟨rfl, -⟩ := List.cons.inj heq
      exact .inl hb
    · obtain rfl : shape = .comment := hs
      obtain ⟨ds, rfl, -⟩ := hfits
      exact .inr (.inl (List.cons.inj heq).1)
    · exact absurd hs (h.stray _ List.mem_cons_self)
  | some k =>
    refine .inr (.inr ⟨p, rest, k, _, heq, hfits, hk, ?_, rfl, fun q hq => h.stray q (by simp [hq])⟩)
    rw [← h.lexemes, List.filterMap_cons_some (b := (k, p.string)) (by simp [lexeme?, hk])]

/-- Before a word stands nothing but blanks and comments. -/
theorem opening_word {k : TokenKind} {t : String} (h : Stand (cut (c :: cs)) ((k, t) :: xs))
    (hk : k ∈ openingKinds) : Text.isBlank c = true ∨ c = '/' ∨ startsWord c = true ∧
      ∃ rest, c :: cs = t.toList ++ rest ∧ Stand (cut rest) xs ∧ ∀ d ∈ rest.head?, continuesWord d = false := by
  refine h.opening.imp_right (.imp_right fun ⟨p, rest, k', ys, heq, hfits, hk', hxs, hrest⟩ => ?_)
  obtain ⟨hx, rfl⟩ := List.cons.inj hxs
  obtain ⟨rfl, rfl⟩ := Prod.mk.inj hx
  have hshape := shape_eq_word hk' hk
  obtain ⟨shape, text⟩ := p
  obtain rfl : shape = .word := hshape
  obtain ⟨d, ds, rfl, hd, -, hstop⟩ := hfits
  exact ⟨(List.cons.inj heq).1 ▸ hd, rest, by simpa [string] using heq, hrest, hstop⟩

end Stand
end Piece

/-- How the lexemes of a program begin, if it has any. -/
def OpensProgram (xs : List Lexeme) : Prop :=
  ∃ (k k' : TokenKind) (n : String) (ys : List Lexeme), (k = .kwFn ∨ k = .kwType) ∧
    (k' = .identifier ∨ k' = .typeIdentifier) ∧ xs = k.lexeme :: (k', n) :: ys

theorem Grammar.Derives.opensProgram {u : Lambdas} {xs : List Lexeme} {p : Program Unit}
    (h : Derives u .program xs p) : xs = [] ∧ p.decls = [] ∨ OpensProgram xs := by
  cases h with
  | program parts h =>
    cases parts with
    | nil => exact .inl ⟨rfl, rfl⟩
    | cons part parts =>
      obtain ⟨xs, d⟩ := part
      have hdecl : Derives u .decl xs d := h _ List.mem_cons_self
      cases hdecl with
      | fn n => exact .inr ⟨.kwFn, .identifier, n, _, .inl rfl, .inl rfl, rfl⟩
      | type n => exact .inr ⟨.kwType, .typeIdentifier, n, _, .inr rfl, .inr rfl, rfl⟩

namespace Toml

open Piece

theorem isBareKeyChar_eq_false {c : Char} (hc : Text.isBlank c = true ∨ c = '/') :
    isBareKeyChar c = false := by
  have hkey : isBareKeyChar c = (continuesWord c || c == '-') := by
    rw [isBareKeyChar, continuesWord, Bool.or_right_comm]
  obtain hblank | rfl := hc
  · have hne : c ≠ '-' := by
      rintro rfl
      exact absurd hblank (by decide)
    simp [hkey, continuesWord_of_isBlank hblank, hne]
  · decide

theorem line_refused_of_char (bound : Nat) (d : Draft) {c : Char} (cs : List Char)
    (hs : isSpaceOrFeed c = false) (hc : Text.isBlank c = true ∨ c = '/') :
    (linesUpTo (bound + 1) d).run (c :: cs) = .error .malformed := by
  have hfree : ∀ e : Char, Text.isBlank e = false → e ≠ '/' → c ≠ e := by
    rintro e he hslash rfl
    exact hc.elim (fun hb => by simp [hb] at he) hslash
  simp only [isSpaceOrFeed, Bool.or_eq_false_iff, beq_eq_false_iff_ne] at hs
  refine line_refused bound d hs.1 ?_ (pair_refused (isBareKeyChar_eq_false hc) ?_)
  · simp [hs.2, hfree '#' (by decide) (by decide), hfree '[' (by decide) (by decide)]
  · simp [hfree '"' (by decide) (by decide), hfree '\'' (by decide) (by decide)]

theorem isBlank_toFeed (c : Char) : Text.isBlank (toFeed c) = Text.isBlank c := by
  unfold toFeed
  split
  · subst c
    decide
  · rfl

theorem opening_toFeed {c : Char} (hc : Text.isBlank (toFeed c) = true ∨ toFeed c = '/') :
    Text.isBlank c = true ∨ c = '/' := by
  rw [isBlank_toFeed] at hc
  exact hc.imp_right fun h => (toFeed_eq h).resolve_right fun h => absurd h.2 (by decide)

theorem isBlank_of_isSpaceOrFeed {c : Char} (hc : isSpaceOrFeed c = true) : Text.isBlank c = true := by
  have hcases : (c = ' ' ∨ c = '\t') ∨ c = '\n' := by simpa [isSpaceOrFeed, isSpace] using hc
  obtain (rfl | rfl) | rfl := hcases <;> decide

/-- What a text stands for does not depend on its blanks in front. -/
theorem stand_dropWhile {f : Char → Bool} (hf : ∀ c, f c = true → Text.isBlank c = true)
    {cs : List Char} {xs : List Lexeme} (h : Stand (cut (cs.map toFeed)) xs) :
    Stand (cut ((cs.dropWhile f).map toFeed)) xs := by
  have hblanks : ∀ b ∈ (cs.takeWhile f).map toFeed, Text.isBlank b = true :=
    List.forall_mem_map.2 fun a ha => (isBlank_toFeed a).trans (hf a (List.mem_takeWhile_imp ha))
  refine Stand.of_blanks hblanks ?_
  rwa [← List.map_append, List.takeWhile_append_dropWhile]

/-- Before a word stands no sign that could follow a key. -/
theorem ne_sign_of_stand {c : Char} {cs : List Char} {k : TokenKind} {n : String} {ys : List Lexeme}
    (h : Stand (cut (toFeed c :: cs)) ((k, n) :: ys)) (hk : k ∈ openingKinds) : c ≠ '.' ∧ c ≠ '=' := by
  have hfree : ['.', '='].all (fun c => !Text.isBlank c && c != '/' && !startsWord c) = true := by decide
  have hsign : ∀ sign ∈ ['.', '='], c ≠ sign := by
    rintro sign hsign rfl
    have hsame : toFeed c = c := if_neg fun hreturn => absurd (hreturn ▸ hsign) (by decide)
    have hsign := List.all_eq_true.1 hfree c hsign
    rw [hsame] at h
    obtain hblank | hslash | ⟨hword, -⟩ := h.opening_word hk
    · simp [hblank] at hsign
    · simp [hslash] at hsign
    · simp [hword] at hsign
  exact ⟨hsign '.' (by simp), hsign '=' (by simp)⟩

/-- A line that begins with the first word of a declaration is no key with a value. -/
theorem line_refused_of_word (bound : Nat) (d : Draft) {t : String} (ht : t = "fn" ∨ t = "type")
    {cs : List Char} {k : TokenKind} {n : String} {ys : List Lexeme} (hk : k ∈ openingKinds)
    (hstand : Stand (cut (cs.map toFeed)) ((k, n) :: ys))
    (hstop : ∀ e ∈ (cs.map toFeed).head?, continuesWord e = false) :
    (linesUpTo (bound + 1) d).run (t.toList ++ cs) = .error .malformed := by
  have hrest : ∀ e ∈ cs.head?, isBareKeyChar e = false := by
    intro e he
    obtain ⟨es, rfl⟩ := List.head?_eq_some_iff.1 he
    obtain hblank | hslash | ⟨hword, -⟩ := hstand.opening_word hk
    · exact isBareKeyChar_eq_false (opening_toFeed (.inl hblank))
    · exact isBareKeyChar_eq_false (opening_toFeed (.inr hslash))
    · have hgoes := hstop _ rfl
      simp [continuesWord_of_startsWord hword] at hgoes
  have hnext : ∀ e ∈ (cs.dropWhile isSpace).head?, e ≠ '.' ∧ e ≠ '=' := by
    intro e he
    obtain ⟨es, hes⟩ := List.head?_eq_some_iff.1 he
    have hspace : ∀ c, isSpace c = true → Text.isBlank c = true := fun c hc =>
      isBlank_of_isSpaceOrFeed (by simp [isSpaceOrFeed, hc])
    have hlater := stand_dropWhile hspace hstand
    rw [hes, List.map_cons] at hlater
    exact ne_sign_of_stand hlater hk
  have hpair : (pair value).run (t.toList ++ cs) = .error .malformed := by
    refine pair_refused_of_bare ?_ ?_ hrest hnext
    · obtain rfl | rfl := ht <;> decide
    · obtain rfl | rfl := ht <;> decide
  obtain rfl | rfl := ht
  · have hpair : (pair value).run ('f' :: 'n' :: cs) = .error .malformed := hpair
    exact line_refused bound d (by decide) (by decide) hpair
  · have hpair : (pair value).run ('t' :: 'y' :: 'p' :: 'e' :: cs) = .error .malformed := hpair
    exact line_refused bound d (by decide) (by decide) hpair

/-- No line of settings begins where a program goes on, unless with a blank. -/
theorem line_refused_of_stand (bound : Nat) (d : Draft) {c : Char} {cs : List Char} {xs : List Lexeme}
    (hs : isSpaceOrFeed c = false) (hstand : Stand (cut ((c :: cs).map toFeed)) xs)
    (hxs : xs = [] ∨ OpensProgram xs) : (linesUpTo (bound + 1) d).run (c :: cs) = .error .malformed := by
  have hchar : Text.isBlank (toFeed c) = true ∨ toFeed c = '/' →
      (linesUpTo (bound + 1) d).run (c :: cs) = .error .malformed := fun hc =>
    line_refused_of_char bound d cs hs (opening_toFeed hc)
  obtain rfl | ⟨k, k', n, ys, hk, hk', rfl⟩ := hxs
  · obtain hblank | hslash | ⟨_, _, _, _, -, -, -, hcons, -⟩ := hstand.opening
    · exact hchar (.inl hblank)
    · exact hchar (.inr hslash)
    · cases hcons
  · have hmem : k ∈ openingKinds ∧ k' ∈ openingKinds := by
      obtain rfl | rfl := hk <;> obtain rfl | rfl := hk' <;> decide
    obtain hblank | hslash | ⟨-, rest, heq, hrest, hstop⟩ := hstand.opening_word hmem.1
    · exact hchar (.inl hblank)
    · exact hchar (.inr hslash)
    · have ht : k.lexeme.2 = "fn" ∨ k.lexeme.2 = "type" := by
        obtain rfl | rfl := hk
        · exact .inl rfl
        · exact .inr rfl
      have hfree : '\n' ∉ k.lexeme.2.toList := by
        obtain h | h := ht <;> rw [h] <;> decide
      have heq : (c :: cs).map toFeed = k.lexeme.2.toList ++ rest := heq
      obtain ⟨after, hsplit, rfl⟩ := eq_append_of_map_toFeed heq hfree
      rw [hsplit, line_refused_of_word bound d ht hmem.2 hrest hstop]

theorem exists_of_read {source : String} {es : List Entry} (h : read source = .ok es) :
    ∃ d rest, (linesUpTo ((plainFeeds source.toList).length + 1) .empty).run (plainFeeds source.toList) =
      .ok (d, rest) ∧ d.root = es := by
  cases hrun : (linesUpTo ((plainFeeds source.toList).length + 1) .empty).run
      (plainFeeds source.toList) with
  | error r => simp [read, hrun, bind, Except.bind] at h
  | ok x => exact ⟨x.1, x.2, rfl, by simpa [read, hrun, bind, Except.bind, pure, Except.pure] using h⟩

/-- A document that is a program as well has neither settings nor declarations. -/
theorem nil_of_read {source : String} {es : List Entry} (hread : read source = .ok es) {xs : List Lexeme}
    (hstand : Stand (cut (Text.unifyNewlines source.toList)) xs) (hxs : xs = [] ∨ OpensProgram xs) :
    es = [] ∧ xs = [] := by
  rw [unifyNewlines_eq_map] at hstand
  obtain ⟨d, rest, hrun, rfl⟩ := exists_of_read hread
  generalize plainFeeds source.toList = cs at hstand hrun
  have hbound : (cs.takeWhile isSpaceOrFeed).length < cs.length + 1 :=
    Nat.lt_succ_of_le (List.takeWhile_sublist _).length_le
  obtain ⟨left, hskip⟩ := lines_skip (all_takeWhile isSpaceOrFeed cs) (cs.dropWhile isSpaceOrFeed) .empty
    hbound
  rw [List.takeWhile_append_dropWhile] at hskip
  rw [hskip] at hrun
  have hlater := stand_dropWhile (fun _ => isBlank_of_isSpaceOrFeed) hstand
  have hhead := stops_dropWhile isSpaceOrFeed cs
  generalize cs.dropWhile isSpaceOrFeed = tail at hlater hhead hrun
  cases tail with
  | nil =>
    obtain ⟨rfl, -⟩ := Prod.mk.inj (Except.ok.inj hrun)
    exact ⟨rfl, hlater.lexemes.symm⟩
  | cons c tail =>
    rw [line_refused_of_stand left _ (hhead c rfl) hlater hxs] at hrun
    cases hrun

end Toml

theorem Piece.stand_of_lex {file source : String} {us : List Token} {e : Token}
    (hlex : lex file source = .ok (us ++ [e])) : Stand (cut source.toList) (us.map Token.lexeme) := by
  obtain ⟨hnone, hpieces⟩ := lex_eq_ok hlex
  refine ⟨?_, fun q hq hs => ?_⟩
  · have hlexemes := congrArg (List.map Token.lexeme) hpieces
    rw [Token.lexemes_ofPieces, List.map_append] at hlexemes
    exact (List.append_inj_left' hlexemes rfl).symm
  · rw [Diagnostic.ofPieces_eq_map, List.map_eq_nil_iff, List.filter_eq_nil_iff] at hnone
    obtain ⟨before, after, heq⟩ := List.append_of_mem hq
    exact hnone (_, q) (mem_placed.2 ⟨before, after, heq, rfl⟩) (by simpa using hs)

/-- The layout of a document that is a program gives the same settings. -/
theorem Config.ofDocument_format {file source : String} {p : Program Span} {c : Config}
    (hc : ofDocument source = .ok c)
    (hp : readProgram file (String.ofList (Text.unifyNewlines source.toList)) = .ok p) :
    ofDocument (p.format standardIndent) = .ok c := by
  obtain ⟨es, hread, htable⟩ : ∃ es, Toml.read source = .ok es ∧ ofTable es = .ok c := by
    rw [ofDocument] at hc
    split at hc
    · exact ⟨_, ‹_›, hc⟩
    · cases hc
  obtain ⟨ts, hlex, hrun⟩ := Parser.runSource_eq_ok.1 (readProgram_eq_ok.1 hp)
  have hts := stream_of_lex hlex
  obtain ⟨us, e, rfl, -⟩ := hts.ended
  have hstand := Piece.stand_of_lex hlex
  rw [String.toList_ofList] at hstand
  have hderives : Grammar.Derives .anywhere .program (us.map Token.lexeme) p.bare :=
    (reads_of_run hts hrun).2
  obtain ⟨rfl, hnil⟩ := Toml.nil_of_read hread hstand (hderives.opensProgram.imp_left And.left)
  obtain ⟨-, hdecls⟩ | ⟨k, k', n, ys, -, -, hcons⟩ := hderives.opensProgram
  · have hnone : p.decls = [] := by simpa [Program.bare, Program.map] using hdecls
    rw [Program.format, Program.marks, hnone]
    exact htable
  · rw [hnil] at hcons
    cases hcons

end TinyFront
