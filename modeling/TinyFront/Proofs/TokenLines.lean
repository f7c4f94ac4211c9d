import TinyFront.Command.Run
import TinyFront.Proofs.Excerpts
import TinyFront.Proofs.Quotes

/-!
The listing of the tokens of a file. Main statement: each line of it tells a kind, a text and a range, and
all ranges are those of the texts within the file, up to its end, just if no line of the file ends with two
characters; each such line end moves what follows it by one byte.
-/
namespace TinyFront

namespace Text

/-- How many line ends take two characters. -/
def countPairs : List Char → Nat
  | '\r' :: '\n' :: cs => countPairs cs + 1
  | _ :: cs => countPairs cs
  | [] => 0

theorem countPairs_eq_zero_iff (cs : List Char) : countPairs cs = 0 ↔ ¬['\r', '\n'] <:+: cs := by
  fun_induction countPairs cs with
  | case1 cs => simp [List.infix_cons_iff]
  | case2 c cs hne ih =>
    have hfront : ¬['\r', '\n'] <+: c :: cs := by
      rintro ⟨rest, h⟩
      obtain ⟨rfl, rfl⟩ := List.cons.inj h
      exact hne rest rfl rfl
    rw [ih, List.infix_cons_iff]
    simp [hfront]
  | case3 => simp

/-- A line end of two characters becomes one of one character. -/
theorem byteWidth_unifyNewlines (cs : List Char) :
    byteWidth (unifyNewlines cs) + countPairs cs = byteWidth cs := by
  fun_induction unifyNewlines cs with
  | case1 => rfl
  | case2 cs ih =>
    have hone : '\r'.utf8Size = 1 := by decide
    rw [countPairs, byteWidth_cons, byteWidth_cons, byteWidth_cons, hone]
    omega
  | case3 cs hne ih =>
    have hone : '\r'.utf8Size = '\n'.utf8Size := by decide
    rw [countPairs, byteWidth_cons, byteWidth_cons, hone, Nat.add_assoc, ih]
    exact fun rest _ h => hne rest h
  | case4 c cs _ hreturn ih =>
    rw [countPairs, byteWidth_cons, byteWidth_cons, Nat.add_assoc, ih]
    exact fun _ h _ => hreturn h

/-- A text can be parted wherever it can be with unified line ends. -/
theorem exists_of_unifyNewlines_eq_append {cs us vs : List Char} (h : unifyNewlines cs = us ++ vs) :
    ∃ as bs, cs = as ++ bs ∧ unifyNewlines as = us ∧ unifyNewlines bs = vs := by
  fun_induction unifyNewlines cs generalizing us with
  | case1 =>
    obtain ⟨rfl, rfl⟩ := List.append_eq_nil_iff.1 h.symm
    exact ⟨[], [], rfl, rfl, rfl⟩
  | case2 cs ih =>
    cases us with
    | nil => exact ⟨[], _, rfl, rfl, h⟩
    | cons u us =>
      obtain ⟨rfl, htail⟩ := List.cons.inj h
      obtain ⟨as, bs, rfl, rfl, rfl⟩ := ih htail
      exact ⟨'\r' :: '\n' :: as, bs, rfl, rfl, rfl⟩
  | case3 cs hne ih =>
    cases us with
    | nil => exact ⟨[], _, rfl, rfl, by rw [← List.nil_append vs, ← h, unifyNewlines]; exact hne⟩
    | cons u us =>
      obtain ⟨rfl, htail⟩ := List.cons.inj h
      obtain ⟨as, bs, rfl, rfl, rfl⟩ := ih htail
      refine ⟨'\r' :: as, bs, rfl, ?_, rfl⟩
      rw [unifyNewlines]
      rintro rest rfl
      exact hne _ rfl
  | case4 c cs hpair hreturn ih =>
    cases us with
    | nil => exact ⟨[], _, rfl, rfl, by rw [← List.nil_append vs, ← h, unifyNewlines] <;> assumption⟩
    | cons u us =>
      obtain ⟨rfl, htail⟩ := List.cons.inj h
      obtain ⟨as, bs, rfl, rfl, rfl⟩ := ih htail
      refine ⟨c :: as, bs, rfl, ?_, rfl⟩
      rw [unifyNewlines]
      · exact fun _ h _ => hreturn h
      · exact hreturn

theorem unifyNewlines_eq_self {cs : List Char} (h : '\n' ∉ unifyNewlines cs) : unifyNewlines cs = cs := by
  fun_induction unifyNewlines cs with
  | case1 => rfl
  | case2 cs ih => simp at h
  | case3 cs _ ih => simp at h
  | case4 c cs _ _ ih => rw [ih fun hmem => h (List.mem_cons_of_mem c hmem)]

end Text

namespace Piece

theorem isVerbatim_of_kind? {p : Piece} {k : TokenKind} (h : p.Formed) (hk : p.kind? = some k) :
    p.text.all Text.isVerbatim = true := by
  rw [List.all_eq_true]
  obtain ⟨shape, text⟩ := p
  cases shape with
  | word =>
    obtain ⟨c, cs, rfl, hc, hcs⟩ := h
    exact List.forall_mem_cons.2 ⟨Text.isVerbatim_of_continuesWord (continuesWord_of_startsWord hc),
      fun d hd => Text.isVerbatim_of_continuesWord (List.all_eq_true.1 hcs d hd)⟩
  | number =>
    have hdigits : text.all Char.isDigit = true := (Bool.and_eq_true_iff.1 h).2
    exact fun d hd =>
      Text.isVerbatim_of_continuesWord (continuesWord_iff.2 (.inr (List.all_eq_true.1 hdigits d hd)))
  | symbol =>
    have hsymbols : symbolChars.all Text.isVerbatim = true := by decide
    obtain ⟨c, rfl, hc⟩ | rfl | rfl := h
    · exact List.forall_mem_singleton.2 (List.all_eq_true.1 hsymbols c (by simpa using hc))
    · exact List.all_eq_true.1 (by decide)
    · exact List.all_eq_true.1 (by decide)
  | blank => cases hk
  | comment => cases hk
  | stray => cases hk

end Piece

namespace Token

theorem isVerbatim_of_mem_ofPieces {file : String} {offset : Nat} {cs : List Char} {t : Token}
    (ht : t ∈ ofPieces file offset (Piece.cut cs)) : t.text.toList.all Text.isVerbatim = true := by
  rw [ofPieces_eq_filterMap, List.mem_append] at ht
  obtain ht | ht := ht
  · obtain ⟨⟨offset, p⟩, hx, ht⟩ := List.mem_filterMap.1 ht
    obtain ⟨qs, rs, hcut, -⟩ := Piece.mem_placed.1 hx
    obtain ⟨k, hk, rfl⟩ := Option.map_eq_some_iff.1 ht
    have hmem : p ∈ Piece.cut cs := by simp [hcut]
    show (String.ofList p.text).toList.all _ = true
    rw [String.toList_ofList]
    exact Piece.isVerbatim_of_kind? (Piece.formed_of_mem_cut hmem) hk
  · obtain rfl := List.mem_singleton.1 ht
    rfl

/-- The range of the token holds its text, byte for byte, and that of the end marker is the end. -/
structure Indexes (t : Token) (source : String) : Prop where
  delimits : t.span.Delimits source t.text
  ends : t.kind = .eof → t.span.start = source.utf8ByteSize

/-- The token is written behind some text of the source, and its range is behind that text with unified
line ends. The end marker is behind the whole source. -/
def Trails (t : Token) (source : String) : Prop :=
  ∃ before after, source.toList = before ++ (t.text.toList ++ after) ∧
    t.span.start + Text.countPairs before = byteWidth before ∧
    t.span.stop = t.span.start + byteWidth t.text.toList ∧ (t.kind = .eof → t.text = "" ∧ after = [])

variable {file source : String} {ts : List Token} {t : Token}

theorem trails_of_lex (h : lex file (String.ofList (Text.unifyNewlines source.toList)) = .ok ts)
    (ht : t ∈ ts) : t.Trails source := by
  have hproper := (stream_of_lex h).proper t ht
  rw [(lex_eq_ok h).2, String.toList_ofList] at ht
  obtain ⟨before, own, after, hpoints, htext⟩ := Piece.points_of_mem_tokens ht
  have hown : t.text.toList = own := by rw [htext, String.toList_ofList]
  obtain ⟨as, rest, hsource, has, hrest⟩ :=
    Text.exists_of_unifyNewlines_eq_append (hpoints.parted.trans (List.append_assoc ..))
  obtain ⟨bs, cs, rfl, hbs, hcs⟩ := Text.exists_of_unifyNewlines_eq_append hrest
  have hsame : bs = own := by
    rw [← hbs]
    refine (Text.unifyNewlines_eq_self fun hmem => ?_).symm
    exact absurd (hpoints.solid _ (hbs ▸ hmem)) (by decide)
  refine ⟨as, cs, by rw [hown, hsource, hsame], ?_, by rw [hpoints.span_eq, hown], fun hk => ?_⟩
  · have hwidth := Text.byteWidth_unifyNewlines as
    rw [has] at hwidth
    rw [hpoints.span_eq, ← hwidth]
    rfl
  · have hempty : t.text = "" := by
      rw [Token.lexeme, hk] at hproper
      exact hproper
    have hnil : after = [] := hpoints.whole (by rw [← hown, hempty]; rfl)
    have hfeedless : Text.unifyNewlines cs = cs := Text.unifyNewlines_eq_self (by rw [hcs, hnil]; simp)
    exact ⟨hempty, by rw [← hfeedless, hcs, hnil]⟩

theorem Trails.indexes (h : t.Trails source) (hnone : ¬['\r', '\n'] <:+: source.toList) :
    t.Indexes source := by
  obtain ⟨before, after, hsource, hstart, hstop, hend⟩ := h
  have hbefore : Text.countPairs before = 0 := by
    refine (Text.countPairs_eq_zero_iff before).2 fun hpair => hnone (hpair.trans ?_)
    rw [hsource]
    exact List.infix_append' [] before _
  rw [hbefore, Int.natCast_zero, Int.add_zero] at hstart
  have hspan : t.span = ⟨t.span.file, byteWidth before, byteWidth before + byteWidth t.text.toList⟩ := by
    rw [← hstart, ← hstop]
  constructor
  · have hdelimits := Span.delimits_of_append t.span.file before t.text.toList after
    rwa [← hsource, String.ofList_toList, String.ofList_toList, ← hspan] at hdelimits
  · intro hk
    obtain ⟨htext, hafter⟩ := hend hk
    have hwhole : source.toList = before := by rw [hsource, htext, hafter]; simp
    rw [hstart, ← hwhole, byteWidth_toList]

/-- The tokens of a text with unified line ends have the ranges of their texts in the text itself unless
one of its line ends takes two characters. -/
theorem indexes_iff_of_lex (h : lex file (String.ofList (Text.unifyNewlines source.toList)) = .ok ts) :
    (∀ t ∈ ts, t.Indexes source) ↔ ¬['\r', '\n'] <:+: source.toList := by
  refine ⟨fun hall => ?_, fun hnone t ht => (trails_of_lex h ht).indexes hnone⟩
  obtain ⟨us, e, rfl, he⟩ := (stream_of_lex h).ended
  have hmem : e ∈ us ++ [e] := by simp
  obtain ⟨before, after, hsource, hstart, -, hend⟩ := trails_of_lex h hmem
  obtain ⟨htext, hafter⟩ := hend he
  have hwhole : source.toList = before := by rw [hsource, htext, hafter]; simp
  have hstop := (hall e hmem).ends he
  rw [← Text.countPairs_eq_zero_iff, hwhole]
  rw [← byteWidth_toList, hwhole] at hstop
  omega

end Token

namespace Command

open Files

/-- A line of the listing, whose text stands between single quotes. -/
def rangeLine (t : Token) : String :=
  Text.padLeft 6 (toString t.span.start) ++ ".." ++ Text.padRight 6 (toString t.span.stop) ++ " " ++
    Text.padRight 16 t.kind.label ++ " '" ++ t.text ++ "'"

theorem tokenLine_eq {t : Token} (h : t.text.toList.all Text.isVerbatim = true) :
    tokenLine t = rangeLine t := by
  have hquote : Text.quote t.text = "'" ++ t.text ++ "'" := by
    rw [Text.quote, Text.quoteChars_of_isVerbatim h]
    simp [String.ext_iff]
  rw [tokenLine, rangeLine, hquote]
  simp only [String.append_assoc]
  rfl

theorem tokens_eq_of_exit {d : Disk} {file : String} (h : (tokens d file).exit = 0) :
    ∃ text ts, d.readText (.ofString file) = .ok text ∧ lex file text = .ok ts ∧
      (tokens d file).outputs = ts.map fun t => .say (tokenLine t) := by
  unfold tokens at h ⊢
  split at h
  · cases h
  · next config text hprepare =>
    split at h
    · cases h
    · next ts hlex => exact ⟨text, ts, (prepareFile_eq_ok.1 hprepare).1, hlex, rfl⟩

/-- The lines of the listing tell the texts of the tokens and where these are in the file, but for one byte
for each line end of two characters before them. So all lines are right, and the last one tells the length
of the file, just if it has no such line end. -/
theorem tokens_index_file_iff {d : Disk} {file source : String}
    (hbytes : d.readBytes (.ofString file) = .ok source.toUTF8) (hexit : (tokens d file).exit = 0) :
    ∃ ts, lex file (String.ofList (Text.unifyNewlines source.toList)) = .ok ts ∧
      (tokens d file).outputs = ts.map (fun t => .say (rangeLine t)) ∧
      (∀ t ∈ ts, t.Trails source) ∧
      ((∀ t ∈ ts, t.Indexes source) ↔ ¬['\r', '\n'] <:+: source.toList) := by
  obtain ⟨text, ts, hread, hlex, houtputs⟩ := tokens_eq_of_exit hexit
  obtain rfl := Except.ok.inj (hread.symm.trans (Disk.readText_of_readBytes hbytes))
  refine ⟨ts, hlex, ?_, fun t ht => Token.trails_of_lex hlex ht, Token.indexes_iff_of_lex hlex⟩
  rw [houtputs]
  refine List.map_congr_left fun t ht => congrArg Output.say (tokenLine_eq ?_)
  exact Token.isVerbatim_of_mem_ofPieces ((lex_eq_ok hlex).2 ▸ ht)

theorem tokens_index_file_of_two_lines :
    let d := Disk.ofEntries [] [(["a.at"], .file "fn f \x7b\r\n 1 \x7d".toUTF8)]
    d.readBytes (.ofString "a.at") = .ok "fn f \x7b\r\n 1 \x7d".toUTF8 ∧ (tokens d "a.at").exit = 0 ∧
    ∃ ts : List Token, (tokens d "a.at").outputs = ts.map (fun t => .say (rangeLine t)) ∧
      (∀ t ∈ ts, t.Trails "fn f \x7b\r\n 1 \x7d") ∧ ¬∀ t ∈ ts, t.Indexes "fn f \x7b\r\n 1 \x7d" := by
  intro d
  have hbytes : d.readBytes (.ofString "a.at") = .ok "fn f \x7b\r\n 1 \x7d".toUTF8 := by rfl
  have hread : d.readText (.ofString "a.at") = .ok "fn f \x7b\n 1 \x7d" := by
    rw [Disk.readText_of_readBytes hbytes]
    decide
  have hprepare : prepareFile d "a.at" = .ok (.standard, "fn f \x7b\n 1 \x7d") :=
    prepareFile_eq_ok.2 ⟨hread, none, by rfl⟩
  have hexit : (tokens d "a.at").exit = 0 := by
    obtain ⟨ts, hlex⟩ : ∃ ts, lex "a.at" "fn f \x7b\n 1 \x7d" = .ok ts := exists_of_isOk (by decide +kernel)
    simp only [tokens, hprepare, hlex]
  obtain ⟨ts, -, houtputs, htrails, hindexes⟩ := tokens_index_file_iff hbytes hexit
  have hpair : ['\r', '\n'] <:+: "fn f \x7b\r\n 1 \x7d".toList :=
    ⟨"fn f \x7b".toList, " 1 \x7d".toList, by decide⟩
  exact ⟨hbytes, hexit, ts, houtputs, htrails, fun hall => hindexes.1 hall hpair⟩

end Command

end TinyFront
