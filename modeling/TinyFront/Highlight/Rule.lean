import TinyFront.Highlight.Role
import TinyFront.Text.Word
import TinyFront.Token.Piece

/-!
Rules of highlighting. A rule looks at what is unread and at the character before it, and answers
with fragments that begin what is unread, or not at all. Main statement: whatever a rule answers
with is the beginning of what is unread, and is not empty.
-/
namespace TinyFront.Highlight

/-- Rules never answer with nothing, so that reading gets on. -/
def Rule := (before : Option Char) → (unread : List Char) → Option (List Fragment)

/-- No word reaches here from the left. -/
def freeBefore (before : Option Char) : Bool := !before.any Text.isWordChar

/-- No word goes on here. -/
def freeAfter (unread : List Char) : Bool := !unread.head?.any Text.isWordChar

def fragment? (role : Role) (text : List Char) : Option (List Fragment) :=
  if text.isEmpty then none else some [⟨role, text⟩]

namespace Rule

def run (role : Role) (p : Char → Bool) : Rule := fun _ unread =>
  fragment? role (unread.takeWhile p)

/-- Two slashes and the rest of the line. -/
def comment : Rule := fun _ unread =>
  if "//".toList.isPrefixOf unread then fragment? .comment (unread.takeWhile (· != '\n')) else none

/-- Fixed texts, wherever they stand. -/
def texts (role : Role) (ts : List String) : Rule := fun _ unread =>
  (ts.find? (·.toList.isPrefixOf unread)).bind fun t => fragment? role t.toList

/-- Words that stand free on both sides. -/
def words (role : Role) (ws : List String) : Rule := fun before unread =>
  (ws.find? fun w => freeBefore before && w.toList.isPrefixOf unread &&
    freeAfter (unread.drop w.toList.length)).bind fun w => fragment? role w.toList

def single (role : Role) (cs : List Char) : Rule := fun _ unread =>
  match unread with
  | c :: _ => if cs.contains c then some [⟨role, [c]⟩] else none
  | [] => none

def name (role : Role) (starts : Char → Bool) : Rule := fun _ unread =>
  if unread.head?.any starts then fragment? role (unread.takeWhile continuesWord) else none

/-- A word that declares something, blanks, and the name that it declares. -/
def declared (word : String) (role : Role) (starts : Char → Bool) : Rule := fun before unread =>
  let behind := unread.drop word.toList.length
  let blanks := behind.takeWhile Text.isBlank
  let named := behind.dropWhile Text.isBlank
  if freeBefore before && word.toList.isPrefixOf unread && !blanks.isEmpty &&
      named.head?.any starts then
    some [⟨.declaration, word.toList⟩, ⟨.text, blanks⟩, ⟨role, named.takeWhile continuesWord⟩]
  else none

/-- What follows binds a name: an equals sign that starts no arrow and does not end the text, or a
colon. -/
def binds (behind : List Char) : Bool :=
  match behind.dropWhile Text.isBlank with
  | '=' :: c :: _ => c != '>'
  | ':' :: _ => true
  | _ => false

/-- A rule that holds only where what follows its fragments binds a name. -/
def beforeBinder (rule : Rule) : Rule := fun before unread =>
  (rule before unread).filter fun fs => binds (unread.drop (fs.flatMap (·.text)).length)

end Rule

def startsLower (c : Char) : Bool := c.isLower || c == '_'

/-- The first rule that answers counts. -/
def rules : List Rule := [
  Rule.run .text Text.isBlank,
  Rule.comment,
  Rule.declared "fn" .functionName startsLower,
  Rule.declared "type" .className Char.isUpper,
  Rule.words .declaration ["forall"],
  Rule.words .keyword ["if", "let", "else", "match"],
  Rule.words .constant ["true", "false"],
  Rule.run .integer Char.isDigit,
  Rule.words .wildcard ["_"],
  Rule.texts .operator ["->", "=>"],
  Rule.single .operator "+-*/=.".toList,
  Rule.name .className Char.isUpper,
  Rule.beforeBinder (Rule.name .boundName startsLower),
  Rule.name .name startsLower,
  Rule.single .punctuation "(),;\x7b\x7d:|".toList]

/-- The fragments of a rule are a nonempty beginning of the text. -/
def Begins (unread : List Char) (fs : List Fragment) : Prop :=
  fs.flatMap (·.text) <+: unread ∧ fs.flatMap (·.text) ≠ []

theorem begins_fragment? {role : Role} {text unread : List Char} {fs : List Fragment}
    (ht : text <+: unread) (h : fragment? role text = some fs) : Begins unread fs := by
  unfold fragment? at h
  split at h
  · contradiction
  · next hne =>
    injection h with h
    subst h
    exact ⟨by simpa using ht, by simpa using hne⟩

namespace Rule

/-- Every answer of the rule is a nonempty beginning of what is unread. -/
def Sound (rule : Rule) : Prop :=
  ∀ before unread fs, rule before unread = some fs → Begins unread fs

theorem sound_run (role : Role) (p : Char → Bool) : (run role p).Sound := fun _ _ _ h =>
  begins_fragment? ( List.takeWhile_prefix p) h

theorem sound_comment : comment.Sound := by
  intro before unread fs h
  unfold comment at h
  split at h
  · exact begins_fragment? ( List.takeWhile_prefix _) h
  · contradiction

theorem sound_texts (role : Role) (ts : List String) : (texts role ts).Sound := by
  intro before unread fs h
  obtain ⟨t, ht, hf⟩ := Option.bind_eq_some_iff.1 h
  exact begins_fragment? ( List.isPrefixOf_iff_prefix.1 (by simpa using List.find?_some ht)) hf

theorem sound_words (role : Role) (ws : List String) : (words role ws).Sound := by
  intro before unread fs h
  obtain ⟨w, hw, hf⟩ := Option.bind_eq_some_iff.1 h
  have hp := List.find?_some hw
  simp only [Bool.and_eq_true] at hp
  exact begins_fragment? ( List.isPrefixOf_iff_prefix.1 hp.1.2) hf

theorem sound_single (role : Role) (cs : List Char) : (single role cs).Sound := by
  intro before unread fs h
  cases unread with
  | nil => simp [single] at h
  | cons c unread =>
    simp only [single] at h
    split at h
    · injection h with h; subst h; exact ⟨by simp, by simp⟩
    · contradiction

theorem sound_name (role : Role) (starts : Char → Bool) : (name role starts).Sound := by
  intro before unread fs h
  unfold name at h
  split at h
  · exact begins_fragment? ( List.takeWhile_prefix _) h
  · contradiction

theorem sound_declared (word : String) (role : Role) (starts : Char → Bool) :
    (declared word role starts).Sound := by
  intro before unread fs h
  simp only [declared] at h
  split at h
  · next hc =>
    simp only [Bool.and_eq_true] at hc
    obtain ⟨rest, rfl⟩ := List.isPrefixOf_iff_prefix.1 hc.1.1.2
    simp only [List.drop_left] at h hc
    injection h with h
    subst h
    constructor
    · have hsplit := List.takeWhile_append_dropWhile (p := Text.isBlank) (l := rest)
      obtain ⟨tail, htail⟩ := List.takeWhile_prefix continuesWord (l := rest.dropWhile Text.isBlank)
      refine ⟨tail, ?_⟩
      simp only [List.flatMap_cons, List.flatMap_nil, List.append_nil, List.append_assoc, htail,
        hsplit]
    · have hb : rest.takeWhile Text.isBlank ≠ [] := by simpa using hc.1.2
      simp [hb]
  · contradiction

theorem sound_beforeBinder {rule : Rule} (h : rule.Sound) : (beforeBinder rule).Sound :=
  fun before unread fs hf => h before unread fs (Option.filter_eq_some_iff.1 hf).1

end Rule

theorem sound_of_mem_rules {rule : Rule} (h : rule ∈ rules) : rule.Sound := by
  simp only [rules, List.mem_cons, List.not_mem_nil, or_false] at h
  rcases h with h | h | h | h | h | h | h | h | h | h | h | h | h | h | h <;> subst h
  · exact Rule.sound_run _ _
  · exact Rule.sound_comment
  · exact Rule.sound_declared _ _ _
  · exact Rule.sound_declared _ _ _
  · exact Rule.sound_words _ _
  · exact Rule.sound_words _ _
  · exact Rule.sound_words _ _
  · exact Rule.sound_run _ _
  · exact Rule.sound_words _ _
  · exact Rule.sound_texts _ _
  · exact Rule.sound_single _ _
  · exact Rule.sound_name _ _
  · exact Rule.sound_beforeBinder (Rule.sound_name _ _)
  · exact Rule.sound_name _ _
  · exact Rule.sound_single _ _

end TinyFront.Highlight
