import TinyFront.Files.Path
import TinyFront.Text.Lines

/-!
A disk with files and folders, seen from a working directory. Main statement: putting something at
a location changes what stands there and nothing else.
-/
namespace TinyFront.Files

inductive Node
  | file (bytes : ByteArray)
  | folder
  deriving Inhabited

namespace Node

instance : DecidableEq Node
  | file a, file b => @decidable_of_iff _ (a = b) (by simp) (ByteArray.instDecidableEq a b)
  | folder, folder => isTrue rfl
  | file _, folder => isFalse (by simp)
  | folder, file _ => isFalse (by simp)

def isFolder : Node → Bool
  | folder => true
  | file _ => false

def isFile (n : Node) : Bool := !n.isFolder

end Node

/-- Why something is not read. -/
inductive Unreadable
  | missing
  | isFolder
  /-- The bytes are not UTF-8. -/
  | notText
  /-- The path holds a character that no name holds. -/
  | nullCharacter
  /-- The path, or a name on it, is longer than any on a disk. -/
  | tooLong
  deriving DecidableEq, Repr

def Unreadable.message : Unreadable → String
  | missing => "no such file"
  | isFolder => "a folder stands where a file is asked for"
  | notText => "the file is not UTF-8"
  | nullCharacter => "the path holds a null character"
  | tooLong => "the path is too long"

/-- Changes the value of a location, or adds the location at the end. -/
def setEntry (loc : Location) (n : Node) : List (Location × Node) → List (Location × Node)
  | [] => [(loc, n)]
  | e :: es => if e.1 = loc then (loc, n) :: es else e :: setEntry loc n es

theorem lookup_cons_ite (loc other : Location) (n : Node) (es : List (Location × Node)) :
    ((loc, n) :: es).lookup other = if other = loc then some n else es.lookup other := by
  by_cases h : other = loc
  · simp [h]
  · rw [if_neg h]
    show (match other == loc with | true => some n | false => es.lookup other) = _
    rw [beq_false_of_ne h]

theorem lookup_setEntry (loc other : Location) (n : Node) (es : List (Location × Node)) :
    (setEntry loc n es).lookup other = if other = loc then some n else es.lookup other := by
  induction es with
  | nil => exact lookup_cons_ite loc other n []
  | cons e es ih =>
    obtain ⟨k, v⟩ := e
    by_cases hk : k = loc
    · by_cases ho : other = loc <;> simp [setEntry, lookup_cons_ite, hk, ho]
    · by_cases ho : other = k
      · subst ho; simp [setEntry, hk]
      · simp [setEntry, lookup_cons_ite, hk, ho, ih]

theorem map_fst_setEntry_of_mem {loc : Location} (n : Node) {es : List (Location × Node)}
    (h : loc ∈ es.map (·.1)) : (setEntry loc n es).map (·.1) = es.map (·.1) := by
  induction es with
  | nil => simp at h
  | cons e es ih =>
    by_cases hk : e.1 = loc
    · simp [setEntry, hk]
    · have ht : loc ∈ es.map (·.1) := by
        rcases List.mem_cons.1 h with he | ht
        · exact absurd he.symm hk
        · exact ht
      simp [setEntry, hk, ih ht]

theorem map_fst_setEntry_of_not_mem {loc : Location} (n : Node) {es : List (Location × Node)}
    (h : loc ∉ es.map (·.1)) : (setEntry loc n es).map (·.1) = es.map (·.1) ++ [loc] := by
  induction es with
  | nil => rfl
  | cons e es ih =>
    simp only [List.map_cons, List.mem_cons, not_or] at h
    simp [setEntry, Ne.symm h.1, ih h.2]

theorem nodup_setEntry (loc : Location) (n : Node) {es : List (Location × Node)}
    (h : (es.map (·.1)).Nodup) : ((setEntry loc n es).map (·.1)).Nodup := by
  by_cases hm : loc ∈ es.map (·.1)
  · rw [map_fst_setEntry_of_mem n hm]; exact h
  · rw [map_fst_setEntry_of_not_mem n hm, List.nodup_append]
    refine ⟨h, by simp, ?_⟩
    intro a ha b hb he
    simp only [List.mem_singleton] at hb
    exact hm (hb ▸ he ▸ ha)

structure Disk where
  entries : List (Location × Node)
  /-- Where relative paths start. -/
  home : Location
  distinct : (entries.map (·.1)).Nodup

namespace Disk

/-- The root is a folder on every disk. -/
def nodeAt? (d : Disk) (loc : Location) : Option Node :=
  if loc = [] then some .folder else d.entries.lookup loc

/-- Changes what stands at a location, or adds it to the disk. -/
def put (d : Disk) (loc : Location) (n : Node) : Disk :=
  ⟨setEntry loc n d.entries, d.home, nodup_setEntry loc n d.distinct⟩

@[simp] theorem home_put (d : Disk) (loc : Location) (n : Node) : (d.put loc n).home = d.home := rfl

theorem nodeAt?_put (d : Disk) {loc : Location} (hloc : loc ≠ []) (n : Node) (other : Location) :
    (d.put loc n).nodeAt? other = if other = loc then some n else d.nodeAt? other := by
  by_cases ho : other = []
  · subst ho; simp [nodeAt?, Ne.symm hloc]
  · simp [nodeAt?, put, ho, lookup_setEntry]

def empty (home : Location) : Disk := ⟨[], home, List.nodup_nil⟩

/-- The folders that a location lies in, without the root. -/
def foldersAbove : Location → List Location
  | [] => []
  | [_] => []
  | name :: rest => [name] :: (foldersAbove rest).map (name :: ·)

/-- Puts something where nothing is yet. -/
def putNew (d : Disk) (loc : Location) (n : Node) : Disk :=
  if (d.nodeAt? loc).isSome then d else d.put loc n

/-- A disk that holds the given entries and all folders that they and its home lie in. -/
def ofEntries (home : Location) (entries : List (Location × Node)) : Disk :=
  let folders := home :: foldersAbove home ++ entries.flatMap fun e => foldersAbove e.1
  folders.foldl (fun d loc => d.putNew loc .folder)
    (entries.foldl (fun d e => d.putNew e.1 e.2) (empty home))

/-- The location that the parts of a path lead to. Every part, even one that leads nowhere else,
asks for a folder to start from. -/
def walk (d : Disk) : Location → List String → Option Location
  | loc, [] => some loc
  | loc, part :: parts =>
    if (d.nodeAt? loc).any Node.isFolder then
      d.walk (if staysPut part then loc else advance loc part) parts
    else none

def start (d : Disk) (p : Path) : Location := if p.isAbsolute then [] else d.home

def locate? (d : Disk) (p : Path) : Option Location := d.walk (d.start p) p.parts

def node? (d : Disk) (p : Path) : Option Node := (d.locate? p).bind d.nodeAt?

/-- What a path leads to just as it is written: unlike in `node?` a slash at its end asks for a
folder, and the empty path leads nowhere. -/
def written? (d : Disk) (s : String) : Option Node :=
  if s.isEmpty then none
  else (d.walk (d.start (.ofString s)) (pathParts s)).bind d.nodeAt?

/-- The location that a path names, whether or not anything is there. -/
def resolve (d : Disk) (p : Path) : Location := p.parts.foldl advance (d.start p)

def nameLimit : Nat := 255

def pathLimit : Nat := 4095

/-- Whether a name is too long to which the parts before it lead. -/
def meetsLongName (d : Disk) : Location → List String → Bool
  | _, [] => false
  | loc, part :: parts =>
    (d.nodeAt? loc).any Node.isFolder &&
      (nameLimit < part.utf8ByteSize || d.meetsLongName (advance loc part) parts)

/-- Whether a path cannot be looked up for its length. -/
def isTooLong (d : Disk) (p : Path) : Bool :=
  pathLimit < p.text.utf8ByteSize || d.meetsLongName (d.start p) p.parts

def readBytes (d : Disk) (p : Path) : Except Unreadable ByteArray :=
  match d.node? p with
  | none => .error .missing
  | some .folder => .error .isFolder
  | some (.file bytes) => .ok bytes

def decode (bytes : ByteArray) : Except Unreadable String :=
  match String.fromUTF8? bytes with
  | some s => .ok s
  | none => .error .notText

@[simp] theorem decode_toUTF8 (s : String) : decode s.toUTF8 = .ok s := by
  rw [decode, String.toUTF8_eq_toByteArray, String.fromUTF8?, dif_pos s.isValidUTF8]
  rfl

/-- The text of a file with unified line ends. -/
def readText (d : Disk) (p : Path) : Except Unreadable String := do
  let s ← decode (← d.readBytes p)
  return String.ofList (Text.unifyNewlines s.toList)

section Reading

variable {d e : Disk} {file : Path} {text : String}

theorem readBytes_congr (hloc : e.locate? file = d.locate? file)
    (h : ∀ loc, d.locate? file = some loc → e.nodeAt? loc = d.nodeAt? loc) :
    e.readBytes file = d.readBytes file := by
  have hnode : e.node? file = d.node? file := by
    rw [node?, node?, hloc]
    cases hl : d.locate? file with
    | none => rfl
    | some loc => exact h loc hl
  rw [readBytes, readBytes, hnode]

theorem readText_eq_of_readBytes (h : e.readBytes file = d.readBytes file) :
    e.readText file = d.readText file := by
  rw [readText, readText, h]

theorem readText_eq_of_locate? {other : Path} (h : d.locate? other = d.locate? file) :
    d.readText other = d.readText file := by
  rw [readText, readText, readBytes, readBytes, node?, node?, h]

theorem readText_eq_ok : d.readText file = .ok text ↔ ∃ loc bytes source, d.locate? file = some loc ∧
    d.nodeAt? loc = some (.file bytes) ∧ decode bytes = .ok source ∧
    String.ofList (Text.unifyNewlines source.toList) = text := by
  simp only [readText, readBytes, node?, bind, Except.bind]
  cases d.locate? file with
  | none => simp
  | some loc =>
    cases hnode : d.nodeAt? loc with
    | none => simp [hnode]
    | some node =>
      cases node with
      | folder => simp [hnode]
      | file bytes => cases hdecode : decode bytes <;> simp [hnode, hdecode, pure, Except.pure]

theorem readText_of_readBytes (h : d.readBytes file = .ok text.toUTF8) :
    d.readText file = .ok (String.ofList (Text.unifyNewlines text.toList)) := by
  rw [readText, h]
  simp only [bind, Except.bind, decode_toUTF8]
  rfl

theorem readText_of_written {loc : Location} (hloc : d.locate? file = some loc)
    (hnode : d.nodeAt? loc = some (.file text.toUTF8)) (htext : '\r' ∉ text.toList) :
    d.readText file = .ok text :=
  readText_eq_ok.2 ⟨loc, _, text, hloc, hnode, decode_toUTF8 text, by
    rw [Text.unifyNewlines_of_not_mem htext, String.ofList_toList]⟩

end Reading

def writeText (d : Disk) (p : Path) (s : String) : Disk :=
  match d.locate? p with
  | some loc => d.put loc (.file s.toUTF8)
  | none => d

/-- Everything below a location, as the names that lead on from there. -/
def below (d : Disk) (loc : Location) : List Location :=
  d.entries.filterMap fun (other, _) =>
    if loc.isPrefixOf other && other.length != loc.length then some (other.drop loc.length)
    else none

theorem nodup_below (d : Disk) (loc : Location) : (d.below loc).Nodup := by
  have h := d.distinct
  simp only [List.Nodup, List.pairwise_map] at h
  simp only [below, List.Nodup, List.pairwise_filterMap]
  refine h.imp ?_
  intro a b hab x hx y hy hxy
  simp only [Option.ite_none_right_eq_some, Bool.and_eq_true, Option.some.injEq] at hx hy
  obtain ⟨as, has⟩ := List.isPrefixOf_iff_prefix.1 hx.1.1
  obtain ⟨bs, hbs⟩ := List.isPrefixOf_iff_prefix.1 hy.1.1
  have hx' := hx.2
  have hy' := hy.2
  rw [← has, List.drop_left] at hx'
  rw [← hbs, List.drop_left] at hy'
  exact hab (by rw [← has, ← hbs, hx', hy', hxy])

/-- The files of a disk whose content is not the same on an earlier one. -/
def filesSince (d before : Disk) : List (Location × ByteArray) :=
  d.entries.filterMap fun (loc, n) =>
    match n with
    | .file bytes => if before.nodeAt? loc = some (.file bytes) then none else some (loc, bytes)
    | .folder => none

end Disk
end TinyFront.Files
