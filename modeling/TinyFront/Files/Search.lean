import TinyFront.Files.Disk
import TinyFront.Files.Glob

/-!
Searching a disk along a route, a pattern cut into steps: to fitting names, to folders at any depth,
and back up. Main statements: a route leads on from folders only, and every place that it reaches
is listed once.
-/
namespace TinyFront.Files

inductive Step
  /-- To all in the folder whose names fit. -/
  | names (pattern : String)
  /-- To the folder itself and to every folder below it. -/
  | anyDepth
  /-- To the folder that it lies in. -/
  | up
  /-- To nothing but the folder itself. -/
  | stay
  deriving DecidableEq, Repr

abbrev Route := List Step

namespace Route

def hasTwoStars : List Char → Bool
  | '*' :: '*' :: _ => true
  | _ :: cs => hasTwoStars cs
  | [] => false

/-- The step of a part of a pattern. Two stars stand for any depth and are nothing else's part. -/
def step? (part : String) : Option Step :=
  if part = "**" then some .anyDepth
  else if part = ".." then some .up
  else if hasTwoStars part.toList then none
  else some (.names part)

/-- The route of a pattern, which begins at any depth. A slash at the end asks for a folder. -/
def ofPattern? (pattern : String) : Option Route := do
  let steps ← ((pathParts pattern).filter (!staysPut ·)).mapM step?
  return .anyDepth :: steps ++ if pattern.toList.getLast? = some '/' then [.stay] else []

end Route

namespace Disk

def names (d : Disk) (loc : Location) : List String :=
  (d.below loc).filterMap fun
    | [name] => some name
    | _ => none

def isFolderAt (d : Disk) (loc : Location) : Bool := (d.nodeAt? loc).any Node.isFolder

/-- The folders at and below a location, as the names that lead on from there. -/
def foldersFrom (d : Disk) (loc : Location) : List Location :=
  [] :: (d.below loc).filter fun names => d.isFolderAt (loc ++ names)

/-- The places that a route leads to, each as the parts that lead on from the start. -/
def follow (d : Disk) : Route → Location → List (List String)
  | [], _ => [[]]
  | step :: route, loc =>
    if d.isFolderAt loc then
      match step with
      | .names pattern =>
        ((d.names loc).filter (Glob.fitsName pattern)).flatMap fun name =>
          (d.follow route (loc ++ [name])).map (name :: ·)
      | .anyDepth =>
        (d.foldersFrom loc).flatMap fun names =>
          (d.follow route (loc ++ names)).map (names ++ ·)
      | .up => (d.follow route loc.dropLast).map (".." :: ·)
      | .stay => d.follow route loc
    else []

/-- The places that a route leads to, in the order of their parts. Routes that go to any depth twice
may come to a place more than once. -/
def search (d : Disk) (route : Route) (loc : Location) : List (List String) :=
  ((d.follow route loc).foldr List.insert []).mergeSort fun a b => !b.lex a fun s t =>
    @decide _ (String.decidableLT s t)

theorem follow_eq_nil {d : Disk} {loc : Location} (h : d.isFolderAt loc = false) (step : Step)
    (route : Route) : d.follow (step :: route) loc = [] := by
  simp [follow, h]

theorem nodup_foldr_insert {α : Type} [BEq α] [LawfulBEq α] (as : List α) :
    (as.foldr List.insert []).Nodup := by
  induction as with
  | nil => exact List.nodup_nil
  | cons a as ih =>
    rw [List.foldr_cons]
    unfold List.insert
    split
    · exact ih
    · next h => exact List.nodup_cons.2 ⟨fun hm => h (List.elem_iff.2 hm), ih⟩

theorem mem_foldr_insert {α : Type} [BEq α] [LawfulBEq α] {a : α} {as : List α} :
    a ∈ as.foldr List.insert [] ↔ a ∈ as := by
  induction as with
  | nil => rfl
  | cons b as ih => simp [List.mem_insert_iff, ih]

theorem mem_search {d : Disk} {route : Route} {loc : Location} {parts : List String} :
    parts ∈ d.search route loc ↔ parts ∈ d.follow route loc := by
  simp [search, mem_foldr_insert]

theorem nodup_search (d : Disk) (route : Route) (loc : Location) : (d.search route loc).Nodup :=
  (List.mergeSort_perm _ _).nodup_iff.2 (nodup_foldr_insert _)

end Disk
end TinyFront.Files
