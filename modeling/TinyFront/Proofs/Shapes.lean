import TinyFront.Command.Sources

/-!
The shape of a disk: what is where, and whether it is a file or a folder. Main statement: where
configurations are looked for and which sources are collected depends on the shape alone, and giving
files new contents keeps it. Where the contents differ in one place only, all other files read the same.
-/
namespace TinyFront.Files

/-- The disks have files at the same places and folders at the same places. -/
structure Disk.SameShape (d e : Disk) : Prop where
  home : e.home = d.home
  keys : e.entries.map (·.1) = d.entries.map (·.1)
  isFolder : ∀ loc, (e.nodeAt? loc).map Node.isFolder = (d.nodeAt? loc).map Node.isFolder

theorem Disk.nodeAt?_put_file {d : Disk} {loc : Location} {old : ByteArray}
    (h : d.nodeAt? loc = some (.file old)) (new : ByteArray) (other : Location) :
    (d.put loc (.file new)).nodeAt? other =
      if other = loc then some (.file new) else d.nodeAt? other := by
  refine d.nodeAt?_put ?_ _ other
  rintro rfl
  cases h

namespace Disk.SameShape

variable {d e f : Disk}

theorem refl (d : Disk) : d.SameShape d := ⟨rfl, rfl, fun _ => rfl⟩

theorem symm (h : d.SameShape e) : e.SameShape d :=
  ⟨h.home.symm, h.keys.symm, fun loc => (h.isFolder loc).symm⟩

theorem trans (h : d.SameShape e) (h' : e.SameShape f) : d.SameShape f :=
  ⟨h'.home.trans h.home, h'.keys.trans h.keys, fun loc => (h'.isFolder loc).trans (h.isFolder loc)⟩

theorem put {loc : Location} {old : ByteArray} (h : d.nodeAt? loc = some (.file old))
    (new : ByteArray) : d.SameShape (d.put loc (.file new)) := by
  refine ⟨rfl, map_fst_setEntry_of_mem _ ?_, fun other => ?_⟩
  · have hloc : loc ≠ [] := by
      rintro rfl
      cases h
    rw [nodeAt?, if_neg hloc] at h
    obtain ⟨before, after, heq, -⟩ := List.lookup_eq_some_iff.1 h
    simp [heq]
  · rw [nodeAt?_put_file h]
    split
    · next hother => rw [hother, h]; rfl
    · rfl

theorem any_eq (h : d.SameShape e) (loc : Location) (p : Bool → Bool) :
    (e.nodeAt? loc).any (fun n => p n.isFolder) = (d.nodeAt? loc).any fun n => p n.isFolder := by
  have hmap : ∀ x : Option Node, x.any (fun n => p n.isFolder) = (x.map Node.isFolder).any p := by
    rintro (_ | n) <;> rfl
  rw [hmap, hmap, h.isFolder]

theorem isSome_eq (h : d.SameShape e) (loc : Location) :
    (e.nodeAt? loc).isSome = (d.nodeAt? loc).isSome := by
  rw [← Option.isSome_map (f := Node.isFolder), h.isFolder, Option.isSome_map]

theorem any_isFolder (h : d.SameShape e) (loc : Location) :
    (e.nodeAt? loc).any Node.isFolder = (d.nodeAt? loc).any Node.isFolder := h.any_eq loc id

theorem any_isFile (h : d.SameShape e) (loc : Location) :
    (e.nodeAt? loc).any Node.isFile = (d.nodeAt? loc).any Node.isFile := h.any_eq loc (!·)

theorem start_eq (h : d.SameShape e) (p : Path) : e.start p = d.start p := by
  rw [start, start, h.home]

theorem walk_eq (h : d.SameShape e) (loc : Location) (parts : List String) :
    e.walk loc parts = d.walk loc parts := by
  induction parts generalizing loc with
  | nil => rfl
  | cons part parts ih => rw [walk, walk, h.any_isFolder, ih]

theorem locate?_eq (h : d.SameShape e) (p : Path) : e.locate? p = d.locate? p := by
  rw [locate?, locate?, h.start_eq, h.walk_eq]

theorem any_node? (h : d.SameShape e) (p : Path) (q : Bool → Bool) :
    (e.node? p).any (fun n => q n.isFolder) = (d.node? p).any fun n => q n.isFolder := by
  rw [node?, node?, h.locate?_eq]
  cases d.locate? p with
  | none => rfl
  | some loc => exact h.any_eq loc q

theorem resolve_eq (h : d.SameShape e) (p : Path) : e.resolve p = d.resolve p := by
  rw [resolve, resolve, h.start_eq]

theorem meetsLongName_eq (h : d.SameShape e) (loc : Location) (parts : List String) :
    e.meetsLongName loc parts = d.meetsLongName loc parts := by
  induction parts generalizing loc with
  | nil => rfl
  | cons part parts ih => rw [meetsLongName, meetsLongName, h.any_isFolder, ih]

theorem isTooLong_eq (h : d.SameShape e) (p : Path) : e.isTooLong p = d.isTooLong p := by
  rw [isTooLong, isTooLong, h.start_eq, h.meetsLongName_eq]

theorem below_eq (h : d.SameShape e) (loc : Location) : e.below loc = d.below loc := by
  have hkeys : ∀ c : Disk, c.below loc = (c.entries.map (·.1)).filterMap fun other =>
      if loc.isPrefixOf other && other.length != loc.length then some (other.drop loc.length)
      else none := fun c => by rw [List.filterMap_map]; rfl
  rw [hkeys, hkeys, h.keys]

theorem names_eq (h : d.SameShape e) (loc : Location) : e.names loc = d.names loc := by
  rw [names, names, h.below_eq]

theorem isFolderAt_eq (h : d.SameShape e) (loc : Location) : e.isFolderAt loc = d.isFolderAt loc :=
  h.any_isFolder loc

theorem foldersFrom_eq (h : d.SameShape e) (loc : Location) :
    e.foldersFrom loc = d.foldersFrom loc := by
  rw [foldersFrom, foldersFrom, h.below_eq]
  simp only [h.isFolderAt_eq]

theorem follow_eq (h : d.SameShape e) (route : Route) (loc : Location) :
    e.follow route loc = d.follow route loc := by
  induction route generalizing loc with
  | nil => rfl
  | cons step route ih =>
    simp only [follow, h.isFolderAt_eq, h.names_eq, h.foldersFrom_eq, ih]

theorem search_eq (h : d.SameShape e) (route : Route) (loc : Location) :
    e.search route loc = d.search route loc := by
  rw [search, search, h.follow_eq]

end Disk.SameShape

/-- The disks have the same files and folders, and the same contents but for one location. -/
structure Disk.Apart (loc : Location) (d e : Disk) : Prop where
  shape : d.SameShape e
  node : ∀ other ≠ loc, e.nodeAt? other = d.nodeAt? other

namespace Disk.Apart

variable {loc : Location} {d e f : Disk} {file : Path}

theorem refl (loc : Location) (d : Disk) : Apart loc d d := ⟨.refl d, fun _ _ => rfl⟩

theorem symm (h : Apart loc d e) : Apart loc e d := ⟨h.shape.symm, fun other hne => (h.node other hne).symm⟩

theorem trans (h : Apart loc d e) (h' : Apart loc e f) : Apart loc d f :=
  ⟨h.shape.trans h'.shape, fun other hne => (h'.node other hne).trans (h.node other hne)⟩

theorem put {old : ByteArray} (hnode : d.nodeAt? loc = some (.file old)) (new : ByteArray) :
    Apart loc d (d.put loc (.file new)) :=
  ⟨.put hnode new, fun other hne => by rw [nodeAt?_put_file hnode, if_neg hne]⟩

theorem put_both {other : Location} {old : ByteArray} (h : Apart loc d e) (hother : other ≠ loc)
    (hnode : d.nodeAt? other = some (.file old)) (new : ByteArray) :
    Apart loc (d.put other (.file new)) (e.put other (.file new)) := by
  have hnode' : e.nodeAt? other = some (.file old) := (h.node other hother).trans hnode
  refine ⟨(SameShape.put hnode new).symm.trans (h.shape.trans (.put hnode' new)), fun there hne => ?_⟩
  rw [nodeAt?_put_file hnode, nodeAt?_put_file hnode', h.node there hne]

theorem readBytes_eq (h : Apart loc d e) (hfile : d.locate? file ≠ some loc) :
    e.readBytes file = d.readBytes file := by
  refine readBytes_congr (h.shape.locate?_eq file) fun other hother => h.node other ?_
  rintro rfl
  exact hfile hother

theorem readText_eq (h : Apart loc d e) (hfile : d.locate? file ≠ some loc) :
    e.readText file = d.readText file :=
  readText_eq_of_readBytes (h.readBytes_eq hfile)

end Disk.Apart
end TinyFront.Files

namespace TinyFront

open Files

variable {d e : Disk} (h : d.SameShape e)

include h

theorem Config.find?_eq_of_sameShape (p : Files.Path) : Config.find? e p = Config.find? d p := by
  have hupward : ∀ reversed, Config.upward e reversed = Config.upward d reversed := by
    intro reversed
    induction reversed with
    | nil => rw [Config.upward, Config.upward, h.isSome_eq]
    | cons name above ih => simp only [Config.upward, h.isSome_eq, ih]
  simp only [Config.find?, h.resolve_eq, h.any_isFile, h.isTooLong_eq, hupward]

namespace Command

theorem sourcesBelow_eq_of_sameShape (route : Route) (root : Files.Path) :
    sourcesBelow e route root = sourcesBelow d route root := by
  simp only [sourcesBelow, h.locate?_eq, h.search_eq]

theorem roots_eq_of_sameShape (target : Files.Path) (dirs : List Toml.Value) :
    roots e target dirs = roots d target dirs := by
  have hfolder : ∀ root, (e.node? root).any Node.isFolder = (d.node? root).any Node.isFolder :=
    fun root => h.any_node? root id
  induction dirs with
  | nil => rfl
  | cons v vs ih =>
    cases v <;> simp only [roots, h.isTooLong_eq, hfolder, ih]

/-- The same files are the sources of a target. -/
theorem sources_eq_of_sameShape (target : Files.Path) (config : Config) :
    sources e target config = sources d target config := by
  have hfile : (e.node? target).any Node.isFile = (d.node? target).any Node.isFile :=
    h.any_node? target (!·)
  have hbelow : sourcesBelow e = sourcesBelow d := by
    funext route root
    exact sourcesBelow_eq_of_sameShape h route root
  rw [sources, sources, hfile, roots_eq_of_sameShape h, hbelow]

end Command
end TinyFront
