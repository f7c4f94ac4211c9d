import Mathlib.Data.List.Induction
import Mathlib.Data.List.Nodup
import TinyFront.Command.Sources

/-!
What is collected for a folder. Main statement: every place below a searched folder whose name ends
with the extension is listed, once for each searched folder that it is below; so each source is listed
just once where no folder has such a name and no source is below two searched folders.
-/
namespace TinyFront

namespace Files

/-- A name in a folder, which no path takes for anything else. -/
def isEntryName (name : String) : Bool := !staysPut name && name != ".."

/-- At any depth, but not at the place itself. -/
def Below (root loc : Location) : Prop := root <+: loc ∧ root ≠ loc

instance (root loc : Location) : Decidable (Below root loc) :=
  inferInstanceAs (Decidable (_ ∧ _))

theorem below_iff {root loc : Location} : Below root loc ↔ ∃ names, names ≠ [] ∧ root ++ names = loc := by
  constructor
  · rintro ⟨⟨names, rfl⟩, hne⟩
    exact ⟨names, fun hnil => hne (by simp [hnil]), rfl⟩
  · rintro ⟨names, hnames, rfl⟩
    exact ⟨List.prefix_append _ _, fun heq => hnames (by simpa using heq)⟩

def hasExtension (extension : String) (loc : Location) : Bool :=
  loc.getLast?.any fun name => extension.toList.isSuffixOf name.toList

namespace Disk

/-- Everything on the disk has a name and lies in a folder. -/
structure Sound (d : Disk) : Prop where
  names : ∀ e ∈ d.entries, e.1.all isEntryName = true
  folders : ∀ e ∈ d.entries, d.isFolderAt e.1.dropLast = true

variable {d : Disk} {loc : Location} {names : List String} {name pattern : String}

theorem isFolderAt_iff : d.isFolderAt loc = true ↔ d.nodeAt? loc = some .folder := by
  rw [isFolderAt]
  cases d.nodeAt? loc with
  | none => simp
  | some n => cases n <;> simp [Node.isFolder]

@[simp] theorem isFolderAt_nil (d : Disk) : d.isFolderAt [] = true := rfl

theorem isSome_of_isFolderAt (h : d.isFolderAt loc = true) : (d.nodeAt? loc).isSome = true := by
  rw [isFolderAt_iff.1 h]
  rfl

theorem isSome_nodeAt?_iff (hloc : loc ≠ []) :
    (d.nodeAt? loc).isSome = true ↔ ∃ e ∈ d.entries, e.1 = loc := by
  rw [nodeAt?, if_neg hloc, Option.isSome_iff_exists]
  constructor
  · rintro ⟨n, h⟩
    obtain ⟨before, after, heq, -⟩ := List.lookup_eq_some_iff.1 h
    exact ⟨(loc, n), by simp [heq], rfl⟩
  · rintro ⟨e, he, rfl⟩
    by_contra hnone
    have := List.lookup_eq_none_iff.1 (Option.eq_none_iff_forall_ne_some.2 (not_exists.1 hnone)) e he
    simp at this

theorem mem_below_iff :
    names ∈ d.below loc ↔ names ≠ [] ∧ (d.nodeAt? (loc ++ names)).isSome = true := by
  have hmem : names ∈ d.below loc ↔ names ≠ [] ∧ ∃ e ∈ d.entries, e.1 = loc ++ names := by
    simp only [below, List.mem_filterMap, Option.ite_none_right_eq_some, Bool.and_eq_true,
      List.isPrefixOf_iff_prefix, bne_iff_ne, Option.some.injEq]
    constructor
    · rintro ⟨e, he, ⟨⟨more, hmore⟩, hlength⟩, rfl⟩
      rw [← hmore, List.drop_left]
      refine ⟨?_, e, he, hmore.symm⟩
      rintro rfl
      simp [← hmore] at hlength
    · rintro ⟨hne, e, he, heq⟩
      refine ⟨e, he, ⟨⟨names, heq.symm⟩, ?_⟩, by rw [heq, List.drop_left]⟩
      simpa [heq] using hne
  rw [hmem]
  exact and_congr_right fun hne => (isSome_nodeAt?_iff (by simp [hne])).symm

theorem mem_names_iff : name ∈ d.names loc ↔ (d.nodeAt? (loc ++ [name])).isSome = true := by
  have hmem : name ∈ d.names loc ↔ [name] ∈ d.below loc := by
    simp only [Disk.names, List.mem_filterMap]
    constructor
    · rintro ⟨more, hmore, heq⟩
      split at heq
      · obtain rfl := Option.some.inj heq
        exact hmore
      · cases heq
    · exact fun h => ⟨[name], h, rfl⟩
  rw [hmem, mem_below_iff]
  simp

theorem mem_foldersFrom_iff (hloc : d.isFolderAt loc = true) :
    names ∈ d.foldersFrom loc ↔ d.isFolderAt (loc ++ names) = true := by
  rw [foldersFrom, List.mem_cons, List.mem_filter, mem_below_iff]
  constructor
  · rintro (rfl | ⟨-, h⟩)
    · simpa using hloc
    · exact h
  · intro h
    by_cases hnames : names = []
    · exact .inl hnames
    · exact .inr ⟨⟨hnames, isSome_of_isFolderAt h⟩, h⟩

namespace Sound

variable (hd : d.Sound)

include hd

theorem isFolderAt_dropLast (h : (d.nodeAt? loc).isSome = true) : d.isFolderAt loc.dropLast = true := by
  by_cases hloc : loc = []
  · simp [hloc]
  · obtain ⟨e, he, rfl⟩ := (isSome_nodeAt?_iff hloc).1 h
    exact hd.folders e he

theorem isEntryName_of_mem (h : (d.nodeAt? loc).isSome = true) : ∀ name ∈ loc, isEntryName name = true := by
  by_cases hloc : loc = []
  · simp [hloc]
  · obtain ⟨e, he, rfl⟩ := (isSome_nodeAt?_iff hloc).1 h
    exact List.all_eq_true.1 (hd.names e he)

/-- Whatever something lies below is a folder. -/
theorem isFolderAt_of_append (hnames : names ≠ []) (h : (d.nodeAt? (loc ++ names)).isSome = true) :
    d.isFolderAt loc = true := by
  induction names using List.reverseRecOn with
  | nil => contradiction
  | append_singleton names name ih =>
    have hfolder := hd.isFolderAt_dropLast h
    rw [← List.append_assoc, List.dropLast_concat] at hfolder
    by_cases hnil : names = []
    · simpa [hnil] using hfolder
    · exact ih hnil (isSome_of_isFolderAt hfolder)

theorem walk_eq (h : (d.nodeAt? (loc ++ names)).isSome = true) :
    d.walk loc names = some (loc ++ names) := by
  induction names generalizing loc with
  | nil => simp [walk]
  | cons name names ih =>
    have hfolder : (d.nodeAt? loc).any Node.isFolder = true := hd.isFolderAt_of_append (by simp) h
    have hname : isEntryName name = true := hd.isEntryName_of_mem h name (by simp)
    simp only [isEntryName, Bool.and_eq_true, Bool.not_eq_true', bne_iff_ne] at hname
    have happend : loc ++ name :: names = loc ++ [name] ++ names := by simp
    rw [happend] at h ⊢
    rw [walk, if_pos hfolder, hname.1, if_neg Bool.false_ne_true, advance, if_neg hname.2]
    exact ih h

/-- A search for names at any depth comes to everything below that has such a name. -/
theorem mem_search_iff (hloc : d.isFolderAt loc = true) :
    names ∈ d.search [.anyDepth, .names pattern] loc ↔
      (d.nodeAt? (loc ++ names)).isSome = true ∧ names.getLast?.any (Glob.fitsName pattern) = true := by
  have hstep : names ∈ d.search [.anyDepth, .names pattern] loc ↔
      ∃ front name, names = front ++ [name] ∧ d.isFolderAt (loc ++ front) = true ∧
        (d.nodeAt? (loc ++ front ++ [name])).isSome = true ∧ Glob.fitsName pattern name = true := by
    simp only [mem_search, follow, if_pos hloc, List.mem_flatMap, List.mem_map, mem_foldersFrom_iff hloc]
    constructor
    · rintro ⟨front, hfront, rest, hrest, rfl⟩
      simp only [if_pos hfront, List.mem_flatMap, List.mem_filter, mem_names_iff, List.mem_map,
        List.mem_singleton] at hrest
      obtain ⟨name, ⟨hname, hfits⟩, rest, rfl, rfl⟩ := hrest
      exact ⟨front, name, rfl, hfront, hname, hfits⟩
    · rintro ⟨front, name, rfl, hfront, hname, hfits⟩
      refine ⟨front, hfront, [name], ?_, rfl⟩
      simp only [if_pos hfront, List.mem_flatMap, List.mem_filter, mem_names_iff, List.mem_map,
        List.mem_singleton]
      exact ⟨name, ⟨hname, hfits⟩, [], rfl, rfl⟩
  rw [hstep]
  constructor
  · rintro ⟨front, name, rfl, -, hname, hfits⟩
    rw [List.append_assoc] at hname
    exact ⟨hname, by simpa using hfits⟩
  · rintro ⟨h, hany⟩
    obtain ⟨name, hlast, hfits⟩ := (Option.any_eq_true _ _).1 hany
    obtain ⟨front, rfl⟩ := List.getLast?_eq_some_iff.1 hlast
    rw [← List.append_assoc] at h
    refine ⟨front, name, rfl, ?_, h, hfits⟩
    simpa using hd.isFolderAt_dropLast h

end Sound

theorem walk_append (d : Disk) (loc : Location) (parts more : List String) :
    d.walk loc (parts ++ more) = (d.walk loc parts).bind fun next => d.walk next more := by
  induction parts generalizing loc with
  | nil => rfl
  | cons part parts ih =>
    simp only [List.cons_append, walk]
    split
    · exact ih _
    · rfl

theorem Sound.locate?_below (hd : d.Sound) {root : Files.Path} (hroot : d.locate? root = some loc)
    (h : (d.nodeAt? (loc ++ names)).isSome = true) :
    d.locate? (root.below names) = some (loc ++ names) := by
  have hparts : d.locate? (root.below names) = (d.locate? root).bind fun next => d.walk next names :=
    d.walk_append _ root.parts names
  rw [hparts, hroot]
  exact hd.walk_eq h

end Disk
end Files

namespace Command

open Files

/-- A configured folder can be looked up, or leads nowhere at once. -/
def Askable (d : Disk) (root : Files.Path) : Prop := d.isTooLong root = false ∨ root.hasNull = true

/-- The extension holds nothing that means something in a pattern. -/
def IsPlain (extension : String) : Prop :=
  extension.toList.all Glob.isPlain = true ∧ '/' ∉ extension.toList

/-- The configured folders of a target that are there. -/
def folders (d : Disk) (target : Files.Path) (dirs : List String) : List Files.Path :=
  (dirs.map fun s => target.join (.ofString s)).filter fun root => (d.node? root).any Node.isFolder

/-- The folders that are searched: the target itself where no configured one is there. -/
def searched (d : Disk) (target : Files.Path) (dirs : List String) : List Location :=
  (if (folders d target dirs).isEmpty then [target] else folders d target dirs).filterMap d.locate?

/-- A file whose name ends with the extension. -/
def IsSource (d : Disk) (extension : String) (loc : Location) : Prop :=
  (d.nodeAt? loc).any Node.isFile = true ∧ hasExtension extension loc = true

/-- The files are the sources at any depth below the folders, each of them once. -/
def Collects (d : Disk) (roots : List Location) (extension : String) (files : List Files.Path) : Prop :=
  ∃ locs : List Location, files.map d.locate? = locs.map some ∧ locs.Nodup ∧
    ∀ loc, loc ∈ locs ↔ IsSource d extension loc ∧ ∃ root ∈ roots, Below root loc

/-- No folder is named like a source, and no source is below two of the folders. -/
structure Tidy (d : Disk) (roots : List Location) (extension : String) : Prop where
  folder : ∀ loc, d.isFolderAt loc = true → hasExtension extension loc = true →
    ∀ root ∈ roots, ¬Below root loc
  apart : ∀ loc, IsSource d extension loc → roots.countP (Below · loc) ≤ 1

variable {d : Disk} {target root : Files.Path} {dirs : List String} {extension : String} {loc : Location}

theorem roots_eq (hask : ∀ s ∈ dirs, Askable d (target.join (.ofString s))) :
    roots d target (dirs.map .string) = .ok (folders d target dirs) := by
  induction dirs with
  | nil => rfl
  | cons s dirs ih =>
    obtain ⟨hs, hdirs⟩ := List.forall_mem_cons.1 hask
    have hlong : ¬(d.isTooLong (target.join (.ofString s)) &&
        !(target.join (.ofString s)).hasNull) = true := by
      rcases hs with hs | hs <;> simp [hs]
    rw [List.map_cons, roots, if_neg hlong, ih hdirs]
    simp only [bind, Except.bind, pure, Except.pure, folders, List.map_cons, List.filter_cons]

theorem hasTwoStars_of_isPlain {cs : List Char} (h : cs.all Glob.isPlain = true) :
    Route.hasTwoStars ('*' :: cs) = false := by
  have hfree : Route.hasTwoStars cs = false := by
    induction cs with
    | nil => rfl
    | cons c cs ih =>
      simp only [List.all_cons, Bool.and_eq_true] at h
      rw [Route.hasTwoStars]
      · exact ih h.2
      · rintro cs' rfl
        simp [Glob.isPlain] at h
  rw [Route.hasTwoStars]
  · exact hfree
  · rintro cs' - rfl
    simp [Glob.isPlain] at h

/-- A plain extension makes a route to the names that end with it. -/
theorem route?_eq (h : IsPlain extension) :
    route? extension = .ok [.anyDepth, .names ("*" ++ extension)] := by
  have hchars : ("*" ++ extension).toList = '*' :: extension.toList := by simp
  have hslash : '/' ∉ '*' :: extension.toList := by simp [h.2]
  have hparts : pathParts ("*" ++ extension) = ["*" ++ extension] := by
    rw [pathParts, hchars, Text.splitAt_of_not_mem hslash, ← hchars]
    simp
  have hne : ∀ s : String, s.toList.head? ≠ some '*' → "*" ++ extension ≠ s := by
    rintro s hs rfl
    simp at hs
  have hstays : staysPut ("*" ++ extension) = false := by
    simp [staysPut, hne "." (by simp)]
  have hstars : "*" ++ extension ≠ "**" := by
    intro heq
    have htail : extension.toList = ['*'] := by simpa using congrArg String.toList heq
    simp [IsPlain, htail, Glob.isPlain] at h
  have hstep : Route.step? ("*" ++ extension) = some (.names ("*" ++ extension)) := by
    rw [Route.step?, if_neg hstars, if_neg (hne ".." (by simp)), hchars, hasTwoStars_of_isPlain h.1]
    rfl
  have hlast : ('*' :: extension.toList).getLast? ≠ some '/' := fun heq =>
    hslash (List.mem_of_getLast? heq)
  rw [route?, Route.ofPattern?, hparts, hchars, if_neg hlast]
  simp [hstays, hstep]

theorem fitsName_eq (h : IsPlain extension) (name : String) :
    Glob.fitsName ("*" ++ extension) name = extension.toList.isSuffixOf name.toList := by
  rw [Bool.eq_iff_iff, Glob.fitsName_star_iff h.1, List.isSuffixOf_iff_suffix]

/-- Something below the root has such a name. -/
def IsListed (d : Disk) (extension : String) (root loc : Location) : Prop :=
  ((d.nodeAt? loc).isSome = true ∧ hasExtension extension loc = true) ∧ Below root loc

instance (d : Disk) (extension : String) (root loc : Location) :
    Decidable (IsListed d extension root loc) := inferInstanceAs (Decidable (_ ∧ _))

theorem count_sourcesBelow (hd : d.Sound) (h : IsPlain extension) (hroot : d.locate? root = some loc)
    (hfolder : d.isFolderAt loc = true) : ∃ locs : List Location,
      (sourcesBelow d [.anyDepth, .names ("*" ++ extension)] root).map d.locate? = locs.map some ∧
      ∀ other, locs.count other = if IsListed d extension loc other then 1 else 0 := by
  have hsearch (names : List String) : names ∈ d.search [.anyDepth, .names ("*" ++ extension)] loc ↔
      (d.nodeAt? (loc ++ names)).isSome = true ∧
        names.getLast?.any (Glob.fitsName ("*" ++ extension)) = true := hd.mem_search_iff hfolder
  refine ⟨(d.search [.anyDepth, .names ("*" ++ extension)] loc).map (loc ++ ·), ?_, fun other => ?_⟩
  · rw [sourcesBelow, hroot, List.map_map, List.map_map]
    exact List.map_congr_left fun names hnames => hd.locate?_below hroot ((hsearch names).1 hnames).1
  · have hnodup := (d.nodup_search [.anyDepth, .names ("*" ++ extension)] loc).map
      (List.append_right_injective loc)
    rw [hnodup.count]
    refine if_congr ?_ rfl rfl
    simp only [List.mem_map, hsearch, IsListed, below_iff]
    have hname : ∀ names, names ≠ [] →
        names.getLast?.any (Glob.fitsName ("*" ++ extension)) = hasExtension extension (loc ++ names) := by
      intro names hnames
      rw [hasExtension, List.getLast?_append_of_ne_nil _ hnames, funext (fitsName_eq h)]
    constructor
    · rintro ⟨names, ⟨hnode, hfits⟩, rfl⟩
      have hnames : names ≠ [] := by
        rintro rfl
        simp at hfits
      exact ⟨⟨hnode, hname names hnames ▸ hfits⟩, names, hnames, rfl⟩
    · rintro ⟨⟨hnode, hfits⟩, names, hnames, rfl⟩
      exact ⟨names, ⟨hnode, (hname names hnames).symm ▸ hfits⟩, rfl⟩

/-- What is listed for several folders: each place once for every folder that it is below. -/
theorem count_sources (hd : d.Sound) (h : IsPlain extension) {roots : List Files.Path}
    (hroots : ∀ root ∈ roots, (d.node? root).any Node.isFolder = true) : ∃ locs : List Location,
      (roots.flatMap (sourcesBelow d [.anyDepth, .names ("*" ++ extension)])).map d.locate? = locs.map some ∧
      ∀ loc, locs.count loc = if (d.nodeAt? loc).isSome = true ∧ hasExtension extension loc = true then
        (roots.filterMap d.locate?).countP (Below · loc) else 0 := by
  induction roots with
  | nil => exact ⟨[], rfl, fun loc => by simp⟩
  | cons root roots ih =>
    obtain ⟨hroot, hrest⟩ := List.forall_mem_cons.1 hroots
    obtain ⟨more, hmore, hcount⟩ := ih hrest
    rw [Disk.node?] at hroot
    cases hloc : d.locate? root with
    | none => simp [hloc] at hroot
    | some loc =>
      rw [hloc] at hroot
      obtain ⟨locs, hlocs, hcount'⟩ := count_sourcesBelow hd h hloc hroot
      refine ⟨locs ++ more, by simp [hlocs, hmore], fun other => ?_⟩
      rw [List.count_append, hcount, hcount', List.filterMap_cons_some hloc, List.countP_cons]
      by_cases hlisted : (d.nodeAt? other).isSome = true ∧ hasExtension extension other = true
      · simp [IsListed, hlisted, Nat.add_comm]
      · simp [IsListed, hlisted]

theorem isSource_iff : IsSource d extension loc ↔
    ((d.nodeAt? loc).isSome = true ∧ hasExtension extension loc = true) ∧ ¬d.isFolderAt loc = true := by
  rw [IsSource, Disk.isFolderAt_iff]
  cases d.nodeAt? loc with
  | none => simp
  | some n => cases n <;> simp [Node.isFile, Node.isFolder]

section

variable {roots : List Location} {files : List Files.Path} {locs : List Location}

theorem collects_iff_of_locate? (hlocs : files.map d.locate? = locs.map some) :
    Collects d roots extension files ↔
      locs.Nodup ∧ ∀ loc, loc ∈ locs ↔ IsSource d extension loc ∧ ∃ root ∈ roots, Below root loc := by
  constructor
  · rintro ⟨others, hothers, hnodup, hmem⟩
    obtain rfl : locs = others :=
      List.map_injective_iff.2 (fun _ _ => Option.some.inj) (hlocs.symm.trans hothers)
    exact ⟨hnodup, hmem⟩
  · exact fun ⟨hnodup, hmem⟩ => ⟨locs, hlocs, hnodup, hmem⟩

variable (hcount : ∀ loc, locs.count loc =
  if (d.nodeAt? loc).isSome = true ∧ hasExtension extension loc = true then
    roots.countP (Below · loc) else 0)

include hcount

theorem mem_iff_of_count : loc ∈ locs ↔
    ((d.nodeAt? loc).isSome = true ∧ hasExtension extension loc = true) ∧
      ∃ root ∈ roots, Below root loc := by
  have hpos : 0 < roots.countP (Below · loc) ↔ ∃ root ∈ roots, Below root loc := by
    simp [List.countP_pos_iff]
  rw [← List.count_pos_iff, hcount, ← hpos]
  split <;> simp_all

theorem collects_iff (hlocs : files.map d.locate? = locs.map some) :
    Collects d roots extension files ↔ Tidy d roots extension := by
  rw [collects_iff_of_locate? hlocs]
  constructor
  · rintro ⟨hnodup, hlisted⟩
    refine ⟨fun loc hfolder hname root hroot hbelow => ?_, fun loc h => ?_⟩
    · have hmem : loc ∈ locs := (mem_iff_of_count hcount).2
        ⟨⟨Disk.isSome_of_isFolderAt hfolder, hname⟩, root, hroot, hbelow⟩
      exact (isSource_iff.1 ((hlisted loc).1 hmem).1).2 hfolder
    · have hone := List.nodup_iff_count_le_one.1 hnodup loc
      rwa [hcount, if_pos (isSource_iff.1 h).1] at hone
  · intro htidy
    have hsource : ∀ loc ∈ locs, IsSource d extension loc := by
      intro loc h
      obtain ⟨hname, root, hroot, hbelow⟩ := (mem_iff_of_count hcount).1 h
      exact isSource_iff.2 ⟨hname, fun hfolder => htidy.folder loc hfolder hname.2 root hroot hbelow⟩
    refine ⟨List.nodup_iff_count_le_one.2 fun loc => ?_, fun loc => ?_⟩
    · by_cases h : loc ∈ locs
      · rw [hcount, if_pos (isSource_iff.1 (hsource loc h)).1]
        exact htidy.apart loc (hsource loc h)
      · simp [List.count_eq_zero.2 h]
    · exact ⟨fun h => ⟨hsource loc h, ((mem_iff_of_count hcount).1 h).2⟩,
        fun ⟨h, hroot⟩ => (mem_iff_of_count hcount).2 ⟨(isSource_iff.1 h).1, hroot⟩⟩

end

/-- Collecting the sources of a folder. Where the configured folders can be looked up and the extension
is plain, everything is listed that has such a name and is below a searched folder, as often as there are
searched folders that it is below. So what is listed is just the sources below the searched folders, each
of them once, if and only if no folder there is named like a source and no source is below two of them. -/
theorem sources_collect_iff {config : Config} (hd : d.Sound) (htarget : d.node? target = some .folder)
    (hdirs : config.dirs = dirs.map .string) (hask : ∀ s ∈ dirs, Askable d (target.join (.ofString s)))
    (hext : IsPlain config.extension) :
    ∃ (files : List Files.Path) (locs : List Location), sources d target config = .ok files ∧
      files.map d.locate? = locs.map some ∧
      (∀ loc, locs.count loc =
        if (d.nodeAt? loc).isSome = true ∧ hasExtension config.extension loc = true then
          (searched d target dirs).countP (Below · loc) else 0) ∧
      (Collects d (searched d target dirs) config.extension files ↔
        Tidy d (searched d target dirs) config.extension) := by
  have hroots : ∀ root ∈ if (folders d target dirs).isEmpty then [target] else folders d target dirs,
      (d.node? root).any Node.isFolder = true := by
    split
    · simp [htarget, Node.isFolder]
    · exact fun root hroot => (List.mem_filter.1 hroot).2
  obtain ⟨locs, hlocs, hcount⟩ := count_sources hd hext hroots
  refine ⟨_, locs, ?_, hlocs, hcount, collects_iff hcount hlocs⟩
  have hfile : ¬(d.node? target).any Node.isFile = true := by
    simp [htarget, Node.isFile, Node.isFolder]
  rw [sources, if_neg hfile, hdirs, roots_eq hask, route?_eq hext]
  rfl

theorem sources_collect_of_nested :
    let d := Disk.ofEntries [] [(["src", "a.at"], .file "fn a{1}".toUTF8), (["src", "old.at"], .folder),
      (["src", "new", "b.at"], .file "fn b{1}".toUTF8), (["c.at"], .file "fn c{1}".toUTF8)]
    let target := Files.Path.ofString "."
    let dirs := ["src", "lib", "src/new"]
    let config := { Config.standard with dirs := dirs.map .string }
    d.Sound ∧ d.node? target = some .folder ∧ (∀ s ∈ dirs, Askable d (target.join (.ofString s))) ∧
    IsPlain config.extension ∧ searched d target dirs = [["src"], ["src", "new"]] ∧
    ∃ (files : List Files.Path) (locs : List Location), sources d target config = .ok files ∧
      files.map d.locate? = locs.map some ∧
      locs.count ["src", "a.at"] = 1 ∧ locs.count ["src", "old.at"] = 1 ∧
      locs.count ["src", "new", "b.at"] = 2 ∧ locs.count ["c.at"] = 0 ∧
      (Collects d (searched d target dirs) config.extension files ↔
        Tidy d (searched d target dirs) config.extension) := by
  intro d target dirs config
  have hd : d.Sound := ⟨by decide +kernel, by decide +kernel⟩
  have htarget : d.node? target = some .folder := by decide +kernel
  have hask : ∀ s ∈ dirs, Askable d (target.join (.ofString s)) := by
    intro s hs
    exact .inl ((by decide +kernel : ∀ s ∈ dirs, d.isTooLong (target.join (.ofString s)) = false) s hs)
  have hext : IsPlain config.extension := ⟨by decide, by decide⟩
  have hsearched : searched d target dirs = [["src"], ["src", "new"]] := by decide +kernel
  obtain ⟨files, locs, hfiles, hlocs, hcount, hcollects⟩ := sources_collect_iff hd htarget rfl hask hext
  refine ⟨hd, htarget, hask, hext, hsearched, files, locs, hfiles, hlocs, ?_, ?_, ?_, ?_, hcollects⟩ <;>
    rw [hcount, hsearched] <;> decide +kernel

end Command
end TinyFront
