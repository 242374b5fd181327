import SourceAtlas.Proofs.Evaluation
import SourceAtlas.Proofs.Table
/-!
Which files the index lists and which it loses. A file is known by its names below the root, and steps
up in the path of a source directory are no names: of files that are met under one path only one is
listed. Source directories that lie to each other by name as they stand keep all their files apart.
-/

namespace SourceAtlas

namespace Path

/-- The names of a path below `root`, all of them for a path elsewhere. -/
def namesBelow (root path : Path) : List String :=
  ((afterParts? root.parts path.parts).getD path.parts).filterMap PathPart.name?

theorem relativeTo_eq_intercalate (root path : Path) :
    relativeTo root path = String.intercalate "/" (namesBelow root path) := rfl

theorem namesBelow_of_parts {root path : Path} {below : List PathPart}
    (split : path.parts = root.parts ++ below) :
    namesBelow root path = below.filterMap PathPart.name? := by
  rw [namesBelow, (afterParts?_eq_some_iff ..).mpr split]
  rfl

theorem mem_parts_of_mem_namesBelow {root path : Path} {name : String}
    (member : name ∈ namesBelow root path) : .name name ∈ path.parts := by
  obtain ⟨part, inBelow, named⟩ := List.mem_filterMap.mp member
  have whole : part ∈ path.parts := by
    cases after : afterParts? root.parts path.parts with
    | none => simpa [after] using inBelow
    | some below =>
        rw [(afterParts?_eq_some_iff ..).mp after]
        exact List.mem_append_right _ (by simpa [after] using inBelow)
  cases part <;> cases named
  exact whole

theorem isName_of_mem_namesBelow {root path : Path} {name : String}
    (member : name ∈ namesBelow root path) : IsName name :=
  mem_parts_name (mem_parts_of_mem_namesBelow member)

theorem relativeTo_eq_iff (root left right : Path) :
    relativeTo root left = relativeTo root right ↔ namesBelow root left = namesBelow root right := by
  refine ⟨fun same => ?_, fun same => congrArg (String.intercalate "/") same⟩
  rw [relativeTo_eq_intercalate, relativeTo_eq_intercalate] at same
  have pieced := congrArg (fun text => pieces ⟨text⟩) same
  simpa only [pieces_intercalate fun name => isName_of_mem_namesBelow] using pieced

/-- The root lies strictly below a directory, along names. -/
def IsAbove (root dir : Path) : Prop :=
  ∃ names : List String, names ≠ [] ∧ root.parts = dir.parts ++ names.map .name

/-- Below a directory that is not above the root names are added to those of the directory. -/
theorem namesBelow_join {root dir : Path} (aside : ¬ IsAbove root dir) {names : List String}
    (ordinary : ∀ name ∈ names, IsName name) :
    namesBelow root (dir.join ⟨String.intercalate "/" names⟩) = namesBelow root dir ++ names := by
  have read : (names.map PathPart.name).filterMap PathPart.name? = names := by
    simp [List.filterMap_map, PathPart.name?, Function.comp_def]
  have parts := parts_join dir ordinary
  cases after : afterParts? root.parts dir.parts with
  | some below =>
      have split := (afterParts?_eq_some_iff ..).mp after
      rw [split, List.append_assoc] at parts
      rw [namesBelow_of_parts parts, namesBelow_of_parts split, List.filterMap_append, read]
  | none =>
      -- the root would end among the names, so it would be the directory or below it
      have outside : afterParts? root.parts (dir.parts ++ names.map .name) = none := by
        cases inside : afterParts? root.parts (dir.parts ++ names.map .name) with
        | none => rfl
        | some below =>
            exfalso
            rcases List.append_eq_append_iff.mp ((afterParts?_eq_some_iff ..).mp inside) with
              ⟨front, whole, cut⟩ | ⟨rest, whole, -⟩
            · obtain ⟨first, later, rfl, rfl, rfl⟩ := List.map_eq_append_iff.mp cut
              cases first with
              | nil =>
                  rw [List.map_nil, List.append_nil] at whole
                  rw [(afterParts?_eq_some_iff ..).mpr (by rw [whole, List.append_nil])] at after
                  cases after
              | cons name first => exact aside ⟨name :: first, by simp, whole⟩
            · rw [(afterParts?_eq_some_iff ..).mpr whole] at after
              cases after
      rw [namesBelow, parts, outside, Option.getD_none, List.filterMap_append, read, namesBelow, after,
        Option.getD_none]

/-- How two directories lie to each other when files below them have one name below the root exactly
when they stand at one place: the one lies as far below the other by name as it stands, or they have
nothing in common either way. -/
inductive InStep (root left right : Path) : Prop where
  | below (names : List String) (stands : right.place = left.place ++ names)
      (named : namesBelow root right = namesBelow root left ++ names)
  | above (names : List String) (stands : left.place = right.place ++ names)
      (named : namesBelow root left = namesBelow root right ++ names)
  | apart (stands : ¬ left.place <+: right.place ∧ ¬ right.place <+: left.place)
      (named : ¬ namesBelow root left <+: namesBelow root right ∧
        ¬ namesBelow root right <+: namesBelow root left)

theorem append_ne_append {α : Type} {left right : List α}
    (apart : ¬ left <+: right ∧ ¬ right <+: left) (after later : List α) :
    left ++ after ≠ right ++ later := by
  intro same
  rcases List.prefix_or_prefix_of_prefix (List.prefix_append left after)
    (same ▸ List.prefix_append right later) with first | second
  · exact apart.1 first
  · exact apart.2 second

theorem inStep_iff (root left right : Path) :
    InStep root left right ↔ ∀ after later : List String,
      left.place ++ after = right.place ++ later ↔
        namesBelow root left ++ after = namesBelow root right ++ later := by
  constructor
  · rintro (⟨names, stands, named⟩ | ⟨names, stands, named⟩ | ⟨stands, named⟩) after later
    · simp [stands, named]
    · simp [stands, named]
    · simp [append_ne_append stands after later, append_ne_append named after later]
  · intro agree
    by_cases below : left.place <+: right.place
    · obtain ⟨names, stands⟩ := below
      have named := (agree names []).mp (by simpa using stands)
      exact .below names stands.symm (by simpa using named.symm)
    by_cases above : right.place <+: left.place
    · obtain ⟨names, stands⟩ := above
      have named := (agree [] names).mp (by simpa using stands.symm)
      exact .above names stands.symm (by simpa using named)
    refine .apart ⟨below, above⟩ ⟨?_, ?_⟩
    · rintro ⟨names, named⟩
      exact below ⟨names, by simpa using (agree names []).mpr (by simpa using named)⟩
    · rintro ⟨names, named⟩
      exact above ⟨names, by simpa using ((agree [] names).mpr (by simpa using named.symm)).symm⟩

/-- A directory at the root or below it, without steps up after the root. -/
def IsInside (root dir : Path) : Prop :=
  ∃ below, dir.parts = root.parts ++ below ∧ .up ∉ below

/-- A directory inside the root stands as far below it as its names tell. -/
theorem IsInside.place {root dir : Path} (inside : IsInside root dir) :
    dir.place = root.place ++ namesBelow root dir := by
  obtain ⟨below, split, down⟩ := inside
  have onward : follow [] (root.parts ++ below) = follow (follow [] root.parts) below :=
    List.foldl_append
  rw [place_eq_follow, split, onward, follow_of_no_up _ down, ← place_eq_follow,
    namesBelow_of_parts split]

theorem IsInside.not_isAbove {root dir : Path} (inside : IsInside root dir) : ¬ IsAbove root dir := by
  rintro ⟨names, filled, split⟩
  obtain ⟨below, whole, -⟩ := inside
  have sized := congrArg List.length split
  rw [whole] at sized
  simp only [List.length_append, List.length_map] at sized
  have positive := List.length_pos_iff.mpr filled
  omega

theorem isInside_join {root dir : Path} (relative : dir.isAbsolute = false) (down : .up ∉ dir.parts) :
    IsInside root (root.join dir) := by
  by_cases empty : root.text = ""
  · refine ⟨dir.parts, ?_, down⟩
    rw [join_of_empty empty relative, parts_of_empty empty, List.nil_append]
  · refine ⟨_, parts_join_of_filled empty relative, fun member => down ?_⟩
    unfold Path.parts
    rw [relative, if_neg (by simp)]
    split
    · exact List.mem_cons_of_mem _ member
    · exact member

end Path

namespace SourceIndex

open FileTree

/-- Source directories that keep their files apart: none is above the root, and any two lie to each
other by name as they stand. -/
structure Coherent (root : Path) (dirs : List Path) : Prop where
  aside : ∀ dir ∈ dirs, ¬ Path.IsAbove root (root.join dir)
  inStep : ∀ left ∈ dirs, ∀ right ∈ dirs, Path.InStep root (root.join left) (root.join right)

/-- Directories inside the root are coherent, also when they overlap or come more than once. -/
theorem coherent_of_inside {root : Path} {dirs : List Path}
    (inside : ∀ dir ∈ dirs, Path.IsInside root (root.join dir)) : Coherent root dirs where
  aside dir member := (inside dir member).not_isAbove
  inStep left inLeft right inRight := by
    rw [Path.inStep_iff, (inside left inLeft).place, (inside right inRight).place]
    simp [List.append_assoc]

variable (index : SourceIndex)

/-- The walk below one of the source directories meets a file. -/
def Meets (tree : FileTree) (root : Path) (dirs : List Path) (path : Path) (content : ByteArray) : Prop :=
  ∃ dir ∈ dirs, ∃ base kept, tree.place? (root.join dir) = some base ∧
    rules index.ignorePatterns = .ok kept ∧ (path, content) ∈ reachable tree (root.join dir) base kept

variable {index} in
/-- A file below a source directory is met when nothing on the way to it is left out. -/
theorem meets_of_reaches {tree : FileTree} {root : Path} {dirs : List Path} (dir : Path)
    (base names : Place) (member : dir ∈ dirs) (there : tree.place? (root.join dir) = some base)
    (top : tree.find? base = some .dir) {kept : IgnoreRules}
    (ruled : rules index.ignorePatterns = .ok kept) (filled : names ≠ []) {content : ByteArray}
    (held : tree.find? (base ++ names) = some (.file content))
    (open_ : reaches tree kept base names = true) :
    index.Meets tree root dirs ((root.join dir).join ⟨String.intercalate "/" names⟩) content := by
  refine ⟨dir, member, base, kept, there, ruled, (mem_reachable_iff ..).mpr (Or.inr ⟨fun other => ?_,
    names, filled, held, open_, rfl⟩)⟩
  rw [top]
  nofun

def Takes (path : Path) (content : ByteArray) : Prop :=
  (index.languages.detect? path).isSome ∧ (∃ text : String, content = text.toUTF8) ∧
    content.size ≤ index.maxFileSize

theorem takes_iff (root path : Path) (content : ByteArray) :
    index.Takes path content ↔ ∃ source, index.sourceFile? root path content = some source := by
  simp only [sourceFile?_eq_some_iff, Takes, Option.isSome_iff_exists]
  constructor
  · rintro ⟨⟨language, claimed⟩, ⟨text, rfl⟩, small⟩
    exact ⟨_, language, text, claimed, rfl, small, rfl⟩
  · rintro ⟨source, language, text, claimed, rfl, small, -⟩
    exact ⟨⟨language, claimed⟩, ⟨text, rfl⟩, small⟩

/-- A directory that is there is searched when the patterns of the project and the ignore files above
it can be read. -/
theorem inDir_isOk_iff (tree : FileTree) (root dir : Path) :
    (∃ sources, index.inDir tree root dir = .ok sources) ↔ ∀ base, tree.place? dir = some base →
      (∃ kept, rules index.ignorePatterns = .ok kept) ∧ tree.badIgnoreLinesAbove base = [] := by
  simp only [inDir_eq_ok_iff]
  constructor
  · rintro ⟨sources, ⟨missing, -⟩ | ⟨base, kept, there, ruled, clean, -⟩⟩ other stood
    · rw [missing] at stood
      cases stood
    · rw [there] at stood
      cases stood
      exact ⟨⟨kept, ruled⟩, clean⟩
  · intro clear
    cases there : tree.place? dir with
    | none => exact ⟨[], Or.inl ⟨rfl, rfl⟩⟩
    | some base =>
        obtain ⟨⟨kept, ruled⟩, clean⟩ := clear base there
        exact ⟨_, Or.inr ⟨base, kept, rfl, ruled, clean, rfl⟩⟩

theorem find_isOk_iff (tree : FileTree) (root : Path) (dirs : List Path) :
    (∃ sources, index.find tree root dirs = .ok sources) ↔
      ∀ dir ∈ dirs, ∃ part, index.inDir tree root (root.join dir) = .ok part := by
  constructor
  · rintro ⟨sources, found⟩ dir member
    obtain ⟨lists, parts, -⟩ := (index.find_eq_ok_iff ..).mp found
    obtain ⟨part, -, made⟩ := exists_of_mapM_eq_ok parts member
    exact ⟨part, made⟩
  · intro all
    cases parts : dirs.mapM (fun dir => index.inDir tree root (root.join dir)) with
    | ok lists => exact ⟨_, (index.find_eq_ok_iff ..).mpr ⟨lists, parts, rfl⟩⟩
    | error fault =>
        obtain ⟨dir, member, failed⟩ := exists_of_mapM_eq_error parts
        obtain ⟨part, made⟩ := all dir member
        rw [failed] at made
        cases made

section Found

variable {index} {tree : FileTree} {root : Path} {dirs : List Path} {sources : List SourceFile}

theorem meets_of_find (found : index.find tree root dirs = .ok sources) {source : SourceFile}
    (member : source ∈ sources) : ∃ content, index.Meets tree root dirs source.location content ∧
      index.sourceFile? root source.location content = some source := by
  obtain ⟨dir, inDirs, part, searched, inPart⟩ := index.exists_inDir_of_find found member
  rcases (index.inDir_eq_ok_iff ..).mp searched with ⟨-, rfl⟩ | ⟨base, kept, there, ruled, -, rfl⟩
  · cases inPart
  · obtain ⟨⟨path, content⟩, met, made⟩ := List.mem_filterMap.mp inPart
    rw [(index.of_sourceFile? made).1]
    exact ⟨content, ⟨dir, inDirs, base, kept, there, ruled, met⟩, made⟩

theorem exists_of_meets (found : index.find tree root dirs = .ok sources) {path : Path}
    {content : ByteArray} (met : index.Meets tree root dirs path content)
    (taken : index.Takes path content) : ∃ source ∈ sources, source.path = Path.relativeTo root path := by
  obtain ⟨source, made⟩ := (index.takes_iff root path content).mp taken
  obtain ⟨dir, inDirs, base, kept, there, ruled, inWalk⟩ := met
  obtain ⟨lists, parts, rfl⟩ := (index.find_eq_ok_iff ..).mp found
  obtain ⟨part, inLists, searched⟩ := exists_of_mapM_eq_ok parts inDirs
  have inPart : source ∈ part := by
    rcases (index.inDir_eq_ok_iff ..).mp searched with ⟨missing, -⟩ | ⟨other, rules, at_, also, -, rfl⟩
    · rw [missing] at there
      cases there
    · rw [at_] at there
      rw [also] at ruled
      cases there
      cases ruled
      exact List.mem_filterMap.mpr ⟨(path, content), inWalk, made⟩
  obtain ⟨listed, inListed, same⟩ := exists_mem_arrange (List.mem_flatten.mpr ⟨part, inLists, inPart⟩)
  exact ⟨listed, inListed, same.trans (index.of_sourceFile? made).2⟩

theorem eq_of_path_of_find (found : index.find tree root dirs = .ok sources) {source other : SourceFile}
    (member : source ∈ sources) (also : other ∈ sources) (same : source.path = other.path) :
    source = other :=
  Table.eq_of_key_eq (index.paths_nodup_of_find found) member also same

/-- A file that the walk meets stands as far below its source directory as it is named. -/
theorem Meets.below (sound : tree.Sound) {path : Path} {content : ByteArray}
    (met : index.Meets tree root dirs path content)
    (aside : ∀ dir ∈ dirs, ¬ Path.IsAbove root (root.join dir)) :
    ∃ dir ∈ dirs, ∃ names, path.place = (root.join dir).place ++ names ∧
      Path.namesBelow root path = Path.namesBelow root (root.join dir) ++ names := by
  obtain ⟨dir, inDirs, base, kept, there, -, inWalk⟩ := met
  rcases (mem_reachable_iff ..).mp inWalk with ⟨rfl, -⟩ | ⟨-, names, -, held, -, rfl⟩
  · exact ⟨dir, inDirs, [], by simp, by simp⟩
  · have ordinary : ∀ name ∈ names, IsName name := fun name inNames =>
      (sound.isFileName held name (List.mem_append_right _ inNames)).1
    exact ⟨dir, inDirs, names, Path.place_join_intercalate ordinary,
      Path.namesBelow_join (aside dir inDirs) ordinary⟩

/-- Coherent directories have different paths for different files, and one path for each. -/
theorem Coherent.relativeTo_eq_iff (coherent : Coherent root dirs) (sound : tree.Sound)
    {path other : Path} {content otherContent : ByteArray}
    (met : index.Meets tree root dirs path content)
    (also : index.Meets tree root dirs other otherContent) :
    Path.relativeTo root path = Path.relativeTo root other ↔ path.place = other.place := by
  obtain ⟨left, inLeft, after, stands, named⟩ := met.below sound coherent.aside
  obtain ⟨right, inRight, later, otherStands, otherNamed⟩ := also.below sound coherent.aside
  rw [Path.relativeTo_eq_iff, named, otherNamed, stands, otherStands]
  exact ((Path.inStep_iff ..).mp (coherent.inStep left inLeft right inRight) after later).symm

end Found

/-- What is listed of the files that the walk meets and the index takes. The search ends well when the
patterns of the project and the ignore files above the directories can be read. Then the sources come
strictly in the order of their paths, each is such a file, and each such file has its path listed once.
If the directories are coherent, two files have one path exactly when they are one file, so every file
is listed once. -/
theorem find_lists_once {tree : FileTree} (sound : tree.Sound) (root : Path) (dirs : List Path) :
    ((∃ sources, index.find tree root dirs = .ok sources) ↔
      ∀ dir ∈ dirs, ∀ base, tree.place? (root.join dir) = some base →
        (∃ kept, rules index.ignorePatterns = .ok kept) ∧ tree.badIgnoreLinesAbove base = []) ∧
    ∀ sources, index.find tree root dirs = .ok sources →
      sources.Pairwise (fun left right => left.path < right.path) ∧
      (∀ source ∈ sources, ∃ content, index.Meets tree root dirs source.location content ∧
        index.sourceFile? root source.location content = some source) ∧
      (∀ path content, index.Meets tree root dirs path content → index.Takes path content →
        ∃ source ∈ sources, ∀ other ∈ sources,
          other.path = Path.relativeTo root path ↔ other = source) ∧
      (Coherent root dirs →
        (∀ path other content otherContent, index.Meets tree root dirs path content →
          index.Meets tree root dirs other otherContent →
          (Path.relativeTo root path = Path.relativeTo root other ↔ path.place = other.place)) ∧
        ∀ path content, index.Meets tree root dirs path content → index.Takes path content →
          ∃ source ∈ sources, source.path = Path.relativeTo root path ∧
            ∀ other ∈ sources, other.location.place = path.place ↔ other = source) := by
  refine ⟨by simp only [find_isOk_iff, inDir_isOk_iff], fun sources found => ?_⟩
  have once : ∀ path content, index.Meets tree root dirs path content → index.Takes path content →
      ∃ source ∈ sources, ∀ other ∈ sources,
        other.path = Path.relativeTo root path ↔ other = source := by
    intro path content met taken
    obtain ⟨source, member, listed⟩ := exists_of_meets found met taken
    refine ⟨source, member, fun other inSources => ?_⟩
    rw [← listed]
    exact ⟨eq_of_path_of_find found inSources member, fun same => by rw [same]⟩
  refine ⟨index.pairwise_of_find found, fun source => meets_of_find found, once, fun coherent =>
    ⟨fun path other content otherContent met also => coherent.relativeTo_eq_iff sound met also,
      fun path content met taken => ?_⟩⟩
  obtain ⟨source, member, only⟩ := once path content met taken
  refine ⟨source, member, (only source member).mpr rfl, fun other inSources => ?_⟩
  obtain ⟨otherContent, also, made⟩ := meets_of_find found inSources
  rw [← only other inSources, (index.of_sourceFile? made).2, coherent.relativeTo_eq_iff sound also met]

def pythonOnly : SourceIndex where
  languages := LanguageSet.ofTags ["python"]
  maxFileSize := 100
  ignorePatterns := []

def overlapping : List Path := [⟨"src"⟩, ⟨"./src/pkg/"⟩, ⟨"src"⟩]

/-- The tree with a source file in each of two directories, the one below the other. -/
def nestedTree : FileTree :=
  ((((({} : FileTree).insert ["r"] .dir).insert ["r", "src"] .dir).insert ["r", "src", "a.py"]
    (.file "x = 1\n".toUTF8)).insert ["r", "src", "pkg"] .dir).insert ["r", "src", "pkg", "b.py"]
      (.file "y = 2\n".toUTF8)

theorem nestedTree_sound : nestedTree.Sound := by
  have root := Sound.empty.insert [] "r" .dir (find?_nil _) (by decide) fun _ => rfl
  have src := root.insert ["r"] "src" .dir (by decide) (by decide) fun _ => rfl
  have outer := src.insert ["r", "src"] "a.py" (.file "x = 1\n".toUTF8) (by decide) (by decide)
    fun found => absurd found (by decide)
  have pkg := outer.insert ["r", "src"] "pkg" .dir (by decide +kernel) (by decide) fun _ => rfl
  exact pkg.insert ["r", "src", "pkg"] "b.py" _ (by decide +kernel) (by decide)
    fun found => absurd found (by decide +kernel)

/-- A file that is met in three of the directories is listed once. -/
theorem find_lists_once_nestedTree : ∃ sources,
    pythonOnly.find nestedTree ⟨"/r"⟩ overlapping = .ok sources ∧
      ∃ source ∈ sources, source.path = "src/pkg/b.py" ∧
        ∀ other ∈ sources, other.location.place = ["r", "src", "pkg", "b.py"] ↔ other = source := by
  obtain ⟨ends, lists⟩ := pythonOnly.find_lists_once nestedTree_sound ⟨"/r"⟩ overlapping
  have clean : ∀ dir ∈ overlapping,
      (nestedTree.badIgnoreLinesAbove (Path.join ⟨"/r"⟩ dir).place).isEmpty = true := by decide +kernel
  obtain ⟨sources, found⟩ := ends.mpr fun dir member base there => by
    obtain ⟨rfl, -⟩ := stat_of_place? there
    exact ⟨⟨[], rfl⟩, List.isEmpty_iff.mp (clean dir member)⟩
  have inside : ∀ dir ∈ overlapping, dir.isAbsolute = false ∧ .up ∉ dir.parts := by decide
  have coherent : Coherent ⟨"/r"⟩ overlapping := coherent_of_inside fun dir member =>
    Path.isInside_join (inside dir member).1 (inside dir member).2
  have met : pythonOnly.Meets nestedTree ⟨"/r"⟩ overlapping ⟨"/r/src/pkg/b.py"⟩ "y = 2\n".toUTF8 :=
    meets_of_reaches ⟨"src"⟩ ["r", "src"] ["pkg", "b.py"] (by decide)
      (by decide +kernel) (by decide +kernel) rfl (by decide) (by decide +kernel) (by decide +kernel)
  have taken : pythonOnly.Takes ⟨"/r/src/pkg/b.py"⟩ "y = 2\n".toUTF8 :=
    ⟨by decide +kernel, ⟨_, rfl⟩, by decide +kernel⟩
  obtain ⟨source, member, listed, only⟩ := ((lists sources found).2.2.2 coherent).2 _ _ met taken
  exact ⟨sources, found, source, member, listed.trans (by decide +kernel), only⟩

/-- Directories of which the second is reached by a step up. -/
def stepping : List Path := [⟨"sub"⟩, ⟨"sub/../src"⟩]

/-- The tree with one source file in `src` and one in `sub/src`. -/
def steppedTree : FileTree :=
  (((((({} : FileTree).insert ["r"] .dir).insert ["r", "src"] .dir).insert ["r", "src", "a.py"]
    (.file "x = 1\n".toUTF8)).insert ["r", "sub"] .dir).insert ["r", "sub", "src"] .dir).insert
      ["r", "sub", "src", "a.py"] (.file "y = 2\n".toUTF8)

/-- Of two files with one path the first is listed. -/
theorem arrange_of_same_path {first second : SourceFile} (same : second.path = first.path) :
    arrange [first, second] = [first] := by
  have sorted : [first, second].mergeSort (fun left right => left.path ≤ right.path) =
      [first, second] := by
    apply List.mergeSort_of_pairwise
    simp [same]
  rw [arrange, sorted]
  simp [List.eraseDupsBy_cons, same]

def keptSource : SourceFile :=
  ⟨"sub/src/a.py", ⟨"/r/sub/src/a.py"⟩, "python", "f469842763db3981", 1⟩

def lostSource : SourceFile :=
  ⟨"sub/src/a.py", ⟨"/r/sub/../src/a.py"⟩, "python", "9e26bf369911c45c", 1⟩

/-- After a step up two files of a project have one path, and one of them is lost. -/
theorem find_loses_stepped : ∃ sources,
    pythonOnly.find steppedTree ⟨"/r"⟩ stepping = .ok sources ∧
      (pythonOnly.Meets steppedTree ⟨"/r"⟩ stepping ⟨"/r/sub/../src/a.py"⟩ "x = 1\n".toUTF8 ∧
        pythonOnly.Takes ⟨"/r/sub/../src/a.py"⟩ "x = 1\n".toUTF8) ∧
      (pythonOnly.Meets steppedTree ⟨"/r"⟩ stepping ⟨"/r/sub/src/a.py"⟩ "y = 2\n".toUTF8 ∧
        pythonOnly.Takes ⟨"/r/sub/src/a.py"⟩ "y = 2\n".toUTF8) ∧
      Path.place ⟨"/r/sub/../src/a.py"⟩ ≠ Path.place ⟨"/r/sub/src/a.py"⟩ ∧
      Path.relativeTo ⟨"/r"⟩ ⟨"/r/sub/../src/a.py"⟩ = Path.relativeTo ⟨"/r"⟩ ⟨"/r/sub/src/a.py"⟩ ∧
      ∀ source ∈ sources, source.location.place ≠ Path.place ⟨"/r/sub/../src/a.py"⟩ := by
  have walked : (stepping.mapM fun dir =>
      pythonOnly.inDir steppedTree ⟨"/r"⟩ (Path.join ⟨"/r"⟩ dir)).toOption =
        some [[keptSource], [lostSource]] := by decide +kernel
  have found : pythonOnly.find steppedTree ⟨"/r"⟩ stepping = .ok [keptSource] := by
    have first : arrange [keptSource, lostSource] = [keptSource] := arrange_of_same_path rfl
    exact (pythonOnly.find_eq_ok_iff ..).mpr ⟨_, Project.ok_of_toOption walked, first.symm⟩
  have lost : pythonOnly.Meets steppedTree ⟨"/r"⟩ stepping ⟨"/r/sub/../src/a.py"⟩ "x = 1\n".toUTF8 :=
    meets_of_reaches ⟨"sub/../src"⟩ ["r", "src"] ["a.py"] (by decide)
      (by decide +kernel) (by decide +kernel) rfl (by decide) (by decide +kernel) (by decide +kernel)
  have kept : pythonOnly.Meets steppedTree ⟨"/r"⟩ stepping ⟨"/r/sub/src/a.py"⟩ "y = 2\n".toUTF8 :=
    meets_of_reaches ⟨"sub"⟩ ["r", "sub"] ["src", "a.py"] (by decide)
      (by decide +kernel) (by decide +kernel) rfl (by decide) (by decide +kernel) (by decide +kernel)
  refine ⟨[keptSource], found, ⟨lost, by decide +kernel, ⟨_, rfl⟩, by decide +kernel⟩,
    ⟨kept, by decide +kernel, ⟨_, rfl⟩, by decide +kernel⟩, by decide +kernel, by decide +kernel, ?_⟩
  decide +kernel

end SourceIndex

end SourceAtlas
