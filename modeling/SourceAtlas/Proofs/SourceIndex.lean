import SourceAtlas.Proofs.FileTree
import SourceAtlas.SourceIndex
/-!
What the index finds. Every source file is readable where it was found, is known by a plain path that
no other has, and files come in the order of their paths.
-/

namespace SourceAtlas

section Lists

variable {α : Type} (same : α → α → Bool)

theorem eraseDupsBy_sublist : (items : List α) → (items.eraseDupsBy same).Sublist items
  | [] => .slnil
  | first :: rest => by
      rw [List.eraseDupsBy_cons]
      exact ((eraseDupsBy_sublist (rest.filter _)).trans List.filter_sublist).cons_cons first
termination_by items => items.length
decreasing_by exact Nat.lt_succ_of_le (List.length_filter_le _ rest)

/-- What stays is not the same as anything that came before it. -/
theorem eraseDupsBy_pairwise : (items : List α) →
    (items.eraseDupsBy same).Pairwise fun earlier later => same later earlier = false
  | [] => .nil
  | first :: rest => by
      rw [List.eraseDupsBy_cons, List.pairwise_cons]
      refine ⟨fun later member => ?_, eraseDupsBy_pairwise _⟩
      have kept := (eraseDupsBy_sublist same _).subset member
      simpa using (List.mem_filter.mp kept).2
termination_by items => items.length
decreasing_by exact Nat.lt_succ_of_le (List.length_filter_le _ rest)

/-- What stays has something the same as each item. -/
theorem exists_mem_eraseDupsBy (reflexive : ∀ item, same item item = true) :
    (items : List α) → ∀ item ∈ items, ∃ kept ∈ items.eraseDupsBy same, same item kept = true
  | [] => nofun
  | first :: rest => by
      intro item member
      rw [List.eraseDupsBy_cons]
      rcases List.mem_cons.mp member with rfl | later
      · exact ⟨item, List.mem_cons_self .., reflexive item⟩
      · by_cases repeated : same item first = true
        · exact ⟨first, List.mem_cons_self .., repeated⟩
        · have stays : item ∈ rest.filter fun other => same other first = false :=
            List.mem_filter.mpr ⟨later, by simpa using repeated⟩
          obtain ⟨kept, inKept, equal⟩ := exists_mem_eraseDupsBy reflexive _ item stays
          exact ⟨kept, List.mem_cons_of_mem first inKept, equal⟩
termination_by items => items.length
decreasing_by exact Nat.lt_succ_of_le (List.length_filter_le _ rest)

end Lists

namespace SourceIndex

open FileTree

variable (index : SourceIndex)

/-- What the index says of a source file is what can be read where the file stands. -/
structure Describes (tree : FileTree) (root : Path) (source : SourceFile) : Prop where
  path : source.path = Path.relativeTo root source.location
  language : ∃ language, index.languages.detect? source.location = some language ∧
    source.language = language.tag
  text : ∃ text, tree.readText source.location = .ok text ∧
    text.toUTF8.size ≤ index.maxFileSize ∧ source.hash = Fingerprint.ofText text ∧
    source.lineCount = lineCount text

/-- A walk meets the file that it starts from, or below the directory that it starts from the files
that are not left out. -/
theorem mem_reachable_iff (tree : FileTree) (dir path : Path) (base : Place) (rules : IgnoreRules)
    (content : ByteArray) :
    (path, content) ∈ reachable tree dir base rules ↔
      (path = dir ∧ tree.find? base = some (.file content)) ∨
      ((∀ other, tree.find? base ≠ some (.file other)) ∧ ∃ names, names ≠ [] ∧
        tree.find? (base ++ names) = some (.file content) ∧ reaches tree rules base names = true ∧
        path = dir.join ⟨String.intercalate "/" names⟩) := by
  unfold reachable
  split
  · next other held =>
      rw [List.mem_singleton, Prod.mk.injEq, held, Option.some_inj, FileEntry.file.injEq]
      constructor
      · rintro ⟨rfl, rfl⟩
        exact Or.inl ⟨rfl, rfl⟩
      · rintro (⟨rfl, rfl⟩ | ⟨noFile, -⟩)
        · exact ⟨rfl, rfl⟩
        · exact absurd rfl (noFile other)
  · next noFile =>
      have none : tree.find? base ≠ some (.file content) := noFile content
      simp only [none, and_false, false_or]
      constructor
      · intro member
        obtain ⟨⟨names, lower⟩, below, kept⟩ := List.mem_filterMap.mp member
        obtain ⟨filled, held⟩ := (mem_below_iff tree base names lower).mp below
        cases lower with
        | dir => cases kept
        | file found =>
            simp only [Option.ite_none_right_eq_some, Option.some_inj, Prod.mk.injEq] at kept
            obtain ⟨open_, rfl, rfl⟩ := kept
            exact ⟨noFile, names, filled, held, open_, rfl⟩
      · rintro ⟨-, names, filled, held, open_, rfl⟩
        refine List.mem_filterMap.mpr ⟨(names, .file content), ?_, by simp [open_]⟩
        exact (mem_below_iff tree base names _).mpr ⟨filled, held⟩

/-- A file on the walk through a directory is what its path leads to. -/
theorem reaches_of_reachable {tree : FileTree} (sound : tree.Sound) {dir path : Path} {base : Place}
    {rules : IgnoreRules} {content : ByteArray} (there : tree.place? dir = some base)
    (member : (path, content) ∈ reachable tree dir base rules) :
    tree.Reaches path ∧ tree.find? path.place = some (.file content) := by
  obtain ⟨rfl, entry, stood⟩ := stat_of_place? there
  rcases (mem_reachable_iff ..).mp member with ⟨rfl, held⟩ | ⟨noFile, names, filled, held, -, rfl⟩
  · cases entry with
    | dir =>
        rw [sound.stat_dir stood] at held
        cases held
    | file found => exact ⟨((stat_eq_file_iff tree path found).mp stood).1, held⟩
  · have ordinary : ∀ name ∈ names, IsName name := fun name inNames =>
      (sound.isFileName held name (List.mem_append_right _ inNames)).1
    have dirStood : tree.isDir dir = true := by
      rw [isDir_iff]
      cases entry with
      | dir => exact stood
      | file other => exact absurd ((stat_eq_file_iff tree dir other).mp stood).2 (noFile other)
    refine ⟨sound.reaches_join dirStood filled held, ?_⟩
    rw [Path.place_join_intercalate ordinary, held]

theorem sourceFile?_eq_some_iff (root path : Path) (content : ByteArray) (source : SourceFile) :
    index.sourceFile? root path content = some source ↔ ∃ language text,
      index.languages.detect? path = some language ∧ content = text.toUTF8 ∧
        content.size ≤ index.maxFileSize ∧ source =
          { path := Path.relativeTo root path
            location := path
            language := language.tag
            hash := Fingerprint.ofText text
            lineCount := lineCount text } := by
  unfold sourceFile?
  cases detected : index.languages.detect? path with
  | none => simp
  | some language =>
      cases decoded : String.fromUTF8? content with
      | none =>
          simp only [bind, Option.bind, reduceCtorEq, false_iff]
          rintro ⟨other, text, -, same, -⟩
          rw [(fromUTF8?_eq_some_iff content text).mpr same] at decoded
          cases decoded
      | some text =>
          have same := (fromUTF8?_eq_some_iff content text).mp decoded
          simp only [bind, Option.bind]
          constructor
          · intro made
            split at made
            · cases made
            · next small =>
                cases made
                exact ⟨language, text, rfl, same, Nat.not_lt.mp small, rfl⟩
          · rintro ⟨other, read, known, equal, small, rfl⟩
            cases known
            rw [(fromUTF8?_eq_some_iff content read).mpr equal, Option.some_inj] at decoded
            rw [if_neg (Nat.not_lt.mpr small), decoded]

theorem of_sourceFile? {root path : Path} {content : ByteArray} {source : SourceFile}
    (made : index.sourceFile? root path content = some source) :
    source.location = path ∧ source.path = Path.relativeTo root path := by
  obtain ⟨language, text, -, -, -, rfl⟩ := (index.sourceFile?_eq_some_iff ..).mp made
  exact ⟨rfl, rfl⟩

theorem describes_of_sourceFile? {tree : FileTree} {root path : Path} {content : ByteArray}
    {source : SourceFile} (reached : tree.Reaches path)
    (held : tree.find? path.place = some (.file content))
    (made : index.sourceFile? root path content = some source) : index.Describes tree root source := by
  obtain ⟨language, text, detected, rfl, small, rfl⟩ := (index.sourceFile?_eq_some_iff ..).mp made
  exact ⟨rfl, ⟨language, detected, rfl⟩, text,
    (readText_eq_ok_iff tree path text).mpr ⟨reached, held⟩, small, rfl, rfl⟩

def walk (tree : FileTree) (root dir : Path) (base : Place) (rules : IgnoreRules) : List SourceFile :=
  (reachable tree dir base rules).filterMap fun (path, content) => index.sourceFile? root path content

theorem inDir_eq_ok_iff (tree : FileTree) (root dir : Path) (sources : List SourceFile) :
    index.inDir tree root dir = .ok sources ↔
      (tree.place? dir = none ∧ sources = []) ∨ ∃ base kept, tree.place? dir = some base ∧
        rules index.ignorePatterns = .ok kept ∧ tree.badIgnoreLinesAbove base = [] ∧
        sources = index.walk tree root dir base kept := by
  unfold inDir
  cases there : tree.place? dir with
  | none =>
      constructor
      · rintro ⟨⟩
        exact Or.inl ⟨rfl, rfl⟩
      · rintro (⟨-, rfl⟩ | ⟨base, kept, wrong, -⟩)
        · rfl
        · cases wrong
  | some base =>
      simp only [reduceCtorEq, false_and, false_or]
      cases ruled : rules index.ignorePatterns with
      | error fault => simp [bind, Except.bind]
      | ok kept =>
          simp only [bind, Except.bind]
          constructor
          · intro found
            split at found
            · next clean =>
                cases found
                exact ⟨base, kept, rfl, rfl, clean, rfl⟩
            · cases found
          · rintro ⟨other, others, same, equal, clean, rfl⟩
            cases same
            cases equal
            rw [clean]
            rfl

theorem mem_inDir {tree : FileTree} (sound : tree.Sound) {root dir : Path} {sources : List SourceFile}
    (found : index.inDir tree root dir = .ok sources) {source : SourceFile} (member : source ∈ sources) :
    index.Describes tree root source := by
  rcases (index.inDir_eq_ok_iff ..).mp found with ⟨-, rfl⟩ | ⟨base, kept, there, -, -, rfl⟩
  · cases member
  · obtain ⟨⟨path, content⟩, met, made⟩ := List.mem_filterMap.mp member
    obtain ⟨reached, held⟩ := reaches_of_reachable sound there met
    exact index.describes_of_sourceFile? reached held made

theorem arrange_sublist (sources : List SourceFile) :
    (arrange sources).Sublist (sources.mergeSort fun left right => left.path ≤ right.path) :=
  eraseDupsBy_sublist _ _

/-- Arranged sources come in the order of their paths, and no two have the same path. -/
theorem arrange_pairwise (sources : List SourceFile) :
    (arrange sources).Pairwise fun left right => left.path < right.path := by
  have sorted : (sources.mergeSort fun left right => left.path ≤ right.path).Pairwise
      fun left right => left.path ≤ right.path := by
    apply List.Pairwise.imp _ (List.pairwise_mergeSort _ _ sources)
    · intro left right ordered
      simpa using ordered
    · intro first second third
      simpa using String.le_trans
    · intro left right
      simpa using String.le_total left.path right.path
  have apart := eraseDupsBy_pairwise (fun left right : SourceFile => left.path == right.path)
    (sources.mergeSort fun left right => left.path ≤ right.path)
  refine (List.Pairwise.and (sorted.sublist (arrange_sublist sources)) apart).imp ?_
  rintro left right ⟨ordered, other⟩
  apply Std.lt_of_le_of_ne ordered
  intro same
  simp [same] at other

theorem mem_of_mem_arrange {sources : List SourceFile} {source : SourceFile}
    (member : source ∈ arrange sources) : source ∈ sources :=
  List.mem_mergeSort.mp ((arrange_sublist sources).subset member)

theorem exists_mem_arrange {sources : List SourceFile} {source : SourceFile} (member : source ∈ sources) :
    ∃ kept ∈ arrange sources, kept.path = source.path := by
  obtain ⟨kept, inKept, same⟩ := exists_mem_eraseDupsBy
    (fun left right : SourceFile => left.path == right.path) (fun source => by simp) _ source
    (List.mem_mergeSort.mpr member)
  exact ⟨kept, inKept, (by simpa using same : source.path = kept.path).symm⟩

theorem mapM_cons_eq_ok_iff {ε α β : Type} (step : α → Except ε β) (item : α) (rest : List α)
    (answers : List β) : (item :: rest).mapM step = .ok answers ↔
      ∃ answer others, step item = .ok answer ∧ rest.mapM step = .ok others ∧
        answers = answer :: others := by
  rw [List.mapM_cons]
  cases first : step item with
  | error fault => simp [bind, Except.bind]
  | ok made =>
      cases later : rest.mapM step with
      | error fault => simp [bind, Except.bind]
      | ok others => simp [bind, Except.bind, pure, Except.pure, eq_comm]

theorem mem_of_mapM_eq_ok {ε α β : Type} {step : α → Except ε β} {items : List α} {answers : List β}
    (ran : items.mapM step = .ok answers) {answer : β} (member : answer ∈ answers) :
    ∃ item ∈ items, step item = .ok answer := by
  induction items generalizing answers with
  | nil =>
      cases ran
      cases member
  | cons item rest ih =>
      obtain ⟨made, others, first, later, rfl⟩ := (mapM_cons_eq_ok_iff ..).mp ran
      rcases List.mem_cons.mp member with rfl | inRest
      · exact ⟨item, List.mem_cons_self .., first⟩
      · obtain ⟨other, inItems, same⟩ := ih later inRest
        exact ⟨other, List.mem_cons_of_mem item inItems, same⟩

theorem exists_of_mapM_eq_ok {ε α β : Type} {step : α → Except ε β} {items : List α}
    {answers : List β} (ran : items.mapM step = .ok answers) {item : α} (member : item ∈ items) :
    ∃ answer ∈ answers, step item = .ok answer := by
  induction items generalizing answers with
  | nil => cases member
  | cons head rest ih =>
      obtain ⟨made, others, first, later, rfl⟩ := (mapM_cons_eq_ok_iff ..).mp ran
      rcases List.mem_cons.mp member with rfl | inRest
      · exact ⟨made, List.mem_cons_self .., first⟩
      · obtain ⟨answer, inOthers, same⟩ := ih later inRest
        exact ⟨answer, List.mem_cons_of_mem made inOthers, same⟩

theorem error_of_bind {ε α β : Type} {first : Except ε α} {next : α → Except ε β} {fault : ε}
    (failed : (first >>= next) = .error fault) :
    first = .error fault ∨ ∃ answer, first = .ok answer ∧ next answer = .error fault := by
  cases first with
  | error found =>
      cases failed
      exact Or.inl rfl
  | ok answer => exact Or.inr ⟨answer, rfl, failed⟩

theorem exists_of_mapM_eq_error {ε α β : Type} {step : α → Except ε β} {items : List α} {fault : ε}
    (failed : items.mapM step = .error fault) : ∃ item ∈ items, step item = .error fault := by
  induction items with
  | nil => cases failed
  | cons item rest ih =>
      rw [List.mapM_cons] at failed
      rcases error_of_bind failed with first | ⟨made, -, onward⟩
      · exact ⟨item, List.mem_cons_self .., first⟩
      · rcases error_of_bind onward with later | ⟨others, -, wrong⟩
        · obtain ⟨other, inRest, same⟩ := ih later
          exact ⟨other, List.mem_cons_of_mem item inRest, same⟩
        · cases wrong

theorem mapM_eq_ok_of_forall {ε α β : Type} {step other : α → Except ε β} {items : List α}
    {answers : List β}
    (same : ∀ item ∈ items, ∀ answer, step item = .ok answer → other item = .ok answer)
    (ran : items.mapM step = .ok answers) : items.mapM other = .ok answers := by
  induction items generalizing answers with
  | nil => exact ran
  | cons item rest ih =>
      obtain ⟨made, others, first, later, rfl⟩ := (mapM_cons_eq_ok_iff ..).mp ran
      exact (mapM_cons_eq_ok_iff ..).mpr ⟨made, others, same item (List.mem_cons_self ..) made first,
        ih (fun next member => same next (List.mem_cons_of_mem item member)) later, rfl⟩

theorem find_eq_ok_iff (tree : FileTree) (root : Path) (dirs : List Path) (sources : List SourceFile) :
    index.find tree root dirs = .ok sources ↔ ∃ lists,
      (dirs.mapM fun dir => index.inDir tree root (root.join dir)) = .ok lists ∧
        sources = arrange lists.flatten := by
  unfold find
  cases (dirs.mapM fun dir => index.inDir tree root (root.join dir)) with
  | error fault => simp [bind, Except.bind]
  | ok lists => simp [bind, Except.bind, pure, Except.pure, eq_comm]

theorem exists_inDir_of_find {tree : FileTree} {root : Path} {dirs : List Path}
    {sources : List SourceFile} (found : index.find tree root dirs = .ok sources) {source : SourceFile}
    (member : source ∈ sources) : ∃ dir ∈ dirs, ∃ part,
      index.inDir tree root (root.join dir) = .ok part ∧ source ∈ part := by
  obtain ⟨lists, parts, rfl⟩ := (index.find_eq_ok_iff ..).mp found
  obtain ⟨part, inLists, inPart⟩ := List.mem_flatten.mp (mem_of_mem_arrange member)
  obtain ⟨dir, inDirs, made⟩ := mem_of_mapM_eq_ok parts inLists
  exact ⟨dir, inDirs, part, made, inPart⟩

/-- Every source file of a project is described as it can be read. -/
theorem describes_of_find {tree : FileTree} (sound : tree.Sound) {root : Path} {dirs : List Path}
    {sources : List SourceFile} (found : index.find tree root dirs = .ok sources) {source : SourceFile}
    (member : source ∈ sources) : index.Describes tree root source := by
  obtain ⟨dir, -, part, made, inPart⟩ := index.exists_inDir_of_find found member
  exact index.mem_inDir sound made inPart

theorem pairwise_of_find {tree : FileTree} {root : Path} {dirs : List Path}
    {sources : List SourceFile} (found : index.find tree root dirs = .ok sources) :
    sources.Pairwise fun left right => left.path < right.path := by
  obtain ⟨lists, -, rfl⟩ := (index.find_eq_ok_iff ..).mp found
  exact arrange_pairwise _

theorem paths_nodup_of_find {tree : FileTree} {root : Path} {dirs : List Path}
    {sources : List SourceFile} (found : index.find tree root dirs = .ok sources) :
    (sources.map SourceFile.path).Nodup := by
  refine List.Pairwise.map _ (fun left right less equal => ?_) (index.pairwise_of_find found)
  rw [equal] at less
  exact Std.lt_irrefl less

/-- Sources that come in the order of their paths are found as they come. -/
theorem find_of_ordered {tree : FileTree} {root : Path} {dirs : List Path}
    {lists : List (List SourceFile)}
    (walked : (dirs.mapM fun dir => index.inDir tree root (root.join dir)) = .ok lists)
    (ordered : lists.flatten.Pairwise fun left right => left.path < right.path) :
    index.find tree root dirs = .ok lists.flatten := by
  have sorted : (lists.flatten.mergeSort fun left right => left.path ≤ right.path) = lists.flatten := by
    apply List.mergeSort_of_pairwise
    exact ordered.imp fun less => by simpa using Std.le_of_lt less
  have distinct : ∀ items : List SourceFile,
      items.Pairwise (fun left right => left.path < right.path) →
        items.eraseDupsBy (fun left right => left.path == right.path) = items := by
    intro items
    induction items with
    | nil => exact fun _ => rfl
    | cons first rest ih =>
        intro ordered
        obtain ⟨later, ordered⟩ := List.pairwise_cons.mp ordered
        rw [List.eraseDupsBy_cons, List.filter_eq_self.mpr, ih ordered]
        intro other member
        simpa using (Std.ne_of_lt (later other member)).symm
  refine (index.find_eq_ok_iff ..).mpr ⟨lists, walked, ?_⟩
  rw [arrange, sorted, distinct _ ordered]

variable {index}

/-- A source file stands at a path that ends in a name. -/
theorem Describes.named {tree : FileTree} {root : Path} {source : SourceFile}
    (describes : index.Describes tree root source) :
    ∃ last, source.location.parts.getLast? = some (.name last) := by
  obtain ⟨text, read, -⟩ := describes.text
  obtain ⟨⟨dir, name, ended, -⟩, -⟩ := (readText_eq_ok_iff tree _ text).mp read
  exact ⟨name, parts_of_named ended⟩

theorem Describes.isPlain {tree : FileTree} {root : Path} {source : SourceFile}
    (describes : index.Describes tree root source)
    (rooted : ∀ content, tree.find? root.place ≠ some (.file content)) : IsPlain source.path := by
  obtain ⟨last, ended⟩ := describes.named
  rw [describes.path]
  apply Path.isPlain_relativeTo ended
  intro same
  obtain ⟨text, read, -⟩ := describes.text
  obtain ⟨-, held⟩ := (readText_eq_ok_iff tree _ text).mp read
  rw [Path.place_eq_follow, same, ← Path.place_eq_follow] at held
  exact rooted _ held

/-- Source files with one path are in one language, wherever they are found. -/
theorem Describes.detect?_eq {before after : FileTree} {root : Path} {source other : SourceFile}
    (describes : index.Describes before root source) (also : index.Describes after root other)
    (path : source.path = other.path) :
    index.languages.detect? source.location = index.languages.detect? other.location := by
  obtain ⟨last, ended⟩ := describes.named
  obtain ⟨otherLast, otherEnded⟩ := also.named
  rw [describes.path, also.path] at path
  unfold LanguageSet.detect?
  rw [Path.extension?_eq_of_relativeTo ended otherEnded path]

end SourceIndex

end SourceAtlas
