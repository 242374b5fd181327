import Mathlib.Data.List.Pairwise
import SourceAtlas.Proofs.IndexPaths
import SourceAtlas.Proofs.PagePlan
import SourceAtlas.Proofs.StoredPages
/-!
Where the pages of a plan stand. A page has the directories and the name of its source, with the
extension of pages at the end. So pages are in each other's way only where that name is also the name of
a directory with other sources, and a page cannot be stored only where the extension makes its name too
long.
-/

namespace SourceAtlas

open FileTree

/-- Of plain paths the one leads to the other or to a directory above it when the text of the other goes
on behind a slash. -/
theorem IsPlain.names_prefix_iff {text other : String} (plain : IsPlain text) (also : IsPlain other) :
    Path.names ⟨text⟩ <+: Path.names ⟨other⟩ ↔ text = other ∨ ∃ rest, other = text ++ "/" ++ rest := by
  constructor
  · rintro ⟨rest, split⟩
    by_cases whole : rest = []
    · rw [whole, List.append_nil] at split
      exact Or.inl (plain.eq_of_names also split)
    · right
      refine ⟨String.intercalate "/" rest, ?_⟩
      rw [← also.intercalate, ← split, String.intercalate_append_of_ne_nil plain.names_ne_nil whole,
        plain.intercalate]
  · rintro (rfl | ⟨rest, rfl⟩)
    · exact List.prefix_refl _
    · rw [← plain.pieces, ← also.pieces, Path.pieces_append]
      exact List.prefix_append _ _

namespace Page

/-- A source stands in a directory that is called like the page of another source. -/
def Blocks (path other : String) : Prop := (path ++ ".md/").toList <+: other.toList

instance (path other : String) : Decidable (Blocks path other) :=
  inferInstanceAs (Decidable (_ <+: _))

/-- The name of a source leaves room for the extension of its page. -/
def Fits (path : String) : Prop :=
  ((Path.names ⟨path⟩).getLastD "").utf8ByteSize + ".md".utf8ByteSize ≤ nameLimit

instance (path : String) : Decidable (Fits path) := inferInstanceAs (Decidable (_ ≤ _))

theorem not_blocks_self (path : String) : ¬ Blocks path path := by
  intro blocks
  have longer := blocks.length_le
  have extension : ".md/".toList.length = 4 := rfl
  rw [String.toList_append, List.length_append, extension] at longer
  omega

theorem blocks_iff (path other : String) :
    Blocks path other ↔ ∃ rest, ofSource other = ofSource path ++ "/" ++ rest := by
  have written : ∀ rest, ofSource other = ofSource path ++ "/" ++ rest ↔
      other.toList ++ ".md".toList = (path ++ ".md/").toList ++ rest.toList := by
    intro rest
    rw [← String.toList_inj]
    simp [ofSource, filesDir, String.toList_append]
  simp only [written]
  constructor
  · rintro ⟨rest, split⟩
    exact ⟨String.ofList (rest ++ ".md".toList), by simp [← split]⟩
  · rintro ⟨rest, same⟩
    -- the extension of the one page would hold the slash behind the other
    rcases List.append_eq_append_iff.mp same with ⟨behind, cut, ending⟩ | ⟨behind, cut, -⟩
    · rcases List.eq_nil_or_concat behind with none | ⟨front, last, split⟩
      · rw [none, List.append_nil] at cut
        exact ⟨[], by rw [List.append_nil, cut]⟩
      · rw [split, List.concat_eq_append] at cut ending
        have slash := congrArg List.getLast? cut
        simp [String.toList_append] at slash
        have inside : '/' ∈ ".md".toList := by
          rw [ending, slash]
          simp
        exact absurd inside (by decide)
    · exact ⟨behind, cut.symm⟩

/-- Pages of sources are in each other's way when one source blocks the other. -/
theorem apart_ofSource_iff {path other : String} (plain : IsPlain (ofSource path))
    (also : IsPlain (ofSource other)) : Apart (ofSource path) (ofSource other) ↔
      path ≠ other ∧ ¬ Blocks path other ∧ ¬ Blocks other path := by
  have same : ofSource path = ofSource other ↔ path = other := ⟨ofSource_inj, congrArg ofSource⟩
  rw [Apart, plain.names_prefix_iff also, also.names_prefix_iff plain, blocks_iff, blocks_iff,
    eq_comm (a := ofSource other), same, not_or, not_or]
  exact and_and_left.symm

/-- A source with the names of a path has its page under the same names, the last one extended. -/
theorem names_ofSource_intercalate {names : List String} (ordinary : ∀ name ∈ names, IsName name) :
    IsPlain (ofSource (String.intercalate "/" names)) ∧
      Path.names ⟨ofSource (String.intercalate "/" names)⟩ =
        filesDir :: names.dropLast ++ [names.getLastD "" ++ ".md"] := by
  rcases List.eq_nil_or_concat names with rfl | ⟨front, last, rfl⟩
  · exact ⟨⟨[filesDir, ".md"], by simp, by decide, rfl⟩, by decide +kernel⟩
  · rw [List.concat_eq_append] at ordinary ⊢
    have plain : IsPlain (String.intercalate "/" (front ++ [last])) := ⟨_, by simp, ordinary, rfl⟩
    obtain ⟨text, whole⟩ := names_ofSource plain (Path.names_intercalate ordinary)
    refine ⟨⟨_, by simp, whole, text⟩, ?_⟩
    rw [text, Path.names_intercalate whole]
    simp [String.append_assoc]

theorem apart_overview {names : List String} (ordinary : ∀ name ∈ names, IsName name) :
    Apart (ofSource (String.intercalate "/" names)) overview := by
  have single : Path.names ⟨overview⟩ = [overview] := by decide +kernel
  rw [Apart, (names_ofSource_intercalate ordinary).2, single]
  simp [List.cons_prefix_cons, filesDir, overview]

/-- Where the names of a source are those of files, its page has such names when it fits. -/
theorem isFileName_ofSource_iff {names : List String} (ordinary : ∀ name ∈ names, IsFileName name) :
    (∀ name ∈ Path.names ⟨ofSource (String.intercalate "/" names)⟩, IsFileName name) ↔
      Fits (String.intercalate "/" names) := by
  have named : ∀ name ∈ names, IsName name := fun name member => (ordinary name member).1
  obtain ⟨plain, written⟩ := names_ofSource_intercalate named
  have final := plain.isName
  rw [Fits, Path.names_intercalate named, ← String.utf8ByteSize_append]
  rw [written] at final ⊢
  constructor
  · exact fun all => (all _ (by simp)).2.2
  · intro short name member
    rcases List.mem_append.mp member with above | last
    · rcases List.mem_cons.mp above with rfl | inner
      · decide
      · exact ordinary name (List.dropLast_subset _ inner)
    · rw [List.mem_singleton.mp last]
      refine ⟨final _ (by simp), ?_, short⟩
      rw [String.toList_append, List.mem_append, not_or]
      refine ⟨?_, by decide⟩
      cases names using List.reverseRecOn with
      | nil => decide
      | append_singleton front name =>
          rw [List.getLastD_concat]
          exact (ordinary name (by simp)).2.1

end Page

theorem SourceIndex.Describes.isFileName {index : SourceIndex} {tree : FileTree} {root : Path}
    {source : SourceFile} (describes : index.Describes tree root source) (sound : tree.Sound) :
    ∀ name ∈ Path.namesBelow root source.location, IsFileName name := by
  intro name member
  obtain ⟨inPath, notHere, notUp⟩ :=
    Path.mem_pieces_of_mem_parts (Path.mem_parts_of_mem_namesBelow member)
  obtain ⟨text, read, -⟩ := describes.text
  obtain ⟨⟨dir, last, ended, -⟩, held⟩ := (readText_eq_ok_iff ..).mp read
  rcases target_cases ended with ⟨-, same⟩ | ⟨front, final, split, way, same⟩
  · cases same
  rw [split] at inPath
  rcases List.mem_append.mp inPath with above | here
  · rcases sound.fileName_of_passable way above with dot | dots | named
    · exact absurd dot notHere
    · exact absurd dots notUp
    · exact named
  -- the last name is that of the file itself
  · rw [← List.mem_singleton.mp here] at same
    rw [Target.ofLast, if_neg notHere, if_neg notUp, Target.mk.injEq, Option.some_inj] at same
    rw [place_of_named ended, same.2.1] at held
    exact sound.isFileName held name (by simp)

namespace PagePlan

variable (plan : PagePlan)

def documented : List String :=
  (plan.files.filter fun file => !file.analysis.entities.isEmpty).map fun file => file.source.path

/-- No source with a page is called like a directory with others. -/
def Unblocked : Prop :=
  ∀ path ∈ plan.documented, ∀ other ∈ plan.documented, ¬ Page.Blocks path other

instance : Decidable plan.Unblocked := inferInstanceAs (Decidable (∀ path ∈ plan.documented, _))

theorem pages_paths_documented :
    plan.pages.map PageRequest.path = plan.documented.map Page.ofSource ++ [Page.overview] := by
  rw [pages_paths, documented, List.map_map]
  rfl

variable {plan}

section Named

variable (named : ∀ path ∈ plan.documented,
  ∃ names : List String, (∀ name ∈ names, IsFileName name) ∧ path = String.intercalate "/" names)

include named

theorem page_isPlain {page : String} (member : page ∈ plan.pages.map PageRequest.path) :
    IsPlain page := by
  rw [pages_paths_documented] at member
  rcases List.mem_append.mp member with single | whole
  · obtain ⟨path, inPlan, rfl⟩ := List.mem_map.mp single
    obtain ⟨names, ordinary, rfl⟩ := named path inPlan
    exact (Page.names_ofSource_intercalate fun name inPath => (ordinary name inPath).1).1
  · rw [List.mem_singleton.mp whole]
    exact Page.overview_isPlain

/-- Planned pages stand apart when no source blocks another. -/
theorem pages_apart_iff (distinct : plan.documented.Nodup) :
    (plan.pages.map PageRequest.path).Pairwise Page.Apart ↔ plan.Unblocked := by
  have plain : ∀ path ∈ plan.documented, IsPlain (Page.ofSource path) := by
    intro path member
    apply page_isPlain named
    rw [pages_paths_documented]
    exact List.mem_append_left _ (List.mem_map_of_mem member)
  have beside : ∀ page ∈ plan.documented.map Page.ofSource, ∀ other ∈ [Page.overview],
      Page.Apart page other := by
    intro page single other whole
    obtain ⟨path, member, rfl⟩ := List.mem_map.mp single
    obtain ⟨names, ordinary, rfl⟩ := named path member
    rw [List.mem_singleton.mp whole]
    exact Page.apart_overview fun name inPath => (ordinary name inPath).1
  rw [pages_paths_documented, List.pairwise_append, List.pairwise_map]
  have : Std.Symm fun path other => Page.Apart (Page.ofSource path) (Page.ofSource other) :=
    ⟨fun _ _ => Page.Apart.symm⟩
  constructor
  · rintro ⟨apart, -⟩ path member other also blocks
    by_cases same : path = other
    · exact Page.not_blocks_self path (same ▸ blocks)
    · have each := apart.forall member also same
      exact ((Page.apart_ofSource_iff (plain path member) (plain other also)).mp each).2.1 blocks
  · intro unblocked
    refine ⟨distinct.imp_of_mem fun member also different => ?_, List.pairwise_singleton .., beside⟩
    exact (Page.apart_ofSource_iff (plain _ member) (plain _ also)).mpr
      ⟨different, unblocked _ member _ also, unblocked _ also _ member⟩

theorem pages_fit_iff : (∀ page ∈ plan.pages.map PageRequest.path, ∀ name ∈ Path.names ⟨page⟩,
    IsFileName name) ↔ ∀ path ∈ plan.documented, Page.Fits path := by
  have overview : ∀ name ∈ Path.names ⟨Page.overview⟩, IsFileName name := by decide +kernel
  rw [pages_paths_documented]
  simp only [List.forall_mem_append, List.forall_mem_singleton, List.forall_mem_map,
    and_iff_left overview]
  refine forall₂_congr fun path member => ?_
  obtain ⟨names, ordinary, rfl⟩ := named path member
  exact Page.isFileName_ofSource_iff ordinary

/-- In an empty docs directory the pages of a plan are all stored, in whatever order, when no source
blocks another and all of them fit. -/
theorem pages_stored_iff (single : plan.documented.Nodup)
    (distinct : (plan.pages.map PageRequest.path).Nodup) {docs : Docs} {disk : FileTree}
    (sound : disk.Sound) (empty : docs.IsEmpty disk) {order : List (String × String)}
    (any : (order.map Prod.fst).Perm (plan.pages.map PageRequest.path)) :
    ((docs.storeAll order).run.run disk).1 = .ok () ↔
      plan.Unblocked ∧ ∀ path ∈ plan.documented, Page.Fits path := by
  have plain : ∀ part ∈ order, IsPlain part.1 := fun part member =>
    page_isPlain named (any.mem_iff.mp (List.mem_map_of_mem member))
  rw [Docs.storeAll_eq_ok_iff sound empty plain (any.nodup_iff.mpr distinct),
    any.pairwise_iff Page.Apart.symm, pages_apart_iff named single, ← pages_fit_iff named]
  refine and_congr_right fun _ => ?_
  simp only [← any.mem_iff, List.forall_mem_map]

end Named

/-- The pages of sources that were found have different paths, and each is taken. They stand apart
exactly when no source stands in a directory that is called like the page of another. In an empty docs
directory they are all stored, in whatever order, exactly when they stand apart and no name becomes too
long by the extension, and then each is loaded as it was written. -/
theorem pages_coexist {index : SourceIndex} {tree : FileTree} (sound : tree.Sound) {root : Path}
    {dirs : List Path} {sources : List SourceFile} (found : index.find tree root dirs = .ok sources)
    (analyzed : plan.files.map AnalyzedFile.source = sources) (docs : Docs) :
    (plan.pages.map PageRequest.path).Nodup ∧
    (∀ request ∈ plan.pages, docs.locate request.path = .ok (docs.fileOf request.path)) ∧
    ((plan.pages.map PageRequest.path).Pairwise Page.Apart ↔ plan.Unblocked) ∧
    ∀ disk : FileTree, disk.Sound → docs.IsEmpty disk → ∀ order : List (String × String),
      (order.map Prod.fst).Perm (plan.pages.map PageRequest.path) →
      (((docs.storeAll order).run.run disk).1 = .ok () ↔
        plan.Unblocked ∧ ∀ path ∈ plan.documented, Page.Fits path) ∧
      (((docs.storeAll order).run.run disk).1 = .ok () →
        ∀ part ∈ order, docs.load ((docs.storeAll order).run.run disk).2 part.1 = .ok part.2) := by
  have paths : (plan.files.map fun file => file.source.path).Nodup := by
    have listed := index.paths_nodup_of_find found
    rwa [← analyzed, List.map_map] at listed
  have distinct := plan.pages_nodup paths
  have named : ∀ path ∈ plan.documented, ∃ names : List String,
      (∀ name ∈ names, IsFileName name) ∧ path = String.intercalate "/" names := by
    intro path member
    obtain ⟨file, kept, rfl⟩ := List.mem_map.mp member
    have inSources : file.source ∈ sources :=
      analyzed ▸ List.mem_map_of_mem (List.mem_filter.mp kept).1
    have describes := index.describes_of_find sound found inSources
    exact ⟨_, describes.isFileName sound, describes.path⟩
  have single : plan.documented.Nodup := paths.sublist (List.filter_sublist.map _)
  refine ⟨distinct, fun request member =>
    docs.locate_of_plain (page_isPlain named (List.mem_map_of_mem member)),
    pages_apart_iff named single, fun disk whole empty order any => ?_⟩
  have plain : ∀ part ∈ order, IsPlain part.1 := fun part member =>
    page_isPlain named (any.mem_iff.mp (List.mem_map_of_mem member))
  exact ⟨pages_stored_iff named single distinct whole empty any,
    Docs.load_of_storeAll plain (any.nodup_iff.mpr distinct)⟩

def documenting (sources : List SourceFile) : PagePlan where
  project := "demo"
  files := sources.map fun source => ⟨source, { entities := [⟨"main", .function, 1, 1⟩] }⟩
  usedBy := {}
  projection := .noGraph

theorem documenting_sources (sources : List SourceFile) :
    (documenting sources).files.map AnalyzedFile.source = sources := by
  simp [documenting, Function.comp_def]

def emptyDisk : FileTree := ({} : FileTree).insert ["d"] .dir

theorem emptyDisk_sound : emptyDisk.Sound :=
  Sound.empty.insert [] "d" .dir (find?_nil _) (by decide) fun _ => rfl

theorem isEmpty_emptyDisk : Docs.IsEmpty ⟨⟨"/d"⟩⟩ emptyDisk := by
  refine ⟨by decide +kernel, fun names below => ?_⟩
  have place : Path.place ⟨"/d"⟩ = ["d"] := by decide +kernel
  rw [place, emptyDisk, find?_insert _ _ _ (by simp), if_neg (by simp [below]),
    find?_of_ne_nil _ (by simp)]
  exact Std.ExtTreeMap.getElem?_empty

def nestedSources : List SourceFile :=
  [⟨"src/a.py", ⟨"/r/src/a.py"⟩, "python", "9e26bf369911c45c", 1⟩,
    ⟨"src/pkg/b.py", ⟨"/r/src/pkg/b.py"⟩, "python", "f469842763db3981", 1⟩]

def overviewFirst : List (String × String) :=
  [("index.md", "# demo\n"), ("files/src/pkg/b.py.md", "# b\n"), ("files/src/a.py.md", "# a\n")]

theorem pages_coexist_nestedTree :
    SourceIndex.pythonOnly.find SourceIndex.nestedTree ⟨"/r"⟩ [⟨"src"⟩] = .ok nestedSources ∧
    (overviewFirst.map Prod.fst).Perm ((documenting nestedSources).pages.map PageRequest.path) ∧
    ((Docs.storeAll ⟨⟨"/d"⟩⟩ overviewFirst).run.run emptyDisk).1 = .ok () ∧
    Docs.load ⟨⟨"/d"⟩⟩ ((Docs.storeAll ⟨⟨"/d"⟩⟩ overviewFirst).run.run emptyDisk).2
      "files/src/a.py.md" = .ok "# a\n" := by
  have walked : ([⟨"src"⟩].mapM fun dir => SourceIndex.pythonOnly.inDir SourceIndex.nestedTree ⟨"/r"⟩
      (Path.join ⟨"/r"⟩ dir)).toOption = some [nestedSources] := by decide +kernel
  have found := SourceIndex.pythonOnly.find_of_ordered (Project.ok_of_toOption walked)
    (by decide +kernel)
  have any : (overviewFirst.map Prod.fst).Perm
      ((documenting nestedSources).pages.map PageRequest.path) := by decide +kernel
  obtain ⟨-, -, -, all⟩ := pages_coexist SourceIndex.nestedTree_sound found (documenting_sources _)
    ⟨⟨"/d"⟩⟩
  obtain ⟨ends, loads⟩ := all emptyDisk emptyDisk_sound isEmpty_emptyDisk overviewFirst any
  have stored := ends.mpr ⟨by decide +kernel, by decide +kernel⟩
  exact ⟨found, any, stored, loads stored ("files/src/a.py.md", "# a\n") (by decide)⟩

/-- A tree with a source in a directory that is called like the page of another source. -/
def clashingTree : FileTree :=
  ((((({} : FileTree).insert ["r"] .dir).insert ["r", "src"] .dir).insert ["r", "src", "a.py"]
    (.file "x = 1\n".toUTF8)).insert ["r", "src", "a.py.md"] .dir).insert
      ["r", "src", "a.py.md", "b.py"] (.file "y = 2\n".toUTF8)

def clashingSources : List SourceFile :=
  [⟨"src/a.py", ⟨"/r/src/a.py"⟩, "python", "9e26bf369911c45c", 1⟩,
    ⟨"src/a.py.md/b.py", ⟨"/r/src/a.py.md/b.py"⟩, "python", "f469842763db3981", 1⟩]

/-- Where one page stands is a directory above the other, so one of them cannot be stored, whatever the
order is. -/
theorem pages_clash_clashingTree :
    SourceIndex.pythonOnly.find clashingTree ⟨"/r"⟩ [⟨"src"⟩] = .ok clashingSources ∧
    (documenting clashingSources).pages.map PageRequest.path =
      ["files/src/a.py.md", "files/src/a.py.md/b.py.md", "index.md"] ∧
    Path.names ⟨"files/src/a.py.md"⟩ <+: Path.names ⟨"files/src/a.py.md/b.py.md"⟩ ∧
    ∀ order : List (String × String),
      (order.map Prod.fst).Perm ((documenting clashingSources).pages.map PageRequest.path) →
      ((Docs.storeAll ⟨⟨"/d"⟩⟩ order).run.run emptyDisk).1 ≠ .ok () := by
  have walked : ([⟨"src"⟩].mapM fun dir => SourceIndex.pythonOnly.inDir clashingTree ⟨"/r"⟩
      (Path.join ⟨"/r"⟩ dir)).toOption = some [clashingSources] := by decide +kernel
  have found := SourceIndex.pythonOnly.find_of_ordered (Project.ok_of_toOption walked)
    (by decide +kernel)
  refine ⟨found, by decide +kernel, by decide +kernel, fun order any stored => ?_⟩
  have named : ∀ path ∈ (documenting clashingSources).documented,
      (∀ name ∈ Path.names ⟨path⟩, IsFileName name) ∧
        path = String.intercalate "/" (Path.names ⟨path⟩) := by decide +kernel
  obtain ⟨unblocked, -⟩ := (pages_stored_iff (fun path inPlan => ⟨_, named path inPlan⟩)
    (by decide +kernel) (by decide +kernel) emptyDisk_sound isEmpty_emptyDisk any).mp stored
  exact absurd unblocked (by decide +kernel)

end PagePlan

end SourceAtlas
