import SourceAtlas.Proofs.Run
import SourceAtlas.Proofs.SameSources
/-!
The sources after a run. Pages and call graphs are no sources and no ignore files, so a run leaves the
analysis of its project as it was, unless its manifest is one, it makes a directory the top of a
repository, or a source directory comes about with it.
-/

namespace SourceAtlas

open FileTree

/-- The extension of the name that a place ends in. -/
def placeSuffix? (place : Place) : Option String := place.getLast?.bind Path.suffix?

theorem placeSuffix?_concat (dir : Place) (name : String) :
    placeSuffix? (dir ++ [name]) = Path.suffix? name := by
  rw [placeSuffix?, List.getLast?_concat]
  rfl

section IgnoreFiles

variable (dir : Place)

theorem placeSuffix?_ignorePlace : placeSuffix? (ignorePlace dir) = none :=
  (placeSuffix?_concat dir _).trans (by decide)

theorem placeSuffix?_gitIgnorePlace : placeSuffix? (gitIgnorePlace dir) = none :=
  (placeSuffix?_concat dir _).trans (by decide)

theorem placeSuffix?_excludePlace : placeSuffix? (excludePlace dir) = none := by
  rw [excludePlace, show dir ++ [".git", "info", "exclude"] = dir ++ [".git", "info"] ++ ["exclude"] by
    rw [List.append_assoc]; rfl, placeSuffix?_concat]
  decide

end IgnoreFiles

theorem extension?_of_reaches {tree : FileTree} {path : Path} (reached : tree.Reaches path) :
    path.extension? = placeSuffix? path.place := by
  obtain ⟨dir, name, ended, -⟩ := reached
  rw [Path.extension?_eq_suffix?, Path.fileName?, parts_of_named ended, place_of_named ended]
  simp [placeSuffix?, PathPart.name?]

theorem Docs.placeSuffix?_placeOf (docs : Docs) {page : String} (plain : IsPlain page) :
    placeSuffix? (docs.placeOf page) = Path.extension? ⟨page⟩ := by
  rcases List.eq_nil_or_concat (Path.names ⟨page⟩) with empty | ⟨front, last, split⟩
  · exact absurd empty plain.names_ne_nil
  · rw [List.concat_eq_append] at split
    have ordinary := plain.isName
    have text := plain.intercalate
    rw [split] at ordinary text
    rw [placeSuffix?, Docs.placeOf, split, ← List.append_assoc, List.getLast?_concat,
      Path.extension?_eq_suffix?, ← text, Path.fileName?_intercalate ordinary]

theorem SourceIndex.not_isSource {index : SourceIndex} {tree : FileTree} (sound : tree.Sound) {root : Path}
    {dirs : List Path} {place : Place}
    (unclaimed : ∀ extension, placeSuffix? place = some extension →
      ∀ language : Language, extension ∉ language.extensions) :
    ¬ index.IsSource tree root dirs place := by
  rintro ⟨dir, -, sources, found, source, member, rfl⟩
  have describes := index.mem_inDir sound found member
  obtain ⟨language, detected, -⟩ := describes.language
  obtain ⟨text, read, -⟩ := describes.text
  obtain ⟨reached, -⟩ := (readText_eq_ok_iff tree _ text).mp read
  obtain ⟨extension, named, detected⟩ := Option.bind_eq_some_iff.mp detected
  rw [extension?_of_reaches reached] at named
  exact unclaimed extension named language (by simpa using List.find?_some detected)

theorem unclaimed_of_written {place : Place}
    (suffixed : placeSuffix? place = some "md" ∨ placeSuffix? place = some "json") :
    ∀ extension, placeSuffix? place = some extension →
      ∀ language : Language, extension ∉ language.extensions := by
  intro extension named language
  rw [named, Option.some_inj, Option.some_inj] at suffixed
  rcases suffixed with rfl | rfl <;> cases language <;> decide

namespace Project

variable {project : Project}

/-- The manifest is kept in no ignore file. -/
structure ManifestUnread (project : Project) : Prop where
  ignoreFile : ∀ dir, project.manifestPath.place ≠ ignorePlace dir
  gitIgnore : ∀ dir, project.manifestPath.place ≠ gitIgnorePlace dir
  exclude : ∀ dir, project.manifestPath.place ≠ excludePlace dir

theorem manifestUnread_of_suffix {extension : String}
    (suffixed : placeSuffix? project.manifestPath.place = some extension) : project.ManifestUnread := by
  have apart : ∀ place, placeSuffix? place = none → project.manifestPath.place ≠ place := by
    intro place suffixless same
    rw [same, suffixless] at suffixed
    cases suffixed
  exact ⟨fun dir => apart _ (placeSuffix?_ignorePlace dir),
    fun dir => apart _ (placeSuffix?_gitIgnorePlace dir),
    fun dir => apart _ (placeSuffix?_excludePlace dir)⟩

/-- A project has a source file at a place. -/
def HasSource (project : Project) (tree : FileTree) (place : Place) : Prop :=
  (Analysis.indexOf project.config).IsSource tree project.root project.config.project.sourceDirs place

/-- What a run may bring about without bearing on the sources: its manifest is no source file before
or after, it makes no directory the top of a repository, and a source directory that comes about with
it has no sources. -/
structure Bystander (project : Project) (before after : FileTree) : Prop where
  manifestBefore : ¬ project.HasSource before project.manifestPath.place
  manifestAfter : ¬ project.HasSource after project.manifestPath.place
  repositories : ∀ dir, after.isRepository dir = true → before.isRepository dir = true
  opened : ∀ dir ∈ project.config.project.sourceDirs, before.place? (project.root.join dir) = none →
    (Analysis.indexOf project.config).inDir after project.root (project.root.join dir) = .ok []

/-- The pages of a manifest are such as runs plan. -/
def PageKeys (previous : Option Manifest) : Prop :=
  ∀ manifest, previous = some manifest → ∀ page, page ∈ manifest →
    page = Page.overview ∨ ∃ path, IsPlain path ∧ page = Page.ofSource path

theorem plain_of_page {page : String}
    (named : page = Page.overview ∨ ∃ path, IsPlain path ∧ page = Page.ofSource path) :
    IsPlain page ∧ Path.extension? ⟨page⟩ = some "md" := by
  rcases named with rfl | ⟨path, plain, rfl⟩
  · exact ⟨Page.overview_isPlain, by decide⟩
  · exact ⟨Page.ofSource_isPlain plain, Page.extension?_ofSource plain⟩

theorem PageKeys.plain {previous : Option Manifest} (keys : PageKeys previous) : PlainKeys previous :=
  fun manifest same page member => (plain_of_page (keys manifest same page member)).1

/-- A run touches what ends like a page or a call graph, and its manifest. -/
def Touched (project : Project) (place : Place) : Prop :=
  (placeSuffix? place = some "md" ∨ placeSuffix? place = some "json") ∨
    place = project.manifestPath.place

namespace Completed

variable {previous : Option Manifest} {schedule : Schedule} {tree after : FileTree} {report : RunReport}
  (completed : project.Completed previous schedule tree report after)

include completed

theorem page_named (rooted : project.Rooted tree) {request : PageRequest}
    (member : request ∈ completed.analysis.pages) :
    request.path = Page.overview ∨ ∃ path, IsPlain path ∧ request.path = Page.ofSource path := by
  rcases Analysis.page_cases completed.analyzed member with same | ⟨source, inSources, same⟩
  · exact Or.inl same
  · exact Or.inr ⟨source.path, Analysis.isPlain_of_mem_sources rooted.sound rooted.rooted
      completed.analyzed inSources, same⟩

/-- The manifest that a run saves has pages such as runs plan. -/
theorem pageKeys (rooted : project.Rooted tree) : PageKeys (some completed.made.recorder.manifest) := by
  rintro manifest ⟨⟩ page member
  obtain ⟨status, entry⟩ := Table.exists_of_mem member
  obtain ⟨request, inPages, rfl⟩ := completed.planned_of_entry entry
  exact completed.page_named rooted inPages

/-- All that a run does to the file tree. -/
theorem changes (rooted : project.Rooted tree) (keys : PageKeys previous) :
    Changes project.Touched tree after := by
  have ends : ∀ page, IsPlain page ∧ Path.extension? ⟨page⟩ = some "md" →
      project.Touched (project.docs.placeOf page) := by
    rintro page ⟨plain, suffixed⟩
    exact Or.inl (Or.inl ((project.docs.placeSuffix?_placeOf plain).trans suffixed))
  refine (completed.made_changes.mono ?_).trans (completed.after_changes.mono ?_)
  · rintro place ⟨request, member, same⟩
    rw [same]
    exact ends _ (plain_of_page (completed.page_named rooted member))
  · rintro place (⟨page, orphan, same⟩ | same | same)
    · rw [same]
      obtain ⟨-, ⟨manifest, same, member⟩ | listed⟩ := (project.mem_orphans_iff ..).mp orphan
      · exact ends _ (plain_of_page (keys manifest same page member))
      · obtain ⟨-, names, content, filled, -, -, suffixed⟩ :=
          (project.docs.mem_pagesBelow_iff Page.filesDir_isPlain page).mp listed
        exact ends _ ⟨completed.plain_orphan rooted keys.plain orphan, suffixed⟩
    · exact Or.inr same
    · rw [same, place_graphPath]
      refine Or.inl (Or.inr ?_)
      rw [project.docs.placeSuffix?_placeOf graph_isPlain]
      decide

theorem sameIgnores (rooted : project.Rooted tree) (keys : PageKeys previous)
    (apart : project.ManifestApart) (unread : project.ManifestUnread)
    (repositories : ∀ dir, after.isRepository dir = true → tree.isRepository dir = true) :
    SameIgnores tree after := by
  have changes := completed.changes rooted keys
  have outside : ∀ {place : Place}, placeSuffix? place = none →
      project.manifestPath.place ≠ place → ¬ project.Touched place := by
    rintro place suffix other (suffixed | same)
    · rw [suffix] at suffixed
      rcases suffixed with wrong | wrong <;> cases wrong
    · exact other same.symm
  have untouched : ∀ {place : Place}, placeSuffix? place = none →
      project.manifestPath.place ≠ place → after.ignoreFile place = tree.ignoreFile place := by
    intro place suffix other
    unfold FileTree.ignoreFile
    rcases changes.elsewhere place (outside suffix other) with same | ⟨absent, made⟩
    · rw [same]
    · rw [absent, made]
  refine ⟨fun dir => untouched (placeSuffix?_ignorePlace dir) (unread.ignoreFile dir),
    fun dir => untouched (placeSuffix?_gitIgnorePlace dir) (unread.gitIgnore dir),
    fun dir => untouched (placeSuffix?_excludePlace dir) (unread.exclude dir), fun dir => ?_⟩
  · rw [Bool.eq_iff_iff]
    refine ⟨repositories dir, fun top => ?_⟩
    have suffixless : placeSuffix? (dir ++ [".git"]) = none :=
      (placeSuffix?_concat dir _).trans (by decide)
    by_cases manifest : project.manifestPath.place = dir ++ [".git"]
    · have held := ((readText_eq_ok_iff after _ _).mp (completed.manifest_saved apart.graph)).2
      rw [manifest] at held
      rw [isRepository, held]
      rfl
    · rcases changes.elsewhere _ (outside suffixless manifest) with same | ⟨absent, -⟩
      · rw [isRepository, same]
        exact top
      · rw [isRepository, absent] at top
        cases top

/-- After a run a project is analysed as before. -/
theorem analyze_again (rooted : project.Rooted tree) (keys : PageKeys previous)
    (apart : project.ManifestApart) (unread : project.ManifestUnread)
    (bystander : project.Bystander tree after) :
    project.analyze after = .ok completed.analysis := by
  have changes := completed.changes rooted keys
  refine Analysis.ofTree_of_changes changes rooted.sound
    (completed.sameIgnores rooted keys apart unread bystander.repositories) completed.analyzed
    (fun place touched => ?_) bystander.opened
  rcases touched with suffixed | same
  · exact ⟨SourceIndex.not_isSource rooted.sound (unclaimed_of_written suffixed),
      SourceIndex.not_isSource (changes.sound rooted.sound) (unclaimed_of_written suffixed)⟩
  · rw [same]
    exact ⟨bystander.manifestBefore, bystander.manifestAfter⟩

end Completed

end Project

end SourceAtlas
