import SourceAtlas.PagePlan
import SourceAtlas.Proofs.Path
/-!
The pages of a plan. The page paths of different sources are different, all are plain, and none is
that of the overview.
-/

namespace SourceAtlas

namespace Page

theorem ofSource_inj {path other : String} (same : ofSource path = ofSource other) : path = other := by
  unfold ofSource at same
  rw [← String.toList_inj] at same ⊢
  simpa [String.toList_append] using same

/-- The page of a source is named by the directory of file pages, the directories of the source, and
the source's own name with the extension of a page. -/
theorem names_ofSource {path last : String} {front : List String} (plain : IsPlain path)
    (split : Path.names ⟨path⟩ = front ++ [last]) :
    ofSource path = String.intercalate "/" (filesDir :: front ++ [last ++ "." ++ "md"]) ∧
      ∀ name ∈ filesDir :: front ++ [last ++ "." ++ "md"], IsName name := by
  have ordinary := plain.isName
  rw [split] at ordinary
  constructor
  · have text := plain.intercalate
    rw [split] at text
    have longer : String.intercalate "/" (front ++ [last ++ "." ++ "md"]) = path ++ ".md" := by
      rw [← text]
      cases front with
      | nil =>
          simp only [List.nil_append, String.intercalate_singleton, String.append_assoc]
          rfl
      | cons name rest =>
          rw [String.intercalate_append_of_ne_nil (by simp) (by simp),
            String.intercalate_append_of_ne_nil (by simp) (by simp)]
          simp only [String.intercalate_singleton, String.append_assoc]
          rfl
    rw [List.cons_append, String.intercalate_cons_of_ne_nil (by simp), longer]
    simp only [ofSource, String.append_assoc]
  · intro name member
    rcases List.mem_append.mp member with first | final
    · rcases List.mem_cons.mp first with rfl | inFront
      · decide
      · exact ordinary name (List.mem_append_left _ inFront)
    · rw [List.mem_singleton.mp final]
      obtain ⟨filled, -, -, slashless⟩ := ordinary last (by simp)
      have ending : ∀ short : String, short.toList.getLast? ≠ some 'd' → last ++ "." ++ "md" ≠ short := by
        rintro short other rfl
        apply other
        simp [String.toList_append]
      refine ⟨ending "" (by decide), ending "." (by decide), ending ".." (by decide), ?_⟩
      simp [String.toList_append, slashless]

theorem ofSource_isPlain {path : String} (plain : IsPlain path) : IsPlain (ofSource path) := by
  rcases List.eq_nil_or_concat (Path.names ⟨path⟩) with empty | ⟨front, last, split⟩
  · exact absurd empty plain.names_ne_nil
  · rw [List.concat_eq_append] at split
    obtain ⟨text, ordinary⟩ := names_ofSource plain split
    exact ⟨_, by simp, ordinary, text⟩

theorem exists_names_ofSource {path : String} (plain : IsPlain path) :
    ∃ rest, rest ≠ [] ∧ Path.names ⟨ofSource path⟩ = Path.names ⟨filesDir⟩ ++ rest := by
  rcases List.eq_nil_or_concat (Path.names ⟨path⟩) with empty | ⟨front, last, split⟩
  · exact absurd empty plain.names_ne_nil
  · rw [List.concat_eq_append] at split
    obtain ⟨text, ordinary⟩ := names_ofSource plain split
    refine ⟨front ++ [last ++ "." ++ "md"], by simp, ?_⟩
    rw [text, Path.names_intercalate ordinary]
    rfl

theorem extension?_ofSource {path : String} (plain : IsPlain path) :
    Path.extension? ⟨ofSource path⟩ = some "md" := by
  rcases List.eq_nil_or_concat (Path.names ⟨path⟩) with empty | ⟨front, last, split⟩
  · exact absurd empty plain.names_ne_nil
  · rw [List.concat_eq_append] at split
    obtain ⟨text, ordinary⟩ := names_ofSource plain split
    have filled : last ≠ "" := by
      have member : last ∈ Path.names ⟨path⟩ := by simp [split]
      exact (plain.isName last member).1
    rw [text]
    exact Path.extension?_suffix filled (by decide) ordinary

theorem filesDir_isPlain : IsPlain filesDir :=
  ⟨[filesDir], by simp, by decide, rfl⟩

theorem overview_isPlain : IsPlain overview :=
  ⟨[overview], by simp, by decide, rfl⟩

theorem ofSource_ne_overview (path : String) : ofSource path ≠ overview := by
  intro same
  have first := congrArg (fun text => text.toList.head?) same
  simp [ofSource, filesDir, overview, String.toList_append] at first

end Page

namespace PagePlan

variable (plan : PagePlan)

theorem pages_paths : plan.pages.map PageRequest.path =
    (plan.files.filter fun file => !file.analysis.entities.isEmpty).map
      (fun file => Page.ofSource file.source.path) ++ [Page.overview] := by
  simp [pages, filePage, overviewPage, Function.comp_def]

theorem mem_pages_iff (request : PageRequest) : request ∈ plan.pages ↔
    (∃ file ∈ plan.files, file.analysis.entities ≠ [] ∧ request = plan.filePage file) ∨
      request = plan.overviewPage := by
  simp only [pages, List.mem_append, List.mem_map, List.mem_filter, List.mem_singleton, Bool.not_eq_true',
    List.isEmpty_eq_false_iff, and_assoc]
  simp only [eq_comm (a := request)]

theorem path_of_mem_pages {request : PageRequest} (member : request ∈ plan.pages) :
    request.path = Page.overview ∨
      ∃ file ∈ plan.files, request.path = Page.ofSource file.source.path := by
  rcases (plan.mem_pages_iff request).mp member with ⟨file, inPlan, -, rfl⟩ | rfl
  · exact Or.inr ⟨file, inPlan, rfl⟩
  · exact Or.inl rfl

/-- No two planned pages have the same path when no two sources have. -/
theorem pages_nodup (distinct : (plan.files.map fun file => file.source.path).Nodup) :
    (plan.pages.map PageRequest.path).Nodup := by
  rw [pages_paths, List.nodup_append]
  refine ⟨?_, by simp, ?_⟩
  · have apart : (plan.files.map fun file => Page.ofSource file.source.path).Nodup := by
      have mapped : (plan.files.map fun file => Page.ofSource file.source.path) =
          (plan.files.map fun file => file.source.path).map Page.ofSource := by simp
      rw [mapped]
      exact List.Pairwise.map _ (fun left right other same => other (Page.ofSource_inj same)) distinct
    exact apart.sublist (List.filter_sublist.map _)
  · intro page inFiles other last
    obtain ⟨file, -, rfl⟩ := List.mem_map.mp inFiles
    rw [List.mem_singleton.mp last]
    exact Page.ofSource_ne_overview _

theorem file_of_owner? {name path : String} (owned : plan.owner? name = some path) :
    ∃ file ∈ plan.files, file.source.path = path ∧
      ∃ entity ∈ file.analysis.entities, entity.name = name := by
  obtain ⟨file, found, rfl⟩ := Option.map_eq_some_iff.mp owned
  have defines := List.find?_some found
  simp only [List.any_eq_true, beq_iff_eq] at defines
  obtain ⟨entity, member, same⟩ := defines
  exact ⟨file, List.mem_of_find?_eq_some found, rfl, entity, member, same⟩

theorem mem_contributors_iff (file : AnalyzedFile) (path : String) :
    path ∈ plan.contributors file ↔ path = file.source.path ∨
      ∃ entity ∈ file.analysis.entities, ∃ caller ∈ plan.callersOf entity.name,
        plan.owner? caller = some path := by
  simp [contributors, List.mem_mergeSort, List.mem_eraseDups, List.mem_flatMap, List.mem_filterMap]

theorem file_of_mem_contributors {file : AnalyzedFile} (member : file ∈ plan.files) {path : String}
    (contributes : path ∈ plan.contributors file) : ∃ part ∈ plan.files, part.source.path = path := by
  rcases (plan.mem_contributors_iff file path).mp contributes with rfl | ⟨_, -, _, -, owned⟩
  · exact ⟨file, member, rfl⟩
  · obtain ⟨owner, inPlan, same, -⟩ := plan.file_of_owner? owned
    exact ⟨owner, inPlan, same⟩

theorem file_of_mem_sources {request : PageRequest} (member : request ∈ plan.pages) {path : String}
    (listed : path ∈ request.sources) : ∃ file ∈ plan.files, file.source.path = path := by
  rcases (plan.mem_pages_iff request).mp member with ⟨file, inPlan, -, rfl⟩ | rfl
  · exact plan.file_of_mem_contributors inPlan listed
  · exact List.mem_map.mp listed

theorem filePage_of_mem_pages {request : PageRequest} (member : request ∈ plan.pages)
    (other : request.path ≠ Page.overview) : ∃ file ∈ plan.files, request = plan.filePage file := by
  rcases (plan.mem_pages_iff request).mp member with ⟨file, inPlan, -, rfl⟩ | rfl
  · exact ⟨file, inPlan, rfl⟩
  · exact absurd rfl other

theorem span_of_mem_pages {request : PageRequest} (member : request ∈ plan.pages) {lines : LineInfo}
    (given : request.lines = some lines) : ∃ file ∈ plan.files, ∃ first last,
      file.analysis.lineSpan? = some (first, last) ∧
        lines = (∅ : LineInfo).insert file.source.path ⟨first, last⟩ := by
  rcases (plan.mem_pages_iff request).mp member with ⟨file, inPlan, -, rfl⟩ | rfl
  · obtain ⟨⟨first, last⟩, span, same⟩ := Option.map_eq_some_iff.mp given
    exact ⟨file, inPlan, first, last, span, same.symm⟩
  · cases given

end PagePlan

end SourceAtlas
