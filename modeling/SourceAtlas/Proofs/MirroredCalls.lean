import SourceAtlas.Proofs.PageContext
import SourceAtlas.Proofs.UsedBy
/-!
The calls that a page lists and the callers that a page lists are the same calls seen from their two
ends. A caller is listed for a name that it calls and for every member whose own name it calls, whichever
files the two stand in.
-/

namespace SourceAtlas

namespace PagePlan

/-- The part of a name after its last dot. -/
def EndsIn (name member : String) : Prop :=
  ∃ owner, name = owner ++ "." ++ member ∧ '.' ∉ member.toList

theorem memberName?_eq_some_iff (name member : String) :
    memberName? name = some member ↔ EndsIn name member := by
  constructor
  · intro found
    obtain ⟨⟨owner, last⟩, split, rfl⟩ := Option.map_eq_some_iff.mp found
    obtain ⟨text, dotless⟩ := (Path.splitAtLast_eq_some_iff ..).mp split
    refine ⟨String.ofList owner, ?_, by simpa using dotless⟩
    rw [← String.toList_inj]
    simp [String.toList_append, text]
  · rintro ⟨owner, rfl, dotless⟩
    have text : (owner ++ "." ++ member).toList = owner.toList ++ '.' :: member.toList := by
      simp [String.toList_append]
    rw [memberName?, text, Path.splitAtLast_append dotless]
    simp

theorem mem_askedNames_iff (name asked : String) :
    asked ∈ askedNames name ↔ asked = name ∨ EndsIn name asked := by
  rw [← memberName?_eq_some_iff, askedNames, List.mem_cons, Option.mem_toList]

variable {plan : PagePlan}

theorem callersOf_nodup (callers : plan.usedBy = .ofGraphs (plan.files.map fun file => file.analysis.graph))
    (name : String) : (plan.callersOf name).Nodup := by
  have once : ∀ asked, (plan.usedBy.callersOf asked).Nodup := by
    intro asked
    rw [callers, UsedBy.callersOf_ofGraphs]
    exact Adjacency.nodup_firstSeen _
  unfold callersOf
  cases memberName? name with
  | none => exact once name
  | some member =>
      refine List.nodup_append.mpr ⟨once name, (once member).filter _, ?_⟩
      rintro caller direct other later rfl
      simp [direct] at later

/-- An entity is used by those that some file has calling it, by its name or by its member's own. -/
theorem mem_callersOf_iff_containsEdge (built : ∀ file ∈ plan.files, file.analysis.graph.Built)
    (callers : plan.usedBy = .ofGraphs (plan.files.map fun file => file.analysis.graph))
    (name caller : String) : caller ∈ plan.callersOf name ↔ ∃ file ∈ plan.files,
      file.analysis.graph.containsEdge caller name = true ∨
        ∃ member, EndsIn name member ∧ file.analysis.graph.containsEdge caller member = true := by
  have arranged : ∀ graph ∈ plan.files.map (fun file => file.analysis.graph), graph.adjacency.Arranged := by
    intro graph inPlan
    obtain ⟨file, member, rfl⟩ := List.mem_map.mp inPlan
    exact (built file member).arranged
  have calls : ∀ asked, caller ∈ plan.usedBy.callersOf asked ↔
      ∃ file ∈ plan.files, file.analysis.graph.containsEdge caller asked = true := by
    intro asked
    rw [callers, UsedBy.mem_callersOf_ofGraphs arranged]
    simp only [List.mem_map, exists_exists_and_eq_and]
    apply exists_congr
    intro file
    exact and_congr_right fun member => (CallGraph.containsEdge_iff (built file member).arranged ..).symm
  rw [mem_callersOf_iff]
  simp only [mem_askedNames_iff, calls]
  constructor
  · rintro ⟨asked, rfl | ends, file, member, edge⟩
    · exact ⟨file, member, Or.inl edge⟩
    · exact ⟨file, member, Or.inr ⟨asked, ends, edge⟩⟩
  · rintro ⟨file, member, edge | ⟨asked, ends, edge⟩⟩
    · exact ⟨name, Or.inl rfl, file, member, edge⟩
    · exact ⟨asked, Or.inr ends, file, member, edge⟩

theorem users_of_mem_entityViews {file : AnalyzedFile} {view : EntityView}
    (listed : view ∈ plan.entityViews file) :
    view.usedBy.map CallerView.name = plan.callersOf view.entity.name := by
  obtain ⟨entity, -, rfl⟩ := List.mem_map.mp listed
  simp [entityView, callerView, Function.comp_def]

theorem mem_calls_iff {file : AnalyzedFile} {view : EntityView} (listed : view ∈ plan.entityViews file)
    (callee : String) :
    callee ∈ view.calls ↔ file.analysis.graph.containsEdge view.entity.name callee = true := by
  obtain ⟨entity, -, rfl⟩ := List.mem_map.mp listed
  rw [CallGraph.containsEdge, List.contains_iff_mem]
  rfl

/-- Every entity that a page shows is used by the callers that some file has for its name or for the
part of it after the last dot, each listed once; and whatever an entity of a page calls is shown, on any
page, as used by it. -/
theorem pages_mirror_calls (plan : PagePlan) (built : ∀ file ∈ plan.files, file.analysis.graph.Built)
    (callers : plan.usedBy = .ofGraphs (plan.files.map fun file => file.analysis.graph)) :
    (∀ request ∈ plan.pages, ∀ view, request.Shows view →
      (view.usedBy.map CallerView.name).Nodup ∧
      ∀ caller, caller ∈ view.usedBy.map CallerView.name ↔ ∃ file ∈ plan.files,
        file.analysis.graph.containsEdge caller view.entity.name = true ∨
          ∃ member, EndsIn view.entity.name member ∧
            file.analysis.graph.containsEdge caller member = true) ∧
    ∀ request ∈ plan.pages, ∀ view, request.Shows view → ∀ callee ∈ view.calls,
      ∀ other ∈ plan.pages, ∀ called, other.Shows called →
        called.entity.name = callee ∨ EndsIn called.entity.name callee →
          view.entity.name ∈ called.usedBy.map CallerView.name := by
  have users : ∀ request ∈ plan.pages, ∀ view, request.Shows view →
      view.usedBy.map CallerView.name = plan.callersOf view.entity.name := by
    intro request member view shown
    obtain ⟨file, -, -, listed⟩ := (plan.shows_iff member view).mp shown
    exact users_of_mem_entityViews listed
  constructor
  · intro request member view shown
    rw [users request member view shown]
    exact ⟨callersOf_nodup callers _, mem_callersOf_iff_containsEdge built callers _⟩
  · intro request member view shown callee calls other otherMember called otherShown named
    obtain ⟨file, inPlan, -, listed⟩ := (plan.shows_iff member view).mp shown
    have edge := (mem_calls_iff listed callee).mp calls
    rw [users other otherMember called otherShown, mem_callersOf_iff_containsEdge built callers]
    refine ⟨file, inPlan, ?_⟩
    rcases named with rfl | ends
    · exact Or.inl edge
    · exact Or.inr ⟨callee, ends, edge⟩

def storeFile : AnalyzedFile where
  source := ⟨"store.py", ⟨"r/store.py"⟩, "python", "h1", 9⟩
  analysis :=
    { graph := .ofList [("run", ["Store"]), ("Store.save", ["run"])]
      entities := [⟨"run", .function, 1, 3⟩, ⟨"Store", .type, 5, 9⟩, ⟨"Store.save", .method, 6, 9⟩] }

def twinFile : AnalyzedFile where
  source := ⟨"lib/twin.rs", ⟨"r/lib/twin.rs"⟩, "rust", "h2", 7⟩
  analysis :=
    { graph := .ofList [("run", ["save"])]
      entities := [⟨"run", .function, 1, 3⟩, ⟨"save", .function, 5, 7⟩] }

def sameNames : PagePlan where
  project := "p"
  files := [storeFile, twinFile]
  usedBy := .ofGraphs [storeFile.analysis.graph, twinFile.analysis.graph]
  projection := .noGraph

theorem pages_mirror_calls_sameNames : (∀ file ∈ sameNames.files, file.analysis.graph.Built) ∧
    sameNames.usedBy = .ofGraphs (sameNames.files.map fun file => file.analysis.graph) ∧
    ∃ view, (sameNames.filePage storeFile).Shows view ∧ view.entity.name = "Store.save" ∧
      "run" ∈ view.usedBy.map CallerView.name := by
  have built : ∀ file ∈ sameNames.files, file.analysis.graph.Built := by
    intro file member
    rcases List.mem_cons.mp member with rfl | last
    · exact .ofList _
    · rw [List.mem_singleton.mp last]
      exact .ofList _
  have pages : sameNames.pages =
    [sameNames.filePage storeFile, sameNames.filePage twinFile, sameNames.overviewPage] := rfl
  have called : (sameNames.filePage storeFile).Shows (sameNames.entityView
      (Page.ofSource storeFile.source.path) storeFile.analysis.graph ⟨"Store.save", .method, 6, 9⟩) :=
    ⟨_, rfl, List.mem_map_of_mem (List.mem_map_of_mem (by decide))⟩
  -- the caller stands in the other file, and calls the method by its own name
  have caller : (sameNames.filePage twinFile).Shows (sameNames.entityView
      (Page.ofSource twinFile.source.path) twinFile.analysis.graph ⟨"run", .function, 1, 3⟩) :=
    ⟨_, rfl, List.mem_map_of_mem (List.mem_map_of_mem (by decide))⟩
  refine ⟨built, rfl, _, called, rfl, ?_⟩
  exact (pages_mirror_calls sameNames built rfl).2 _ (by simp [pages]) _ caller "save" (by decide +kernel)
    _ (by simp [pages]) _ called (Or.inr ⟨"Store", rfl, by decide⟩)

end PagePlan

end SourceAtlas
