import SourceAtlas.Proofs.FilePage
/-!
What the contexts of planned pages hold. The page of a file shows a view of each of its entities, the
overview shows none; and all links of a page can be read off its context.
-/

namespace SourceAtlas

theorem EntityKind.text_inj {left right : EntityKind} (same : left.text = right.text) : left = right := by
  revert same
  cases left <;> cases right <;> decide

theorem EntityView.toJson_inj {left right : EntityView} (same : left.toJson = right.toJson) :
    left = right := by
  obtain ⟨⟨name, kind, first, last⟩, calls, users⟩ := left
  obtain ⟨⟨otherName, otherKind, otherFirst, otherLast⟩, otherCalls, otherUsers⟩ := right
  simp only [toJson, Json.texts, Json.obj.injEq, List.cons.injEq, Prod.mk.injEq, Json.str.injEq,
    Json.natural.injEq, Json.arr.injEq, true_and, and_true] at same
  obtain ⟨rfl, kinds, rfl, rfl, names, views⟩ := same
  have strings : ∀ one two : String, Json.str one = Json.str two → one = two := by simp
  rw [EntityKind.text_inj kinds, (List.map_inj_right strings).mp names,
    (List.map_inj_right CallerView.toJson_inj).mp views]

namespace Json

mutual

/-- The texts under fields of some names, at any depth. -/
def textsUnder (names : List String) : Json → List String
  | arr items => textsUnderItems names items
  | obj fields => textsUnderFields names fields
  | _ => []

def textsUnderItems (names : List String) : List Json → List String
  | [] => []
  | item :: rest => textsUnder names item ++ textsUnderItems names rest

def textsUnderFields (names : List String) : List (String × Json) → List String
  | [] => []
  | (name, value) :: rest =>
      (if name ∈ names then value.text?.toList else []) ++ textsUnder names value ++
        textsUnderFields names rest

end

theorem textsUnderItems_eq (names : List String) (items : List Json) :
    textsUnderItems names items = items.flatMap (textsUnder names) := by
  induction items with
  | nil => simp [textsUnderItems]
  | cons item rest ih => rw [textsUnderItems, ih, List.flatMap_cons]

theorem textsUnder_texts (names items : List String) : textsUnder names (texts items) = [] := by
  rw [texts, textsUnder, textsUnderItems_eq, List.flatMap_eq_nil_iff]
  intro item member
  obtain ⟨text, -, rfl⟩ := List.mem_map.mp member
  rw [textsUnder]
  all_goals exact nofun

end Json

namespace PageRequest

def Shows (request : PageRequest) (view : EntityView) : Prop :=
  ∃ items, request.context.field? "entities" = some (.arr items) ∧ view.toJson ∈ items

/-- The links of a page, wherever they stand in its context. -/
def links (request : PageRequest) : List String :=
  request.context.textsUnder ["link", "overview_link"]

end PageRequest

theorem CallerView.textsUnder_toJson (view : CallerView) :
    view.toJson.textsUnder ["link", "overview_link"] = view.link.toList := by
  cases found : view.link <;>
    simp [toJson, Json.textsUnder, Json.textsUnderFields, optionalText, Json.text?, found]

theorem EntityView.textsUnder_toJson (view : EntityView) :
    view.toJson.textsUnder ["link", "overview_link"] = view.usedBy.flatMap fun user => user.link.toList := by
  simp [toJson, Json.textsUnder, Json.textsUnderFields, Json.textsUnder_texts, Json.textsUnderItems_eq,
    List.flatMap_map, CallerView.textsUnder_toJson]

namespace PagePlan

variable (plan : PagePlan)

theorem links_filePage (file : AnalyzedFile) : (plan.filePage file).links =
    Page.link (Page.ofSource file.source.path) Page.overview ::
      (plan.entityViews file).flatMap fun view => view.usedBy.flatMap fun user => user.link.toList := by
  simp [PageRequest.links, filePage, Json.textsUnder, Json.textsUnderFields, Json.text?,
    Json.textsUnderItems_eq, List.flatMap_map, EntityView.textsUnder_toJson]

theorem textsUnder_fileSummary (file : AnalyzedFile) :
    (fileSummary file).textsUnder ["link", "overview_link"] =
      if file.analysis.entities.isEmpty then [] else [Page.ofSource file.source.path] := by
  cases empty : file.analysis.entities.isEmpty <;>
    simp [fileSummary, empty, optionalText, Json.textsUnder, Json.textsUnderFields, Json.text?]

theorem links_overviewPage : plan.overviewPage.links =
    (plan.files.filter fun file => !file.analysis.entities.isEmpty).map
      fun file => Page.ofSource file.source.path := by
  have listed : plan.overviewPage.links =
      plan.files.flatMap fun file => (fileSummary file).textsUnder ["link", "overview_link"] := by
    cases drawn : plan.projection.diagram? <;>
      simp [PageRequest.links, overviewPage, drawn, optionalText, Json.textsUnder, Json.textsUnderFields,
        Json.textsUnderItems_eq, List.flatMap_map]
  rw [listed]
  simp only [textsUnder_fileSummary]
  induction plan.files with
  | nil => rfl
  | cons file rest ih =>
      rw [List.flatMap_cons, ih]
      cases empty : file.analysis.entities.isEmpty <;> simp [empty]

/-- What a planned page shows are the entities of the file that it is about. -/
theorem shows_iff {request : PageRequest} (member : request ∈ plan.pages) (view : EntityView) :
    request.Shows view ↔ ∃ file ∈ plan.files, request = plan.filePage file ∧ view ∈ plan.entityViews file := by
  have shown : ∀ file, (plan.filePage file).Shows view ↔ view ∈ plan.entityViews file := by
    intro file
    have listed : (plan.filePage file).context.field? "entities" =
        some (.arr ((plan.entityViews file).map EntityView.toJson)) := rfl
    simp only [PageRequest.Shows, listed, Option.some_inj, Json.arr.injEq, exists_eq_left']
    exact List.mem_map_of_injective fun left right => EntityView.toJson_inj
  rcases (plan.mem_pages_iff request).mp member with ⟨file, inPlan, -, rfl⟩ | rfl
  · constructor
    · exact fun shows => ⟨file, inPlan, rfl, (shown file).mp shows⟩
    · rintro ⟨other, -, same, inViews⟩
      rw [same]
      exact (shown other).mpr inViews
  · constructor
    · rintro ⟨items, listed, -⟩
      cases listed
    · rintro ⟨file, -, same, -⟩
      exact absurd (congrArg PageRequest.path same).symm (Page.ofSource_ne_overview _)

end PagePlan

end SourceAtlas
