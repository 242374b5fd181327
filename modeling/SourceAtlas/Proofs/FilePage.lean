import SourceAtlas.Proofs.CallGraph
import SourceAtlas.Proofs.PagePlan
import SourceAtlas.Proofs.SourceIndex
import SourceAtlas.Proofs.Table
/-!
What the page of a file depends on. Two plans that know the same contributors of a page by the same
content link every caller alike; their pages differ in the callers alone. Contributors are found by the
owners of callers, so a call that stands elsewhere can come and go without one of them changing.
-/

namespace SourceAtlas

/-- A file as pages show it, wherever it was found. -/
def AnalyzedFile.shown (file : AnalyzedFile) : AnalyzedFile :=
  { file with source := { file.source with location := ⟨""⟩ } }

def AnalyzedFile.Defines (file : AnalyzedFile) (name : String) : Prop :=
  ∃ entity ∈ file.analysis.entities, entity.name = name

theorem AnalyzedFile.defines_iff (file : AnalyzedFile) (name : String) :
    file.Defines name ↔ (file.analysis.entities.any fun entity => entity.name == name) = true := by
  simp [Defines]

theorem AnalyzedFile.defines_of_shown {file twin : AnalyzedFile} (alike : file.shown = twin.shown)
    {name : String} (defines : file.Defines name) : twin.Defines name := by
  have same : file.shown.analysis = twin.shown.analysis := congrArg AnalyzedFile.analysis alike
  unfold Defines at defines ⊢
  exact same ▸ defines

theorem CallerView.toJson_inj (left right : CallerView) (same : left.toJson = right.toJson) :
    left = right := by
  obtain ⟨name, link⟩ := left
  obtain ⟨otherName, otherLink⟩ := right
  simp only [toJson, Json.obj.injEq, List.cons.injEq, Prod.mk.injEq, Json.str.injEq, true_and,
    and_true] at same
  obtain ⟨rfl, linked⟩ := same
  cases link with
  | none =>
      cases otherLink with
      | none => rfl
      | some target => cases linked
  | some target =>
      cases otherLink with
      | none => cases linked
      | some otherTarget =>
          cases linked
          rfl

namespace PagePlan

/-- The files are in the order of their paths, and the callers are those in them. -/
structure Sound (plan : PagePlan) : Prop where
  ordered : plan.files.Pairwise fun left right => left.source.path < right.source.path
  callers : plan.usedBy = .ofGraphs (plan.files.map fun file => file.analysis.graph)

/-- Every call of a name stands in the file that documents its caller. -/
def Homed (plan : PagePlan) (name : String) : Prop :=
  ∀ file ∈ plan.files, ∀ caller, (caller, name) ∈ file.analysis.graph.edges →
    plan.owner? caller = some file.source.path

/-- The names that the callers of an entity are looked up by: its own and the member that it ends in. -/
def askedNames (name : String) : List String := name :: (memberName? name).toList

theorem mem_callersOf_iff (plan : PagePlan) (name caller : String) :
    caller ∈ plan.callersOf name ↔ ∃ asked ∈ askedNames name, caller ∈ plan.usedBy.callersOf asked := by
  unfold callersOf askedNames
  cases memberName? name with
  | none => simp
  | some member =>
      by_cases known : caller ∈ plan.usedBy.callersOf name
      · simp [known]
      · simp [known]

theorem callersOf_congr {plan other : PagePlan} {name : String}
    (same : ∀ asked ∈ askedNames name, plan.usedBy.callersOf asked = other.usedBy.callersOf asked) :
    plan.callersOf name = other.callersOf name := by
  unfold askedNames at same
  unfold callersOf
  rw [same name (List.mem_cons_self ..)]
  cases short : memberName? name with
  | none => rfl
  | some member =>
      have later := same member (by simp [short])
      simp only [later]

/-- The files of a plan stand in path order, so the first that defines a name comes before the others. -/
theorem Sound.le_of_found {plan : PagePlan} (sound : plan.Sound) {name : String} {first other : AnalyzedFile}
    (found : plan.files.find? (fun file => file.analysis.entities.any fun entity => entity.name == name) =
      some first)
    (member : other ∈ plan.files) (named : other.Defines name) : first.source.path ≤ other.source.path := by
  obtain ⟨-, before, after, split, earlier⟩ := List.find?_eq_some_iff_append.mp found
  have ordered := sound.ordered
  rw [split] at member ordered
  rcases List.mem_append.mp member with inBefore | fromFirst
  · have unnamed := earlier other inBefore
    rw [(other.defines_iff name).mp named] at unnamed
    cases unnamed
  · rcases List.mem_cons.mp fromFirst with rfl | inAfter
    · exact String.le_refl _
    · have later := (List.pairwise_cons.mp (List.pairwise_append.mp ordered).2.1).1 other inAfter
      exact Std.le_of_lt later

/-- Of the files that define a name the first by path owns it. -/
theorem Sound.owner?_eq_some_iff {plan : PagePlan} (sound : plan.Sound) (name path : String) :
    plan.owner? name = some path ↔
      (∃ file ∈ plan.files, file.source.path = path ∧ file.Defines name) ∧
        ∀ file ∈ plan.files, file.Defines name → path ≤ file.source.path := by
  constructor
  · intro owned
    obtain ⟨file, found, rfl⟩ := Option.map_eq_some_iff.mp owned
    have named := List.find?_some found
    refine ⟨⟨file, List.mem_of_find?_eq_some found, rfl, (file.defines_iff name).mpr named⟩, ?_⟩
    exact fun other => sound.le_of_found found
  · rintro ⟨⟨file, member, rfl, named⟩, least⟩
    cases owned : plan.owner? name with
    | none =>
        have absent := List.find?_eq_none.mp (Option.map_eq_none_iff.mp owned) file member
        exact absurd ((file.defines_iff name).mp named) absent
    | some path =>
        obtain ⟨first, found, rfl⟩ := Option.map_eq_some_iff.mp owned
        have alsoNamed := List.find?_some found
        have below := least first (List.mem_of_find?_eq_some found) ((first.defines_iff name).mpr alsoNamed)
        rw [String.le_antisymm (sound.le_of_found found member named) below]

theorem contributors_pairwise (plan : PagePlan) (file : AnalyzedFile) :
    (plan.contributors file).Pairwise (· < ·) := by
  have arranged : ∀ items : List String, (items.eraseDups.mergeSort (· ≤ ·)).Pairwise (· < ·) := by
    intro items
    apply Table.sort_pairwise
    apply (eraseDupsBy_pairwise (· == ·) items).imp
    rintro first second other rfl
    simp at other
  exact arranged _

theorem Sound.eq_of_path {plan : PagePlan} (sound : plan.Sound) {file other : AnalyzedFile}
    (member : file ∈ plan.files) (otherMember : other ∈ plan.files)
    (same : file.source.path = other.source.path) : file = other := by
  have distinct : (plan.files.map fun file => file.source.path).Nodup := by
    apply List.Pairwise.map _ _ sound.ordered
    intro left right less equal
    rw [equal] at less
    exact Std.lt_irrefl less
  exact Table.eq_of_key_eq distinct member otherMember same

theorem Sound.usedBy_callersOf {plan : PagePlan} (sound : plan.Sound) (name : String) :
    plan.usedBy.callersOf name = Adjacency.firstSeen
      (plan.files.flatMap fun file => file.analysis.graph.callersIn name) := by
  rw [sound.callers, UsedBy.callersOf_ofGraphs, List.flatMap_map]

/-- A file with calls that stand at home contributes to the pages that they show on. -/
theorem Sound.contributes {plan : PagePlan} (sound : plan.Sound) {file part : AnalyzedFile}
    {entity : Entity} (member : entity ∈ file.analysis.entities) {asked : String}
    (inAsked : asked ∈ askedNames entity.name) (homed : plan.Homed asked) (inPlan : part ∈ plan.files)
    (calls : part.analysis.graph.callersIn asked ≠ []) : part.source.path ∈ plan.contributors file := by
  obtain ⟨caller, standing⟩ := List.exists_mem_of_ne_nil _ calls
  have owned := homed part inPlan caller (CallGraph.mem_edges_of_mem_callersIn standing)
  apply (plan.mem_contributors_iff file _).mpr
  refine Or.inr ⟨entity, member, caller, ?_, owned⟩
  apply (plan.mem_callersOf_iff entity.name caller).mpr
  refine ⟨asked, inAsked, ?_⟩
  rw [sound.usedBy_callersOf, Adjacency.mem_firstSeen]
  exact List.mem_flatMap.mpr ⟨part, inPlan, standing⟩

theorem callersOf_of_context {plan other : PagePlan} {file twin : AnalyzedFile}
    (entities : file.analysis.entities = twin.analysis.entities)
    (equal : (plan.filePage file).context = (other.filePage twin).context) :
    ∀ entity ∈ file.analysis.entities, plan.callersOf entity.name = other.callersOf entity.name := by
  have viewed : (plan.entityViews file).map EntityView.toJson =
      (other.entityViews twin).map EntityView.toJson := by
    simp only [filePage, Json.obj.injEq, List.cons.injEq, Prod.mk.injEq, Json.arr.injEq, true_and,
      and_true] at equal
    exact equal.2.2.2.2.2
  have views : file.analysis.entities.map (fun entity => EntityView.toJson (plan.entityView
        (Page.ofSource file.source.path) file.analysis.graph entity)) =
      file.analysis.entities.map (fun entity => EntityView.toJson (other.entityView
        (Page.ofSource twin.source.path) twin.analysis.graph entity)) := by
    unfold entityViews at viewed
    rw [← entities, List.map_map, List.map_map] at viewed
    exact viewed
  intro entity member
  have users := List.map_inj_left.mp views entity member
  simp only [EntityView.toJson, entityView, Json.obj.injEq, List.cons.injEq, Prod.mk.injEq,
    Json.arr.injEq, true_and, and_true] at users
  have linked : (plan.callersOf entity.name).map (plan.callerView (Page.ofSource file.source.path)) =
      (other.callersOf entity.name).map (other.callerView (Page.ofSource twin.source.path)) :=
    (List.map_inj_right CallerView.toJson_inj).mp users.2
  have names := congrArg (List.map CallerView.name) linked
  simpa [callerView, Function.comp_def] using names

/-- Two plans of one project that know the contributors of a file's page by the same content. -/
structure Kin (plan other : PagePlan) (file twin : AnalyzedFile) : Prop where
  project : plan.project = other.project
  sound : plan.Sound
  otherSound : other.Sound
  alike : file.shown = twin.shown
  contributors : ∀ path, path ∈ plan.contributors file ↔ path ∈ other.contributors twin
  shared : ∀ path ∈ plan.contributors file, ∃ part ∈ plan.files, ∃ same ∈ other.files,
    part.source.path = path ∧ part.shown = same.shown

namespace Kin

variable {plan other : PagePlan} {file twin : AnalyzedFile}

theorem symm (kin : Kin plan other file twin) : Kin other plan twin file where
  project := kin.project.symm
  sound := kin.otherSound
  otherSound := kin.sound
  alike := kin.alike.symm
  contributors path := (kin.contributors path).symm
  shared path member := by
    obtain ⟨part, inPlan, same, inOther, placed, alike⟩ :=
      kin.shared path ((kin.contributors path).mpr member)
    have moved : part.shown.source.path = same.shown.source.path := by rw [alike]
    exact ⟨same, inOther, part, inPlan, moved.symm.trans placed, alike.symm⟩

theorem entities (kin : Kin plan other file twin) : file.analysis.entities = twin.analysis.entities := by
  have same : file.shown.analysis = twin.shown.analysis := congrArg AnalyzedFile.analysis kin.alike
  exact congrArg FileAnalysis.entities same

theorem owned (kin : Kin plan other file twin) {entity : Entity}
    (member : entity ∈ file.analysis.entities) {caller : String}
    (calls : caller ∈ plan.callersOf entity.name) {path : String}
    (owned : plan.owner? caller = some path) :
    ∃ first, other.owner? caller = some first ∧ first ≤ path := by
  -- the owner of a caller contributes to the page, so the other plan has it with the same content
  have contributes : path ∈ plan.contributors file :=
    (plan.mem_contributors_iff file path).mpr (Or.inr ⟨entity, member, caller, calls, owned⟩)
  obtain ⟨part, inPlan, same, inOther, placed, alike⟩ := kin.shared path contributes
  obtain ⟨⟨owner, ownerIn, at_, defines⟩, -⟩ := (kin.sound.owner?_eq_some_iff caller path).mp owned
  have unique : owner = part := kin.sound.eq_of_path ownerIn inPlan (at_.trans placed.symm)
  subst unique
  have alsoDefines := AnalyzedFile.defines_of_shown alike defines
  cases found : other.owner? caller with
  | none =>
      have absent := List.find?_eq_none.mp (Option.map_eq_none_iff.mp found) same inOther
      exact absurd ((same.defines_iff caller).mp alsoDefines) absent
  | some first =>
      have least := ((kin.otherSound.owner?_eq_some_iff caller first).mp found).2 same inOther alsoDefines
      have moved : owner.shown.source.path = same.shown.source.path := by rw [alike]
      refine ⟨first, rfl, ?_⟩
      rw [← placed]
      exact moved ▸ least

theorem owner?_eq (kin : Kin plan other file twin) {entity : Entity}
    (member : entity ∈ file.analysis.entities) {caller : String}
    (calls : caller ∈ plan.callersOf entity.name) (also : caller ∈ other.callersOf entity.name) :
    plan.owner? caller = other.owner? caller := by
  have memberToo : entity ∈ twin.analysis.entities := kin.entities ▸ member
  cases here : plan.owner? caller with
  | none =>
      cases there : other.owner? caller with
      | none => rfl
      | some path =>
          obtain ⟨first, owned, -⟩ := kin.symm.owned memberToo also there
          rw [here] at owned
          cases owned
  | some path =>
      obtain ⟨first, there, below⟩ := kin.owned member calls here
      obtain ⟨last, owned, above⟩ := kin.symm.owned memberToo also there
      rw [here, Option.some_inj] at owned
      subst owned
      rw [there, String.le_antisymm below above]

theorem contributors_eq (kin : Kin plan other file twin) :
    plan.contributors file = other.contributors twin := by
  apply Table.eq_of_same_members _ (plan.contributors_pairwise file) (other.contributors_pairwise twin)
    kin.contributors
  intro first second less
  exact Std.not_lt.mpr (Std.le_of_lt less)

theorem entityViews_eq (kin : Kin plan other file twin)
    (same : ∀ entity ∈ file.analysis.entities,
      plan.callersOf entity.name = other.callersOf entity.name) :
    plan.entityViews file = other.entityViews twin := by
  have placed : file.shown.source.path = twin.shown.source.path := by rw [kin.alike]
  have analysed : file.shown.analysis = twin.shown.analysis := by rw [kin.alike]
  have path : file.source.path = twin.source.path := placed
  have analysis : file.analysis = twin.analysis := analysed
  unfold entityViews
  rw [← path, ← analysis]
  apply List.map_congr_left
  intro entity member
  unfold entityView
  have linked : (plan.callersOf entity.name).map (plan.callerView (Page.ofSource file.source.path)) =
      (plan.callersOf entity.name).map (other.callerView (Page.ofSource file.source.path)) := by
    apply List.map_congr_left
    intro caller calls
    unfold callerView
    rw [kin.owner?_eq member calls (same entity member ▸ calls)]
  rw [linked, same entity member]

/-- Pages of kin plans with the same callers are one request. -/
theorem filePage_eq (kin : Kin plan other file twin)
    (same : ∀ entity ∈ file.analysis.entities,
      plan.callersOf entity.name = other.callersOf entity.name) :
    plan.filePage file = other.filePage twin := by
  have shown : ∀ (made : PagePlan) (part : AnalyzedFile), made.filePage part =
      { path := Page.ofSource part.shown.source.path
        sources := made.contributors part
        lines := part.shown.analysis.lineSpan?.map fun span =>
          (∅ : LineInfo).insert part.shown.source.path ⟨span.1, span.2⟩
        entities := part.shown.analysis.entities.map Entity.name
        context := .obj [("template", .str "file.md"), ("project", .str made.project),
          ("path", .str part.shown.source.path), ("language", .str part.shown.source.language),
          ("line_count", .natural part.shown.source.lineCount),
          ("overview_link", .str (Page.link (Page.ofSource part.shown.source.path) Page.overview)),
          ("entities", .arr ((made.entityViews part).map EntityView.toJson))] } := fun _ _ => rfl
  rw [shown, shown, kin.alike, kin.project, kin.contributors_eq, kin.entityViews_eq same]

theorem mem_shown (kin : Kin plan other file twin) {item : AnalyzedFile}
    (member : item ∈ (plan.files.filter fun part =>
      part.source.path ∈ plan.contributors file).map AnalyzedFile.shown) :
    item ∈ (other.files.filter fun part =>
      part.source.path ∈ other.contributors twin).map AnalyzedFile.shown := by
  obtain ⟨part, kept, rfl⟩ := List.mem_map.mp member
  obtain ⟨inPlan, contributes⟩ := List.mem_filter.mp kept
  rw [decide_eq_true_eq] at contributes
  obtain ⟨known, alsoIn, same, inOther, placed, alike⟩ := kin.shared _ contributes
  have unique : known = part := kin.sound.eq_of_path alsoIn inPlan placed
  subst unique
  have moved : known.shown.source.path = same.shown.source.path := by rw [alike]
  apply List.mem_map.mpr
  refine ⟨same, List.mem_filter.mpr ⟨inOther, ?_⟩, alike.symm⟩
  rw [decide_eq_true_eq, ← kin.contributors]
  exact moved ▸ contributes

/-- Calls that stand at home are the same by both plans, and in the same order. -/
theorem callersOf_of_homed (kin : Kin plan other file twin) {entity : Entity}
    (member : entity ∈ file.analysis.entities)
    (homed : ∀ asked ∈ askedNames entity.name, plan.Homed asked ∧ other.Homed asked) :
    plan.callersOf entity.name = other.callersOf entity.name := by
  apply callersOf_congr
  intro asked inAsked
  obtain ⟨here, there⟩ := homed asked inAsked
  have memberToo : entity ∈ twin.analysis.entities := kin.entities ▸ member
  have ordered : ∀ {made : PagePlan} (keep : AnalyzedFile → Bool), made.Sound →
      ((made.files.filter keep).map AnalyzedFile.shown).Pairwise
        fun left right => left.source.path < right.source.path := by
    intro made keep sound
    exact List.Pairwise.map _ (fun left right less => less) (sound.ordered.sublist List.filter_sublist)
  -- both plans see the contributors in the same order, and no other file has such calls
  have parts : (plan.files.filter fun part => part.source.path ∈ plan.contributors file).map
        AnalyzedFile.shown =
      (other.files.filter fun part => part.source.path ∈ other.contributors twin).map
        AnalyzedFile.shown := by
    apply Table.eq_of_same_members _ (ordered _ kin.sound) (ordered _ kin.otherSound)
    · exact fun item => ⟨kin.mem_shown, kin.symm.mem_shown⟩
    · intro first second less
      exact Std.not_lt.mpr (Std.le_of_lt less)
  have shown : ∀ files : List AnalyzedFile,
      (files.flatMap fun part => part.analysis.graph.callersIn asked) =
        (files.map AnalyzedFile.shown).flatMap fun part => part.analysis.graph.callersIn asked := by
    intro files
    rw [List.flatMap_map]
    rfl
  have callers : (plan.files.flatMap fun part => part.analysis.graph.callersIn asked) =
      other.files.flatMap fun part => part.analysis.graph.callersIn asked := by
    calc (plan.files.flatMap fun part => part.analysis.graph.callersIn asked)
        = (plan.files.filter fun part => part.source.path ∈ plan.contributors file).flatMap
            fun part => part.analysis.graph.callersIn asked := by
          apply Table.flatMap_filter_of_covered
          intro part inPlan calls
          rw [decide_eq_true_eq]
          exact kin.sound.contributes member inAsked here inPlan calls
      _ = (other.files.filter fun part => part.source.path ∈ other.contributors twin).flatMap
            fun part => part.analysis.graph.callersIn asked := by
          rw [shown, parts, ← shown]
      _ = other.files.flatMap fun part => part.analysis.graph.callersIn asked := by
          symm
          apply Table.flatMap_filter_of_covered
          intro part inOther calls
          rw [decide_eq_true_eq]
          exact kin.otherSound.contributes memberToo inAsked there inOther calls
  rw [kin.sound.usedBy_callersOf, kin.otherSound.usedBy_callersOf, callers]

end Kin

end PagePlan

end SourceAtlas
