import SourceAtlas.Proofs.CrossReferences
import SourceAtlas.Proofs.PageEdits
import SourceAtlas.Proofs.Pass
/-!
What one step of a task does to the state that tasks share. It edits the file tree around the place of
its page, sets the manifest entry of its page at most, and may register the page; which of these it
does, and what the task does next, is the same in all states that are alike around the page.
-/

namespace SourceAtlas

open FileTree

/-- Pages of which neither stands where the other needs a directory. -/
def Page.Apart (page other : String) : Prop :=
  ¬ Path.names ⟨page⟩ <+: Path.names ⟨other⟩ ∧ ¬ Path.names ⟨other⟩ <+: Path.names ⟨page⟩

instance (page other : String) : Decidable (Page.Apart page other) :=
  inferInstanceAs (Decidable (_ ∧ _))

namespace Page.Apart

variable {page other : String}

theorem symm (apart : Page.Apart page other) : Page.Apart other page := ⟨apart.2, apart.1⟩

theorem ne (apart : Page.Apart page other) : page ≠ other := by
  rintro rfl
  exact apart.1 (List.prefix_refl _)

theorem not_prefix (apart : Page.Apart page other) (docs : Docs) :
    ¬ docs.placeOf page <+: docs.placeOf other := by
  unfold Docs.placeOf
  rw [List.prefix_append_right_inj]
  exact apart.1

end Page.Apart

namespace PassState

/-- A pass can go on from a state: its file tree is one that a file system can hold, and the docs
directory is reached firmly. -/
structure Sturdy (docs : Docs) (state : PassState) : Prop where
  sound : state.tree.Sound
  firm : docs.Firm state.tree

structure AlikeFor (docs : Docs) (page : String) (left right : PassState) : Prop where
  tree : AlikeAt (docs.placeOf page) left.tree right.tree
  hashes : left.recorder.hashes = right.recorder.hashes

theorem AlikeFor.refl (docs : Docs) (page : String) (state : PassState) :
    state.AlikeFor docs page state :=
  ⟨.refl _ _, rfl⟩

theorem Sturdy.of_changes {docs : Docs} {touched : Place → Prop} {before after : PassState}
    (sturdy : before.Sturdy docs) (changes : Changes touched before.tree after.tree) :
    after.Sturdy docs :=
  ⟨changes.sound sturdy.sound, sturdy.firm.mono changes.dirs⟩

end PassState

structure StepEffect where
  edit : Edit
  status : Option PageStatus := none
  registers : Bool := false

/-- An effect leads from one state to another, for the page and the entities of a request. -/
structure StepEffect.Leads (effect : StepEffect) (request : PageRequest) (before after : PassState) :
    Prop where
  tree : effect.edit.Leads before.tree after.tree
  recorder : after.recorder = match effect.status with
    | some status => before.recorder.carry request.path status
    | none => before.recorder
  references : after.references =
    if effect.registers then before.references.register request.path request.entities
    else before.references

namespace StepEffect.Leads

variable {effect : StepEffect} {request : PageRequest} {before after : PassState}

theorem hashes (leads : effect.Leads request before after) :
    after.recorder.hashes = before.recorder.hashes := by
  rw [leads.recorder]
  cases effect.status <;> rfl

end StepEffect.Leads

theorem Recorder.carry_comm (recorder : Recorder) {page other : String} (apart : page ≠ other)
    (status second : PageStatus) :
    (recorder.carry page status).carry other second = (recorder.carry other second).carry page status := by
  have manifests : (recorder.manifest.insert page status).insert other second =
      (recorder.manifest.insert other second).insert page status :=
    Table.insert_comm _ apart _ _
  simp only [carry, manifests]

namespace StepEffect

variable {effect rival : StepEffect} {request other : PageRequest} {docs : Docs}

/-- The effect of a step is not seen by the tasks of pages that stand apart. -/
theorem Leads.alikeFor {before after : PassState} (leads : effect.Leads request before after)
    (own : effect.edit.own = docs.placeOf request.path) (confined : effect.edit.Confined)
    {page : String} (apart : Page.Apart request.path page) : before.AlikeFor docs page after := by
  refine ⟨leads.tree.alikeAt confined ?_ ?_, leads.hashes.symm⟩
  · rw [own]
    exact apart.not_prefix docs
  · rw [own]
    exact apart.symm.not_prefix docs

/-- Effects on pages that stand apart lead to one state in either order. -/
theorem Leads.comm {state first second both twice : PassState}
    (own : effect.edit.own = docs.placeOf request.path) (confined : effect.edit.Confined)
    (ownRival : rival.edit.own = docs.placeOf other.path) (confinedRival : rival.edit.Confined)
    (apart : Page.Apart request.path other.path)
    (leads : effect.Leads request state first) (later : rival.Leads other first both)
    (leadsRival : rival.Leads other state second) (laterRival : effect.Leads request second twice)
    (sound : both.tree.Sound) (also : twice.tree.Sound) : both = twice := by
  have tree : both.tree = twice.tree := by
    apply sound.ext also
    intro place
    rw [later.tree, leads.tree, laterRival.tree, leadsRival.tree]
    apply Edit.result_comm confined confinedRival
    · rw [own, ownRival]
      exact apart.not_prefix docs
    · rw [own, ownRival]
      exact apart.symm.not_prefix docs
  have recorder : both.recorder = twice.recorder := by
    rw [later.recorder, leads.recorder, laterRival.recorder, leadsRival.recorder]
    cases effect.status with
    | none => rfl
    | some status =>
        cases rival.status with
        | none => rfl
        | some entry => exact Recorder.carry_comm _ apart.ne _ _
  have references : both.references = twice.references := by
    rw [later.references, leads.references, laterRival.references, leadsRival.references]
    cases effect.registers with
    | false => rfl
    | true =>
        cases rival.registers with
        | false => rfl
        | true => exact CrossReferences.register_comm _ _ _ _ _
  cases both
  cases twice
  simp only at tree recorder references
  subst tree recorder references
  rfl

end StepEffect

theorem FileTree.Edit.leads_idle (own : Place) (tree : FileTree) : Edit.Leads { own } tree tree :=
  fun place => (if_neg fun both => by cases both.2).symm

namespace TaskStage

variable (pass : Pass) (task : PageTask)

theorem advance_sturdy (stage : TaskStage) {state : PassState} (sturdy : state.Sturdy pass.docs) :
    (stage.advance pass task state).2.Sturdy pass.docs :=
  sturdy.of_changes (advance_changes pass task stage state)

/-- A stage of a task has one continuation and one effect in all states that are alike around its
page. -/
structure Does (stage : TaskStage) (state : PassState) (next : TaskStage) (effect : StepEffect) :
    Prop where
  own : effect.edit.own = pass.docs.placeOf task.request.path
  confined : effect.edit.Confined
  everywhere : ∀ other, other.Sturdy pass.docs → state.AlikeFor pass.docs task.request.path other →
    (stage.advance pass task other).1 = next ∧
      effect.Leads task.request other (stage.advance pass task other).2

def quiet (status : Option PageStatus) (registers : Bool) : StepEffect :=
  ⟨{ own := pass.docs.placeOf task.request.path }, status, registers⟩

def afterStore (body : String) : Except IoFault Unit → TaskStage
  | .ok _ => record body
  | .error fault => remove (.io fault)

variable {pass task}

theorem does_quiet {stage next : TaskStage} {state : PassState} {status : Option PageStatus}
    {registers : Bool}
    (everywhere : ∀ other, other.Sturdy pass.docs →
      state.AlikeFor pass.docs task.request.path other →
      (stage.advance pass task other).1 = next ∧
        (stage.advance pass task other).2.tree = other.tree ∧
        (stage.advance pass task other).2.recorder = (match status with
          | some status => other.recorder.carry task.request.path status
          | none => other.recorder) ∧
        (stage.advance pass task other).2.references =
          if registers then other.references.register task.request.path task.request.entities
          else other.references) :
    stage.Does pass task state next (quiet pass task status registers) := by
  refine ⟨rfl, nofun, fun other also alike => ?_⟩
  obtain ⟨continued, tree, recorder, references⟩ := everywhere other also alike
  exact ⟨continued, tree ▸ Edit.leads_idle _ _, recorder, references⟩

/-- A step is local: what it does and what comes after it is the same in all states that are alike
around its page. -/
theorem exists_does (plain : IsPlain task.request.path) (stage : TaskStage) {state : PassState}
    (sturdy : state.Sturdy pass.docs) : ∃ next effect, stage.Does pass task state next effect := by
  cases stage with
  | register =>
      exact ⟨afterRegister task, quiet pass task none true, does_quiet fun _ _ _ => ⟨rfl, rfl, rfl, rfl⟩⟩
  | load prior =>
      refine ⟨((load prior).advance pass task state).1, quiet pass task none false,
        does_quiet fun other also alike => ?_⟩
      -- the page is loaded as the same text in both states, or in neither
      have same : ∀ text, pass.docs.load other.tree task.request.path = .ok text ↔
          pass.docs.load state.tree task.request.path = .ok text := by
        intro text
        rw [Docs.load_iff_file also.sound also.firm plain,
          Docs.load_iff_file sturdy.sound sturdy.firm plain, alike.tree.entry]
      cases loaded : pass.docs.load state.tree task.request.path with
      | ok text =>
          have again := (same text).mpr loaded
          simp only [advance, loaded, again]
          exact ⟨trivial, trivial, trivial, rfl⟩
      | error fault =>
          cases again : pass.docs.load other.tree task.request.path with
          | ok text =>
              rw [(same text).mp again] at loaded
              cases loaded
          | error wrong =>
              simp only [advance, loaded, again]
              exact ⟨trivial, trivial, trivial, rfl⟩
  | carry prior =>
      exact ⟨done .reused, quiet pass task (some prior) false,
        does_quiet fun _ _ _ => ⟨rfl, rfl, rfl, rfl⟩⟩
  | generate =>
      refine ⟨(generate.advance pass task state).1, quiet pass task none false,
        does_quiet fun other _ _ => ?_⟩
      cases made : pass.generator task.request <;> simp only [advance, made] <;>
        exact ⟨trivial, trivial, trivial, rfl⟩
  | store body =>
      refine ⟨afterStore body (pass.docs.storing state.tree task.request.path),
        { edit := pass.docs.storeEdit state.tree task.request.path body }, rfl,
        Docs.confined_storeEdit plain _ _, fun other also alike => ?_⟩
      -- what storing comes to is read off the entries that both states share
      obtain ⟨answer, leads⟩ := Docs.run_store also.sound also.firm plain body
      rw [← Docs.storing_congr alike.tree] at answer
      rw [← Docs.storeEdit_congr alike.tree] at leads
      cases ran : (pass.docs.store task.request.path body).run.run other.tree with
      | mk result tree =>
          rw [ran] at answer leads
          simp only at answer leads
          subst answer
          cases told : pass.docs.storing state.tree task.request.path <;>
            simp only [advance, PassState.work, ran, told, Except.mapError, afterStore] <;>
            exact ⟨trivial, leads, rfl, rfl⟩
  | record body =>
      refine ⟨done .regenerated, quiet pass task (some (.ofPage state.recorder.hashes pass.now
        task.request.sources task.request.lines body)) false, does_quiet fun other _ alike => ?_⟩
      exact ⟨rfl, rfl, by rw [alike.hashes]; rfl, rfl⟩
  | remove fault =>
      refine ⟨done (.failed fault), { edit := pass.docs.removeEdit state.tree task.request.path }, rfl,
        Docs.confined_removeEdit _, fun other also alike => ⟨rfl, ?_⟩⟩
      have leads := Docs.leads_remove also.sound also.firm plain
      rw [← Docs.removeEdit_congr alike.tree] at leads
      exact ⟨leads, rfl, rfl⟩
  | done outcome =>
      exact ⟨done outcome, quiet pass task none false, does_quiet fun _ _ _ => ⟨rfl, rfl, rfl, rfl⟩⟩

section Beside

variable {other : Pass} {rival : PageTask} (docs : other.docs = pass.docs)
  (plain : IsPlain task.request.path) (also : IsPlain rival.request.path)
  (apart : Page.Apart task.request.path rival.request.path) (stage phase : TaskStage)
  {state : PassState} (sturdy : state.Sturdy pass.docs)

include docs plain also apart sturdy

/-- What a task does next is settled whether or not a task for a page that stands apart goes first. -/
theorem advance_fst_after :
    (stage.advance pass task (phase.advance other rival state).2).1 =
      (stage.advance pass task state).1 := by
  obtain ⟨next, effect, does⟩ := exists_does plain stage sturdy
  obtain ⟨_, rivalEffect, rivalDoes⟩ : ∃ next effect, phase.Does other rival state next effect :=
    exists_does also phase (docs ▸ sturdy)
  have leads := (rivalDoes.everywhere state (docs ▸ sturdy) (.refl _ _ _)).2
  have alike := leads.alikeFor (docs ▸ rivalDoes.own) rivalDoes.confined apart.symm
  have after := advance_sturdy other rival phase (docs ▸ sturdy)
  rw [(does.everywhere _ (docs ▸ after) alike).1,
    (does.everywhere state sturdy (.refl _ _ _)).1]

/-- Steps of tasks for pages that stand apart lead to one state in either order. -/
theorem advance_comm :
    (phase.advance other rival (stage.advance pass task state).2).2 =
      (stage.advance pass task (phase.advance other rival state).2).2 := by
  obtain ⟨_, effect, does⟩ := exists_does plain stage sturdy
  obtain ⟨_, rivalEffect, rivalDoes⟩ : ∃ next effect, phase.Does other rival state next effect :=
    exists_does also phase (docs ▸ sturdy)
  have first := (does.everywhere state sturdy (.refl _ _ _)).2
  have second := (rivalDoes.everywhere state (docs ▸ sturdy) (.refl _ _ _)).2
  have afterFirst := advance_sturdy pass task stage sturdy
  have afterSecond : (phase.advance other rival state).2.Sturdy pass.docs :=
    docs ▸ advance_sturdy other rival phase (docs ▸ sturdy)
  -- neither step is seen by the other task, so both do what they would have done first
  have later := (rivalDoes.everywhere _ (docs ▸ afterFirst)
    (first.alikeFor (docs ▸ does.own) does.confined apart)).2
  have twice := (does.everywhere _ afterSecond
    (second.alikeFor (docs ▸ rivalDoes.own) rivalDoes.confined apart.symm)).2
  exact first.comm does.own does.confined (docs ▸ rivalDoes.own) rivalDoes.confined apart later second
    twice (advance_sturdy other rival phase (docs ▸ afterFirst)).sound
    (advance_sturdy pass task stage afterSecond).sound

end Beside

end TaskStage

end SourceAtlas
