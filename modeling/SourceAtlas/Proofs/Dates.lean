import SourceAtlas.Proofs.Pass
/-!
When a pass takes place shows in the dates of its manifest and nowhere else.
-/

namespace SourceAtlas

def PageStatus.undated (status : PageStatus) : List String × FileHashes × Option LineInfo × String :=
  (status.sources, status.hashes, status.lines, status.contentHash)

/-- What a manifest says of a page, but for the date. -/
def Manifest.undated? (manifest : Manifest) (page : String) :
    Option (List String × FileHashes × Option LineInfo × String) :=
  manifest[page]?.map PageStatus.undated

theorem Manifest.undated?_insert {left right : Manifest} {name : String}
    (same : left.undated? name = right.undated? name) (page : String) {status other : PageStatus}
    (told : status.undated = other.undated) :
    Manifest.undated? (left.insert page status) name =
      Manifest.undated? (right.insert page other) name := by
  simp only [undated?] at same
  simp only [undated?, Std.ExtTreeMap.getElem?_insert]
  split
  · simp [told]
  · exact same

/-- Recorders that record the same at different times. -/
structure Recorder.SameButDates (left right : Recorder) : Prop where
  hashes : left.hashes = right.hashes
  entries : ∀ page, left.manifest.undated? page = right.manifest.undated? page

namespace Recorder.SameButDates

variable {left right : Recorder}

theorem refl (recorder : Recorder) : recorder.SameButDates recorder := ⟨rfl, fun _ => rfl⟩

theorem carry (same : left.SameButDates right) (page : String) {status other : PageStatus}
    (told : status.undated = other.undated) :
    (left.carry page status).SameButDates (right.carry page other) :=
  ⟨same.hashes, fun name => Manifest.undated?_insert (same.entries name) page told⟩

end Recorder.SameButDates

theorem Pass.docs_dated (pass : Pass) (now : Timestamp) : (pass.dated now).docs = pass.docs := rfl

/-- States that tasks reach at different times. -/
structure PassState.SameButDates (left right : PassState) : Prop where
  tree : left.tree = right.tree
  recorder : left.recorder.SameButDates right.recorder
  references : left.references = right.references

namespace PassState.SameButDates

theorem refl (state : PassState) : state.SameButDates state := ⟨rfl, .refl _, rfl⟩

theorem symm {left right : PassState} (same : left.SameButDates right) : right.SameButDates left where
  tree := same.tree.symm
  recorder := ⟨same.recorder.hashes.symm, fun page => (same.recorder.entries page).symm⟩
  references := same.references.symm

theorem trans {left middle right : PassState} (first : left.SameButDates middle)
    (second : middle.SameButDates right) : left.SameButDates right where
  tree := first.tree.trans second.tree
  recorder := ⟨first.recorder.hashes.trans second.recorder.hashes,
    fun page => (first.recorder.entries page).trans (second.recorder.entries page)⟩
  references := first.references.trans second.references

end PassState.SameButDates

namespace TaskStage

variable {pass other : Pass} (task : PageTask) (docs : other.docs = pass.docs)
  (generator : other.generator task.request = pass.generator task.request)

include docs generator

theorem advance_undated (stage : TaskStage) {left right : PassState} (same : left.SameButDates right) :
    (stage.advance other task left).1 = (stage.advance pass task right).1 ∧
      (stage.advance other task left).2.SameButDates (stage.advance pass task right).2 := by
  obtain ⟨tree, recorder, references⟩ := same
  cases stage with
  | register => exact ⟨rfl, tree, recorder, by simp only [advance, references]⟩
  | load prior =>
      simp only [advance, docs, tree]
      split <;> exact ⟨rfl, tree, recorder, references⟩
  | carry prior => exact ⟨rfl, tree, recorder.carry _ rfl, references⟩
  | generate =>
      simp only [advance, generator]
      split <;> exact ⟨rfl, tree, recorder, references⟩
  | store body =>
      cases ran : (pass.docs.store task.request.path body).run.run right.tree with
      | mk result after =>
          cases result <;> simp only [advance, docs, PassState.work, tree, ran] <;>
            exact ⟨trivial, rfl, recorder, references⟩
  | record body =>
      refine ⟨rfl, tree, recorder.carry _ ?_, references⟩
      simp only [PageStatus.undated, PageStatus.ofPage, recorder.hashes]
  | remove fault =>
      simp only [advance, docs, PassState.work, tree]
      exact ⟨trivial, rfl, recorder, references⟩
  | done outcome => exact ⟨rfl, tree, recorder, references⟩

end TaskStage

end SourceAtlas
