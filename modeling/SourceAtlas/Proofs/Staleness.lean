import SourceAtlas.Proofs.Table
import SourceAtlas.Staleness
/-!
Recording a page and deciding about it later. The decision reads off a recorded status exactly which
source is not as it was recorded, and else whether the sources are the same ones.
-/

namespace SourceAtlas

namespace PageStatus

theorem hashes_from (hashes known : FileHashes) (sources : List String) (source : String) :
    (sources.foldl (fun known source =>
      match hashes[source]? with
      | some hash => known.insert source hash
      | none => known) known)[source]? =
      (if source ∈ sources then hashes[source]? else none).or known[source]? := by
  induction sources generalizing known with
  | nil => simp
  | cons first rest ih =>
      rw [List.foldl_cons, ih]
      by_cases member : source ∈ rest
      · cases found : hashes[first]? with
        | none => simp [member]
        | some hash =>
            by_cases same : first = source
            · subst same
              simp [member, found]
            · simp [member, Std.ExtTreeMap.getElem?_insert, same]
      · by_cases same : first = source
        · subst same
          cases found : hashes[first]? <;> simp [member]
        · cases found : hashes[first]? with
          | none => simp [member, Ne.symm same]
          | some hash => simp [member, Ne.symm same, Std.ExtTreeMap.getElem?_insert, same]

/-- A status has the fingerprint that the run knew of each of its sources, and no other. -/
theorem ofPage_hashes (hashes : FileHashes) (now : Timestamp) (sources : List String)
    (lines : Option LineInfo) (body source : String) :
    (ofPage hashes now sources lines body).hashes[source]? =
      if source ∈ sources then hashes[source]? else none := by
  exact (hashes_from hashes ∅ sources source).trans (by simp)

end PageStatus

namespace Staleness

/-- A source was listed, and it had a fingerprint then that it still has. -/
def Unchanged (recorded hashes : FileHashes) (sources : List String) (source : String) : Prop :=
  source ∈ sources ∧ ∃ hash, recorded[source]? = some hash ∧ hashes[source]? = some hash

instance (recorded hashes : FileHashes) (sources : List String) (source : String) :
    Decidable (Unchanged recorded hashes sources source) :=
  decidable_of_iff (source ∈ sources ∧ recorded[source]?.isSome = true ∧
      recorded[source]? = hashes[source]?) <| by
    unfold Unchanged
    cases recorded[source]? with
    | none => simp
    | some hash => simpa using fun _ => ⟨Eq.symm, Eq.symm⟩

/-- Of a listed source, that it is unchanged says that it had a fingerprint and has it still. -/
theorem unchanged_iff_of_mem (recorded hashes : FileHashes) {sources : List String} {source : String}
    (member : source ∈ sources) :
    Unchanged recorded hashes sources source ↔
      ¬ (recorded[source]? = none ∨ hashes[source]? ≠ recorded[source]?) := by
  unfold Unchanged
  cases recorded[source]? with
  | none => simp
  | some hash => simp [member]

theorem sameMembers_iff (left right : List String) :
    sameMembers left right = true ↔ ∀ source, source ∈ left ↔ source ∈ right := by
  simp only [sameMembers, Bool.and_eq_true, List.all_eq_true, List.contains_iff_mem]
  exact ⟨fun both source => ⟨both.1 source, both.2 source⟩,
    fun same => ⟨fun source => (same source).mp, fun source => (same source).mpr⟩⟩

theorem isCurrent_iff (status : PageStatus) (hashes : FileHashes) (source : String) :
    isCurrent status hashes source = true ↔
      ∃ hash, status.hashes[source]? = some hash ∧ hashes[source]? = some hash := by
  unfold isCurrent
  cases now : hashes[source]? with
  | none => simp
  | some hash =>
      cases recorded : status.hashes[source]? with
      | none => simp
      | some other => simp

theorem isCurrent_ofPage (recorded hashes : FileHashes) (now : Timestamp) (sources : List String)
    (lines : Option LineInfo) (body source : String) :
    isCurrent (.ofPage recorded now sources lines body) hashes source =
      decide (Unchanged recorded hashes sources source) := by
  rw [Bool.eq_iff_iff, isCurrent_iff, PageStatus.ofPage_hashes, decide_eq_true_iff, Unchanged]
  by_cases member : source ∈ sources <;> simp [member]

theorem ofStatus_of_first (status : PageStatus) (request : PageRequest) (hashes : FileHashes)
    {before after : List String} {source : String}
    (split : request.sources = before ++ source :: after)
    (earlier : ∀ other ∈ before, isCurrent status hashes other = true)
    (stale : isCurrent status hashes source = false) :
    ofStatus status request hashes = hashMismatch source := by
  have found : request.sources.find? (fun source => !isCurrent status hashes source) =
      some source := by
    rw [split, List.find?_append, List.find?_eq_none.mpr (by simpa using earlier)]
    simp [stale]
  rw [ofStatus, found]

theorem ofStatus_of_current (status : PageStatus) (request : PageRequest) (hashes : FileHashes)
    (current : ∀ source ∈ request.sources, isCurrent status hashes source = true) :
    ofStatus status request hashes =
      if sameMembers request.sources status.sources then reusable else sourceSetChanged := by
  have none_found : request.sources.find? (fun source => !isCurrent status hashes source) = none :=
    List.find?_eq_none.mpr (by simpa using current)
  rw [ofStatus, none_found]

/-- Either all sources of a request are current, or there is a first one that is not. -/
theorem current_or_first (status : PageStatus) (hashes : FileHashes) (sources : List String) :
    (∀ source ∈ sources, isCurrent status hashes source = true) ∨
      ∃ before source after, sources = before ++ source :: after ∧
        (∀ other ∈ before, isCurrent status hashes other = true) ∧
        isCurrent status hashes source = false := by
  induction sources with
  | nil => exact Or.inl (by simp)
  | cons first rest ih =>
      cases current : isCurrent status hashes first with
      | false => exact Or.inr ⟨[], first, rest, rfl, by simp, current⟩
      | true =>
          rcases ih with all | ⟨before, source, after, split, earlier, stale⟩
          · exact Or.inl (by simpa [current] using all)
          · refine Or.inr ⟨first :: before, source, after, by rw [split]; rfl, ?_, stale⟩
            simpa [current] using earlier

/-- A page is decided reusable by an entry that it has. -/
theorem classify_eq_reusable_iff (previous : Option Manifest) (request : PageRequest)
    (hashes : FileHashes) :
    classify previous request hashes = reusable ↔
      ∃ status, (previous.bind fun manifest => manifest[request.path]?) = some status ∧
        ofStatus status request hashes = reusable := by
  cases previous with
  | none => simp [classify]
  | some manifest =>
      cases entry : manifest[request.path]? with
      | none => simp [classify, entry]
      | some status => simp [classify, entry]

/-- A page is kept exactly when every source is current and the sources are the recorded ones. -/
theorem ofStatus_eq_reusable_iff (status : PageStatus) (request : PageRequest)
    (hashes : FileHashes) :
    ofStatus status request hashes = reusable ↔
      (∀ source ∈ request.sources, isCurrent status hashes source = true) ∧
        ∀ source, source ∈ request.sources ↔ source ∈ status.sources := by
  rcases current_or_first status hashes request.sources with
    current | ⟨before, source, after, split, earlier, stale⟩
  · rw [ofStatus_of_current status request hashes current, ← sameMembers_iff]
    by_cases same : sameMembers request.sources status.sources = true
    · simpa [same] using current
    · simp [same]
  · rw [ofStatus_of_first status request hashes split earlier stale]
    constructor
    · intro impossible
      cases impossible
    · rintro ⟨current, -⟩
      have now := current source (by simp [split])
      rw [stale] at now
      cases now

theorem isStale_eq_true_iff (decision : Staleness) : decision.isStale = true ↔ decision ≠ reusable := by
  cases decision <;> simp [isStale]

/-- Lists with the same members are decided alike, but for which source is named. -/
theorem ofStatus_same_members (status other : PageStatus) (request asked : PageRequest)
    (hashes : FileHashes)
    (current : ∀ source, isCurrent status hashes source = isCurrent other hashes source)
    (recorded : ∀ source, source ∈ status.sources ↔ source ∈ other.sources)
    (requested : ∀ source, source ∈ request.sources ↔ source ∈ asked.sources) :
    ofStatus status request hashes = ofStatus other asked hashes ∨
      ∃ named renamed, ofStatus status request hashes = hashMismatch named ∧
        ofStatus other asked hashes = hashMismatch renamed := by
  -- if one list has a source that is not current the other has it too, perhaps further behind
  rcases current_or_first status hashes request.sources with
    all | ⟨before, source, after, split, earlier, stale⟩
  · have later : ∀ source ∈ asked.sources, isCurrent other hashes source = true := by
      intro source member
      rw [← current source]
      exact all source ((requested source).mpr member)
    have same : sameMembers request.sources status.sources =
        sameMembers asked.sources other.sources := by
      rw [Bool.eq_iff_iff, sameMembers_iff, sameMembers_iff]
      exact forall_congr' fun source => by rw [requested source, recorded source]
    left
    rw [ofStatus_of_current status request hashes all, ofStatus_of_current other asked hashes later,
      same]
  · right
    have member : source ∈ asked.sources := (requested source).mp (by simp [split])
    rcases current_or_first other hashes asked.sources with
      all | ⟨front, renamed, back, cut, first, changed⟩
    · have now := all source member
      rw [← current source, stale] at now
      cases now
    · exact ⟨source, renamed, ofStatus_of_first status request hashes split earlier stale,
        ofStatus_of_first other asked hashes cut first changed⟩

theorem exists_of_plan {requests : List PageRequest} {previous : Option Manifest} {hashes : FileHashes}
    {page : String} {decision : Staleness}
    (entry : (plan requests previous hashes)[page]? = some decision) :
    ∃ request ∈ requests, request.path = page ∧ classify previous request hashes = decision := by
  rcases Table.exists_of_fill PageRequest.path
    (fun request => classify previous request hashes) entry with found | none
  · exact found
  · simp at none

/-- Requests for different pages are each decided on by themselves. -/
theorem plan_getElem?_of_mem {requests : List PageRequest} {previous : Option Manifest}
    {hashes : FileHashes} (distinct : (requests.map PageRequest.path).Nodup) {request : PageRequest}
    (member : request ∈ requests) :
    (plan requests previous hashes)[request.path]? = some (classify previous request hashes) := by
  refine Table.getElem?_fill PageRequest.path (fun request => classify previous request hashes) member ?_
  intro other inRequests same
  rw [Table.eq_of_key_eq distinct inRequests member same]

/-- The decision about a request whose page the run before recorded, whatever else that run
recorded. The first source in the request's order that was not listed or has not kept its
fingerprint is named; else the two source lists count as sets. So with the list that was recorded,
a page is stale exactly when one of its sources has no fingerprint or another one, and the order
and the repetitions of a list matter only for which source is named. -/
theorem classify_recorded (recorder : Recorder) (now : Timestamp) (sources : List String)
    (body : String) (lines : Option LineInfo) (request : PageRequest) (hashes : FileHashes) :
    let decision := fun (sources : List String) (request : PageRequest) =>
      classify (some (recorder.record now request.path sources body lines).manifest) request hashes
    let unchanged := Unchanged recorder.hashes hashes sources
    (∀ before source after, request.sources = before ++ source :: after →
      (∀ other ∈ before, unchanged other) → ¬ unchanged source →
        decision sources request = hashMismatch source) ∧
    ((∀ source ∈ request.sources, unchanged source) →
      (¬ ∀ source, source ∈ request.sources ↔ source ∈ sources) →
        decision sources request = sourceSetChanged) ∧
    ((∀ source ∈ request.sources, unchanged source) →
      (∀ source, source ∈ request.sources ↔ source ∈ sources) →
        decision sources request = reusable) ∧
    (request.sources = sources →
      ((decision sources request).isStale = true ↔
        ∃ source ∈ sources, recorder.hashes[source]? = none ∨
          hashes[source]? ≠ recorder.hashes[source]?)) ∧
    (∀ (listed asked : List String), (∀ source, source ∈ listed ↔ source ∈ sources) →
      (∀ source, source ∈ asked ↔ source ∈ request.sources) →
        decision listed { request with sources := asked } = decision sources request ∨
          ∃ named renamed, decision sources request = hashMismatch named ∧
            decision listed { request with sources := asked } = hashMismatch renamed) := by
  intro decision unchanged
  have entry : ∀ (sources : List String) (request : PageRequest), decision sources request =
      ofStatus (.ofPage recorder.hashes now sources lines body) request hashes := by
    intro sources request
    simp [decision, classify, Recorder.record]
  have current : ∀ source,
      isCurrent (.ofPage recorder.hashes now sources lines body) hashes source = true ↔
        unchanged source := by
    intro source
    rw [isCurrent_ofPage, decide_eq_true_iff]
  have recorded : (PageStatus.ofPage recorder.hashes now sources lines body).sources = sources := rfl
  refine ⟨?_, ?_, ?_, ?_, ?_⟩
  · intro before source after split earlier changed
    rw [entry]
    refine ofStatus_of_first _ _ _ split (fun other member => ?_) ?_
    · exact (current other).mpr (earlier other member)
    · exact Bool.eq_false_iff.mpr fun holds => changed ((current source).mp holds)
  · intro all differ
    rw [entry, ofStatus_of_current _ _ _ fun source member => (current source).mpr (all source member),
      recorded, if_neg fun same => differ ((sameMembers_iff _ _).mp same)]
  · intro all same
    rw [entry, ofStatus_of_current _ _ _ fun source member => (current source).mpr (all source member),
      recorded, if_pos ((sameMembers_iff _ _).mpr same)]
  · intro kept
    rw [isStale_eq_true_iff, entry, Ne, ofStatus_eq_reusable_iff, recorded, kept]
    constructor
    · intro stale
      apply Classical.byContradiction
      intro fresh
      refine stale ⟨fun source member => (current source).mpr ?_, fun source => Iff.rfl⟩
      exact (unchanged_iff_of_mem _ _ member).mpr fun changed => fresh ⟨source, member, changed⟩
    · rintro ⟨source, member, changed⟩ ⟨all, -⟩
      exact (unchanged_iff_of_mem _ _ member).mp ((current source).mp (all source member)) changed
  · intro listed asked sameListed sameAsked
    rw [entry, entry]
    have alike := ofStatus_same_members (.ofPage recorder.hashes now sources lines body)
      (.ofPage recorder.hashes now listed lines body) request { request with sources := asked } hashes
      (fun source => by
        rw [isCurrent_ofPage, isCurrent_ofPage, decide_eq_decide]
        unfold Unchanged
        rw [sameListed source])
      (fun source => (sameListed source).symm) (fun source => (sameAsked source).symm)
    rcases alike with same | named
    · exact Or.inl same.symm
    · exact Or.inr named

end Staleness

end SourceAtlas
