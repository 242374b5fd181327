import Mathlib.Data.List.Sort
import SourceAtlas.Diagram
import SourceAtlas.Proofs.Table
/-!
Which positions a ranking keeps. Sorting by score leaves equal scores in their order, so the sorted
positions are in a strict order of rank, and cutting them off keeps each that comes before the rest. No
other choice of as many positions does, and a later cut keeps what an earlier one kept.
-/

namespace SourceAtlas.Diagram

/-- A score with its position comes before another: it is higher, or as high and stands earlier. -/
def Before (left right : Nat × Nat) : Prop :=
  right.1 < left.1 ∨ left.1 = right.1 ∧ left.2 < right.2

instance (left right : Nat × Nat) : Decidable (Before left right) :=
  inferInstanceAs (Decidable (right.1 < left.1 ∨ left.1 = right.1 ∧ left.2 < right.2))

theorem Before.asymm {left right : Nat × Nat} (before : Before left right) : ¬ Before right left := by
  unfold Before at *
  omega

/-- The scores with their positions, highest first. -/
def ranked (scores : List Nat) : List (Nat × Nat) :=
  scores.zipIdx.mergeSort fun left right => right.1 ≤ left.1

variable (scores : List Nat)

theorem ranked_perm : (ranked scores).Perm scores.zipIdx := List.mergeSort_perm ..

theorem zipIdx_pairwise : scores.zipIdx.Pairwise fun left right => left.2 < right.2 := by
  rw [← List.pairwise_map, List.zipIdx_map_snd]
  exact List.pairwise_lt_range' 1

theorem higher_trans (first second third : Nat × Nat) (above : decide (second.1 ≤ first.1) = true)
    (below : decide (third.1 ≤ second.1) = true) : decide (third.1 ≤ first.1) = true :=
  decide_eq_true (Nat.le_trans (of_decide_eq_true below) (of_decide_eq_true above))

theorem higher_total (first second : Nat × Nat) :
    (decide (second.1 ≤ first.1) || decide (first.1 ≤ second.1)) = true := by
  simpa using Nat.le_total second.1 first.1

theorem ranked_pairwise : (ranked scores).Pairwise Before := by
  apply (Table.mergeSort_stable higher_trans higher_total (zipIdx_pairwise scores)).imp
  rintro left right ⟨below, stands⟩
  rcases Nat.lt_or_eq_of_le (of_decide_eq_true below) with less | same
  · exact Or.inl less
  · exact Or.inr ⟨same.symm, stands (decide_eq_true (Nat.le_of_eq same.symm))⟩

variable (limit : Nat)

/-- What is kept are the positions of the first of the ranking. -/
theorem rank_perm : (rank scores limit).Perm (((ranked scores).take limit).map Prod.snd) := by
  unfold rank
  split
  · next short =>
      have whole : (ranked scores).take limit = ranked scores := by
        apply List.take_of_length_le
        rw [(ranked_perm scores).length_eq, List.length_zipIdx]
        exact short
      rw [whole, List.range_eq_range', ← List.zipIdx_map_snd 0 scores]
      exact ((ranked_perm scores).map Prod.snd).symm
  · exact List.mergeSort_perm ..

theorem length_rank : (rank scores limit).length = min limit scores.length := by
  rw [(rank_perm scores limit).length_eq, List.length_map, List.length_take,
    (ranked_perm scores).length_eq, List.length_zipIdx]

theorem mem_rank_iff (position : Nat) :
    position ∈ rank scores limit ↔ ∃ score, (score, position) ∈ (ranked scores).take limit := by
  rw [(rank_perm scores limit).mem_iff, List.mem_map]
  constructor
  · rintro ⟨⟨score, position⟩, member, rfl⟩
    exact ⟨score, member⟩
  · rintro ⟨score, member⟩
    exact ⟨(score, position), member, rfl⟩

theorem rank_pairwise : (rank scores limit).Pairwise (· < ·) := by
  have distinct : (rank scores limit).Nodup := by
    apply (rank_perm scores limit).nodup_iff.mpr
    apply List.Nodup.sublist ((List.take_sublist ..).map _)
    apply ((ranked_perm scores).map Prod.snd).nodup_iff.mpr
    rw [List.zipIdx_map_snd]
    exact List.nodup_range'
  have ordered : (rank scores limit).Pairwise (· ≤ ·) := by
    unfold rank
    split
    · exact List.pairwise_lt_range.imp Nat.le_of_lt
    · exact List.pairwise_mergeSort' (· ≤ ·) _
  exact (ordered.and distinct).imp fun both => Nat.lt_of_le_of_ne both.1 both.2

theorem lt_of_mem_rank {position : Nat} (member : position ∈ rank scores limit) :
    position < scores.length := by
  obtain ⟨score, first⟩ := (mem_rank_iff scores limit position).mp member
  have listed := (ranked_perm scores).mem_iff.mp (List.mem_of_mem_take first)
  rw [List.mk_mem_zipIdx_iff_getElem?] at listed
  exact (List.getElem?_eq_some_iff.mp listed).1

theorem rank_sublist : (rank scores limit).Sublist (List.range scores.length) := by
  apply List.sublist_of_subperm_of_pairwise (r := (· ≤ ·))
  · apply List.subperm_of_subset
    · exact (rank_pairwise scores limit).imp Nat.ne_of_lt
    · intro position member
      exact List.mem_range.mpr (lt_of_mem_rank scores limit member)
  · exact (rank_pairwise scores limit).imp Nat.le_of_lt
  · exact List.pairwise_lt_range.imp Nat.le_of_lt

/-- A kept position comes before every position that is not kept. -/
theorem before_of_rank {position other score less : Nat} (kept : position ∈ rank scores limit)
    (here : scores[position]? = some score) (left : other ∉ rank scores limit)
    (there : scores[other]? = some less) : Before (score, position) (less, other) := by
  obtain ⟨found, first⟩ := (mem_rank_iff scores limit position).mp kept
  have listed := (ranked_perm scores).mem_iff.mp (List.mem_of_mem_take first)
  rw [List.mk_mem_zipIdx_iff_getElem?, here, Option.some_inj] at listed
  subst listed
  have somewhere : (less, other) ∈ (ranked scores).take limit ++ (ranked scores).drop limit := by
    rw [List.take_append_drop]
    exact (ranked_perm scores).mem_iff.mpr (List.mk_mem_zipIdx_iff_getElem?.mpr there)
  have later : (less, other) ∈ (ranked scores).drop limit := by
    rcases List.mem_append.mp somewhere with early | late
    · exact absurd ((mem_rank_iff scores limit other).mpr ⟨less, early⟩) left
    · exact late
  have ordered := ranked_pairwise scores
  rw [← List.take_append_drop limit (ranked scores)] at ordered
  exact (List.pairwise_append.mp ordered).2.2 _ first _ later

theorem rank_subset {limit more : Nat} (grows : limit ≤ more) : rank scores limit ⊆ rank scores more := by
  intro position kept
  obtain ⟨score, first⟩ := (mem_rank_iff scores limit position).mp kept
  exact (mem_rank_iff scores more position).mpr ⟨score, List.take_subset_take_left _ grows first⟩

/-- A choice of `limit` positions of scores, or of all where there are fewer: it is in increasing order, and
each position in it comes before every position that it leaves out. -/
structure Selects (scores : List Nat) (limit : Nat) (chosen : List Nat) : Prop where
  increasing : chosen.Pairwise (· < ·)
  count : chosen.length = min limit scores.length
  best : ∀ position ∈ chosen, ∃ inside : position < scores.length,
    ∀ (other : Nat) (there : other < scores.length), other ∉ chosen →
      Before (scores[position], position) (scores[other], other)

theorem selects_rank : Selects scores limit (rank scores limit) where
  increasing := rank_pairwise scores limit
  count := length_rank scores limit
  best position kept := by
    have inside := lt_of_mem_rank scores limit kept
    refine ⟨inside, fun other there left => ?_⟩
    exact before_of_rank scores limit kept (List.getElem?_eq_getElem inside) left
      (List.getElem?_eq_getElem there)

variable {scores : List Nat} {limit : Nat} {chosen others : List Nat}

/-- Two choices are of one length, so one that lacks a position of the other has another instead. -/
theorem Selects.exists_rival (first : Selects scores limit chosen) (second : Selects scores limit others)
    {position : Nat} (here : position ∈ chosen) (absent : position ∉ others) :
    ∃ rival ∈ others, rival ∉ chosen := by
  by_contra none
  have within : others ⊆ chosen := by
    intro rival there
    by_contra missing
    exact none ⟨rival, there, missing⟩
  have distinct : others.Nodup := second.increasing.imp Nat.ne_of_lt
  have length : chosen.length = others.length := first.count.trans second.count.symm
  have same : others.Perm chosen :=
    (List.subperm_of_subset distinct within).perm_of_length_le (Nat.le_of_eq length)
  exact absent (same.mem_iff.mpr here)

theorem Selects.subset (first : Selects scores limit chosen) (second : Selects scores limit others) :
    chosen ⊆ others := by
  intro position here
  by_contra absent
  -- the position and its rival are each chosen over the other
  obtain ⟨rival, there, missing⟩ := first.exists_rival second here absent
  obtain ⟨inside, ahead⟩ := first.best position here
  obtain ⟨alsoInside, alsoAhead⟩ := second.best rival there
  exact (ahead rival alsoInside missing).asymm (alsoAhead position inside absent)

theorem Selects.unique (first : Selects scores limit chosen) (second : Selects scores limit others) :
    chosen = others :=
  first.increasing.eq_of_mem_iff second.increasing fun _ =>
    ⟨fun here => first.subset second here, fun there => second.subset first there⟩

/-- A ranking keeps the best positions: in increasing order, as many as the limit and the scores allow, each of
a higher score than every position left out or of the same score and earlier. There is no other such choice,
however many scores are the same, and a higher limit keeps every position that a lower one keeps. -/
theorem rank_selects (scores : List Nat) (limit : Nat) :
    Selects scores limit (rank scores limit) ∧
    (∀ chosen, Selects scores limit chosen → chosen = rank scores limit) ∧
    ∀ more, limit ≤ more → rank scores limit ⊆ rank scores more := by
  refine ⟨selects_rank scores limit, fun chosen selects => ?_, fun more grows => ?_⟩
  · exact selects.unique (selects_rank scores limit)
  · exact rank_subset scores grows

def tiedScores : List Nat := [3, 1, 3, 5, 3]

theorem rank_selects_tiedScores : rank tiedScores 2 = [0, 3] ∧ rank tiedScores 3 = [0, 2, 3] ∧
    2 ≤ 3 ∧ rank tiedScores 2 ⊆ rank tiedScores 3 := by
  have two : Selects tiedScores 2 [0, 3] := ⟨by decide, by decide, by decide⟩
  have three : Selects tiedScores 3 [0, 2, 3] := ⟨by decide, by decide, by decide⟩
  obtain ⟨-, unique, nested⟩ := rank_selects tiedScores 2
  exact ⟨(unique _ two).symm, ((rank_selects tiedScores 3).2.1 _ three).symm, by decide,
    nested 3 (by decide)⟩

end SourceAtlas.Diagram
