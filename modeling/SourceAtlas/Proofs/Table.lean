import Std.Data.ExtTreeMap
/-!
Tables that are filled item by item: what stands under a key was put there by an item with this key,
and the last of them counts. Before them, what is needed of the lists that they are filled from.
-/

namespace SourceAtlas.Table

theorem values_eq_map_snd {α β : Type} [Ord α] [Std.TransOrd α] (table : Std.ExtTreeMap α β) :
    table.values = table.toList.map Prod.snd := by
  obtain ⟨inner⟩ := table
  induction inner using Std.ExtDTreeMap.inductionOn with
  | mk plain =>
      show plain.inner.values =
        (Std.DTreeMap.Internal.Impl.Const.toList plain.inner).map Prod.snd
      rw [Std.DTreeMap.Internal.Impl.values_eq_map_snd,
        Std.DTreeMap.Internal.Impl.Const.toList_eq_toListModel_map]
      simp

/-- Of items with different keys a key names one. -/
theorem eq_of_key_eq {ι β : Type} {key : ι → β} {items : List ι} (distinct : (items.map key).Nodup)
    {left right : ι} (inLeft : left ∈ items) (inRight : right ∈ items) (same : key left = key right) :
    left = right := by
  induction items with
  | nil => cases inLeft
  | cons first rest ih =>
      rw [List.map_cons, List.nodup_cons] at distinct
      rcases List.mem_cons.mp inLeft with rfl | leftLater
      · rcases List.mem_cons.mp inRight with rfl | rightLater
        · rfl
        · exact absurd (same ▸ List.mem_map_of_mem rightLater) distinct.1
      · rcases List.mem_cons.mp inRight with rfl | rightLater
        · exact absurd (same ▸ List.mem_map_of_mem leftLater) distinct.1
        · exact ih distinct.2 leftLater rightLater

/-- Of items with different keys one has the key of a given one. -/
theorem filter_key_eq {ι β : Type} [BEq β] [LawfulBEq β] {key : ι → β} {items : List ι}
    (distinct : (items.map key).Nodup) {item : ι} (member : item ∈ items) :
    (items.filter fun other => key other == key item) = [item] := by
  induction items with
  | nil => cases member
  | cons first rest ih =>
      rw [List.map_cons, List.nodup_cons] at distinct
      rcases List.mem_cons.mp member with rfl | later
      · rw [List.filter_cons_of_pos (by simp), List.filter_eq_nil_iff.mpr]
        intro other inRest same
        exact distinct.1 (beq_iff_eq.mp same ▸ List.mem_map_of_mem inRest)
      · rw [List.filter_cons_of_neg, ih distinct.2 later]
        intro same
        exact distinct.1 (beq_iff_eq.mp same ▸ List.mem_map_of_mem later)

/-- Ordered lists with the same members are the same. -/
theorem eq_of_same_members {α : Type} {before : α → α → Prop} {left right : List α}
    (asymmetric : ∀ first second, before first second → ¬ before second first)
    (leftOrdered : left.Pairwise before) (rightOrdered : right.Pairwise before)
    (same : ∀ item, item ∈ left ↔ item ∈ right) : left = right := by
  have distinct : ∀ {items : List α}, items.Pairwise before → items.Nodup := by
    intro items ordered
    apply ordered.imp
    rintro first second less rfl
    exact asymmetric first first less less
  have permuted : left.Perm right :=
    (List.perm_ext_iff_of_nodup (distinct leftOrdered) (distinct rightOrdered)).mpr same
  apply permuted.eq_of_pairwise _ leftOrdered rightOrdered
  intro first second _ _ less greater
  exact absurd greater (asymmetric first second less)

/-- Items with different keys are in strict order once they are sorted by them. -/
theorem mergeSort_pairwise {ι : Type} (key : ι → String) {le : ι → ι → Bool}
    (transitive : ∀ first second third, le first second = true → le second third = true →
      le first third = true)
    (total : ∀ first second, (le first second || le second first) = true)
    (ordered : ∀ first second, le first second = true → key first ≤ key second) {items : List ι}
    (distinct : (items.map key).Nodup) : ((items.mergeSort le).map key).Pairwise (· < ·) := by
  have sorted : ((items.mergeSort le).map key).Pairwise (· ≤ ·) :=
    (List.pairwise_mergeSort transitive total items).map key ordered
  have apart : ((items.mergeSort le).map key).Nodup :=
    ((List.mergeSort_perm items le).map key).symm.nodup distinct
  apply (sorted.and apart).imp
  rintro first second ⟨below, other⟩
  exact Std.lt_of_le_of_ne below other

theorem sort_pairwise {items : List String} (distinct : items.Nodup) :
    (items.mergeSort (· ≤ ·)).Pairwise (· < ·) := by
  have sorted := @mergeSort_pairwise String id (fun first second => decide (first ≤ second))
    (fun first second third => by simpa using String.le_trans)
    (fun first second => by simpa using String.le_total first second)
    (fun first second => by simp) items (by simpa using distinct)
  simpa using sorted

theorem filter_mergeSort {α : Type} {le : α → α → Bool}
    (transitive : ∀ first second third, le first second = true → le second third = true →
      le first third = true)
    (total : ∀ first second, (le first second || le second first) = true) (items : List α)
    {alike : α → Bool}
    (same : ∀ first second, alike first = true → alike second = true → le first second = true) :
    (items.mergeSort le).filter alike = items.filter alike := by
  have kept : (items.filter alike).Sublist (items.mergeSort le) := by
    apply List.sublist_mergeSort transitive total _ List.filter_sublist
    rw [List.pairwise_iff_forall_sublist]
    intro first second ordered
    obtain ⟨inFirst, inSecond⟩ := List.cons_subset.mp ordered.subset
    exact same first second (List.mem_filter.mp inFirst).2
      (List.mem_filter.mp (List.cons_subset.mp inSecond).1).2
  have inside := kept.filter alike
  rw [List.filter_filter] at inside
  simp only [Bool.and_self] at inside
  exact (inside.eq_of_length ((List.mergeSort_perm items le).filter _).length_eq.symm).symm

/-- Of sorted items the earlier is as small as the later, and if they are alike it was the earlier before. -/
theorem mergeSort_stable {α : Type} {le : α → α → Bool}
    (transitive : ∀ first second third, le first second = true → le second third = true →
      le first third = true)
    (total : ∀ first second, (le first second || le second first) = true)
    {before : α → α → Prop} {items : List α} (ordered : items.Pairwise before) :
    (items.mergeSort le).Pairwise fun first second =>
      le first second = true ∧ (le second first = true → before first second) := by
  rw [List.pairwise_iff_forall_sublist]
  intro first second sorted
  have below := List.pairwise_iff_forall_sublist.mp (List.pairwise_mergeSort transitive total items) sorted
  refine ⟨below, fun above => ?_⟩
  have alike := sorted.filter fun item => le first item && le item first
  rw [filter_mergeSort transitive total] at alike
  · have reflexive := total first first
    rw [Bool.or_self] at reflexive
    simp only [List.filter_cons, reflexive, below, above, Bool.and_self, if_true, List.filter_nil] at alike
    exact List.pairwise_iff_forall_sublist.mp ordered (alike.trans List.filter_sublist)
  · intro left right here there
    rw [Bool.and_eq_true] at here there
    exact transitive left first right here.2 there.1

/-- A list in which all items stand in order but those that are swapped is in order just when none are. -/
theorem pairwise_lt_iff {n : Nat} {swapped : Fin n → Fin n → Prop} {items : List (Fin n)}
    (spec : items.Pairwise fun first second =>
      first < second ∧ ¬ swapped first second ∨ second < first ∧ swapped second first) :
    items.Pairwise (· < ·) ↔
      ∀ first ∈ items, ∀ second ∈ items, first < second → ¬ swapped first second := by
  constructor
  · intro sorted
    induction items with
    | nil => exact fun _ none => nomatch none
    | cons top rest ih =>
        obtain ⟨least, later⟩ := List.pairwise_cons.mp sorted
        obtain ⟨fromTop, others⟩ := List.pairwise_cons.mp spec
        intro first inFirst second inSecond before
        rcases List.mem_cons.mp inFirst with rfl | firstLater
        · rcases List.mem_cons.mp inSecond with rfl | secondLater
          · exact absurd before (Nat.lt_irrefl _)
          · rcases fromTop second secondLater with ⟨-, apart⟩ | ⟨after, -⟩
            · exact apart
            · exact absurd before (Nat.lt_asymm after)
        · rcases List.mem_cons.mp inSecond with rfl | secondLater
          · exact absurd before (Nat.lt_asymm (least first firstLater))
          · exact ih others later first firstLater second secondLater before
  · intro apart
    refine spec.imp_of_mem ?_
    rintro first second inFirst inSecond (⟨less, -⟩ | ⟨greater, exchanged⟩)
    · exact less
    · exact absurd exchanged (apart second inSecond first inFirst greater)

theorem flatMap_filter {α β : Type} (keep : α → Bool) (view : α → List β) (items : List α) :
    (items.filter keep).flatMap view = items.flatMap fun item => if keep item then view item else [] := by
  induction items with
  | nil => rfl
  | cons item rest ih =>
      by_cases kept : keep item = true
      · rw [List.filter_cons_of_pos kept, List.flatMap_cons, List.flatMap_cons, ih, if_pos kept]
      · rw [List.filter_cons_of_neg kept, List.flatMap_cons, ih, if_neg kept, List.nil_append]

theorem flatMap_filter_of_covered {α β : Type} {items : List α} {keep : α → Bool}
    {view : α → List β} (covered : ∀ item ∈ items, view item ≠ [] → keep item = true) :
    items.flatMap view = (items.filter keep).flatMap view := by
  rw [flatMap_filter, List.flatMap_def, List.flatMap_def]
  congr 1
  apply List.map_congr_left
  intro item member
  by_cases kept : keep item = true
  · rw [if_pos kept]
  · rw [if_neg kept]
    exact Classical.byContradiction fun filled => kept (covered item member filled)

theorem exists_of_mem {α : Type} {table : Std.ExtTreeMap String α} {name : String}
    (present : name ∈ table) : ∃ found, table[name]? = some found :=
  Option.isSome_iff_exists.mp (Std.ExtTreeMap.mem_iff_isSome_getElem?.mp present)

/-- What stands under different keys may be put there in either order. -/
theorem insert_comm {α β : Type} [Ord α] [Std.TransOrd α] [Std.LawfulEqOrd α]
    (table : Std.ExtTreeMap α β) {key other : α} (apart : key ≠ other) (value second : β) :
    (table.insert key value).insert other second = (table.insert other second).insert key value := by
  apply Std.ExtTreeMap.ext_getElem?
  intro name
  simp only [Std.ExtTreeMap.getElem?_insert]
  by_cases here : compare key name = .eq
  · have away : compare other name ≠ .eq := fun there =>
      apart ((Std.LawfulEqCmp.eq_of_compare here).trans (Std.LawfulEqCmp.eq_of_compare there).symm)
    rw [if_pos here, if_pos here, if_neg away]
  · rw [if_neg here, if_neg here]

variable {ι α : Type} (key : ι → String) (value : ι → α)

def fill (items : List ι) (known : Std.ExtTreeMap String α) : Std.ExtTreeMap String α :=
  items.foldl (fun table item => table.insert (key item) (value item)) known

variable {items : List ι} {known : Std.ExtTreeMap String α}

theorem exists_of_fill {name : String} {found : α}
    (entry : (fill key value items known)[name]? = some found) :
    (∃ item ∈ items, key item = name ∧ value item = found) ∨ known[name]? = some found := by
  induction items generalizing known with
  | nil => exact Or.inr entry
  | cons item rest ih =>
      rcases ih entry with ⟨other, member, same⟩ | now
      · exact Or.inl ⟨other, List.mem_cons_of_mem item member, same⟩
      · rw [Std.ExtTreeMap.getElem?_insert] at now
        split at now
        · next same =>
            rw [Std.LawfulEqCmp.compare_eq_iff_eq] at same
            exact Or.inl ⟨item, List.mem_cons_self .., same, Option.some.inj now⟩
        · exact Or.inr now

theorem mem_fill {name : String} (there : (∃ item ∈ items, key item = name) ∨ name ∈ known) :
    name ∈ fill key value items known := by
  induction items generalizing known with
  | nil =>
      rcases there with ⟨item, none, -⟩ | inKnown
      · cases none
      · exact inKnown
  | cons first rest ih =>
      apply ih
      rcases there with ⟨item, member, same⟩ | inKnown
      · rcases List.mem_cons.mp member with rfl | inRest
        · exact Or.inr (by simp [same])
        · exact Or.inl ⟨item, inRest, same⟩
      · exact Or.inr (by simp [inKnown])

theorem getElem?_fill {item : ι} (member : item ∈ items)
    (agree : ∀ other ∈ items, key other = key item → value other = value item) :
    (fill key value items ∅)[key item]? = some (value item) := by
  have present : key item ∈ fill key value items ∅ := mem_fill key value (Or.inl ⟨item, member, rfl⟩)
  obtain ⟨found, entry⟩ := exists_of_mem present
  rcases exists_of_fill key value entry with ⟨other, inItems, same, equal⟩ | none
  · rw [entry, ← equal, agree other inItems same]
  · simp at none

end SourceAtlas.Table
