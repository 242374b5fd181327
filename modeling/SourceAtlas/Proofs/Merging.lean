import SourceAtlas.Proofs.Table
import SourceAtlas.Proofs.UsedBy
/-!
Merging call graphs. A graph is known by its callers in order and by what each of them calls, and both
grow by first sight when edges are put in. So graphs may be merged in any grouping, and a merged graph
is the first one with the new callees of each caller behind the old ones and the new callers at the end.
-/

namespace SourceAtlas

namespace Adjacency

variable {adjacency left right : Adjacency}

def keys (adjacency : Adjacency) : List String := adjacency.toList.map Prod.fst

def namesOf (adjacency : Adjacency) (key : String) : List String := (adjacency.get? key).getD []

theorem Arranged.toList_eq (arranged : adjacency.Arranged) :
    adjacency.toList = adjacency.keys.map fun key => (key, adjacency.namesOf key) := by
  rw [keys, List.map_map]
  conv => lhs; rw [← List.map_id adjacency.toList]
  apply List.map_congr_left
  rintro ⟨key, names⟩ listed
  simp [namesOf, (arranged.mem_toList_iff key names).mp listed]

theorem Arranged.mem_keys_iff (arranged : adjacency.Arranged) (key : String) :
    key ∈ adjacency.keys ↔ ∃ names, adjacency.get? key = some names := by
  simp only [keys, List.mem_map, Prod.exists, exists_and_right, exists_eq_right,
    arranged.mem_toList_iff]

theorem Arranged.namesOf_eq_nil (arranged : adjacency.Arranged) {key : String}
    (absent : key ∉ adjacency.keys) : adjacency.namesOf key = [] := by
  rw [arranged.mem_keys_iff] at absent
  cases found : adjacency.get? key with
  | none => rw [namesOf, found, Option.getD_none]
  | some names => exact absurd ⟨names, found⟩ absent

/-- Adjacencies with the same entries in one order are the same, down to the slots. -/
theorem Arranged.eq_of_toList (arranged : left.Arranged) (also : right.Arranged)
    (same : left.toList = right.toList) : left = right := by
  have entries : left.entries = right.entries := Array.toList_inj.mp same
  have slots : left.slots = right.slots := by
    apply Std.ExtTreeMap.ext_getElem?
    intro key
    apply Option.ext
    intro slot
    rw [arranged.slot_iff, also.slot_iff, entries]
  cases left
  cases right
  rw [mk.injEq]
  exact ⟨entries, slots⟩

theorem Arranged.ext (arranged : left.Arranged) (also : right.Arranged) (keys : left.keys = right.keys)
    (names : ∀ key, left.namesOf key = right.namesOf key) : left = right := by
  apply arranged.eq_of_toList also
  rw [arranged.toList_eq, also.toList_eq, keys]
  simp only [names]

theorem Arranged.keys_add (arranged : adjacency.Arranged) (pair : String × String) :
    (adjacency.add pair.1 pair.2).keys =
      if Usable pair then addName adjacency.keys pair.1 else adjacency.keys := by
  by_cases usable : Usable pair
  · rw [if_pos usable, add_of_usable usable]
    cases there : adjacency.slots[pair.1]? with
    | some slot =>
        obtain ⟨names, held⟩ := (arranged.slot_iff pair.1 slot).mp there
        have known : pair.1 ∈ adjacency.keys := by
          rw [arranged.mem_keys_iff]
          exact ⟨names, by simp [get?, there, held]⟩
        rw [addName, if_pos (List.contains_iff_mem.mpr known)]
        -- an entry that gains a name keeps its key
        apply List.ext_getElem?
        intro other
        simp only [keys, toList, List.getElem?_map, Array.getElem?_toList, Array.getElem?_modify]
        split
        · cases adjacency.entries[other]? <;> rfl
        · rfl
    | none =>
        have fresh : pair.1 ∉ adjacency.keys := by
          rw [arranged.mem_keys_iff]
          simp [get?, there]
        rw [addName, if_neg (mt List.contains_iff_mem.mp fresh)]
        simp [keys, toList]
  · rw [if_neg usable, add_of_not_usable usable]

theorem Arranged.keys_addPairs (arranged : adjacency.Arranged) (pairs : List (String × String)) :
    (adjacency.addPairs pairs).keys =
      ((pairs.filter fun pair => Usable pair).map Prod.fst).foldl addName adjacency.keys := by
  induction pairs generalizing adjacency with
  | nil => rfl
  | cons pair rest ih =>
      have later := ih (arranged.add pair.1 pair.2)
      refine later.trans ?_
      rw [arranged.keys_add]
      by_cases usable : Usable pair
      · rw [if_pos usable, List.filter_cons_of_pos (by simpa using usable), List.map_cons,
          List.foldl_cons]
      · rw [if_neg usable, List.filter_cons_of_neg (by simpa using usable)]

theorem Arranged.namesOf_addPairs (arranged : adjacency.Arranged) (pairs : List (String × String))
    (key : String) : (adjacency.addPairs pairs).namesOf key =
      (namesUnder pairs key).foldl addName (adjacency.namesOf key) :=
  arranged.get?_addPairs pairs key

theorem Arranged.filter_usable (arranged : adjacency.Arranged) :
    adjacency.pairs.filter (fun pair => Usable pair) = adjacency.pairs := by
  rw [List.filter_eq_self]
  intro pair member
  simpa using arranged.usable_of_mem_pairs member

theorem Arranged.namesUnder_pairs (arranged : adjacency.Arranged) (key : String) :
    namesUnder adjacency.pairs key = adjacency.namesOf key := by
  have chosen : ∀ each ∈ adjacency.keys, ((((adjacency.namesOf each).map fun name => (each, name)).filter
      fun pair => Usable pair ∧ pair.1 = key).map Prod.snd) =
        if each == key then adjacency.namesOf each else [] := by
    intro each member
    obtain ⟨names, found⟩ := (arranged.mem_keys_iff each).mp member
    obtain ⟨named, -, -, whole⟩ := arranged.filled_of_get? found
    have same : adjacency.namesOf each = names := by rw [namesOf, found, Option.getD_some]
    rw [same]
    by_cases here : each = key
    · subst here
      have kept : ((names.map fun name => (each, name)).filter
          fun pair => Usable pair ∧ pair.1 = each) = names.map fun name => (each, name) := by
        rw [List.filter_eq_self]
        intro pair inNames
        obtain ⟨name, inside, rfl⟩ := List.mem_map.mp inNames
        simpa using ⟨named, whole name inside⟩
      rw [kept]
      simp
    · simp [here]
  have single : namesUnder adjacency.pairs key =
      (adjacency.keys.filter fun each => each == key).flatMap adjacency.namesOf := by
    rw [Table.flatMap_filter, namesUnder, pairs, arranged.toList_eq, List.flatMap_map,
      List.filter_flatMap, List.map_flatMap, List.flatMap_def, List.flatMap_def]
    congr 1
    exact List.map_congr_left chosen
  have distinct : adjacency.keys.Nodup := arranged.keys_nodup
  rw [single, List.filter_beq]
  by_cases known : key ∈ adjacency.keys
  · rw [List.count_eq_one_of_mem distinct known]
    simp
  · rw [List.count_eq_zero_of_not_mem known, arranged.namesOf_eq_nil known]
    rfl

theorem addName_of_mem {names : List String} {name : String} (member : name ∈ names) :
    addName names name = names := if_pos (List.contains_iff_mem.mpr member)

theorem foldl_addName_same {α : Type} {items : List α} (filled : items ≠ []) (name : String)
    (known : List String) : (items.map fun _ => name).foldl addName known = addName known name := by
  induction items generalizing known with
  | nil => exact absurd rfl filled
  | cons first rest ih =>
      rw [List.map_cons, List.foldl_cons]
      by_cases last : rest = []
      · rw [last, List.map_nil, List.foldl_nil]
      · rw [ih last, addName_of_mem (mem_addName.mpr (Or.inr rfl))]

/-- The pairs of an adjacency put its keys behind known ones. -/
theorem Arranged.foldl_keys (arranged : adjacency.Arranged) (known : List String) :
    (adjacency.pairs.map Prod.fst).foldl addName known = adjacency.keys.foldl addName known := by
  have entry : ∀ pair ∈ adjacency.toList, pair.2 ≠ [] := fun pair listed =>
    (arranged.filled_of_get? ((arranged.mem_toList_iff pair.1 pair.2).mp listed)).2.1
  rw [keys, pairs]
  generalize adjacency.toList = entries at entry
  induction entries generalizing known with
  | nil => rfl
  | cons pair rest ih =>
      obtain ⟨filled, later⟩ := List.forall_mem_cons.mp entry
      have first : (pair.2.map fun name => (pair.1, name)).map Prod.fst =
          pair.2.map fun _ => pair.1 := by
        simp
      rw [List.flatMap_cons, List.map_append, List.foldl_append, List.map_cons, List.foldl_cons,
        first, foldl_addName_same filled, ih _ later]

/-- Putting in what pairs have made of an adjacency is putting in the adjacency and then the pairs. -/
theorem Arranged.addPairs_addPairs (arranged : left.Arranged) (also : right.Arranged)
    (pairs : List (String × String)) :
    left.addPairs (right.addPairs pairs).pairs = (left.addPairs right.pairs).addPairs pairs := by
  have grown := also.addPairs pairs
  have united := arranged.addPairs right.pairs
  apply (arranged.addPairs _).ext (united.addPairs pairs)
  · rw [arranged.keys_addPairs, grown.filter_usable, grown.foldl_keys, also.keys_addPairs,
      united.keys_addPairs, arranged.keys_addPairs, also.filter_usable, also.foldl_keys,
      foldl_addName_foldl]
  · intro key
    rw [arranged.namesOf_addPairs, grown.namesUnder_pairs, also.namesOf_addPairs,
      united.namesOf_addPairs, arranged.namesOf_addPairs, also.namesUnder_pairs, foldl_addName_foldl]

theorem foldl_addName_of_nodup {names : List String} (distinct : names.Nodup) (known : List String) :
    names.foldl addName known = known ++ names.filter fun name => !known.contains name := by
  rw [foldl_addName]
  congr 1
  have apart := distinct.filter fun name => !known.contains name
  generalize names.filter (fun name => !known.contains name) = fresh at apart
  induction fresh with
  | nil => rfl
  | cons first rest ih =>
      obtain ⟨new, later⟩ := List.nodup_cons.mp apart
      have kept : rest.filter (fun name => !name == first) = rest := by
        rw [List.filter_eq_self]
        rintro name member
        simpa using fun same : name = first => new (same ▸ member)
      rw [List.eraseDups_cons, kept, ih later]

/-- One adjacency put into another: the names that are new stand behind those that a key had, and the
entries of new keys behind the others. -/
theorem Arranged.toList_addPairs (arranged : left.Arranged) (also : right.Arranged) :
    (left.addPairs right.pairs).toList =
      (left.toList.map fun (key, names) =>
        (key, names ++ (right.namesOf key).filter fun name => !names.contains name)) ++
      right.toList.filter fun entry => !left.keys.contains entry.1 := by
  have distinct : right.keys.Nodup := also.keys_nodup
  have keys : (left.addPairs right.pairs).keys =
      left.keys ++ right.keys.filter fun key => !left.keys.contains key := by
    rw [arranged.keys_addPairs, also.filter_usable, also.foldl_keys, foldl_addName_of_nodup distinct]
  have names : ∀ key, (left.addPairs right.pairs).namesOf key =
      left.namesOf key ++ (right.namesOf key).filter fun name => !(left.namesOf key).contains name := by
    intro key
    have single : (right.namesOf key).Nodup := by
      cases found : right.get? key with
      | none => simp [namesOf, found]
      | some names => simpa [namesOf, found] using (also.filled_of_get? found).2.2.1
    rw [arranged.namesOf_addPairs, also.namesUnder_pairs, foldl_addName_of_nodup single]
  rw [(arranged.addPairs _).toList_eq, keys, List.map_append, arranged.toList_eq, also.toList_eq,
    List.map_map, List.filter_map]
  simp only [names]
  congr 1
  -- a new key has no names on the left, so all of its names are new
  apply List.map_congr_left
  intro key member
  have fresh : key ∉ left.keys := by simpa using (List.mem_filter.mp member).2
  simp [arranged.namesOf_eq_nil fresh]

end Adjacency

namespace CallGraph

open Adjacency

variable {first second : CallGraph}

theorem eq_of_adjacency (same : first.adjacency = second.adjacency) : first = second :=
  congrArg CallGraph.mk same

/-- Graphs may be merged in any grouping, and the empty graph is of no account on either side. A graph
whose edges are all there already changes nothing. A merged graph has the callers of the first graph in
their order, each with its callees and then those that are new with the second, and then the callers
that are new with the second. -/
theorem merge_ordered (built : first.Built) (also : second.Built) (third : CallGraph) :
    (first.merge second).merge third = first.merge (second.merge third) ∧
    (({} : CallGraph).merge first = first ∧ first.merge {} = first) ∧
    (second.edges ⊆ first.edges → first.merge second = first) ∧
    (first.merge second).toList =
      (first.toList.map fun (caller, callees) => (caller, callees ++
        ((second.callees? caller).getD []).filter fun callee => !callees.contains callee)) ++
      second.toList.filter fun entry => !first.callers.contains entry.1 := by
  refine ⟨?_, ⟨?_, ?_⟩, fun known => ?_, ?_⟩
  · apply eq_of_adjacency
    rw [merge_adjacency, merge_adjacency, merge_adjacency, edges, edges, edges, merge_adjacency, edges,
      built.arranged.addPairs_addPairs also.arranged]
  · apply eq_of_adjacency
    rw [merge_adjacency]
    apply (arranged_empty.addPairs _).eq_of_toList built.arranged
    rw [edges, arranged_empty.toList_addPairs built.arranged]
    simp [Adjacency.toList, keys]
  · rfl
  · apply eq_of_adjacency
    rw [merge_adjacency]
    exact built.arranged.addPairs_of_subset known
  · have listed := built.arranged.toList_addPairs also.arranged
    rw [toList, merge_adjacency]
    exact listed

def overlapping : CallGraph × CallGraph × CallGraph :=
  (.ofList [("main", ["a"])], .ofList [("main", ["b", "a"]), ("other", ["c"])],
    ({} : CallGraph).addCalls "other" ["d", "", "c"])

theorem merge_ordered_overlapping : let (first, second, third) := overlapping
    (first.Built ∧ second.Built ∧ third.Built) ∧
    (first.merge second).merge third = first.merge (second.merge third) ∧
    (first.merge second).toList = [("main", ["a", "b"]), ("other", ["c"])] ∧
    ((first.merge second).merge third).toList = [("main", ["a", "b"]), ("other", ["c", "d"])] := by
  have first : overlapping.1.Built := .ofList _
  have second : overlapping.2.1.Built := .ofList _
  have third : overlapping.2.2.Built := .addCalls .empty ..
  obtain ⟨grouped, -, -, listed⟩ := merge_ordered first second overlapping.2.2
  obtain ⟨-, -, -, again⟩ := merge_ordered (first.merge second) third {}
  exact ⟨⟨first, second, third⟩, grouped, listed.trans (by decide +kernel),
    again.trans (by decide +kernel)⟩

end CallGraph

end SourceAtlas
