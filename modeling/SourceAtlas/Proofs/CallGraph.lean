import Mathlib.Data.List.Nodup
import SourceAtlas.CallGraph
/-!
What pairs leave in an adjacency: under every key the names that were put there, each where it was
first seen, and no entry without a name. So the callers of a name are those of the graphs that were
added, one graph after the other.
-/

namespace SourceAtlas

namespace Adjacency

def Usable (pair : String × String) : Prop := pair.1 ≠ "" ∧ pair.2 ≠ ""

instance (pair : String × String) : Decidable (Usable pair) :=
  inferInstanceAs (Decidable (pair.1 ≠ "" ∧ pair.2 ≠ ""))

/-- The names that pairs put under a key, with repetitions. -/
def namesUnder (pairs : List (String × String)) (key : String) : List String :=
  (pairs.filter fun pair => Usable pair ∧ pair.1 = key).map Prod.snd

def firstSeen (names : List String) : List String := names.foldl addName []

variable {adjacency : Adjacency}

theorem add_of_not_usable {key name : String} (unusable : ¬ Usable (key, name)) :
    adjacency.add key name = adjacency := by
  have empty : (key.isEmpty || name.isEmpty) = true := by
    rw [Bool.or_eq_true, String.isEmpty_iff, String.isEmpty_iff]
    by_cases none : key = ""
    · exact Or.inl none
    · by_cases other : name = ""
      · exact Or.inr other
      · exact absurd ⟨none, other⟩ unusable
  rw [add, if_pos empty]

theorem add_of_usable {key name : String} (usable : Usable (key, name)) :
    adjacency.add key name = match adjacency.slots[key]? with
      | some slot =>
          { adjacency with
            entries := adjacency.entries.modify slot fun entry => (entry.1, addName entry.2 name) }
      | none =>
          { entries := adjacency.entries.push (key, [name])
            slots := adjacency.slots.insert key adjacency.entries.size } := by
  have filled : ¬ (key.isEmpty || name.isEmpty) = true := by
    rw [Bool.or_eq_true, String.isEmpty_iff, String.isEmpty_iff]
    rintro (none | none)
    · exact usable.1 none
    · exact usable.2 none
  unfold add
  exact if_neg filled

theorem mem_addName {names : List String} {name each : String} :
    each ∈ addName names name ↔ each ∈ names ∨ each = name := by
  unfold addName
  split
  · next old =>
      have member := List.contains_iff_mem.mp old
      exact ⟨Or.inl, fun either => either.elim id fun same => same ▸ member⟩
  · simp

theorem addName_ne_nil (names : List String) (name : String) : addName names name ≠ [] :=
  List.ne_nil_of_mem (mem_addName.mpr (Or.inr rfl))

theorem nodup_addName {names : List String} (distinct : names.Nodup) (name : String) :
    (addName names name).Nodup := by
  unfold addName
  split
  · exact distinct
  · next fresh =>
      rw [List.nodup_append]
      refine ⟨distinct, by simp, ?_⟩
      rintro left inNames right isNew rfl
      rw [List.mem_singleton.mp isNew] at inNames
      exact fresh (List.contains_iff_mem.mpr inNames)

theorem foldl_addName (names known : List String) :
    names.foldl addName known = known ++ (names.filter fun name => !known.contains name).eraseDups := by
  induction names generalizing known with
  | nil => simp
  | cons first rest ih =>
      rw [List.foldl_cons, ih, addName]
      by_cases old : known.contains first = true
      · rw [if_pos old, List.filter_cons_of_neg (by simpa using old)]
      · rw [if_neg old, List.filter_cons_of_pos (by simpa using old), List.eraseDups_cons,
          List.filter_filter, List.append_assoc, List.singleton_append]
        have same : ∀ name, (!(known ++ [first]).contains name) =
            (!name == first && !known.contains name) := by
          intro name
          simp [List.contains_eq_mem, Bool.and_comm, Bool.beq_eq_decide_eq]
        simp only [same]

theorem firstSeen_eq (names : List String) : firstSeen names = names.eraseDups := by
  rw [firstSeen, foldl_addName, List.nil_append, List.filter_eq_self.mpr]
  simp

theorem nodup_firstSeen (names : List String) : (firstSeen names).Nodup := by
  have kept : ∀ known : List String, known.Nodup → (names.foldl addName known).Nodup := by
    induction names with
    | nil => exact fun known distinct => distinct
    | cons first rest ih => exact fun known distinct => ih _ (nodup_addName distinct first)
  exact kept [] List.nodup_nil

theorem mem_firstSeen {names : List String} {name : String} : name ∈ firstSeen names ↔ name ∈ names := by
  rw [firstSeen_eq, List.mem_eraseDups]

/-- Names may come in portions: what a list was grown to, put behind known names, comes to the list and
then what it was grown by. -/
theorem foldl_addName_foldl (names seen known : List String) :
    (names.foldl addName seen).foldl addName known =
      names.foldl addName (seen.foldl addName known) := by
  induction names generalizing seen known with
  | nil => rfl
  | cons first rest ih =>
      rw [List.foldl_cons, List.foldl_cons, ih]
      congr 1
      by_cases old : seen.contains first = true
      · have later : (seen.foldl addName known).contains first = true := by
          rw [List.contains_iff_mem] at old ⊢
          by_cases inKnown : first ∈ known
          · exact foldl_addName seen known ▸ List.mem_append_left _ inKnown
          · refine foldl_addName seen known ▸ List.mem_append_right _ ?_
            exact List.mem_eraseDups.mpr (List.mem_filter.mpr ⟨old, by simpa using inKnown⟩)
        rw [addName, if_pos old, addName, if_pos later]
      · rw [addName, if_neg old, List.foldl_append, List.foldl_cons, List.foldl_nil]

theorem foldl_addName_eraseDups (names known : List String) :
    names.eraseDups.foldl addName known = names.foldl addName known := by
  rw [← firstSeen_eq, firstSeen, foldl_addName_foldl]
  rfl

/-- An adjacency in order: the slots are those of the entries, an entry to each key, and every entry
has names, each once; nothing in it is empty. -/
structure Arranged (adjacency : Adjacency) : Prop where
  slot_iff : ∀ (key : String) (slot : Nat), adjacency.slots[key]? = some slot ↔
    ∃ names, adjacency.entries[slot]? = some (key, names)
  filled : ∀ (slot : Nat) (key : String) (names : List String),
    adjacency.entries[slot]? = some (key, names) →
      key ≠ "" ∧ names ≠ [] ∧ names.Nodup ∧ ∀ name ∈ names, name ≠ ""

theorem arranged_empty : Arranged {} := by
  constructor
  · intro key slot
    simp
  · intro slot key names held
    simp at held

theorem Arranged.extend (arranged : adjacency.Arranged) {key name : String} (filled : name ≠ "")
    {slot : Nat} (there : adjacency.slots[key]? = some slot) :
    Arranged { adjacency with
      entries := adjacency.entries.modify slot fun entry => (entry.1, addName entry.2 name) } := by
  obtain ⟨known, held⟩ := (arranged.slot_iff key slot).mp there
  -- the entry in the slot gains a name, and no other entry changes
  have entry : ∀ (at_ : Nat) (other : String) (names : List String),
      (adjacency.entries.modify slot fun entry => (entry.1, addName entry.2 name))[at_]? =
        some (other, names) ↔
      if slot = at_ then other = key ∧ names = addName known name
      else adjacency.entries[at_]? = some (other, names) := by
    intro at_ other names
    rw [Array.getElem?_modify]
    by_cases same : slot = at_
    · subst same
      simp [held, eq_comm]
    · simp [same]
  constructor
  · intro other at_
    rw [arranged.slot_iff]
    simp only [entry]
    by_cases same : slot = at_
    · subst same
      simp [held, eq_comm]
    · simp [same]
  · intro at_ other names found
    rw [entry] at found
    split at found
    · obtain ⟨rfl, rfl⟩ := found
      obtain ⟨named, -, distinct, whole⟩ := arranged.filled slot other known held
      refine ⟨named, addName_ne_nil known name, nodup_addName distinct name, fun each member => ?_⟩
      rcases mem_addName.mp member with inKnown | rfl
      · exact whole each inKnown
      · exact filled
    · exact arranged.filled at_ other names found

theorem Arranged.append (arranged : adjacency.Arranged) {key name : String} (usable : Usable (key, name))
    (fresh : adjacency.slots[key]? = none) :
    Arranged { entries := adjacency.entries.push (key, [name])
               slots := adjacency.slots.insert key adjacency.entries.size } := by
  constructor
  · intro other at_
    rw [Std.ExtTreeMap.getElem?_insert]
    simp only [Std.LawfulEqCmp.compare_eq_iff_eq, Array.getElem?_push]
    by_cases same : key = other
    · subst same
      rw [if_pos rfl, Option.some_inj]
      constructor
      · rintro rfl
        exact ⟨[name], by simp⟩
      · rintro ⟨names, found⟩
        split at found
        · next last => exact last.symm
        · rw [(arranged.slot_iff key at_).mpr ⟨names, found⟩] at fresh
          cases fresh
    · rw [if_neg same, arranged.slot_iff]
      by_cases last : at_ = adjacency.entries.size
      · subst last
        simp [same]
      · simp [last]
  · intro at_ other names found
    rw [Array.getElem?_push] at found
    split at found
    · rw [Option.some_inj, Prod.mk.injEq] at found
      obtain ⟨rfl, rfl⟩ := found
      exact ⟨usable.1, by simp, by simp, by simpa using usable.2⟩
    · exact arranged.filled at_ other names found

theorem Arranged.add (arranged : adjacency.Arranged) (key name : String) :
    (adjacency.add key name).Arranged := by
  by_cases usable : Usable (key, name)
  · rw [add_of_usable usable]
    cases there : adjacency.slots[key]? with
    | some slot => exact arranged.extend usable.2 there
    | none => exact arranged.append usable there
  · rw [add_of_not_usable usable]
    exact arranged

theorem Arranged.addPairs (arranged : adjacency.Arranged) (pairs : List (String × String)) :
    (adjacency.addPairs pairs).Arranged := by
  induction pairs generalizing adjacency with
  | nil => exact arranged
  | cons pair rest ih => exact ih (arranged.add pair.1 pair.2)

theorem Arranged.get?_add (arranged : adjacency.Arranged) (key name other : String) :
    ((adjacency.add key name).get? other).getD [] =
      if Usable (key, name) ∧ key = other then addName ((adjacency.get? other).getD []) name
      else (adjacency.get? other).getD [] := by
  by_cases usable : Usable (key, name)
  · rw [add_of_usable usable]
    by_cases same : key = other
    · subst same
      rw [if_pos ⟨usable, rfl⟩]
      cases there : adjacency.slots[key]? with
      | some slot =>
          obtain ⟨names, held⟩ := (arranged.slot_iff key slot).mp there
          simp [get?, there, held, Array.getElem?_modify]
      | none => simp [get?, there, addName]
    · rw [if_neg fun both => same both.2]
      cases there : adjacency.slots[key]? with
      | some slot =>
          obtain ⟨names, held⟩ := (arranged.slot_iff key slot).mp there
          cases found : adjacency.slots[other]? with
          | none => simp [get?, found]
          | some at_ =>
              obtain ⟨others, alsoHeld⟩ := (arranged.slot_iff other at_).mp found
              -- one slot cannot hold the entries of two keys
              have apart : slot ≠ at_ := by
                rintro rfl
                rw [held, Option.some_inj, Prod.mk.injEq] at alsoHeld
                exact same alsoHeld.1
              simp [get?, found, Array.getElem?_modify, apart]
      | none =>
          cases found : adjacency.slots[other]? with
          | none => simp [get?, Std.ExtTreeMap.getElem?_insert, same, found]
          | some at_ =>
              obtain ⟨others, alsoHeld⟩ := (arranged.slot_iff other at_).mp found
              obtain ⟨inside, -⟩ := Array.getElem?_eq_some_iff.mp alsoHeld
              simp [get?, Std.ExtTreeMap.getElem?_insert, same, found, Array.getElem?_push,
                Nat.ne_of_lt inside]
  · rw [add_of_not_usable usable, if_neg fun both => usable both.1]

theorem Arranged.get?_addPairs (arranged : adjacency.Arranged) (pairs : List (String × String)) (key : String) :
    ((adjacency.addPairs pairs).get? key).getD [] =
      (namesUnder pairs key).foldl addName ((adjacency.get? key).getD []) := by
  induction pairs generalizing adjacency with
  | nil => rfl
  | cons pair rest ih =>
      have later := ih (arranged.add pair.1 pair.2)
      rw [arranged.get?_add] at later
      by_cases chosen : Usable pair ∧ pair.1 = key
      · rw [if_pos chosen] at later
        have first : namesUnder (pair :: rest) key = pair.2 :: namesUnder rest key := by
          simp [namesUnder, chosen]
        rw [first]
        exact later
      · rw [if_neg chosen] at later
        have first : namesUnder (pair :: rest) key = namesUnder rest key := by
          simp [namesUnder, chosen]
        rw [first]
        exact later

theorem Arranged.mem_toList_iff (arranged : adjacency.Arranged) (key : String) (names : List String) :
    (key, names) ∈ adjacency.toList ↔ adjacency.get? key = some names := by
  rw [toList, Array.mem_toList_iff, Array.mem_iff_getElem?]
  constructor
  · rintro ⟨slot, held⟩
    rw [get?, (arranged.slot_iff key slot).mpr ⟨names, held⟩]
    simp [held]
  · intro found
    obtain ⟨slot, there, entry⟩ := Option.bind_eq_some_iff.mp found
    obtain ⟨known, held⟩ := (arranged.slot_iff key slot).mp there
    rw [held] at entry
    cases entry
    exact ⟨slot, held⟩

theorem Arranged.filled_of_get? (arranged : adjacency.Arranged) {key : String} {names : List String}
    (found : adjacency.get? key = some names) :
    key ≠ "" ∧ names ≠ [] ∧ names.Nodup ∧ ∀ name ∈ names, name ≠ "" := by
  have listed := (arranged.mem_toList_iff key names).mpr found
  rw [toList, Array.mem_toList_iff, Array.mem_iff_getElem?] at listed
  obtain ⟨slot, held⟩ := listed
  exact arranged.filled slot key names held

theorem mem_pairs {pair : String × String} :
    pair ∈ adjacency.pairs ↔ ∃ names, (pair.1, names) ∈ adjacency.toList ∧ pair.2 ∈ names := by
  obtain ⟨key, name⟩ := pair
  simp only [pairs, List.mem_flatMap, List.mem_map, Prod.mk.injEq, Prod.exists]
  constructor
  · rintro ⟨key, names, listed, name, member, rfl, rfl⟩
    exact ⟨names, listed, member⟩
  · rintro ⟨names, listed, member⟩
    exact ⟨key, names, listed, name, member, rfl, rfl⟩

theorem Arranged.mem_pairs_iff (arranged : adjacency.Arranged) (key name : String) :
    (key, name) ∈ adjacency.pairs ↔ name ∈ (adjacency.get? key).getD [] := by
  rw [mem_pairs]
  simp only [arranged.mem_toList_iff]
  cases adjacency.get? key <;> simp

theorem Arranged.keys_nodup (arranged : adjacency.Arranged) :
    (adjacency.toList.map Prod.fst).Nodup := by
  have entry : ∀ (slot : Nat) (key : String), (adjacency.toList.map Prod.fst)[slot]? = some key →
      adjacency.slots[key]? = some slot := by
    intro slot key found
    rw [List.getElem?_map, toList, Array.getElem?_toList] at found
    obtain ⟨⟨key, names⟩, held, rfl⟩ := Option.map_eq_some_iff.mp found
    exact (arranged.slot_iff key slot).mpr ⟨names, held⟩
  rw [List.nodup_iff_getElem?_ne_getElem?]
  intro first second less inside same
  have here := entry second _ (List.getElem?_eq_getElem inside)
  have there := entry first _ (same.trans (List.getElem?_eq_getElem inside))
  rw [here, Option.some_inj] at there
  omega

theorem Arranged.names_nodup (arranged : adjacency.Arranged) {key : String} {names : List String}
    (listed : (key, names) ∈ adjacency.toList) : names.Nodup :=
  (arranged.filled_of_get? ((arranged.mem_toList_iff key names).mp listed)).2.2.1

theorem Arranged.pairs_nodup (arranged : adjacency.Arranged) : adjacency.pairs.Nodup := by
  rw [pairs, List.nodup_flatMap]
  constructor
  · rintro ⟨key, names⟩ listed
    exact (arranged.names_nodup listed).map fun _ _ same => (Prod.mk.inj same).2
  · apply (List.pairwise_map.mp arranged.keys_nodup).imp
    intro left right apart pair inLeft inRight
    obtain ⟨_, -, rfl⟩ := List.mem_map.mp inLeft
    obtain ⟨_, -, same⟩ := List.mem_map.mp inRight
    exact apart (congrArg Prod.fst same).symm

theorem length_pairs (adjacency : Adjacency) :
    adjacency.pairs.length = (adjacency.toList.flatMap Prod.snd).length := by
  simp [pairs, List.length_flatMap]

theorem Arranged.usable_of_mem_pairs (arranged : adjacency.Arranged) {pair : String × String}
    (member : pair ∈ adjacency.pairs) : Usable pair := by
  have under := (arranged.mem_pairs_iff pair.1 pair.2).mp member
  cases found : adjacency.get? pair.1 with
  | none => simp [found] at under
  | some names =>
      obtain ⟨named, -, -, whole⟩ := arranged.filled_of_get? found
      exact ⟨named, whole pair.2 (by simpa [found] using under)⟩

theorem mem_namesUnder_iff (pairs : List (String × String)) (key name : String) :
    name ∈ namesUnder pairs key ↔ (key, name) ∈ pairs ∧ Usable (key, name) := by
  simp only [namesUnder, List.mem_map, List.mem_filter, decide_eq_true_eq]
  constructor
  · rintro ⟨⟨key, name⟩, ⟨member, usable, rfl⟩, rfl⟩
    exact ⟨member, usable⟩
  · rintro ⟨member, usable⟩
    exact ⟨(key, name), ⟨member, usable, rfl⟩, rfl⟩

theorem mem_foldl_addName {names known : List String} {name : String} :
    name ∈ names.foldl addName known ↔ name ∈ known ∨ name ∈ names := by
  rw [foldl_addName, List.mem_append, List.mem_eraseDups, List.mem_filter]
  by_cases old : name ∈ known <;> simp [old]

theorem Arranged.mem_pairs_addPairs (arranged : adjacency.Arranged) (pairs : List (String × String))
    (pair : String × String) :
    pair ∈ (adjacency.addPairs pairs).pairs ↔ pair ∈ adjacency.pairs ∨ pair ∈ pairs ∧ Usable pair := by
  obtain ⟨key, name⟩ := pair
  rw [(arranged.addPairs pairs).mem_pairs_iff, arranged.get?_addPairs, mem_foldl_addName,
    mem_namesUnder_iff, arranged.mem_pairs_iff]

/-- A name that is under its key already changes nothing. -/
theorem Arranged.add_of_mem (arranged : adjacency.Arranged) {pair : String × String}
    (known : pair ∈ adjacency.pairs) : adjacency.add pair.1 pair.2 = adjacency := by
  obtain ⟨names, listed, member⟩ := mem_pairs.mp known
  rw [toList, Array.mem_toList_iff, Array.mem_iff_getElem?] at listed
  obtain ⟨slot, held⟩ := listed
  have there := (arranged.slot_iff pair.1 slot).mpr ⟨names, held⟩
  have same : addName names pair.2 = names := if_pos (List.contains_iff_mem.mpr member)
  have kept : (adjacency.entries.modify slot fun entry => (entry.1, addName entry.2 pair.2)) =
      adjacency.entries := by
    apply Array.ext_getElem?
    intro other
    rw [Array.getElem?_modify]
    split
    · next here => rw [← here, held, Option.map_some, same]
    · rfl
  rw [add_of_usable (arranged.usable_of_mem_pairs known), there]
  simp only [kept]

/-- Pairs that are all there already change nothing. -/
theorem Arranged.addPairs_of_subset (arranged : adjacency.Arranged) {pairs : List (String × String)}
    (known : pairs ⊆ adjacency.pairs) : adjacency.addPairs pairs = adjacency := by
  induction pairs with
  | nil => rfl
  | cons pair rest ih =>
      obtain ⟨first, later⟩ := List.cons_subset.mp known
      rw [Adjacency.addPairs, List.foldl_cons, arranged.add_of_mem first]
      exact ih later

theorem addPairs_append (adjacency : Adjacency) (pairs later : List (String × String)) :
    adjacency.addPairs (pairs ++ later) = (adjacency.addPairs pairs).addPairs later :=
  List.foldl_append
end Adjacency

/-- The callers of a name in a graph, in order. -/
def CallGraph.callersIn (graph : CallGraph) (name : String) : List String :=
  Adjacency.namesUnder (graph.edges.map fun edge => (edge.2, edge.1)) name

theorem CallGraph.mem_edges_of_mem_callersIn {graph : CallGraph} {caller name : String}
    (member : caller ∈ graph.callersIn name) : (caller, name) ∈ graph.edges := by
  obtain ⟨pair, chosen, rfl⟩ := List.mem_map.mp member
  obtain ⟨inPairs, same⟩ := List.mem_filter.mp chosen
  obtain ⟨edge, inEdges, rfl⟩ := List.mem_map.mp inPairs
  simp only [decide_eq_true_eq] at same
  rw [← same.2]
  exact inEdges

theorem UsedBy.callersOf_ofGraphs (graphs : List CallGraph) (name : String) :
    (UsedBy.ofGraphs graphs).callersOf name =
      Adjacency.firstSeen (graphs.flatMap fun graph => graph.callersIn name) := by
  have grown : ∀ (usedBy : UsedBy), usedBy.adjacency.Arranged →
      ((graphs.foldl addGraph usedBy).adjacency.get? name).getD [] =
        (graphs.flatMap fun graph => graph.callersIn name).foldl Adjacency.addName
          ((usedBy.adjacency.get? name).getD []) := by
    induction graphs with
    | nil => exact fun usedBy arranged => rfl
    | cons graph rest ih =>
        intro usedBy arranged
        rw [List.foldl_cons, ih (usedBy.addGraph graph) (arranged.addPairs _), List.flatMap_cons,
          List.foldl_append, UsedBy.addGraph, arranged.get?_addPairs]
        rfl
  exact grown {} Adjacency.arranged_empty

end SourceAtlas
