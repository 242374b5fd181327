import SourceAtlas.Proofs.Merging
/-!
What any sequence of insertions leaves in an adjacency. However the pairs come in, one after the other, from a
list, by merging or read backwards, they leave what they would leave when put into an empty adjacency in their
order: each key and under it each name where it was first put, and a slot for every entry.
-/

namespace SourceAtlas.Adjacency

/-- Adjacencies as they come about, with the pairs that were put into them so far, those included that are
empty on a side or were there before. -/
inductive Inserted : Adjacency → List (String × String) → Prop
  | empty : Inserted {} []
  | addCalls {graph : CallGraph} {put : List (String × String)} (inserted : Inserted graph.adjacency put)
      (caller : String) (callees : List String) :
      Inserted (graph.addCalls caller callees).adjacency
        (put ++ callees.map fun callee => (caller, callee))
  | ofList (calls : List (String × List String)) :
      Inserted (CallGraph.ofList calls).adjacency
        (calls.flatMap fun (caller, callees) => callees.map fun callee => (caller, callee))
  | merge {graph : CallGraph} {put : List (String × String)} (inserted : Inserted graph.adjacency put)
      (other : CallGraph) : Inserted (graph.merge other).adjacency (put ++ other.edges)
  | addGraph {usedBy : UsedBy} {put : List (String × String)} (inserted : Inserted usedBy.adjacency put)
      (graph : CallGraph) : Inserted (usedBy.addGraph graph).adjacency (put ++ graph.edges.map Prod.swap)

variable {adjacency : Adjacency} {put : List (String × String)}

/-- All ways to put pairs in come to putting them in one after the other. -/
theorem Inserted.eq_addPairs (inserted : adjacency.Inserted put) :
    adjacency = ({} : Adjacency).addPairs put := by
  induction inserted with
  | empty => rfl
  | addCalls inserted caller callees ih =>
      rw [addPairs_append, ← ih]
      rfl
  | ofList calls => rw [CallGraph.ofList, CallGraph.foldl_addCalls]
  | merge inserted other ih => rw [CallGraph.merge_adjacency, addPairs_append, ← ih]
  | addGraph inserted graph ih =>
      rw [addPairs_append, ← ih]
      rfl

theorem Inserted.arranged (inserted : adjacency.Inserted put) : adjacency.Arranged :=
  inserted.eq_addPairs ▸ arranged_empty.addPairs put

theorem Inserted.keys_eq (inserted : adjacency.Inserted put) :
    adjacency.keys = ((put.filter fun pair => Usable pair).map Prod.fst).eraseDups := by
  rw [inserted.eq_addPairs, arranged_empty.keys_addPairs]
  exact firstSeen_eq _

theorem Inserted.namesOf_eq (inserted : adjacency.Inserted put) (key : String) :
    adjacency.namesOf key = (namesUnder put key).eraseDups := by
  rw [inserted.eq_addPairs, arranged_empty.namesOf_addPairs]
  exact firstSeen_eq _

theorem Inserted.get?_eq (inserted : adjacency.Inserted put) (key : String) :
    adjacency.get? key =
      if namesUnder put key = [] then none else some (namesUnder put key).eraseDups := by
  have names := inserted.namesOf_eq key
  cases found : adjacency.get? key with
  | none =>
      rw [namesOf, found, Option.getD_none] at names
      have nothing : namesUnder put key = [] := by
        rw [List.eq_nil_iff_forall_not_mem]
        intro name member
        rw [← List.mem_eraseDups, ← names] at member
        cases member
      rw [if_pos nothing]
  | some known =>
      rw [namesOf, found, Option.getD_some] at names
      have filled := (inserted.arranged.filled_of_get? found).2.1
      have something : namesUnder put key ≠ [] := by
        intro nothing
        rw [nothing] at names
        exact filled names
      rw [if_neg something, names]

/-- Whatever was put into an adjacency and in whichever way, its slots are those of its entries, an entry to each
key, and its entries are the keys that something was put under with what was put there, in the order of their
first insertion; nothing in it is empty or there twice. So a slot is never out of bounds, and looking up a key
answers what was put under it. -/
theorem inserted_represents (inserted : adjacency.Inserted put) :
    (∀ (key : String) (slot : Nat), adjacency.slots[key]? = some slot ↔
      ∃ names, adjacency.entries[slot]? = some (key, names)) ∧
    (adjacency.toList.map Prod.fst).Nodup ∧
    (∀ key names, (key, names) ∈ adjacency.toList →
      key ≠ "" ∧ names ≠ [] ∧ names.Nodup ∧ "" ∉ names) ∧
    adjacency.toList = (((put.filter fun pair => Usable pair).map Prod.fst).eraseDups).map
      (fun key => (key, (namesUnder put key).eraseDups)) ∧
    ∀ key : String, (∀ slot, adjacency.slots[key]? = some slot → slot < adjacency.entries.size) ∧
      adjacency.get? key =
        if namesUnder put key = [] then none else some (namesUnder put key).eraseDups := by
  have arranged := inserted.arranged
  refine ⟨arranged.slot_iff, arranged.keys_nodup, fun key names listed => ?_, ?_, fun key => ⟨?_, ?_⟩⟩
  · obtain ⟨named, filled, distinct, whole⟩ :=
      arranged.filled_of_get? ((arranged.mem_toList_iff key names).mp listed)
    exact ⟨named, filled, distinct, fun member => whole "" member rfl⟩
  · rw [arranged.toList_eq, inserted.keys_eq]
    simp only [inserted.namesOf_eq]
  · intro slot there
    obtain ⟨names, held⟩ := (arranged.slot_iff key slot).mp there
    exact (Array.getElem?_eq_some_iff.mp held).1
  · exact inserted.get?_eq key

def untidyCalls : List (String × List String) :=
  [("main", ["load", "", "load"]), ("", ["lost"]), ("idle", [])]

/-- A graph of these calls, with more calls of one of the callers, and with another graph merged into it. -/
def mergedCalls : CallGraph :=
  ((CallGraph.ofList untidyCalls).addCalls "main" ["save", "load"]).merge
    (.ofList [("save", ["load"]), ("main", ["print"])])

theorem inserted_represents_mergedCalls : ∃ put, mergedCalls.adjacency.Inserted put ∧
    mergedCalls.adjacency.toList = [("main", ["load", "save", "print"]), ("save", ["load"])] ∧
    mergedCalls.adjacency.get? "main" = some ["load", "save", "print"] ∧
    mergedCalls.adjacency.get? "idle" = none := by
  have inserted := ((Inserted.ofList untidyCalls).addCalls "main" ["save", "load"]).merge
    (.ofList [("save", ["load"]), ("main", ["print"])])
  obtain ⟨-, -, -, listed, found⟩ := inserted_represents inserted
  exact ⟨_, inserted, listed.trans (by decide +kernel), (found "main").2.trans (by decide +kernel),
    (found "idle").2.trans (by decide +kernel)⟩

end SourceAtlas.Adjacency
