import Mathlib.Data.List.Perm.Basic
import SourceAtlas.CrossReferences
import SourceAtlas.Proofs.Table
/-!
Registering pages. The pages of an entity are kept in order and each but once, so it does not matter in
which order they are registered.
-/

namespace SourceAtlas.CrossReferences

theorem insertPage_comm (page other : String) (pages : List String) :
    insertPage page (insertPage other pages) = insertPage other (insertPage page pages) := by
  induction pages with
  | nil => grind [insertPage]
  | cons first rest ih => grind [insertPage]

/-- Adds a page to one entity. -/
def addPage (references : CrossReferences) (entry : String × String) : CrossReferences :=
  references.insert entry.1 (insertPage entry.2 (references.getD entry.1 []))

theorem addPage_comm (references : CrossReferences) (entry other : String × String) :
    addPage (addPage references entry) other = addPage (addPage references other) entry := by
  obtain ⟨entity, page⟩ := entry
  obtain ⟨also, second⟩ := other
  by_cases same : entity = also
  · subst same
    apply Std.ExtTreeMap.ext_getElem?
    intro name
    simp only [addPage, Std.ExtTreeMap.getElem?_insert, Std.ExtTreeMap.getD_insert_self, insertPage_comm]
    split <;> rfl
  · have apart : compare entity also ≠ .eq := fun equal => same (Std.LawfulEqCmp.eq_of_compare equal)
    have apart' : compare also entity ≠ .eq := fun equal =>
      same (Std.LawfulEqCmp.eq_of_compare equal).symm
    simp only [addPage, Std.ExtTreeMap.getD_insert, apart, apart', if_false]
    exact Table.insert_comm _ same _ _

instance : RightCommutative addPage := ⟨addPage_comm⟩

theorem register_eq_foldl (references : CrossReferences) (page : String) (entities : List String) :
    references.register page entities =
      (entities.map fun entity => (entity, page)).foldl addPage references := by
  rw [List.foldl_map]
  rfl

theorem register_comm (references : CrossReferences) (page other : String)
    (entities others : List String) :
    (references.register page entities).register other others =
      (references.register other others).register page entities := by
  simp only [register_eq_foldl, ← List.foldl_append]
  exact List.perm_append_comm.foldl_eq references

end SourceAtlas.CrossReferences
