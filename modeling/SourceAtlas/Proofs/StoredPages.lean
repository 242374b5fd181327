import SourceAtlas.Proofs.StepEffects
/-!
Pages stored one after the other. A docs directory that was empty holds the pages that were stored and
the directories that they need. Another page can be stored beside them when it stands apart from each of
them and all of its names are those of files, and these are the only pages that can be.
-/

namespace SourceAtlas

namespace FileTree

/-- Names that are short enough can be directories where no file stands. -/
theorem obstacle?_eq_none {tree : FileTree} {place : Place} {names : List String}
    (short : ∀ name ∈ names, name.utf8ByteSize ≤ nameLimit)
    (free : ∀ front, front <+: names → ∀ content, tree.find? (place ++ front) ≠ some (.file content)) :
    tree.obstacle? place names = none := by
  induction names generalizing place with
  | nil => rfl
  | cons name rest ih =>
      have onward : tree.obstacle? (place ++ [name]) rest = none := by
        apply ih fun other member => short other (List.mem_cons_of_mem _ member)
        intro front prefixed content
        have lower := free (name :: front) (List.cons_prefix_cons.mpr ⟨rfl, prefixed⟩) content
        simpa using lower
      have here := free [name] (List.cons_prefix_cons.mpr ⟨rfl, List.nil_prefix⟩)
      rw [obstacle?, if_neg (Nat.not_lt.mpr (short name List.mem_cons_self)), onward]
      split
      · next content found => exact absurd found (here content)
      · rfl

end FileTree

namespace Docs

open FileTree

/-- Stores pages with their texts in order, as long as none fails. -/
def storeAll (docs : Docs) : List (String × String) → Work Unit
  | [] => pure ()
  | (page, body) :: rest => do
      docs.store page body
      docs.storeAll rest

/-- The docs directory is there, and nothing is in it. -/
def IsEmpty (docs : Docs) (tree : FileTree) : Prop :=
  tree.isDir docs.root = true ∧ ∀ names, names ≠ [] → tree.find? (docs.root.place ++ names) = none

/-- The docs directory holds pages and directories on the way to them, and nothing else. -/
structure HoldsOnly (docs : Docs) (tree : FileTree) (pages : List String) : Prop where
  sound : tree.Sound
  there : tree.isDir docs.root = true
  files : ∀ names content, tree.find? (docs.root.place ++ names) = some (.file content) →
    ∃ page ∈ pages, names = Path.names ⟨page⟩
  dirs : ∀ names, names ≠ [] → tree.find? (docs.root.place ++ names) = some .dir →
    ∃ page ∈ pages, names <+: Path.names ⟨page⟩

variable {docs : Docs} {tree : FileTree} {pages : List String} {page : String}

theorem root_is_dir (sound : tree.Sound) (there : tree.isDir docs.root = true) :
    tree.find? docs.root.place = some .dir :=
  sound.stat_dir ((isDir_iff ..).mp there)

theorem IsEmpty.holds (empty : docs.IsEmpty tree) (sound : tree.Sound) : docs.HoldsOnly tree [] where
  sound := sound
  there := empty.1
  files := by
    intro names content held
    by_cases top : names = []
    · rw [top, List.append_nil, root_is_dir sound empty.1] at held
      cases held
    · rw [empty.2 names top] at held
      cases held
  dirs := by
    intro names below held
    rw [empty.2 names below] at held
    cases held

section Step

variable (plain : IsPlain page) (named : ∀ name ∈ Path.names ⟨page⟩, IsFileName name)

include plain named

theorem hasZero_fileOf (there : tree.isDir docs.root = true) : (docs.fileOf page).hasZero = false := by
  obtain ⟨zero, -, -⟩ := (stat_eq_dir_iff_passable ..).mp ((isDir_iff ..).mp there)
  have free := hasZero_names named
  rw [plain.intercalate] at free
  rw [fileOf, Path.hasZero_join plain.isAbsolute, zero, free]
  rfl

/-- A page is stored where no file stands on the way to it and no directory in its place. -/
theorem storing_eq_ok (sound : tree.Sound) (there : tree.isDir docs.root = true)
    (way : ∀ front, front <+: (Path.names ⟨page⟩).dropLast → ∀ content,
      tree.find? (docs.root.place ++ front) ≠ some (.file content))
    (free : tree.find? (docs.placeOf page) ≠ some .dir) : docs.storing tree page = .ok () := by
  rcases List.eq_nil_or_concat (Path.names ⟨page⟩) with empty | ⟨front, last, split⟩
  · exact absurd empty plain.names_ne_nil
  rw [List.concat_eq_append] at split
  have zero := hasZero_fileOf plain named there
  have ends : (docs.fileOf page).parts.getLast? = some (.name last) := by
    rw [parts_fileOf plain, split]
    simp
  have open_ : docs.shut page = false := hasZero_parentOf ends zero
  have clear : tree.obstacle? docs.root.place front = none := by
    apply obstacle?_eq_none
    · exact fun name member => (named name (by simp [split, member])).2.2
    · simpa [split] using way
  have above : (docs.placeOf page).dropLast = docs.root.place ++ front := by
    rw [placeOf, split, ← List.append_assoc, List.dropLast_concat]
  have passed : tree.obstacle? [] (docs.placeOf page).dropLast = none := by
    rw [above, sound.obstacle?_append [] docs.root.place (root_is_dir sound there)]
    exact clear
  have short : ¬ nameLimit < ((docs.placeOf page).getLastD "").utf8ByteSize := by
    have final : (docs.placeOf page).getLastD "" = last := by simp [placeOf, split]
    rw [final]
    exact Nat.not_lt.mpr (named last (by simp [split])).2.2
  rw [storing, if_neg (by simp [open_]), passed]
  simp only
  rw [if_neg (by simp [zero]), if_neg short, if_neg free]

/-- A page that stands apart from those that are there is stored beside them. -/
theorem HoldsOnly.store (holds : docs.HoldsOnly tree pages)
    (apart : ∀ other ∈ pages, Page.Apart page other) (body : String) :
    ((docs.store page body).run.run tree).1 = .ok () ∧
      docs.HoldsOnly ((docs.store page body).run.run tree).2 (page :: pages) := by
  have free : tree.find? (docs.placeOf page) ≠ some .dir := by
    intro taken
    obtain ⟨other, member, above⟩ := holds.dirs _ plain.names_ne_nil taken
    exact (apart other member).1 above
  have way : ∀ front, front <+: (Path.names ⟨page⟩).dropLast → ∀ content,
      tree.find? (docs.root.place ++ front) ≠ some (.file content) := by
    intro front prefixed content taken
    obtain ⟨other, member, rfl⟩ := holds.files front content taken
    exact (apart other member).2 (prefixed.trans (List.dropLast_prefix _))
  have firm := firm_of_isDir holds.there
  obtain ⟨answer, leads⟩ := run_store holds.sound firm plain body
  rw [storing_eq_ok plain named holds.sound holds.there way free] at answer
  have stored : ((docs.store page body).run.run tree).1 = .ok () := answer
  rcases docs.store_cases (Prod.eta _).symm with ⟨fault, failed, -⟩ | ⟨-, changes, -⟩
  · rw [stored] at failed
    cases failed
  refine ⟨stored, changes.sound holds.sound, changes.isDir holds.there, ?_, ?_⟩
  · intro names content held
    by_cases own : names = Path.names ⟨page⟩
    · exact ⟨page, List.mem_cons_self, own⟩
    · have before := changes.file_before (fun same => own (List.append_cancel_left same)) held
      obtain ⟨other, member, same⟩ := holds.files names content before
      exact ⟨other, List.mem_cons_of_mem _ member, same⟩
  · intro names below held
    by_cases own : names = Path.names ⟨page⟩
    · exact ⟨page, List.mem_cons_self, own ▸ List.prefix_refl _⟩
    · rw [leads, Edit.result_of_ne fun same => own (List.append_cancel_left same)] at held
      split at held
      -- a directory that was made now is on the way to this page
      · next made =>
          have opens : tree.Opens (docs.placeOf page).dropLast (docs.root.place ++ names) := by
            have both := made.2
            simp only [storeEdit, Bool.and_eq_true, decide_eq_true_eq] at both
            exact both.2
          have prefixed := opens.1.trans (List.dropLast_prefix _)
          exact ⟨page, List.mem_cons_self, (List.prefix_append_right_inj _).mp prefixed⟩
      · obtain ⟨other, member, above⟩ := holds.dirs names below held
        exact ⟨other, List.mem_cons_of_mem _ member, above⟩

end Step

section Run

variable {order : List (String × String)}

theorem storeAll_changes (docs : Docs) (order : List (String × String)) (tree : FileTree) :
    Changes (fun place => ∃ part ∈ order, place = docs.placeOf part.1) tree
      ((docs.storeAll order).run.run tree).2 := by
  induction order generalizing tree with
  | nil => exact .refl _ _
  | cons part rest ih =>
      obtain ⟨page, body⟩ := part
      rw [storeAll, run_bind]
      cases ran : (docs.store page body).run.run tree with
      | mk result after =>
          rcases docs.store_cases ran with ⟨fault, rfl, changes⟩ | ⟨rfl, changes, -⟩
          · exact changes.mono fun _ none => none.elim
          · apply (changes.mono fun _ same => ⟨_, List.mem_cons_self, same⟩).trans
            exact (ih after).mono fun _ ⟨part, member, same⟩ =>
              ⟨part, List.mem_cons_of_mem _ member, same⟩

/-- Pages that stand apart are stored in any order. -/
theorem HoldsOnly.storeAll (holds : docs.HoldsOnly tree pages) (plain : ∀ part ∈ order, IsPlain part.1)
    (named : ∀ part ∈ order, ∀ name ∈ Path.names ⟨part.1⟩, IsFileName name)
    (apart : (order.map Prod.fst).Pairwise Page.Apart)
    (beside : ∀ part ∈ order, ∀ page ∈ pages, Page.Apart part.1 page) :
    ((docs.storeAll order).run.run tree).1 = .ok () := by
  induction order generalizing tree pages with
  | nil => rfl
  | cons part rest ih =>
      obtain ⟨page, body⟩ := part
      obtain ⟨here, plain⟩ := List.forall_mem_cons.mp plain
      obtain ⟨ordinary, named⟩ := List.forall_mem_cons.mp named
      obtain ⟨away, beside⟩ := List.forall_mem_cons.mp beside
      rw [List.map_cons, List.pairwise_cons] at apart
      obtain ⟨stored, after⟩ := holds.store here ordinary away body
      rw [storeAll, run_bind]
      cases ran : (docs.store page body).run.run tree with
      | mk result middle =>
          rw [ran] at stored after
          cases stored
          apply ih after plain named apart.2
          intro part member
          refine List.forall_mem_cons.mpr ⟨?_, beside part member⟩
          exact (apart.1 part.1 (List.mem_map_of_mem member)).symm

theorem load_of_storeAll (plain : ∀ part ∈ order, IsPlain part.1)
    (distinct : (order.map Prod.fst).Nodup)
    (stored : ((docs.storeAll order).run.run tree).1 = .ok ()) :
    ∀ part ∈ order, docs.load ((docs.storeAll order).run.run tree).2 part.1 = .ok part.2 := by
  induction order generalizing tree with
  | nil => exact List.forall_mem_nil _
  | cons part rest ih =>
      obtain ⟨page, body⟩ := part
      obtain ⟨here, plain⟩ := List.forall_mem_cons.mp plain
      rw [List.map_cons, List.nodup_cons] at distinct
      rw [storeAll, run_bind] at stored ⊢
      cases ran : (docs.store page body).run.run tree with
      | mk result middle =>
          rw [ran] at stored
          rcases docs.store_cases ran with ⟨fault, rfl, -⟩ | ⟨rfl, -, loaded⟩
          · cases stored
          refine List.forall_mem_cons.mpr ⟨?_, ih plain distinct.2 stored⟩
          apply docs.load_of_changes (docs.storeAll_changes rest middle) _ loaded
          rintro ⟨other, member, same⟩
          have equal := docs.placeOf_inj here (plain other member) same
          exact distinct.1 (equal ▸ List.mem_map_of_mem member)

/-- What stands above an entry is a directory, so no page stands below one that is a file. -/
theorem not_prefix_of_files {other : String} {content more : ByteArray} (sound : tree.Sound)
    (plain : IsPlain page) (also : IsPlain other) (different : page ≠ other)
    (held : tree.find? (docs.placeOf page) = some (.file content))
    (lower : tree.find? (docs.placeOf other) = some (.file more)) :
    ¬ Path.names ⟨page⟩ <+: Path.names ⟨other⟩ := by
  rintro ⟨rest, split⟩
  by_cases last : rest = []
  · rw [last, List.append_nil] at split
    exact different (plain.eq_of_names also split)
  · rw [placeOf, ← split, ← List.append_assoc] at lower
    have dir := sound.above last lower
    rw [← placeOf, held] at dir
    cases dir

/-- In an empty docs directory pages are stored exactly when they stand apart and all of their names are
those of files, whatever the order is. -/
theorem storeAll_eq_ok_iff (sound : tree.Sound) (empty : docs.IsEmpty tree)
    (plain : ∀ part ∈ order, IsPlain part.1) (distinct : (order.map Prod.fst).Nodup) :
    ((docs.storeAll order).run.run tree).1 = .ok () ↔
      (order.map Prod.fst).Pairwise Page.Apart ∧
        ∀ part ∈ order, ∀ name ∈ Path.names ⟨part.1⟩, IsFileName name := by
  constructor
  · intro stored
    have whole := (docs.storeAll_changes order tree).sound sound
    have files : ∀ part ∈ order, ((docs.storeAll order).run.run tree).2.find?
        (docs.placeOf part.1) = some (.file part.2.toUTF8) := fun part member =>
      docs.file_of_load (load_of_storeAll plain distinct stored part member)
    refine ⟨distinct.imp_of_mem fun first second different => ?_, fun part member name inPage =>
      whole.isFileName (files part member) name (List.mem_append_right _ inPage)⟩
    obtain ⟨part, member, rfl⟩ := List.mem_map.mp first
    obtain ⟨other, also, rfl⟩ := List.mem_map.mp second
    have held := files part member
    have lower := files other also
    exact ⟨not_prefix_of_files whole (plain part member) (plain other also) different held lower,
      not_prefix_of_files whole (plain other also) (plain part member) different.symm lower held⟩
  · rintro ⟨apart, named⟩
    exact (empty.holds sound).storeAll plain named apart fun _ _ => List.forall_mem_nil _

end Run

end Docs

end SourceAtlas
