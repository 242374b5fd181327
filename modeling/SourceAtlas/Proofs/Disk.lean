import SourceAtlas.Docs
import SourceAtlas.Proofs.FileTree
/-!
Runs of operations on a disk. Making directories touches no place; replacing a file touches the place
of its path alone, also when it fails halfway.
-/

namespace SourceAtlas

section Effects

variable {ε σ α β : Type}

theorem run_bind (first : ExceptT ε (StateM σ) α) (next : α → ExceptT ε (StateM σ) β) (state : σ) :
    (first >>= next).run.run state = match first.run.run state with
      | (.ok answer, after) => (next answer).run.run after
      | (.error fault, after) => (.error fault, after) := by
  cases ran : first.run.run state with
  | mk result after =>
      cases result <;> simp only [ExceptT.run_bind, StateT.run_bind, ran] <;> rfl

theorem run_get (state : σ) :
    (get : ExceptT ε (StateM σ) σ).run.run state = (.ok state, state) := rfl

theorem run_set (made state : σ) :
    (set made : ExceptT ε (StateM σ) PUnit).run.run state = (.ok (), made) := rfl

theorem run_adapt {δ : Type} (name : ε → δ) (operation : ExceptT ε (StateM σ) α) (state : σ) :
    (operation.adapt name).run.run state =
      ((operation.run.run state).1.mapError name, (operation.run.run state).2) := by
  rfl

end Effects

namespace FileTree

theorem makeDir_changes {tree after : FileTree} {path : Path} (done : tree.makeDir path = .ok after) :
    Changes (fun _ => False) tree after ∧ after.isDir path = true := by
  unfold makeDir at done
  cases ended : tree.target path with
  | error fault => rw [ended] at done; cases done
  | ok target =>
      rcases target with ⟨dir, _ | name, slash⟩
      · rw [ended] at done
        cases done
      · cases looked : tree.lookup dir name with
        | error fault => simp [ended, looked, bind, Except.bind] at done
        | ok entry =>
            obtain ⟨short, absent⟩ := (lookup_eq_ok_iff tree dir name entry).mp looked
            simp only [ended, looked, bind, Except.bind] at done
            cases entry with
            | some entry => cases done
            | none =>
                cases done
                have below : dir ++ [name] ≠ [] := by simp
                have dirs : ∀ place, tree.find? place = some .dir →
                    (tree.insert (dir ++ [name]) .dir).find? place = some .dir := by
                  intro place found
                  rw [find?_insert tree _ _ below]
                  split
                  · rfl
                  · exact found
                refine ⟨⟨fun place _ => ?_, dirs, fun sound => ?_⟩, ?_⟩
                · rw [find?_insert tree _ _ below]
                  split
                  · next same => exact Or.inr ⟨by rw [same, ← absent], rfl⟩
                  · exact Or.inl rfl
                · obtain ⟨held, ordinary⟩ := sound.named_target ended
                  exact sound.insert _ _ _ held (ordinary short) fun _ => rfl
                · rw [isDir_iff, stat_eq_dir_iff]
                  refine ⟨_, target_mono dirs ended, fun other named => ?_⟩
                  cases named
                  exact ⟨short, by rw [place_of_named ended, find?_insert tree _ _ below, if_pos rfl]⟩

theorem makeDir_of_isDir {tree : FileTree} {path : Path} (there : tree.isDir path = true) :
    tree.makeDir path = .error .alreadyExists := by
  rw [isDir_iff, stat_eq_dir_iff] at there
  obtain ⟨⟨dir, _ | name, slash⟩, ended, held⟩ := there
  · simp [makeDir, ended, bind, Except.bind]
  · obtain ⟨short, found⟩ := held name rfl
    rw [place_of_named ended] at found
    have looked := (lookup_eq_ok_iff tree dir name _).mpr ⟨short, rfl⟩
    simp [makeDir, ended, bind, Except.bind, looked, found]

theorem Changes.isDir {touched : Place → Prop} {before after : FileTree}
    (changes : Changes touched before after) {path : Path} (there : before.isDir path = true) :
    after.isDir path = true := by
  rw [isDir_iff] at there ⊢
  exact stat_dir_mono changes.dirs there

theorem Changes.of_replace {tree after : FileTree} {path : Path} {content : ByteArray}
    (done : tree.replace path content = .ok after) : Changes (· = path.place) tree after := by
  obtain ⟨reached, free, rfl⟩ := (replace_eq_ok_iff tree after path content).mp done
  have below := reached.place_ne_nil
  refine ⟨fun place other => Or.inl ?_, fun place found => ?_, fun sound => ?_⟩
  · rw [find?_insert tree _ _ below, if_neg other]
  · rw [find?_insert tree _ _ below, if_neg (fun same : place = path.place => free (same ▸ found)), found]
  · obtain ⟨dir, name, ended, short⟩ := reached
    obtain ⟨held, ordinary⟩ := sound.named_target ended
    rw [place_of_named ended] at free ⊢
    exact sound.insert _ _ _ held (ordinary short) fun taken => absurd taken free

theorem Changes.of_unlink {tree after : FileTree} {path : Path}
    (done : tree.unlink path = .ok after) : Changes (· = path.place) tree after := by
  obtain ⟨reached, ⟨content, held⟩, rfl⟩ := (unlink_eq_ok_iff tree after path).mp done
  have below := reached.place_ne_nil
  refine ⟨fun place other => Or.inl ?_, fun place found => ?_, fun sound => sound.erase held⟩
  · rw [find?_erase tree _ below, if_neg other]
  · rw [find?_erase tree _ below, if_neg, found]
    rintro rfl
    rw [held] at found
    cases found

end FileTree

namespace Disk

open FileTree

theorem run_change (step : FileTree → Except IoFault FileTree) (tree : FileTree) :
    (change step).run.run tree = match step tree with
      | .ok made => (.ok (), made)
      | .error fault => (.error fault, tree) := by
  rw [change, run_bind, run_get]
  cases made : step tree <;> simp [made] <;> rfl

theorem run_ensureDir (path : Path) (tree : FileTree) :
    (ensureDir path).run.run tree = match tree.makeDir path with
      | .ok made => (.ok (), made)
      | .error fault => if tree.isDir path then (.ok (), tree) else (.error fault, tree) := by
  rw [ensureDir, run_bind, run_get]
  cases made : tree.makeDir path with
  | ok after => simp [made]; rfl
  | error fault =>
      simp only [made, run_bind, run_get]
      split <;> rfl

theorem ensureDir_changes {path : Path} {tree after : FileTree} {result : Except IoFault Unit}
    (ran : (ensureDir path).run.run tree = (result, after)) :
    Changes (fun _ => False) tree after ∧ (result = .ok () → after.isDir path = true) := by
  rw [run_ensureDir] at ran
  cases made : tree.makeDir path with
  | ok other =>
      rw [made] at ran
      cases ran
      obtain ⟨changes, there⟩ := makeDir_changes made
      exact ⟨changes, fun _ => there⟩
  | error fault =>
      simp only [made] at ran
      split at ran
      · next there =>
          cases ran
          exact ⟨.refl _ tree, fun _ => there⟩
      · cases ran
        exact ⟨.refl _ tree, nofun⟩

theorem ensureDirs_changes {path : Path} {above : List Path} {tree after : FileTree}
    {result : Except IoFault Unit} (ran : (ensureDirs path above).run.run tree = (result, after)) :
    Changes (fun _ => False) tree after ∧ (result = .ok () → after.isDir path = true) := by
  induction above generalizing path tree after result with
  | nil =>
      rw [ensureDirs, run_bind, run_get] at ran
      simp only at ran
      split at ran
      · cases ran
        exact ⟨.refl _ tree, nofun⟩
      · exact ensureDir_changes ran
  | cons parent above ih =>
      rw [ensureDirs, run_bind, run_get] at ran
      simp only at ran
      split at ran
      · rw [run_bind] at ran
        cases first : (ensureDirs parent above).run.run tree with
        | mk outcome middle =>
            obtain ⟨changes, -⟩ := ih first
            rw [first] at ran
            cases outcome with
            | error fault =>
                cases ran
                exact ⟨changes, nofun⟩
            | ok made =>
                obtain ⟨later, there⟩ := ensureDir_changes ran
                exact ⟨changes.trans later, there⟩
      · exact ensureDir_changes ran

/-- Directories are made at no cost to what is there, and then the directory is there. -/
theorem createDirAll_changes {path : Path} {tree after : FileTree} {result : Except IoFault Unit}
    (ran : (createDirAll path).run.run tree = (result, after)) :
    Changes (fun _ => False) tree after ∧
      (result = .ok () → path.text ≠ "" → after.isDir path = true) := by
  unfold createDirAll at ran
  split at ran
  · next empty =>
      cases ran
      exact ⟨.refl _ tree, fun _ filled => absurd (by simpa using empty) filled⟩
  · obtain ⟨changes, there⟩ := ensureDirs_changes ran
    exact ⟨changes, fun made _ => there made⟩

theorem run_createDirAll_of_isDir {path : Path} {tree : FileTree} (there : tree.isDir path = true) :
    (createDirAll path).run.run tree = (.ok (), tree) := by
  have made := makeDir_of_isDir there
  have ensured : (ensureDir path).run.run tree = (.ok (), tree) := by
    rw [run_ensureDir, made]
    simp [there]
  unfold createDirAll
  split
  · rfl
  · cases pathsAbove path <;> rw [ensureDirs, run_bind, run_get] <;> simp only [made, ensured]

/-- No directory has a zero character in its path. -/
theorem run_createDirAll_of_zero {path : Path} {tree : FileTree} (filled : path.text ≠ "")
    (zero : path.hasZero = true) :
    (createDirAll path).run.run tree = (.error .zeroInName, tree) := by
  have ended : tree.target path = .error .zeroInName := by rw [FileTree.target, if_pos zero]
  have made : tree.makeDir path = .error .zeroInName := by
    simp [FileTree.makeDir, ended, bind, Except.bind]
  have absent : tree.isDir path = false := by
    simp [FileTree.isDir, FileTree.stat, ended, bind, Except.bind]
  have ensured : (ensureDir path).run.run tree = (.error .zeroInName, tree) := by
    rw [run_ensureDir, made]
    simp [absent]
  rw [createDirAll, if_neg (by simpa using filled)]
  cases pathsAbove path <;> rw [ensureDirs, run_bind, run_get] <;> simp only [made, ensured]

def parentOf (path : Path) : Path :=
  match path.parent? with
  | some parent => if parent.text.isEmpty then ⟨"."⟩ else parent
  | none => ⟨"."⟩

theorem parentOf_text (path : Path) : (parentOf path).text ≠ "" := by
  unfold parentOf
  split
  · split
    · simp
    · next filled => simpa using filled
  · simp

theorem run_writeAtomic (path : Path) (content : ByteArray) (tree : FileTree) :
    (writeAtomic path content).run.run tree = match (createDirAll (parentOf path)).run.run tree with
      | (.error fault, after) => (.error fault, after)
      | (.ok _, middle) => match middle.replace path content with
          | .ok after => (.ok (), after)
          | .error fault => (.error fault, middle) := by
  have unfolded : writeAtomic path content =
      (createDirAll (parentOf path) >>= fun _ => change (·.replace path content)) := rfl
  rw [unfolded, run_bind]
  cases first : (createDirAll (parentOf path)).run.run tree with
  | mk outcome middle =>
      cases outcome with
      | error fault => rfl
      | ok made => exact run_change _ _

/-- A file is written where its path leads, in a directory that was there or has been made for it;
when that fails, no file has changed. -/
theorem writeAtomic_cases {path : Path} {content : ByteArray} {tree after : FileTree}
    {result : Except IoFault Unit} (ran : (writeAtomic path content).run.run tree = (result, after)) :
    (∃ fault, result = .error fault ∧ Changes (fun _ => False) tree after) ∨
      (result = .ok () ∧ Changes (· = path.place) tree after ∧ after.Reaches path ∧
        after.isDir (parentOf path) = true ∧
        after.find? path.place = some (.file content)) := by
  rw [run_writeAtomic] at ran
  cases first : (createDirAll (parentOf path)).run.run tree with
  | mk outcome middle =>
      obtain ⟨made, there⟩ := createDirAll_changes first
      rw [first] at ran
      cases outcome with
      | error fault =>
          cases ran
          exact Or.inl ⟨fault, rfl, made⟩
      | ok there_now =>
          simp only at ran
          cases done : middle.replace path content with
          | error fault =>
              rw [done] at ran
              cases ran
              exact Or.inl ⟨fault, rfl, made⟩
          | ok written =>
              rw [done] at ran
              cases ran
              have changes := Changes.of_replace done
              obtain ⟨reached, free, same⟩ := (replace_eq_ok_iff middle after path content).mp done
              refine Or.inr ⟨rfl, made.of_none.trans changes, reached.mono changes.dirs,
                changes.isDir (there rfl (parentOf_text path)), ?_⟩
              rw [same, find?_insert middle _ _ reached.place_ne_nil, if_pos rfl]

/-- A file that was written, whatever a fault would have been called. -/
theorem changes_of_writeAtomic {ε : Type} {name : IoFault → ε} {path : Path} {content : ByteArray}
    {tree after : FileTree}
    (ran : ((writeAtomic path content).adapt name).run.run tree = (.ok (), after)) :
    Changes (· = path.place) tree after ∧ after.Reaches path ∧
      after.isDir (parentOf path) = true ∧ after.find? path.place = some (.file content) := by
  rw [run_adapt] at ran
  cases wrote : (writeAtomic path content).run.run tree with
  | mk result made =>
      rw [wrote] at ran
      rcases writeAtomic_cases wrote with ⟨fault, rfl, -⟩ | ⟨rfl, changes, reached, there, held⟩
      · cases ran
      · cases ran
        exact ⟨changes, reached, there, held⟩

/-- Writing what a file holds already changes nothing. -/
theorem run_writeAtomic_of_held {path : Path} {content : ByteArray} {tree : FileTree}
    (reached : tree.Reaches path) (there : tree.isDir (parentOf path) = true)
    (held : tree.find? path.place = some (.file content)) :
    (writeAtomic path content).run.run tree = (.ok (), tree) := by
  have done : tree.replace path content = .ok tree := by
    rw [replace_eq_ok_iff]
    refine ⟨reached, by rw [held]; simp, ?_⟩
    rw [insert_of_find? reached.place_ne_nil held]
  rw [run_writeAtomic, run_createDirAll_of_isDir there]
  simp [done]

end Disk

end SourceAtlas
