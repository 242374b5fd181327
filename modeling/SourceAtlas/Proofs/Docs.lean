import SourceAtlas.Proofs.Disk
/-!
Pages on disk. A page path that is taken names one place below the docs directory; loading, storing
and removing a page look at that place and touch no other.
-/

namespace SourceAtlas

/-- The page that stands under some names below a directory. -/
def Page.below (subdir : String) (names : List String) : String :=
  String.intercalate "/" (Path.names ⟨subdir⟩ ++ names)

namespace Docs

open FileTree

variable (docs : Docs)

def placeOf (page : String) : Place := docs.root.place ++ Path.names ⟨page⟩

theorem locate_eq_ok_iff (page : String) (path : Path) :
    docs.locate page = .ok path ↔ page ≠ "" ∧ (∀ part ∈ Path.parts ⟨page⟩, part.isName = true) ∧
      path = docs.root.join ⟨page⟩ := by
  unfold locate
  by_cases empty : page = ""
  · simp [empty]
  · by_cases names : ∀ part ∈ Path.parts ⟨page⟩, part.isName = true
    · have all : (Path.parts ⟨page⟩).all PathPart.isName = true := by simpa using names
      rw [if_neg (by simp [empty, all]), Except.ok.injEq]
      exact ⟨fun same => ⟨empty, names, same.symm⟩, fun named => named.2.2.symm⟩
    · have all : ¬ (Path.parts ⟨page⟩).all PathPart.isName = true := by simpa using names
      rw [if_pos (by simp [all])]
      exact ⟨nofun, fun named => absurd named.2.1 names⟩

theorem locate_of_plain {page : String} (plain : IsPlain page) :
    docs.locate page = .ok (docs.root.join ⟨page⟩) := by
  refine (docs.locate_eq_ok_iff _ _).mpr ⟨plain.ne_empty, ?_, rfl⟩
  rw [plain.parts]
  simp [PathPart.isName]

theorem place_of_locate {page : String} {path : Path} (located : docs.locate page = .ok path) :
    path.place = docs.placeOf page := by
  obtain ⟨-, names, rfl⟩ := (docs.locate_eq_ok_iff page path).mp located
  have relative : Path.isAbsolute ⟨page⟩ = false := by
    cases absolute : Path.isAbsolute ⟨page⟩ with
    | false => rfl
    | true =>
        have root := names .root (by simp [Path.parts, absolute])
        cases root
  have parts : (Path.pieces ⟨page⟩).filterMap Path.partOf? = Path.parts ⟨page⟩ := by
    unfold Path.parts
    rw [relative, if_neg (by simp)]
    split
    · next rest split =>
        have here := names .here (by simp [Path.parts, relative, split])
        cases here
    · rfl
  rw [Path.place_join relative, Path.placeFrom_of_names _ (by rwa [parts]), parts]
  rfl

/-- Different plain pages stand at different places. -/
theorem placeOf_inj {page other : String} (plain : IsPlain page) (also : IsPlain other)
    (same : docs.placeOf page = docs.placeOf other) : page = other :=
  plain.eq_of_names also (List.append_cancel_left same)

/-- What stands below a directory in the docs directory is no page beside it. -/
theorem placeOf_append_ne (names : List String) {subdir page : String} (upper : IsName subdir)
    (single : IsName page) (other : subdir ≠ page) :
    docs.placeOf subdir ++ names ≠ docs.placeOf page := by
  have alone : ∀ name, IsName name → Path.names ⟨name⟩ = [name] := by
    intro name ordinary
    have read : Path.names ⟨String.intercalate "/" [name]⟩ = [name] :=
      Path.names_intercalate (by simpa using ordinary)
    rwa [String.intercalate_singleton] at read
  rw [placeOf, placeOf, List.append_assoc, alone page single, alone subdir upper]
  intro same
  have cancelled := List.append_cancel_left same
  simp only [List.singleton_append, List.cons.injEq] at cancelled
  exact other cancelled.1

theorem load_eq_ok_iff (tree : FileTree) (page text : String) :
    docs.load tree page = .ok text ↔
      ∃ path, docs.locate page = .ok path ∧ tree.readText path = .ok text := by
  unfold load
  cases located : docs.locate page with
  | error fault => simp [bind, Except.bind]
  | ok path =>
      cases read : tree.readText path <;> simp [bind, Except.bind, read]

theorem load_of_changes {touched : Place → Prop} {before after : FileTree}
    (changes : Changes touched before after) {page text : String}
    (outside : ¬ touched (docs.placeOf page)) (loaded : docs.load before page = .ok text) :
    docs.load after page = .ok text := by
  obtain ⟨path, located, read⟩ := (docs.load_eq_ok_iff before page text).mp loaded
  obtain ⟨reached, held⟩ := (readText_eq_ok_iff before path text).mp read
  rw [← docs.place_of_locate located] at outside
  exact (docs.load_eq_ok_iff after page text).mpr ⟨path, located,
    (readText_eq_ok_iff after path text).mpr ⟨reached.mono changes.dirs, changes.file outside held⟩⟩

theorem file_of_load {tree : FileTree} {page text : String} (loaded : docs.load tree page = .ok text) :
    tree.find? (docs.placeOf page) = some (.file text.toUTF8) := by
  obtain ⟨path, located, read⟩ := (docs.load_eq_ok_iff tree page text).mp loaded
  obtain ⟨-, held⟩ := (readText_eq_ok_iff tree path text).mp read
  rw [← docs.place_of_locate located, held]

/-- A plain page is loaded from its place when the docs directory can be reached. -/
theorem load_of_file {tree : FileTree} (sound : tree.Sound) {page text : String} (plain : IsPlain page)
    (there : tree.isDir docs.root = true)
    (held : tree.find? (docs.placeOf page) = some (.file text.toUTF8)) :
    docs.load tree page = .ok text := by
  have located := docs.locate_of_plain plain
  have reached := sound.reaches_join there plain.names_ne_nil held
  rw [plain.intercalate] at reached
  refine (docs.load_eq_ok_iff tree page text).mpr ⟨_, located, (readText_eq_ok_iff ..).mpr ⟨reached, ?_⟩⟩
  rw [docs.place_of_locate located, held]

/-- A page that is stored is loaded as it was written; a page that is not stored changes no file. -/
theorem store_cases {page body : String} {tree after : FileTree} {result : Except Fault Unit}
    (ran : (docs.store page body).run.run tree = (result, after)) :
    (∃ fault, result = .error fault ∧ Changes (fun _ => False) tree after) ∨
      (result = .ok () ∧ Changes (· = docs.placeOf page) tree after ∧
        docs.load after page = .ok body) := by
  unfold store at ran
  cases located : docs.locate page with
  | error fault =>
      rw [located] at ran
      cases ran
      exact Or.inl ⟨fault, rfl, .refl _ tree⟩
  | ok path =>
      rw [located] at ran
      simp only [run_adapt] at ran
      cases wrote : (Disk.writeAtomic path body.toUTF8).run.run tree with
      | mk outcome made =>
          rw [wrote] at ran
          rcases Disk.writeAtomic_cases wrote with ⟨fault, rfl, changes⟩ | ⟨rfl, changes, reached, -, held⟩
          · cases ran
            exact Or.inl ⟨.io fault, rfl, changes⟩
          · cases ran
            rw [docs.place_of_locate located] at changes
            refine Or.inr ⟨rfl, changes, (docs.load_eq_ok_iff _ page body).mpr ⟨path, located, ?_⟩⟩
            exact (readText_eq_ok_iff _ path body).mpr ⟨reached, held⟩

theorem store_changes (page body : String) (tree : FileTree) :
    Changes (· = docs.placeOf page) tree ((docs.store page body).run.run tree).2 := by
  rcases docs.store_cases (Prod.eta _).symm with ⟨fault, -, changes⟩ | ⟨-, changes, -⟩
  · exact changes.mono fun _ none => none.elim
  · exact changes

theorem run_remove (page : String) (tree : FileTree) :
    (docs.remove page).run.run tree = match docs.locate page with
      | .error fault => (.error fault, tree)
      | .ok path => match tree.unlink path with
          | .ok after => (.ok (), after)
          | .error .notFound => (.ok (), tree)
          | .error fault => (.error (.io fault), tree) := by
  unfold remove
  cases located : docs.locate page with
  | error fault => rfl
  | ok path =>
      simp only [run_bind, run_get]
      cases done : tree.unlink path with
      | ok after => rfl
      | error fault => cases fault <;> rfl

theorem remove_changes (page : String) (tree : FileTree) :
    Changes (· = docs.placeOf page) tree ((docs.remove page).run.run tree).2 := by
  rw [run_remove]
  cases located : docs.locate page with
  | error fault => exact .refl _ tree
  | ok path =>
      cases done : tree.unlink path with
      | ok after =>
          simp only [done]
          rw [← docs.place_of_locate located]
          exact Changes.of_unlink done
      | error fault =>
          cases fault <;> simp only [done] <;> exact .refl _ tree

theorem held_before_remove (page : String) {tree : FileTree} {place : Place} {entry : FileEntry}
    (left : ((docs.remove page).run.run tree).2.find? place = some entry) :
    tree.find? place = some entry := by
  rw [run_remove] at left
  cases located : docs.locate page with
  | error fault =>
      rw [located] at left
      exact left
  | ok path =>
      rw [located] at left
      cases done : tree.unlink path with
      | ok after =>
          simp only [done] at left
          obtain ⟨reached, -, rfl⟩ := (unlink_eq_ok_iff tree after path).mp done
          rw [find?_erase tree _ reached.place_ne_nil] at left
          split at left
          · cases left
          · exact left
      | error fault =>
          simp only [done] at left
          cases fault <;> exact left

/-- A plain page is gone after it was removed, when the docs directory can be reached. -/
theorem no_file_of_remove {page : String} {tree : FileTree} (sound : tree.Sound)
    (plain : IsPlain page)
    (way : ∀ content, tree.find? (docs.placeOf page) = some (.file content) →
      tree.isDir docs.root = true) (content : ByteArray) :
    ((docs.remove page).run.run tree).2.find? (docs.placeOf page) ≠ some (.file content) := by
  intro left
  have located := docs.locate_of_plain plain
  have placed := docs.place_of_locate located
  rw [run_remove, located] at left
  simp only at left
  cases done : tree.unlink (docs.root.join ⟨page⟩) with
  | ok after =>
      rw [done] at left
      obtain ⟨reached, -, rfl⟩ := (unlink_eq_ok_iff tree after _).mp done
      have below := reached.place_ne_nil
      rw [placed] at left below
      rw [find?_erase tree _ below, if_pos rfl] at left
      cases left
  | error fault =>
      have held : tree.find? (docs.placeOf page) = some (.file content) := by
        rw [done] at left
        cases fault <;> exact left
      have reached := sound.reaches_join (way content held) plain.names_ne_nil held
      rw [plain.intercalate] at reached
      have gone := (unlink_eq_ok_iff tree _ _).mpr ⟨reached, ⟨content, by rw [placed, held]⟩, rfl⟩
      rw [done] at gone
      cases gone

/-- The pages listed below a directory are the files there whose names end as pages do. -/
theorem mem_pagesBelow_iff {tree : FileTree} {subdir : String} (plain : IsPlain subdir)
    (page : String) :
    page ∈ docs.pagesBelow tree subdir ↔ tree.stat (docs.root.join ⟨subdir⟩) = .ok .dir ∧
      ∃ names content, names ≠ [] ∧ page = Page.below subdir names ∧
        tree.find? (docs.placeOf subdir ++ names) = some (.file content) ∧
        Path.extension? ⟨page⟩ = some "md" := by
  have placed := docs.place_of_locate (docs.locate_of_plain plain)
  have parted := Path.parts_join docs.root plain.isName
  rw [plain.intercalate] at parted
  have above : Path.afterParts? docs.root.parts (docs.root.join ⟨subdir⟩).parts =
      some ((Path.names ⟨subdir⟩).map .name) := by
    rw [parted, Path.afterParts?_eq_some_iff]
  have texts : ((Path.names ⟨subdir⟩).map PathPart.name).map PathPart.text = Path.names ⟨subdir⟩ := by
    simp [PathPart.text, Function.comp_def]
  unfold pagesBelow
  simp only [above]
  cases stood : tree.stat (docs.root.join ⟨subdir⟩) with
  | error fault => simp
  | ok entry =>
      cases entry with
      | file content => simp
      | dir =>
          obtain ⟨target, ended, -⟩ := (stat_eq_dir_iff tree _).mp stood
          have at_ : tree.place? (docs.root.join ⟨subdir⟩) = some (docs.placeOf subdir) := by
            rw [place?, stood, ended]
            simp only [← placed, ← place_of_target ended]
            rfl
          simp only [at_, texts, List.mem_mergeSort, List.mem_filterMap, true_and]
          constructor
          · rintro ⟨⟨names, entry⟩, member, kept⟩
            obtain ⟨filled, held⟩ := (mem_below_iff tree _ names entry).mp member
            cases entry with
            | dir => cases kept
            | file content =>
                simp only [Option.ite_none_right_eq_some] at kept
                obtain ⟨suffixed, same⟩ := kept
                cases same
                exact ⟨names, content, filled, rfl, held, suffixed⟩
          · rintro ⟨names, content, filled, rfl, held, suffixed⟩
            exact ⟨(names, .file content), (mem_below_iff tree _ names _).mpr ⟨filled, held⟩,
              if_pos suffixed⟩

/-- What stands below a directory of pages stands there under a plain page path. -/
theorem below_of_held {tree : FileTree} (sound : tree.Sound) {subdir : String} {names : List String}
    {entry : FileEntry} (filled : names ≠ [])
    (held : tree.find? (docs.placeOf subdir ++ names) = some entry) :
    IsPlain (Page.below subdir names) ∧
      docs.placeOf (Page.below subdir names) = docs.placeOf subdir ++ names := by
  have ordinary : ∀ name ∈ Path.names ⟨subdir⟩ ++ names, IsName name := fun name member =>
    (sound.isFileName held name (by
      rw [placeOf, List.append_assoc]
      exact List.mem_append_right _ member)).1
  refine ⟨⟨_, by simp [filled], ordinary, rfl⟩, ?_⟩
  rw [placeOf, Page.below, Path.names_intercalate ordinary, placeOf, List.append_assoc]

/-- The docs directory can be reached when a page in it can. -/
theorem isDir_root_of_load (named : docs.root.text ≠ "") {tree : FileTree} {page text : String}
    (plain : IsPlain page) (loaded : docs.load tree page = .ok text) : tree.isDir docs.root = true := by
  have pieced := Path.join_of_relative docs.root plain.isAbsolute
  obtain ⟨path, located, read⟩ := (docs.load_eq_ok_iff tree page text).mp loaded
  obtain ⟨-, -, rfl⟩ := (docs.locate_eq_ok_iff page path).mp located
  obtain ⟨⟨dir, name, ended, -⟩, -⟩ := (readText_eq_ok_iff tree _ text).mp read
  obtain ⟨zero, -, -⟩ := (target_eq_ok_iff tree _ _).mp ended
  rw [Path.hasZero_join plain.isAbsolute, Bool.or_eq_false_iff] at zero
  rw [isDir_iff, stat_eq_dir_iff_passable]
  refine ⟨zero.1, named, ?_⟩
  rcases List.eq_nil_or_concat (Path.names ⟨page⟩) with empty | ⟨front, last, split⟩
  · exact absurd empty plain.names_ne_nil
  · rcases target_cases ended with ⟨none, -⟩ | ⟨above, final, cut, way, -⟩
    · simp [pieced, plain.pieces, split] at none
    · rw [pieced, plain.pieces, split, List.concat_eq_append, ← List.append_assoc] at cut
      rw [← (List.append_inj' cut rfl).1, passable_append] at way
      exact way.1

theorem stat_dir_of_load {tree : FileTree} {page subdir text : String} {rest : List String}
    (plain : IsPlain page) (upper : IsPlain subdir) (below : rest ≠ [])
    (names : Path.names ⟨page⟩ = Path.names ⟨subdir⟩ ++ rest) (loaded : docs.load tree page = .ok text) :
    tree.stat (docs.root.join ⟨subdir⟩) = .ok .dir := by
  have pieced := Path.join_of_relative docs.root plain.isAbsolute
  have upperPieced := Path.join_of_relative docs.root upper.isAbsolute
  obtain ⟨path, located, read⟩ := (docs.load_eq_ok_iff tree page text).mp loaded
  obtain ⟨-, -, rfl⟩ := (docs.locate_eq_ok_iff page path).mp located
  obtain ⟨⟨dir, name, ended, -⟩, -⟩ := (readText_eq_ok_iff tree _ text).mp read
  obtain ⟨zero, -, -⟩ := (target_eq_ok_iff tree _ _).mp ended
  rw [stat_eq_dir_iff_passable]
  refine ⟨?_, ?_, ?_⟩
  · rw [Path.hasZero_join plain.isAbsolute, Bool.or_eq_false_iff] at zero
    rw [Path.hasZero_join upper.isAbsolute, zero.1, Bool.false_or]
    cases held : Path.hasZero ⟨subdir⟩ with
    | false => rfl
    | true =>
        -- every character of the directory is one of the page
        have inUpper : '\x00' ∈ subdir.toList := by simpa [Path.hasZero] using held
        rw [← upper.intercalate] at inUpper
        have inPage : '\x00' ∈ page.toList := by
          rcases Path.mem_intercalate inUpper with slash | ⟨part, member, inPart⟩
          · exact absurd slash (by decide)
          · have piece : part ∈ Path.pieces ⟨page⟩ := by
              rw [plain.pieces, names]
              exact List.mem_append_left rest member
            exact Path.mem_text_of_mem_pieces piece inPart
        have wrong : Path.hasZero ⟨page⟩ = true := by simpa [Path.hasZero] using inPage
        rw [zero.2] at wrong
        cases wrong
  · intro empty
    have none : (docs.root.join ⟨subdir⟩).pieces = [] := by
      rw [show docs.root.join ⟨subdir⟩ = ⟨""⟩ from by rw [← empty], Path.pieces_empty]
    rw [upperPieced, upper.pieces, List.append_eq_nil_iff] at none
    exact upper.names_ne_nil none.2
  · rw [upperPieced, upper.pieces]
    rcases target_cases ended with ⟨none, -⟩ | ⟨front, last, cut, way, -⟩
    · rw [pieced, plain.pieces, names] at none
      simp [below] at none
    · rcases List.eq_nil_or_concat rest with empty | ⟨lower, final, same⟩
      · exact absurd empty below
      · rw [pieced, plain.pieces, names, same, List.concat_eq_append, ← List.append_assoc,
          ← List.append_assoc] at cut
        have fronts := (List.append_inj' cut rfl).1
        rw [← fronts, passable_append] at way
        exact way.1

end Docs

end SourceAtlas
