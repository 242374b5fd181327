import SourceAtlas.Proofs.PageEdits
/-!
A docs directory that is yet to be made. Where more directories would lead to it, making one below it
makes it first, and then goes on as it would have done if it had been there. So storing a page comes to
the same before and after the docs directory is made, also where its path steps upwards out of a
directory that is missing.
-/

namespace SourceAtlas

namespace Path

variable (base : Path) {names : List String} (ordinary : ∀ name ∈ names, IsName name)

/-- The path to what stands under some names below a base, put together from parts. -/
@[irreducible] def below (names : List String) : Path := ofParts (base.parts ++ names.map .name)

include ordinary

theorem areParts_below : AreParts (base.parts ++ names.map .name) := by
  obtain ⟨start, steps, same, kind, inner⟩ := areParts_parts base
  refine ⟨start, steps ++ names.map .name, by rw [same, List.append_assoc], kind, ?_⟩
  intro part member
  rcases List.mem_append.mp member with inSteps | inNames
  · exact inner part inSteps
  · obtain ⟨name, listed, rfl⟩ := List.mem_map.mp inNames
    exact Or.inr ⟨name, ordinary name listed, rfl⟩

theorem pieces_below : (base.below names).pieces = (base.below []).pieces ++ names := by
  have named : (names.map PathPart.name).filterMap pieceOf? = names := by
    simp [List.filterMap_map, pieceOf?, PathPart.text, Function.comp_def]
  have bare : AreParts (base.parts ++ ([] : List String).map .name) :=
    base.areParts_below (List.forall_mem_nil _)
  rw [below, below, (base.areParts_below ordinary).pieces_ofParts, bare.pieces_ofParts,
    List.filterMap_append, named, List.map_nil, List.append_nil]

omit ordinary in
theorem steps_below_nil : (base.below []).steps = base.steps := by
  have bare : AreParts (base.parts ++ ([] : List String).map .name) :=
    base.areParts_below (List.forall_mem_nil _)
  rw [below, bare.steps_ofParts, steps_eq_parts, List.map_nil, List.append_nil]

theorem place_below : (base.below names).place = base.place ++ names := by
  rw [place, pieces_below base ordinary, placeFrom_append, placeFrom_ordinary ordinary]
  change (base.below []).place ++ names = _
  rw [← placeFrom_steps, steps_below_nil, placeFrom_steps]

end Path

namespace FileTree

section Within

variable {tree whole : FileTree} (within : Changes (fun _ => False) tree whole)

include within

/-- Where a tree with more directories can be passed, pieces are stopped by a missing directory at
most. -/
theorem enterAll_within {place : Place} {pieces : List String} (way : whole.Passable place pieces)
    {fault : IoFault} (stopped : tree.enterAll place pieces = .error fault) : fault = .notFound := by
  obtain ⟨front, piece, back, rfl, -, closed⟩ := exists_of_enterAll stopped
  obtain ⟨-, here, -⟩ := (passable_append ..).mp way
  by_cases dots : piece = "." ∨ piece = ".."
  · rcases dots with rfl | rfl <;> simp [enter] at closed
  · obtain ⟨notHere, notUp⟩ := not_or.mp dots
    obtain ⟨short, held⟩ := here notHere notUp
    have looked := (lookup_eq_ok_iff tree (Path.placeFrom place front) piece _).mpr ⟨short, rfl⟩
    simp only [enter, notHere, notUp, if_false, looked, bind, Except.bind] at closed
    rcases found : tree.find? (Path.placeFrom place front ++ [piece]) with _ | _ | content
    · rw [found] at closed
      exact (Except.error.inj closed).symm
    · rw [found] at closed
      cases closed
    · rw [within.file not_false found] at held
      cases held

variable (sound : whole.Sound) {path : Path} (led : whole.isDir path = true)

include sound led

theorem ensureDir_within {front : List String} {last : String} (split : path.pieces = front ++ [last])
    (way : tree.Passable [] front) : ∃ after, (Disk.ensureDir path).run.run tree = (.ok (), after) ∧
      Changes (fun _ => False) after whole := by
  obtain ⟨zero, filled, passed⟩ := (stat_eq_dir_iff_passable ..).mp ((isDir_iff ..).mp led)
  rw [Disk.run_ensureDir]
  by_cases there : tree.isDir path = true
  · rw [makeDir_of_isDir there]
    simp only [there, if_true]
    exact ⟨tree, rfl, within⟩
  -- otherwise the path ends in a name, under which there is nothing yet
  have ended := target_of_passable zero filled split way
  have other : last ≠ "." ∧ last ≠ ".." := by
    refine not_or.mp fun dots => there ?_
    rw [isDir_iff, stat_eq_dir_iff_passable, split, passable_append]
    rcases dots with rfl | rfl <;> simp [zero, filled, way, Passable]
  simp only [Target.ofLast, other.1, other.2, if_false] at ended
  obtain ⟨short, held⟩ := (isDir_of_named (target_mono within.dirs ended)).mp led
  have missing : tree.find? (Path.placeFrom [] front ++ [last]) = none := by
    rcases within.elsewhere (Path.placeFrom [] front ++ [last]) not_false with same | ⟨absent, -⟩
    · exact absurd ((isDir_of_named ended).mpr ⟨short, same ▸ held⟩) there
    · exact absent
  rw [makeDir_of_named ended, if_neg (Nat.not_lt.mpr short), missing]
  refine ⟨_, rfl, fun place _ => ?_, fun place dir => ?_, fun _ => sound⟩
  · rw [find?_insert tree _ _ (by simp)]
    split
    · next same => exact Or.inl (same ▸ held)
    · exact within.elsewhere place not_false
  · rw [find?_insert tree _ _ (by simp)] at dir
    split at dir
    · next same => exact same ▸ held
    · exact within.dirs place dir

/-- The directory at the end of a path is made at once, or a directory above it is missing. -/
theorem ensureDirs_within_cases (above : List Path) :
    (∃ after, (Disk.ensureDirs path above).run.run tree = (.ok (), after) ∧
        Changes (fun _ => False) after whole) ∨
      ∃ front last, path.pieces = front ++ [last] ∧ tree.enterAll [] front = .error .notFound := by
  obtain ⟨zero, filled, passed⟩ := (stat_eq_dir_iff_passable ..).mp ((isDir_iff ..).mp led)
  rcases List.eq_nil_or_concat path.pieces with empty | ⟨front, last, split⟩
  · have there : tree.isDir path = true := by
      rw [isDir_iff, stat_eq_dir_iff_passable, empty]
      exact ⟨zero, filled, trivial⟩
    have made := makeDir_of_isDir there
    rw [run_ensureDirs_of_ne (by simp [made]), Disk.run_ensureDir, made]
    simp only [there, if_true]
    exact Or.inl ⟨tree, rfl, within⟩
  · rw [List.concat_eq_append] at split
    cases entered : tree.enterAll [] front with
    | ok next =>
        have way := ((enterAll_eq_ok_iff ..).mp entered).1
        rw [run_ensureDirs_of_ne (makeDir_ne_notFound (target_of_passable zero filled split way))]
        exact Or.inl (ensureDir_within within sound led split way)
    | error fault =>
        have upper := ((passable_append ..).mp (split ▸ passed)).1
        obtain rfl := enterAll_within within upper entered
        exact Or.inr ⟨front, last, split, entered⟩

/-- Directories can be made that are there in a tree with more directories. -/
theorem ensureDirs_within {above : List Path} (ascends : Ascends path above) :
    ∃ after, (Disk.ensureDirs path above).run.run tree = (.ok (), after) ∧
      Changes (fun _ => False) after whole := by
  obtain ⟨zero, filled, passed⟩ := (stat_eq_dir_iff_passable ..).mp ((isDir_iff ..).mp led)
  induction above generalizing path with
  | nil =>
      rcases ensureDirs_within_cases within sound led [] with done | ⟨front, last, split, stopped⟩
      · exact done
      · have short := ascends.2
        rw [split, List.length_append, List.length_singleton] at short
        rw [List.eq_nil_of_length_eq_zero (by omega : front.length = 0)] at stopped
        cases stopped
  | cons parent above ih =>
      rcases ensureDirs_within_cases within sound led (parent :: above) with
        done | ⟨front, last, split, stopped⟩
      · exact done
      obtain ⟨-, ⟨final, -, cut⟩, onward⟩ := ascends
      obtain ⟨rfl, -⟩ := List.append_inj' (split.symm.trans cut) rfl
      have upper := ((passable_append ..).mp (split ▸ passed)).1
      have inner : parent.hasZero = false :=
        hasZero_of_pieces zero fun piece member _ => by simp [split, member]
      obtain ⟨middle, ran, still⟩ := ih
        ((isDir_iff ..).mpr ((stat_eq_dir_iff_passable ..).mpr ⟨inner, onward.filled, upper⟩)) onward inner
        onward.filled upper
      -- with the directories above it there, the last one is made
      have there := (Disk.ensureDirs_changes ran).2 rfl
      have way := ((stat_eq_dir_iff_passable ..).mp ((isDir_iff ..).mp there)).2.2
      rw [Disk.ensureDirs, run_bind, run_get]
      simp only [makeDir_of_stopped zero filled split stopped]
      rw [run_bind, ran]
      exact ensureDir_within still sound led split way

end Within

theorem text_below {base : Path} (filled : base.parts ≠ []) {names : List String}
    (ordinary : ∀ name ∈ names, IsName name) : (base.below names).text ≠ "" := by
  rw [Path.below]
  exact (base.areParts_below ordinary).ofParts_text fun empty => filled (List.append_eq_nil_iff.mp empty).1

theorem ascends_below {base : Path} (filled : base.parts ≠ []) {names : List String}
    (ordinary : ∀ name ∈ names, IsName name) :
    Ascends (base.below names) (Disk.pathsAbove (base.below names)) := by
  have ordered := base.areParts_below ordinary
  have some : base.parts ++ names.map .name ≠ [] := fun empty =>
    filled (List.append_eq_nil_iff.mp empty).1
  rw [Path.below]
  generalize base.parts ++ names.map .name = parts at ordered some ⊢
  exact ascends_ofParts ordered some

theorem run_createDirAll_below {base : Path} (filled : base.parts ≠ []) {names : List String}
    (ordinary : ∀ name ∈ names, IsName name) (tree : FileTree) :
    (Disk.createDirAll (base.below names)).run.run tree =
      (Disk.ensureDirs (base.below names) (Disk.pathsAbove (base.below names))).run.run tree := by
  rw [Disk.createDirAll, if_neg (by simpa using text_below filled ordinary)]

theorem Sound.isDir_below {tree : FileTree} (sound : tree.Sound) {base : Path} (filled : base.parts ≠ [])
    {names : List String} (ordinary : ∀ name ∈ names, IsName name) :
    tree.isDir (base.below names) = true ↔ tree.Passable [] (base.below names).pieces := by
  rw [isDir_iff, stat_eq_dir_iff_passable]
  exact ⟨fun led => led.2.2, fun way => ⟨sound.hasZero_of_passable way, text_below filled ordinary, way⟩⟩

/-- A path leads to a directory as its parts do. -/
theorem Sound.isDir_below_nil {tree : FileTree} (sound : tree.Sound) {base : Path}
    (filled : base.parts ≠ []) : tree.isDir (base.below []) = true ↔ tree.isDir base = true := by
  have named : base.text ≠ "" := fun empty => filled (Path.parts_of_empty empty)
  have text : (base.below []).text ≠ "" := text_below filled (List.forall_mem_nil _)
  have same : tree.Passable [] (base.below []).pieces ↔ tree.Passable [] base.pieces := by
    have steps := base.steps_below_nil
    unfold Path.steps at steps
    rw [← passable_filter tree [] (base.below []).pieces, steps, passable_filter]
  rw [isDir_iff, isDir_iff, stat_eq_dir_iff_passable, stat_eq_dir_iff_passable, same]
  constructor
  · exact fun led => ⟨sound.hasZero_of_passable led.2.2, named, led.2.2⟩
  · exact fun led => ⟨sound.hasZero_of_passable (same.mpr led.2.2), text, led.2.2⟩

/-- A tree with nothing at the end of a path, and the tree in which its directories have been made. -/
structure Opening (base : Path) (tree opened : FileTree) : Prop where
  sound : tree.Sound
  filled : base.parts ≠ []
  absent : tree.find? base.place = none
  stopped : tree.enterAll [] (base.below []).pieces = .error .notFound
  made : (Disk.createDirAll (base.below [])).run.run tree = (.ok (), opened)

theorem exists_opening {tree whole : FileTree} {base : Path} (sound : tree.Sound)
    (absent : tree.find? base.place = none) (within : Changes (fun _ => False) tree whole)
    (led : whole.isDir base = true) : ∃ opened, Opening base tree opened := by
  have filled : base.parts ≠ [] := by
    intro empty
    rw [← Path.placeFrom_steps, Path.steps_eq_parts, empty] at absent
    cases absent.symm.trans (find?_nil tree)
  have whole_ := within.sound sound
  have there := (whole_.isDir_below_nil filled).mpr led
  obtain ⟨opened, ran, -⟩ :=
    ensureDirs_within within whole_ there (ascends_below filled (List.forall_mem_nil _))
  refine ⟨opened, sound, filled, absent, ?_, ?_⟩
  · cases entered : tree.enterAll [] (base.below []).pieces with
    | ok next =>
        have held := sound.placeFrom (find?_nil tree) ((enterAll_eq_ok_iff ..).mp entered).1
        change tree.find? (base.below []).place = some .dir at held
        rw [base.place_below (List.forall_mem_nil _), List.append_nil, absent] at held
        cases held
    | error fault =>
        have passed := ((stat_eq_dir_iff_passable ..).mp ((isDir_iff ..).mp there)).2.2
        rw [enterAll_within within passed entered]
  · rw [run_createDirAll_below filled (List.forall_mem_nil _)]
    exact ran

theorem Sound.paved_below {tree : FileTree} (sound : tree.Sound) {base : Path} (filled : base.parts ≠ [])
    {names : List String} (ordinary : ∀ name ∈ names, IsName name)
    (zero : (base.below names).hasZero = false) (firm : tree.Firm (base.below names).pieces) :
    Paved tree (base.below names).place ((Disk.createDirAll (base.below names)).run.run tree).1
      ((Disk.createDirAll (base.below names)).run.run tree).2 := by
  rw [run_createDirAll_below filled ordinary]
  exact sound.paved_of_ascends (ascends_below filled ordinary) zero firm

theorem Paved.unique {tree first second : FileTree} {way : Place} {result other : Except IoFault Unit}
    (paved : Paved tree way result first) (again : Paved tree way other second) (sound : first.Sound)
    (also : second.Sound) : (result, first) = (other, second) := by
  have same : first = second := sound.ext also fun place => by rw [paved.find?, again.find?]
  rw [paved.result, again.result, same]

section Snoc

variable {base : Path} (filled : base.parts ≠ []) {names : List String} {last : String}
  (ordinary : ∀ name ∈ names ++ [last], IsName name)

include filled

include ordinary

theorem run_createDirAll_snoc (tree : FileTree) :
    (Disk.createDirAll (base.below (names ++ [last]))).run.run tree =
      (Disk.ensureDirs (base.below (names ++ [last]))
        (base.below names :: Disk.pathsAbove (base.below names))).run.run tree := by
  have ordered := base.areParts_below ordinary
  have parts : base.parts ++ (names ++ [last]).map PathPart.name =
      (base.parts ++ names.map .name) ++ [.name last] := by simp
  have above : Disk.pathsAbove (base.below (names ++ [last])) =
      base.below names :: Disk.pathsAbove (base.below names) := by
    rw [parts] at ordered
    rw [Path.below, Path.below, parts]
    exact Path.pathsAbove_ofParts (fun empty => filled (List.append_eq_nil_iff.mp empty).1) ordered
  rw [run_createDirAll_below filled ordinary, above]

/-- Below a directory that is missing a directory is made after the one above it. -/
theorem run_createDirAll_of_stopped {tree : FileTree}
    (zero : (base.below (names ++ [last])).hasZero = false)
    (stopped : tree.enterAll [] (base.below names).pieces = .error .notFound) :
    (Disk.createDirAll (base.below (names ++ [last]))).run.run tree =
      match (Disk.createDirAll (base.below names)).run.run tree with
      | (.ok _, middle) => (Disk.ensureDir (base.below (names ++ [last]))).run.run middle
      | (.error fault, middle) => (.error fault, middle) := by
  have upper : ∀ name ∈ names, IsName name := fun name member => ordinary name (by simp [member])
  have split : (base.below (names ++ [last])).pieces = (base.below names).pieces ++ [last] := by
    rw [base.pieces_below ordinary, base.pieces_below upper, List.append_assoc]
  rw [run_createDirAll_snoc filled ordinary, Disk.ensureDirs, run_bind, run_get]
  simp only [makeDir_of_stopped zero (text_below filled ordinary) split stopped]
  rw [run_bind, run_createDirAll_below filled upper]
  rcases (Disk.ensureDirs (base.below names) (Disk.pathsAbove (base.below names))).run.run tree with
    ⟨fault | made, middle⟩ <;> rfl

end Snoc

namespace Opening

variable {base : Path} {tree opened : FileTree} (opening : Opening base tree opened)

include opening

theorem changes : Changes (fun _ => False) tree opened :=
  (Disk.createDirAll_changes opening.made).1

theorem sound_opened : opened.Sound := opening.changes.sound opening.sound

theorem isDir_opened : opened.isDir base = true := by
  refine (opening.sound_opened.isDir_below_nil opening.filled).mp ?_
  exact (Disk.createDirAll_changes opening.made).2 rfl
    (text_below opening.filled (List.forall_mem_nil _))

theorem dir_opened : opened.find? base.place = some .dir :=
  opening.sound_opened.stat_dir ((isDir_iff ..).mp opening.isDir_opened)

/-- No file stands where the directories are made, nor below. -/
theorem no_file (names : Place) (content : ByteArray) :
    tree.find? (base.place ++ names) ≠ some (.file content) ∧
      opened.find? (base.place ++ names) ≠ some (.file content) := by
  have none : tree.find? (base.place ++ names) ≠ some (.file content) := by
    rw [opening.sound.absent opening.absent]
    simp
  exact ⟨none, fun held => none (opening.changes.file_before not_false held)⟩

theorem stopped_below {names : List String} (ordinary : ∀ name ∈ names, IsName name) :
    tree.enterAll [] (base.below names).pieces = .error .notFound := by
  rw [base.pieces_below ordinary, enterAll_append, opening.stopped]
  rfl

/-- In the tree in which the directories have been made, those below are made one after the other. -/
theorem run_opened {names : List String} {last : String}
    (ordinary : ∀ name ∈ names ++ [last], IsName name)
    (zero : (base.below (names ++ [last])).hasZero = false) :
    (Disk.createDirAll (base.below (names ++ [last]))).run.run opened =
      match (Disk.createDirAll (base.below names)).run.run opened with
      | (.ok _, middle) => (Disk.ensureDir (base.below (names ++ [last]))).run.run middle
      | (.error fault, middle) => (.error fault, middle) := by
  have upper : ∀ name ∈ names, IsName name := fun name member => ordinary name (by simp [member])
  have sound := opening.sound_opened
  have way := (sound.isDir_below opening.filled (List.forall_mem_nil _)).mp
    ((sound.isDir_below_nil opening.filled).mpr opening.isDir_opened)
  have split : (base.below (names ++ [last])).pieces = (base.below names).pieces ++ [last] := by
    rw [base.pieces_below ordinary, base.pieces_below upper, List.append_assoc]
  have text := text_below opening.filled ordinary
  rcases held : opened.find? (base.place ++ names) with _ | _ | content
  · -- all that is missing is made; either way that comes to the same by what stands in the way
    have down : ".." ∉ names ++ [last] := fun up => (ordinary _ up).2.2.1 rfl
    have firm : opened.Firm (base.below (names ++ [last])).pieces := by
      rw [base.pieces_below ordinary]
      exact Firm.append (fun front back cut => ((passable_append ..).mp (cut ▸ way)).1) down
    have place : (base.below (names ++ [last])).place = (base.below names).place ++ [last] := by
      rw [base.place_below ordinary, base.place_below upper, List.append_assoc]
    have missing : opened.find? (base.below names).place = none := by rw [base.place_below upper, held]
    have inner : (base.below names).hasZero = false := hasZero_of_pieces zero fun piece member _ => by
      simp [split, member]
    have whole := sound.paved_below opening.filled ordinary zero firm
    have first := sound.paved_below opening.filled upper inner (split ▸ firm).front
    rw [place] at whole
    cases ran : (Disk.createDirAll (base.below names)).run.run opened with
    | mk result middle =>
        rw [ran] at first
        obtain ⟨changes, led⟩ := Disk.createDirAll_changes ran
        cases result with
        | error fault =>
            exact whole.unique (first.stuck missing last) ((Disk.createDirAll_changes rfl).1.sound sound)
              (changes.sound sound)
        | ok made =>
            have still := changes.sound sound
            have passed := (still.isDir_below opening.filled upper).mp
              (led rfl (text_below opening.filled upper))
            have later := still.paved_of_passable zero text split passed
            rw [place] at later
            exact whole.unique (first.snoc later sound still (still.placeFrom (find?_nil _) passed) missing)
              ((Disk.createDirAll_changes rfl).1.sound sound)
              ((Disk.ensureDir_changes rfl).1.sound still)
  · -- the directory above is there
    have passed : opened.Passable [] (base.below names).pieces := by
      rw [base.pieces_below upper, passable_append]
      refine ⟨way, ?_⟩
      change opened.Passable (base.below []).place names
      rw [base.place_below (List.forall_mem_nil _), List.append_nil]
      exact sound.passable held
    have there := (sound.isDir_below opening.filled upper).mpr passed
    rw [Disk.run_createDirAll_of_isDir there, run_createDirAll_snoc opening.filled ordinary,
      run_ensureDirs_of_ne (makeDir_ne_notFound (target_of_passable zero text split passed))]
  · exact absurd held (opening.no_file names content).2

/-- Directories below the one that is missing are made as if it had been made before. -/
theorem run_below {names : List String} (ordinary : ∀ name ∈ names, IsName name)
    (zero : (base.below names).hasZero = false) :
    (Disk.createDirAll (base.below names)).run.run tree =
      (Disk.createDirAll (base.below names)).run.run opened := by
  induction names using List.reverseRecOn with
  | nil =>
      rw [opening.made, Disk.run_createDirAll_of_isDir]
      exact (opening.sound_opened.isDir_below_nil opening.filled).mpr opening.isDir_opened
  | append_singleton names last ih =>
      have upper : ∀ name ∈ names, IsName name := fun name member => ordinary name (by simp [member])
      have inner : (base.below names).hasZero = false := hasZero_of_pieces zero fun piece member _ => by
        rw [base.pieces_below upper] at member
        rw [base.pieces_below ordinary, ← List.append_assoc]
        exact List.mem_append_left _ member
      rw [run_createDirAll_of_stopped opening.filled ordinary zero (opening.stopped_below upper),
        ih upper inner, opening.run_opened ordinary zero]

end Opening

end FileTree

theorem Path.parentOf_join {base : Path} (filled : base.parts ≠ []) {names : List String} {last : String}
    (ordinary : ∀ name ∈ names ++ [last], IsName name) :
    Disk.parentOf (base.join ⟨String.intercalate "/" (names ++ [last])⟩) = base.below names := by
  have upper : ∀ name ∈ names, IsName name := fun name member => ordinary name (by simp [member])
  have parts : (base.join ⟨String.intercalate "/" (names ++ [last])⟩).parts =
      (base.parts ++ names.map .name) ++ [.name last] := by
    rw [parts_join base ordinary, List.map_append, List.append_assoc]
    rfl
  have above : (base.join ⟨String.intercalate "/" (names ++ [last])⟩).parent? =
      some (base.below names) := by
    unfold parent?
    rw [below]
    split
    · next empty => simp [empty] at parts
    · next root =>
        rw [root] at parts
        cases held : base.parts ++ names.map .name with
        | nil => exact absurd (List.append_eq_nil_iff.mp held).1 filled
        | cons part rest =>
            rw [held] at parts
            simp at parts
    · rw [parts, List.dropLast_concat]
  rw [Disk.parentOf, above]
  exact if_neg (by simpa using FileTree.text_below filled upper)

namespace Docs

open FileTree

variable (docs : Docs) {tree opened : FileTree} {page : String}

/-- With some more directories the docs directory is there. -/
def Openable (tree : FileTree) : Prop :=
  ∃ whole, Changes (fun _ => False) tree whole ∧ whole.isDir docs.root = true

theorem Openable.of_changes {docs : Docs} {middle : FileTree} (changes : Changes (fun _ => False) tree middle)
    (openable : docs.Openable middle) : docs.Openable tree := by
  obtain ⟨whole, within, led⟩ := openable
  exact ⟨whole, changes.trans within, led⟩

/-- Where the docs directory can be reached if it is there, it stands, is yet to be made, or stays out
of reach. -/
theorem opening_cases (sound : tree.Sound)
    (reached : tree.find? docs.root.place = some .dir → tree.isDir docs.root = true) :
    tree.isDir docs.root = true ∨ (∃ opened, Opening docs.root tree opened) ∨ ¬ docs.Openable tree := by
  by_cases openable : docs.Openable tree
  · obtain ⟨whole, within, led⟩ := openable
    have held := (within.sound sound).stat_dir ((isDir_iff ..).mp led)
    rcases within.elsewhere docs.root.place not_false with same | ⟨absent, -⟩
    · exact Or.inl (reached (same ▸ held))
    · exact Or.inr (Or.inl (exists_opening sound absent within led))
  · exact Or.inr (Or.inr openable)

theorem remove_of_no_file
    (none : ∀ content, tree.find? (docs.placeOf page) ≠ some (.file content)) :
    ((docs.remove page).run.run tree).2 = tree := by
  rw [run_remove]
  cases located : docs.locate page with
  | error fault => rfl
  | ok path =>
      cases done : tree.unlink path with
      | ok after =>
          obtain ⟨-, ⟨content, held⟩, -⟩ := (unlink_eq_ok_iff tree after path).mp done
          exact absurd (docs.place_of_locate located ▸ held) (none content)
      | error fault => cases fault <;> simp only [done]

section Stuck

variable {docs} (sound : tree.Sound) (named : docs.root.text ≠ "") (plain : IsPlain page)

include sound named plain

/-- A page is stored below a docs directory that is there or has been made for it. -/
theorem openable_of_store {body : String} {after : FileTree}
    (ran : (docs.store page body).run.run tree = (.ok (), after)) : docs.Openable tree := by
  obtain ⟨names, filled, ordinary, rfl⟩ := plain
  obtain ⟨front, last, rfl⟩ : ∃ front last, names = front ++ [last] :=
    ⟨_, _, (List.dropLast_concat_getLast filled).symm⟩
  have parts := Path.parts_ne_nil named
  have upper : ∀ name ∈ front, IsName name := fun name member => ordinary name (by simp [member])
  simp only [store, docs.locate_of_plain ⟨front ++ [last], filled, ordinary, rfl⟩, run_adapt,
    Disk.run_writeAtomic, Path.parentOf_join parts ordinary] at ran
  cases made : (Disk.createDirAll (docs.root.below front)).run.run tree with
  | mk result middle =>
      rw [made] at ran
      cases result with
      | error fault => cases ran
      | ok _ =>
          obtain ⟨changes, there⟩ := Disk.createDirAll_changes made
          have still := changes.sound sound
          have way := (still.isDir_below parts upper).mp (there rfl (text_below parts upper))
          rw [docs.root.pieces_below upper, passable_append] at way
          have led := (still.isDir_below parts (List.forall_mem_nil _)).mpr way.1
          exact ⟨middle, changes, (still.isDir_below_nil parts).mp led⟩

end Stuck

/-- No file stands below a docs directory that can neither be reached nor made. -/
theorem no_file_of_stuck {docs : Docs} (sound : tree.Sound)
    (reached : tree.find? docs.root.place = some .dir → tree.isDir docs.root = true)
    (stuck : ¬ docs.Openable tree) (plain : IsPlain page) (content : ByteArray) :
    tree.find? (docs.placeOf page) ≠ some (.file content) := fun held =>
  stuck ⟨tree, .refl _ tree, reached (sound.above plain.names_ne_nil held)⟩

variable (opening : Opening docs.root tree opened)

include opening

/-- Storing a page comes to the same before and after the docs directory is made, or fails before
anything is made. -/
theorem store_opening (plain : IsPlain page) (body : String) :
    (docs.store page body).run.run tree = (docs.store page body).run.run opened ∨
      ∃ fault, (docs.store page body).run.run tree = (.error fault, tree) ∧
        (docs.store page body).run.run opened = (.error fault, opened) := by
  obtain ⟨names, filled, ordinary, rfl⟩ := plain
  obtain ⟨front, last, rfl⟩ : ∃ front last, names = front ++ [last] :=
    ⟨_, _, (List.dropLast_concat_getLast filled).symm⟩
  have located := docs.locate_of_plain ⟨front ++ [last], filled, ordinary, rfl⟩
  have above := Path.parentOf_join opening.filled ordinary
  have upper : ∀ name ∈ front, IsName name := fun name member => ordinary name (by simp [member])
  simp only [store, located, run_adapt, Disk.run_writeAtomic, above]
  cases zero : (docs.root.below front).hasZero with
  | true =>
      have text := text_below opening.filled upper
      rw [Disk.run_createDirAll_of_zero text zero, Disk.run_createDirAll_of_zero text zero]
      exact Or.inr ⟨.io .zeroInName, rfl, rfl⟩
  | false =>
      rw [opening.run_below upper zero]
      exact Or.inl rfl

theorem load_opening (text : String) :
    docs.load tree page ≠ .ok text ∧ docs.load opened page ≠ .ok text :=
  ⟨fun loaded => (opening.no_file (Path.names ⟨page⟩) _).1 (docs.file_of_load loaded),
    fun loaded => (opening.no_file (Path.names ⟨page⟩) _).2 (docs.file_of_load loaded)⟩

theorem remove_opening (page : String) :
    ((docs.remove page).run.run tree).2 = tree ∧ ((docs.remove page).run.run opened).2 = opened :=
  ⟨docs.remove_of_no_file fun content => (opening.no_file (Path.names ⟨page⟩) content).1,
    docs.remove_of_no_file fun content => (opening.no_file (Path.names ⟨page⟩) content).2⟩

end Docs

end SourceAtlas
