import Mathlib.Data.List.Induction
import SourceAtlas.Proofs.Disk
import SourceAtlas.Proofs.PathParts
/-!
Making directories along a path. Where every step upwards leaves a directory that is there, a path is
followed as the names of its place are, from the root down. What making the directory at its end comes
to is then settled by the first name that is too long or taken by a file.
-/

namespace SourceAtlas

theorem Path.isName_of_mem_placeFrom {place : Place} {pieces : List String}
    (above : ∀ name ∈ place, IsName name)
    (slashless : ∀ piece ∈ pieces, piece ≠ "" ∧ '/' ∉ piece.toList) {name : String}
    (member : name ∈ placeFrom place pieces) : IsName name := by
  induction pieces generalizing place with
  | nil => exact above name member
  | cons piece rest ih =>
      refine ih ?_ (fun other inRest => slashless other (List.mem_cons_of_mem piece inRest)) member
      intro other inPlace
      split at inPlace
      · exact above other inPlace
      · next notHere =>
          split at inPlace
          · exact above other (List.dropLast_subset place inPlace)
          · next notUp =>
              rcases List.mem_append.mp inPlace with before | last
              · exact above other before
              · obtain ⟨filled, free⟩ := slashless piece (List.mem_cons_self ..)
                rw [List.mem_singleton.mp last]
                exact ⟨filled, notHere, notUp, free⟩

theorem Path.isName_of_mem_place {path : Path} {name : String} (member : name ∈ path.place) :
    IsName name :=
  isName_of_mem_placeFrom (fun _ none => by cases none) (fun _ => mem_pieces) member

namespace FileTree

/-- Where pieces lead from the directory at a place, one entered after the other. -/
def enterAll (tree : FileTree) : Place → List String → Except IoFault Place
  | place, [] => .ok place
  | place, piece :: rest => do tree.enterAll (← tree.enter place piece) rest

theorem enterAll_eq_ok_iff (tree : FileTree) (place next : Place) (pieces : List String) :
    tree.enterAll place pieces = .ok next ↔
      tree.Passable place pieces ∧ next = Path.placeFrom place pieces := by
  induction pieces generalizing place with
  | nil => simp [enterAll, Passable, Path.placeFrom, eq_comm]
  | cons piece rest ih =>
      have onward : Path.placeFrom place (piece :: rest) =
          Path.placeFrom (Path.placeFrom place [piece]) rest := rfl
      rw [enterAll, Passable, onward]
      cases entered : tree.enter place piece with
      | error fault =>
          have closed : ¬ (piece ≠ "." → piece ≠ ".." →
              piece.utf8ByteSize ≤ nameLimit ∧ tree.find? (place ++ [piece]) = some .dir) := by
            intro way
            have opened := (enter_eq_ok_iff tree place _ piece).mpr ⟨way, rfl⟩
            rw [entered] at opened
            cases opened
          simp [bind, Except.bind, closed]
      | ok middle =>
          obtain ⟨way, rfl⟩ := (enter_eq_ok_iff tree place middle piece).mp entered
          simp only [bind, Except.bind, ih, and_assoc]
          exact ⟨fun passed => ⟨way, passed⟩, fun both => both.2⟩

theorem enterAll_append (tree : FileTree) (place : Place) (before after : List String) :
    tree.enterAll place (before ++ after) =
      (tree.enterAll place before >>= fun next => tree.enterAll next after) := by
  induction before generalizing place with
  | nil => rfl
  | cons piece rest ih =>
      rw [List.cons_append, enterAll, enterAll]
      cases tree.enter place piece with
      | error fault => rfl
      | ok next => exact ih next

theorem enterAll_singleton (tree : FileTree) (place : Place) (piece : String) :
    tree.enterAll place [piece] = tree.enter place piece := by
  rw [enterAll]
  cases tree.enter place piece <;> rfl

theorem exists_of_enterAll {tree : FileTree} {place : Place} {pieces : List String} {fault : IoFault}
    (stopped : tree.enterAll place pieces = .error fault) :
    ∃ front piece back, pieces = front ++ piece :: back ∧ tree.Passable place front ∧
      tree.enter (Path.placeFrom place front) piece = .error fault := by
  induction pieces generalizing place with
  | nil => cases stopped
  | cons piece rest ih =>
      rw [enterAll] at stopped
      cases entered : tree.enter place piece with
      | error other =>
          rw [entered] at stopped
          cases stopped
          exact ⟨[], piece, rest, rfl, trivial, entered⟩
      | ok next =>
          rw [entered] at stopped
          obtain ⟨way, rfl⟩ := (enter_eq_ok_iff tree place next piece).mp entered
          obtain ⟨front, last, back, rfl, passed, failed⟩ := ih stopped
          exact ⟨piece :: front, last, back, rfl, ⟨way, passed⟩, failed⟩

/-- The directories in front of each step upwards are there. -/
def Firm (tree : FileTree) (pieces : List String) : Prop :=
  ∀ front back, pieces = front ++ ".." :: back → tree.Passable [] front

theorem Firm.mono {before after : FileTree}
    (dirs : ∀ place, before.find? place = some .dir → after.find? place = some .dir)
    {pieces : List String} (firm : before.Firm pieces) : after.Firm pieces :=
  fun front back split => (firm front back split).mono dirs

theorem Firm.front {tree : FileTree} {front back : List String} (firm : tree.Firm (front ++ back)) :
    tree.Firm front := by
  intro before after split
  exact firm before (after ++ back) (by rw [split, List.append_assoc, List.cons_append])

theorem Firm.append {tree : FileTree} {pieces names : List String} (firm : tree.Firm pieces)
    (down : ".." ∉ names) : tree.Firm (pieces ++ names) := by
  intro front back split
  -- a step upwards cannot be among the names, so it is in front of them
  rcases List.append_eq_append_iff.mp split with ⟨more, same, rest⟩ | ⟨more, same, rest⟩
  · exact absurd (rest ▸ List.mem_append_right more (List.mem_cons_self ..)) down
  · cases more with
    | nil => exact absurd (rest ▸ List.mem_cons_self .. : ".." ∈ [] ++ names) (by simpa using down)
    | cons piece more =>
        cases rest
        exact firm front more same

theorem passable_filter (tree : FileTree) (place : Place) (pieces : List String) :
    tree.Passable place (pieces.filter fun piece => piece ≠ ".") ↔ tree.Passable place pieces := by
  induction pieces generalizing place with
  | nil => rfl
  | cons piece rest ih =>
      by_cases here : piece = "."
      · have stays : Path.placeFrom place ["."] = place := rfl
        rw [here, List.filter_cons_of_neg (by simp), ih]
        simp [Passable, stays]
      · rw [List.filter_cons_of_pos (by simpa using here), Passable, Passable, ih]

theorem firm_filter_iff (tree : FileTree) (pieces : List String) :
    tree.Firm (pieces.filter fun piece => piece ≠ ".") ↔ tree.Firm pieces := by
  constructor
  · intro firm front back split
    rw [← passable_filter]
    apply firm _ (back.filter fun piece => piece ≠ ".")
    simp [split]
  · intro firm front back split
    obtain ⟨before, after, rfl, rfl, rest⟩ := List.filter_eq_append_iff.mp split
    obtain ⟨dots, later, rfl, none, -, -⟩ := List.filter_eq_cons_iff.mp rest
    rw [passable_filter]
    have passed := firm (before ++ dots) later (by simp)
    exact ((passable_append ..).mp passed).1

/-- From the root a firm way is the way along the names of its place. -/
theorem Firm.enterAll_eq {tree : FileTree} (sound : tree.Sound) {pieces : List String}
    (firm : tree.Firm pieces) :
    tree.enterAll [] pieces = tree.enterAll [] (Path.placeFrom [] pieces) := by
  induction pieces using List.reverseRecOn with
  | nil => rfl
  | append_singleton front last ih =>
      have before := ih firm.front
      rw [enterAll_append, Path.placeFrom_append]
      by_cases up : last = ".."
      -- the directory that is left is there, so all names above it can be entered
      · subst up
        have way : tree.Passable [] front := firm front [] rfl
        have there : tree.find? (Path.placeFrom [] front).dropLast = some .dir :=
          sound.dropLast (sound.placeFrom (find?_nil tree) way)
        have ordinary : ∀ name ∈ (Path.placeFrom [] front).dropLast, IsName name := fun name member =>
          (sound.isFileName there name member).1
        have upward : Path.placeFrom (Path.placeFrom [] front) [".."] =
            (Path.placeFrom [] front).dropLast := rfl
        have left : tree.enter (Path.placeFrom [] front) ".." = .ok (Path.placeFrom [] front).dropLast :=
          rfl
        rw [(enterAll_eq_ok_iff ..).mpr ⟨way, rfl⟩, upward,
          (enterAll_eq_ok_iff tree [] _ (Path.placeFrom [] front).dropLast).mpr
            ⟨sound.passable (by simpa using there), rfl⟩, Path.placeFrom_ordinary ordinary]
        exact (enterAll_singleton ..).trans left
      · by_cases here : last = "."
        · subst here
          have stays : Path.placeFrom (Path.placeFrom [] front) ["."] = Path.placeFrom [] front := rfl
          rw [stays, ← before]
          cases tree.enterAll [] front <;> rfl
        · have down : Path.placeFrom (Path.placeFrom [] front) [last] =
              Path.placeFrom [] front ++ [last] := by simp [Path.placeFrom, here, up]
          rw [down, enterAll_append, ← before]

/-- What keeps names from being directories one below the other: one that is too long or taken by a
file. Directories that are missing do not, they can be made. -/
def obstacle? (tree : FileTree) (place : Place) : List String → Option IoFault
  | [] => none
  | name :: rest =>
      if nameLimit < name.utf8ByteSize then some .nameTooLong
      else match tree.find? (place ++ [name]) with
        | some (.file _) => some (if rest = [] then .alreadyExists else .notDirectory)
        | _ => tree.obstacle? (place ++ [name]) rest

theorem Sound.obstacle?_append {tree : FileTree} (sound : tree.Sound) (place names : Place)
    (held : tree.find? (place ++ names) = some .dir) (rest : List String) :
    tree.obstacle? place (names ++ rest) = tree.obstacle? (place ++ names) rest := by
  induction names generalizing place with
  | nil => simp
  | cons name names ih =>
      obtain ⟨-, -, short⟩ := sound.isFileName held name (by simp)
      have onward : tree.find? ((place ++ [name]) ++ names) = some .dir := by simpa using held
      have there : tree.find? (place ++ [name]) = some .dir := by
        cases names with
        | nil => simpa using onward
        | cons next names => exact sound.above (by simp) onward
      rw [List.cons_append, obstacle?, if_neg (Nat.not_lt.mpr short), there]
      simp only [ih _ onward]
      rw [List.append_assoc, List.singleton_append]

theorem Sound.obstacle?_of_dir {tree : FileTree} (sound : tree.Sound) {place : Place}
    (held : tree.find? place = some .dir) : tree.obstacle? [] place = none := by
  have passed := sound.obstacle?_append [] place held []
  rwa [List.append_nil] at passed

theorem obstacle?_concat (tree : FileTree) (place : Place) (front : List String) (last : String) :
    tree.obstacle? place (front ++ [last]) = match tree.obstacle? place front with
      | none => tree.obstacle? (place ++ front) [last]
      | some .alreadyExists => some .notDirectory
      | some fault => some fault := by
  induction front generalizing place with
  | nil => simp [obstacle?]
  | cons name rest ih =>
      rw [List.cons_append, obstacle?, obstacle?]
      -- whatever is in the way before the last of these names is so for both, under one fault
      by_cases long : nameLimit < name.utf8ByteSize
      · simp [long]
      · rw [if_neg long, if_neg long, ih]
        have joined : place ++ [name] ++ rest = place ++ name :: rest := by simp
        rcases tree.find? (place ++ [name]) with _ | _ | content
        · simp only [joined]
        · simp only [joined]
        · by_cases empty : rest = [] <;> simp [empty]

theorem file_of_obstacle? {tree : FileTree} {place : Place} {names : List String}
    (taken : tree.obstacle? place names = some .alreadyExists) :
    ∃ content, tree.find? (place ++ names) = some (.file content) := by
  induction names generalizing place with
  | nil => cases taken
  | cons name rest ih =>
      rw [obstacle?] at taken
      split at taken
      · cases taken
      · split at taken
        · next content found =>
            split at taken
            · next empty => exact ⟨content, by rw [empty, found]⟩
            · cases taken
        · obtain ⟨content, found⟩ := ih taken
          exact ⟨content, by simpa using found⟩

theorem Sound.absent {tree : FileTree} (sound : tree.Sound) {place : Place}
    (missing : tree.find? place = none) (names : List String) : tree.find? (place ++ names) = none := by
  by_cases empty : names = []
  · simpa [empty] using missing
  · cases held : tree.find? (place ++ names) with
    | none => rfl
    | some entry =>
        rw [sound.above empty held] at missing
        cases missing

theorem Sound.dir_of_prefix {tree : FileTree} (sound : tree.Sound) {place upper : Place}
    (held : tree.find? place = some .dir) (prefixed : upper <+: place) :
    tree.find? upper = some .dir := by
  obtain ⟨rest, rfl⟩ := prefixed
  by_cases empty : rest = []
  · simpa [empty] using held
  · exact sound.above empty held

/-- A directory that can be made on the way to a place, with all above it. -/
def Opens (tree : FileTree) (way place : Place) : Prop :=
  place <+: way ∧ tree.obstacle? [] place = none

instance (tree : FileTree) (way place : Place) : Decidable (tree.Opens way place) :=
  inferInstanceAs (Decidable (_ ∧ _))

/-- What making a directory with all above it comes to: it fails at the first obstacle, and the
directories before that are there. -/
structure Paved (tree : FileTree) (way : Place) (result : Except IoFault Unit) (after : FileTree) :
    Prop where
  result : result = match tree.obstacle? [] way with
    | none => .ok ()
    | some fault => .error fault
  find? : ∀ place, after.find? place =
    if tree.find? place = none ∧ tree.Opens way place then some .dir else tree.find? place

theorem Paved.of_nothing {tree : FileTree} {way : Place} {result : Except IoFault Unit}
    (told : result = match tree.obstacle? [] way with
      | none => .ok ()
      | some fault => .error fault)
    (nothing : ∀ place, tree.Opens way place → tree.find? place ≠ none) :
    Paved tree way result tree :=
  ⟨told, fun place => (if_neg fun both => nothing place both.2 both.1).symm⟩

theorem Sound.paved_of_dir {tree : FileTree} (sound : tree.Sound) {way : Place}
    (held : tree.find? way = some .dir) : Paved tree way (.ok ()) tree := by
  refine .of_nothing (by rw [sound.obstacle?_of_dir held]) fun place opens => ?_
  rw [sound.dir_of_prefix held opens.1]
  simp

theorem obstacle?_singleton (tree : FileTree) (dir : Place) (last : String) :
    tree.obstacle? dir [last] = if nameLimit < last.utf8ByteSize then some .nameTooLong
      else match tree.find? (dir ++ [last]) with
        | some (.file _) => some .alreadyExists
        | _ => none := by
  simp only [obstacle?, if_true]

section Child

variable {tree : FileTree} (sound : tree.Sound) {dir : Place} (there : tree.find? dir = some .dir)
  {last : String}

include sound there

theorem Sound.obstacle?_child : tree.obstacle? [] (dir ++ [last]) = tree.obstacle? dir [last] :=
  sound.obstacle?_append [] _ there [last]

theorem Sound.eq_of_opens {place : Place} (opens : tree.Opens (dir ++ [last]) place)
    (missing : tree.find? place = none) : place = dir ++ [last] := by
  rcases List.prefix_concat_iff.mp opens.1 with same | upper
  · exact same
  · rw [sound.dir_of_prefix there upper] at missing
    cases missing

theorem Sound.paved_of_obstacle {fault : IoFault} (obstacle : tree.obstacle? dir [last] = some fault) :
    Paved tree (dir ++ [last]) (.error fault) tree := by
  rw [← sound.obstacle?_child there] at obstacle
  refine .of_nothing (by rw [obstacle]) fun place opens missing => ?_
  have free := opens.2
  rw [sound.eq_of_opens there opens missing, obstacle] at free
  cases free

theorem Sound.paved_of_insert (free : tree.obstacle? dir [last] = none)
    (missing : tree.find? (dir ++ [last]) = none) :
    Paved tree (dir ++ [last]) (.ok ()) (tree.insert (dir ++ [last]) .dir) := by
  rw [← sound.obstacle?_child there] at free
  refine ⟨by rw [free], fun place => ?_⟩
  rw [find?_insert tree _ _ (by simp)]
  by_cases here : place = dir ++ [last]
  · rw [if_pos here, here, if_pos ⟨missing, List.prefix_refl _, free⟩]
  · rw [if_neg here, if_neg fun both => here (sound.eq_of_opens there both.2 both.1)]

end Child

section Named

variable {tree : FileTree} {path : Path} {dir : Place} {last : String} {slash : Bool}
  (named : tree.target path = .ok ⟨dir, some last, slash⟩)

include named

theorem makeDir_of_named : tree.makeDir path =
    if nameLimit < last.utf8ByteSize then .error .nameTooLong
    else match tree.find? (dir ++ [last]) with
      | some _ => .error .alreadyExists
      | none => .ok (tree.insert (dir ++ [last]) .dir) := by
  unfold makeDir lookup
  rw [named]
  by_cases long : nameLimit < last.utf8ByteSize
  · simp [bind, Except.bind, long]
  · rcases found : tree.find? (dir ++ [last]) with _ | entry <;>
      simp [bind, Except.bind, long, found]

theorem isDir_of_named : tree.isDir path = true ↔
    last.utf8ByteSize ≤ nameLimit ∧ tree.find? (dir ++ [last]) = some .dir := by
  rw [isDir_iff, stat_eq_dir_iff, place_of_named named]
  constructor
  · rintro ⟨target, ended, held⟩
    rw [named] at ended
    cases ended
    exact held last rfl
  · rintro ⟨short, held⟩
    refine ⟨_, named, fun name same => ?_⟩
    cases same
    exact ⟨short, held⟩

theorem Sound.paved_of_named (sound : tree.Sound) (there : tree.find? dir = some .dir) :
    Paved tree path.place ((Disk.ensureDir path).run.run tree).1
      ((Disk.ensureDir path).run.run tree).2 := by
  have led := isDir_of_named named
  have obstacle := obstacle?_singleton tree dir last
  rw [Disk.run_ensureDir, makeDir_of_named named, place_of_named named]
  by_cases long : nameLimit < last.utf8ByteSize
  · have closed : tree.isDir path = false := by
      rw [← Bool.not_eq_true, led]
      exact fun both => Nat.not_le.mpr long both.1
    rw [if_pos long] at obstacle
    simp only [if_pos long, closed]
    exact sound.paved_of_obstacle there obstacle
  · rw [if_neg long] at obstacle
    simp only [if_neg long]
    -- nothing stands under the name, a directory does, or a file
    rcases found : tree.find? (dir ++ [last]) with _ | _ | content
    · rw [found] at obstacle
      exact sound.paved_of_insert there obstacle found
    · simp only [led.mpr ⟨Nat.le_of_not_lt long, found⟩, if_true]
      exact sound.paved_of_dir found
    · have closed : tree.isDir path = false := by
        rw [← Bool.not_eq_true, led, found]
        exact fun both => by cases both.2
      rw [found] at obstacle
      simp only [closed]
      exact sound.paved_of_obstacle there obstacle

end Named

theorem follow_of_stopped {tree : FileTree} {slash : Bool} {place : Place} {front : List String}
    {fault : IoFault} (stopped : tree.enterAll place front = .error fault) (last : String) :
    tree.follow slash place (front ++ [last]) = .error fault := by
  induction front generalizing place with
  | nil => cases stopped
  | cons piece rest ih =>
      have step : tree.follow slash place (piece :: rest ++ [last]) =
          (tree.enter place piece >>= fun next => tree.follow slash next (rest ++ [last])) := by
        cases rest <;> rfl
      rw [step]
      rw [enterAll] at stopped
      cases entered : tree.enter place piece with
      | error other =>
          rw [entered] at stopped
          cases stopped
          rfl
      | ok next =>
          rw [entered] at stopped
          exact ih stopped

section Paths

variable {tree : FileTree} {path : Path} {front : List String} {last : String}
  (zero : path.hasZero = false) (filled : path.text ≠ "") (split : path.pieces = front ++ [last])

include zero filled

theorem target_of_pieces {slash : Bool} {target : Except IoFault Target}
    (slashed : EndsInSlash path = slash) (followed : tree.follow slash [] path.pieces = target) :
    tree.target path = target := by
  unfold FileTree.target
  rw [if_neg (by simp [zero]), if_neg (by simpa using filled), ← followed, ← slashed]
  rfl

include split

theorem makeDir_of_stopped {fault : IoFault} (stopped : tree.enterAll [] front = .error fault) :
    tree.makeDir path = .error fault := by
  have ended : tree.target path = .error fault :=
    target_of_pieces zero filled rfl (by rw [split]; exact follow_of_stopped stopped last)
  simp [makeDir, ended, bind, Except.bind]

theorem target_of_passable (way : tree.Passable [] front) : tree.target path =
    .ok (Target.ofLast (EndsInSlash path) (Path.placeFrom [] front) last) :=
  target_of_pieces zero filled rfl (by rw [split]; exact (follow_eq_ok_iff ..).mpr ⟨way, rfl⟩)

theorem Sound.paved_of_passable (sound : tree.Sound) (way : tree.Passable [] front) :
    Paved tree path.place ((Disk.ensureDir path).run.run tree).1
      ((Disk.ensureDir path).run.run tree).2 := by
  have there := sound.placeFrom (find?_nil tree) way
  have ended := target_of_passable zero filled split way
  by_cases dots : last = "." ∨ last = ".."
  · have led : tree.isDir path = true := by
      rw [isDir_iff, stat_eq_dir_iff_passable, split, passable_append]
      rcases dots with rfl | rfl <;> simp [zero, filled, way, Passable]
    rw [Disk.run_ensureDir, makeDir_of_isDir led]
    simp only [led, if_true]
    apply sound.paved_of_dir
    rw [Path.place, split, Path.placeFrom_append]
    rcases dots with rfl | rfl
    · exact there
    · exact sound.dropLast there
  · obtain ⟨notHere, notUp⟩ := not_or.mp dots
    simp only [Target.ofLast, notHere, notUp, if_false] at ended
    exact sound.paved_of_named ended there

end Paths

/-- Paths above a path, innermost first, each one step shorter than the one before. -/
def Ascends : Path → List Path → Prop
  | path, [] => path.text ≠ "" ∧ path.pieces.length ≤ 1
  | path, parent :: above => path.text ≠ "" ∧
      (∃ last, last ≠ "." ∧ path.pieces = parent.pieces ++ [last]) ∧ Ascends parent above

theorem Ascends.filled {path : Path} {above : List Path} (ascends : Ascends path above) :
    path.text ≠ "" := by
  cases above with
  | nil => exact ascends.1
  | cons parent above => exact ascends.1

theorem hasZero_of_pieces {path parent : Path} (zero : path.hasZero = false)
    (inside : ∀ piece ∈ parent.pieces, piece ≠ "." → piece ∈ path.pieces) : parent.hasZero = false := by
  simp only [Path.hasZero, List.contains_eq_mem, decide_eq_false_iff_not] at zero ⊢
  intro held
  obtain ⟨piece, member, inPiece⟩ := Path.exists_mem_pieces held (by decide)
  refine zero (Path.mem_text_of_mem_pieces (inside piece member ?_) inPiece)
  rintro rfl
  exact absurd inPiece (by decide)

theorem obstacle?_of_append {tree : FileTree} {place : Place} {front back : List String}
    (free : tree.obstacle? place (front ++ back) = none) : tree.obstacle? place front = none := by
  induction back using List.reverseRecOn with
  | nil => rwa [List.append_nil] at free
  | append_singleton back last ih =>
      rw [← List.append_assoc, obstacle?_concat] at free
      apply ih
      split at free <;> simp_all

/-- On a way past a name that is in the way, everything that can be made is there already. -/
theorem Sound.dir_of_opens {tree : FileTree} (sound : tree.Sound) {front : Place} {name : String}
    (there : tree.find? front = some .dir) (blocked : tree.obstacle? [] (front ++ [name]) ≠ none)
    {way upper : Place} (beyond : front ++ [name] <+: way) (opens : tree.Opens way upper) :
    tree.find? upper = some .dir := by
  rcases List.prefix_or_prefix_of_prefix opens.1 beyond with upTo | ⟨rest, rfl⟩
  · rcases List.prefix_concat_iff.mp upTo with rfl | inFront
    · exact absurd opens.2 blocked
    · exact sound.dir_of_prefix there inFront
  · exact absurd (obstacle?_of_append opens.2) blocked

/-- What stops the names of a place from being entered one after the other: one that is missing, or an
obstacle; above an obstacle everything is there. -/
theorem Sound.stopped_cases {tree : FileTree} (sound : tree.Sound) {place : Place} {fault : IoFault}
    (ordinary : ∀ name ∈ place, IsName name) (stopped : tree.enterAll [] place = .error fault) :
    (fault = .notFound ∧ tree.find? place = none) ∨
      (fault ≠ .notFound ∧ ∀ last, tree.obstacle? [] (place ++ [last]) = some fault ∧
        ∀ upper, tree.Opens (place ++ [last]) upper → tree.find? upper ≠ none) := by
  obtain ⟨front, name, back, rfl, way, closed⟩ := exists_of_enterAll stopped
  have down : Path.placeFrom [] front = front :=
    Path.placeFrom_ordinary fun other member => ordinary other (by simp [member])
  have there : tree.find? front = some .dir := by
    have led := sound.placeFrom (find?_nil tree) way
    rwa [down] at led
  have onward : ∀ rest, tree.obstacle? [] (front ++ rest) = tree.obstacle? front rest :=
    sound.obstacle?_append [] _ there
  have named := ordinary name (by simp)
  have cut : ∀ last, front ++ name :: back ++ [last] = (front ++ [name]) ++ (back ++ [last]) := by simp
  have above : tree.obstacle? front [name] ≠ none → ∀ last upper,
      tree.Opens (front ++ name :: back ++ [last]) upper → tree.find? upper ≠ none := by
    intro blocked last upper opens
    rw [← onward] at blocked
    rw [sound.dir_of_opens there blocked ⟨_, (cut last).symm⟩ opens]
    simp
  rw [down] at closed
  simp only [enter, named.2.1, named.2.2.1, if_false, lookup] at closed
  -- what stops the name: it is too long, nothing stands under it, or a file does
  by_cases long : nameLimit < name.utf8ByteSize
  · simp only [long, if_true, bind, Except.bind, Except.error.injEq] at closed
    subst closed
    refine Or.inr ⟨nofun, fun last => ⟨?_, above ?_ last⟩⟩
    · rw [cut, List.append_assoc, onward, List.singleton_append, obstacle?, if_pos long]
    · rw [obstacle?, if_pos long]
      simp
  · simp only [long, if_false, bind, Except.bind] at closed
    rcases found : tree.find? (front ++ [name]) with _ | _ | content
    · rw [found] at closed
      cases closed
      refine Or.inl ⟨rfl, ?_⟩
      have below := sound.absent found back
      rwa [List.append_assoc] at below
    · rw [found] at closed
      cases closed
    · rw [found] at closed
      cases closed
      refine Or.inr ⟨nofun, fun last => ⟨?_, above ?_ last⟩⟩
      · rw [cut, List.append_assoc, onward, List.singleton_append, obstacle?, if_neg long, found]
        simp
      · rw [obstacle?, if_neg long, found]
        simp

/-- A directory that is made last: what was paved before it stays so, and it comes on top. -/
theorem Paved.snoc {tree middle after : FileTree} {way : Place} {last : String}
    {result : Except IoFault Unit} (first : Paved tree way (.ok ()) middle)
    (later : Paved middle (way ++ [last]) result after) (sound : tree.Sound) (whole : middle.Sound)
    (there : middle.find? way = some .dir) (missing : tree.find? way = none) :
    Paved tree (way ++ [last]) result after := by
  have free : tree.obstacle? [] way = none := by
    cases met : tree.obstacle? [] way with
    | none => rfl
    | some fault =>
        have told := first.result
        rw [met] at told
        cases told
  have absent : tree.find? (way ++ [last]) = none := sound.absent missing [last]
  have still : middle.find? (way ++ [last]) = none := by
    rw [first.find?, absent, if_neg]
    rintro ⟨-, prefixed, -⟩
    exact absurd prefixed.length_le (by simp)
  -- the last name is in the way before exactly when it is afterwards: by its length
  have same : middle.obstacle? [] (way ++ [last]) = tree.obstacle? [] (way ++ [last]) := by
    rw [obstacle?_concat tree, free, show middle.obstacle? [] (way ++ [last]) = _ from
      whole.obstacle?_append [] _ there [last]]
    simp [obstacle?, absent, still]
  refine ⟨by rw [later.result, same], fun place => ?_⟩
  rw [later.find?]
  -- at the end of the way, above it, or off it
  by_cases here : place = way ++ [last]
  · subst here
    simp only [still, absent, Opens, same]
  · by_cases upper : place <+: way
    · have open_ : tree.find? place = none → tree.Opens (way ++ [last]) place := fun _ =>
        ⟨upper.trans (List.prefix_append ..), by
          obtain ⟨rest, rfl⟩ := upper
          exact obstacle?_of_append free⟩
      have held := whole.dir_of_prefix there upper
      have before := first.find? place
      rw [held, if_neg (by simp)]
      rw [held] at before
      split at before
      · next both => rw [if_pos ⟨both.1, open_ both.1⟩]
      · rw [if_neg fun both => absurd (both.1 ▸ before) (by simp)]
        exact before
    · have off : ∀ (either : FileTree), ¬ either.Opens (way ++ [last]) place := by
        rintro either ⟨prefixed, -⟩
        rcases List.prefix_concat_iff.mp prefixed with equal | above
        · exact here equal
        · exact upper above
      rw [if_neg fun both => off _ both.2, if_neg fun both => off _ both.2, first.find?,
        if_neg fun both => upper both.2.1]

/-- When directories cannot be made on the way, none is made at its end. -/
theorem Paved.stuck {tree after : FileTree} {way : Place} {fault : IoFault}
    (first : Paved tree way (.error fault) after) (missing : tree.find? way = none) (last : String) :
    Paved tree (way ++ [last]) (.error fault) after := by
  have met : tree.obstacle? [] way = some fault := by
    have told := first.result
    split at told
    · cases told
    · next other met =>
        cases told
        exact met
  -- a file at the end of the way would be told differently below it, but nothing stands there
  have further : tree.obstacle? [] (way ++ [last]) = some fault := by
    rw [obstacle?_concat, met]
    split
    · next none => cases none
    · next taken =>
        rw [taken] at met
        obtain ⟨content, held⟩ := file_of_obstacle? met
        rw [show [] ++ way = way from rfl, missing] at held
        cases held
    · next other same => exact same.symm
  refine ⟨by rw [further], fun place => ?_⟩
  have same : tree.Opens (way ++ [last]) place ↔ tree.Opens way place := by
    constructor
    · rintro ⟨prefixed, free⟩
      rcases List.prefix_concat_iff.mp prefixed with rfl | above
      · rw [further] at free
        cases free
      · exact ⟨above, free⟩
    · exact fun opens => ⟨opens.1.trans (List.prefix_append ..), opens.2⟩
  simp only [first.find?, same]

theorem makeDir_ne_notFound {tree : FileTree} {path : Path} {target : Target}
    (ended : tree.target path = .ok target) : tree.makeDir path ≠ .error .notFound := by
  obtain ⟨dir, name, slash⟩ := target
  cases name with
  | none => simp [makeDir, ended, bind, Except.bind]
  | some name =>
      simp only [makeDir, ended, bind, Except.bind, lookup]
      by_cases long : nameLimit < name.utf8ByteSize
      · simp [long]
      · cases tree.find? (dir ++ [name]) <;> simp [long]

theorem run_ensureDirs_of_ne {tree : FileTree} {path : Path}
    (reached : tree.makeDir path ≠ .error .notFound) (above : List Path) :
    (Disk.ensureDirs path above).run.run tree = (Disk.ensureDir path).run.run tree := by
  cases above with
  | nil =>
      rw [Disk.ensureDirs, run_bind, run_get]
      simp only
  | cons parent above =>
      rw [Disk.ensureDirs, run_bind, run_get]
      simp only

section Ascent

variable {tree : FileTree} (sound : tree.Sound) {path : Path} (zero : path.hasZero = false)
  (filled : path.text ≠ "") (above : List Path)

include zero filled

/-- Where an obstacle is on the way no directory is made. -/
theorem paved_of_stopped {front : List String} {last : String}
    (split : path.pieces = front ++ [last]) {fault : IoFault}
    (stopped : tree.enterAll [] front = .error fault) (present : fault ≠ .notFound)
    (obstacle : tree.obstacle? [] path.place = some fault)
    (there : ∀ upper, tree.Opens path.place upper → tree.find? upper ≠ none) :
    Paved tree path.place ((Disk.ensureDirs path above).run.run tree).1
      ((Disk.ensureDirs path above).run.run tree).2 := by
  have made := makeDir_of_stopped zero filled split stopped
  have closed : tree.isDir path = false := by
    rw [← Bool.not_eq_true, isDir_iff, stat_eq_dir_iff_passable, split, passable_append]
    rintro ⟨-, -, way, -⟩
    rw [(enterAll_eq_ok_iff ..).mpr ⟨way, rfl⟩] at stopped
    cases stopped
  rw [run_ensureDirs_of_ne (by simpa [made] using present), Disk.run_ensureDir, made]
  simp only [closed]
  exact .of_nothing (by rw [obstacle]; rfl) there

include sound

theorem Sound.paved_at_once {front : List String} {last : String} (split : path.pieces = front ++ [last])
    (way : tree.Passable [] front) :
    Paved tree path.place ((Disk.ensureDirs path above).run.run tree).1
      ((Disk.ensureDirs path above).run.run tree).2 := by
  rw [run_ensureDirs_of_ne (makeDir_ne_notFound (target_of_passable zero filled split way))]
  exact sound.paved_of_passable zero filled split way

theorem Sound.paved_of_no_pieces (empty : path.pieces = []) :
    Paved tree path.place ((Disk.ensureDirs path above).run.run tree).1
      ((Disk.ensureDirs path above).run.run tree).2 := by
  have led : tree.isDir path = true := by
    rw [isDir_iff, stat_eq_dir_iff_passable, empty]
    exact ⟨zero, filled, trivial⟩
  have made := makeDir_of_isDir led
  rw [run_ensureDirs_of_ne (by simp [made]), Disk.run_ensureDir, made]
  simp only [led, if_true]
  exact sound.paved_of_dir (by simp [Path.place, empty, Path.placeFrom])

theorem Sound.paved_after {parent : Path} {last : String} (split : path.pieces = parent.pieces ++ [last])
    (stopped : tree.enterAll [] parent.pieces = .error .notFound)
    (down : path.place = parent.place ++ [last]) (missing : tree.find? parent.place = none)
    (first : Paved tree parent.place ((Disk.ensureDirs parent above).run.run tree).1
      ((Disk.ensureDirs parent above).run.run tree).2) :
    Paved tree path.place ((Disk.ensureDirs path (parent :: above)).run.run tree).1
      ((Disk.ensureDirs path (parent :: above)).run.run tree).2 := by
  rw [Disk.ensureDirs, run_bind, run_get]
  simp only [makeDir_of_stopped zero filled split stopped]
  rw [run_bind, down]
  cases ran : (Disk.ensureDirs parent above).run.run tree with
  | mk outcome middle =>
      rw [ran] at first
      obtain ⟨changes, led⟩ := Disk.ensureDirs_changes ran
      cases outcome with
      | error fault => exact first.stuck missing last
      | ok made =>
          have way := ((stat_eq_dir_iff_passable ..).mp ((isDir_iff ..).mp (led rfl))).2.2
          have whole := changes.sound sound
          have later := whole.paved_of_passable zero filled split way
          rw [down] at later
          exact first.snoc later sound whole (whole.placeFrom (find?_nil _) way) missing

end Ascent

/-- Directories are made from the innermost one that is there. -/
theorem Sound.paved_of_ascends {path : Path} {above : List Path} (ascends : Ascends path above)
    {tree : FileTree} (sound : tree.Sound) (zero : path.hasZero = false) (firm : tree.Firm path.pieces) :
    Paved tree path.place ((Disk.ensureDirs path above).run.run tree).1
      ((Disk.ensureDirs path above).run.run tree).2 := by
  have filled := ascends.filled
  induction above generalizing path with
  | nil =>
      rcases List.eq_nil_or_concat path.pieces with empty | ⟨front, last, split⟩
      · exact sound.paved_of_no_pieces zero filled [] empty
      · rw [List.concat_eq_append] at split
        have top : front = [] := by
          have short := ascends.2
          rw [split, List.length_append, List.length_singleton] at short
          exact List.eq_nil_of_length_eq_zero (by omega)
        subst top
        exact sound.paved_at_once zero filled [] split trivial
  | cons parent above ih =>
      obtain ⟨-, ⟨last, notHere, split⟩, onward⟩ := ascends
      cases entered : tree.enterAll [] parent.pieces with
      | ok next => exact sound.paved_at_once zero filled _ split ((enterAll_eq_ok_iff ..).mp entered).1
      | error fault =>
          -- a step upwards is firm, so the last step leads down
          have notUp : last ≠ ".." := by
            rintro rfl
            have way := firm parent.pieces [] split
            rw [(enterAll_eq_ok_iff ..).mpr ⟨way, rfl⟩] at entered
            cases entered
          have down : path.place = parent.place ++ [last] := by
            rw [Path.place, split, Path.placeFrom_append]
            simp [Path.placeFrom, notHere, notUp, Path.place]
          have upper := (split ▸ firm).front
          have stopped := entered
          rw [upper.enterAll_eq sound] at stopped
          rcases sound.stopped_cases (fun _ => Path.isName_of_mem_place) stopped with
            ⟨rfl, missing⟩ | ⟨present, obstacles⟩
          · have inner : parent.hasZero = false :=
              hasZero_of_pieces zero fun piece member _ => by simp [split, member]
            exact sound.paved_after zero filled above split entered down missing
              (ih onward inner upper onward.filled)
          · obtain ⟨obstacle, there⟩ := obstacles last
            rw [← down] at obstacle there
            exact paved_of_stopped zero filled _ split entered present obstacle there

theorem ascends_ofParts {parts : List PathPart} (ordered : Path.AreParts parts) (filled : parts ≠ []) :
    Ascends (Path.ofParts parts) (Disk.pathsAbove (Path.ofParts parts)) := by
  induction parts using List.reverseRecOn with
  | nil => exact absurd rfl filled
  | append_singleton init last ih =>
      obtain ⟨before, step⟩ := ordered.init
      by_cases top : init = []
      · subst top
        have above : Disk.pathsAbove (Path.ofParts ([] ++ [last])) = [] := by
          unfold Disk.pathsAbove
          rw [ordered.parts_ofParts]
          rfl
        rw [above]
        refine ⟨ordered.ofParts_text filled, ?_⟩
        rw [ordered.pieces_ofParts]
        exact List.length_filterMap_le ..
      · rw [Path.pathsAbove_ofParts top ordered]
        refine ⟨ordered.ofParts_text filled, ⟨last.text, ?_, ?_⟩, ih before top⟩
        · rcases step top with rfl | ⟨name, ordinary, rfl⟩
          · decide
          · exact ordinary.2.1
        · rw [ordered.pieces_ofParts, before.pieces_ofParts, List.filterMap_append]
          rcases step top with rfl | ⟨name, -, rfl⟩ <;> rfl

/-- What making a directory with all above it comes to, where each step upwards is firm. -/
theorem Sound.paved_of_parts {tree : FileTree} (sound : tree.Sound) {parts : List PathPart}
    (ordered : Path.AreParts parts) (filled : parts ≠ [])
    (zero : (Path.ofParts parts).hasZero = false) (firm : tree.Firm (Path.ofParts parts).pieces) :
    Paved tree (Path.ofParts parts).place ((Disk.createDirAll (Path.ofParts parts)).run.run tree).1
      ((Disk.createDirAll (Path.ofParts parts)).run.run tree).2 := by
  rw [Disk.createDirAll, if_neg (by simpa using ordered.ofParts_text filled)]
  exact sound.paved_of_ascends (ascends_ofParts ordered filled) zero firm

section Parent

variable {path : Path} {last : String} (named : path.parts.getLast? = some (.name last))

include named

theorem exists_parentOf : ∃ parts, Path.AreParts parts ∧ parts ≠ [] ∧
    Disk.parentOf path = Path.ofParts parts ∧ path.steps = (Disk.parentOf path).steps ++ [last] := by
  obtain ⟨init, split⟩ := List.getLast?_eq_some_iff.mp named
  have ordered := (split ▸ Path.areParts_parts path).init.1
  have parent : path.parent? = some (Path.ofParts init) := by
    unfold Path.parent?
    split
    · next empty => simp [empty] at split
    · next root =>
        rw [root] at split
        cases init with
        | nil => cases split
        | cons first rest => simp at split
    · rw [split, List.dropLast_concat]
  have steps := Path.steps_of_last split
  by_cases top : init = []
  · subst top
    have here : Disk.parentOf path = Path.ofParts [.here] := by
      rw [Disk.parentOf, parent]
      rfl
    refine ⟨[.here], ⟨[.here], [], rfl, by simp, nofun⟩, by simp, here, ?_⟩
    rw [here, steps]
    rfl
  · have above : Disk.parentOf path = Path.ofParts init := by
      rw [Disk.parentOf, parent]
      exact if_neg (by simpa using ordered.ofParts_text top)
    exact ⟨init, ordered, top, above, by rw [above, steps]⟩

theorem place_parentOf : path.place = (Disk.parentOf path).place ++ [last] := by
  obtain ⟨-, -, -, -, steps⟩ := exists_parentOf named
  have ordinary : IsName last := Path.mem_parts_name (List.mem_of_getLast? named)
  rw [← Path.placeFrom_steps, steps, Path.placeFrom_append, Path.placeFrom_steps]
  simp [Path.placeFrom, ordinary.2.1, ordinary.2.2.1]

theorem Sound.paved_parentOf {tree : FileTree} (sound : tree.Sound) (firm : tree.Firm path.pieces)
    (zero : (Disk.parentOf path).hasZero = false) :
    Paved tree (Disk.parentOf path).place ((Disk.createDirAll (Disk.parentOf path)).run.run tree).1
      ((Disk.createDirAll (Disk.parentOf path)).run.run tree).2 := by
  obtain ⟨parts, ordered, filled, same, steps⟩ := exists_parentOf named
  have above : tree.Firm (Disk.parentOf path).pieces := by
    rw [← firm_filter_iff] at firm ⊢
    change tree.Firm path.steps at firm
    rw [steps] at firm
    exact firm.front
  rw [same] at zero above ⊢
  exact sound.paved_of_parts ordered filled zero above

theorem hasZero_parentOf (zero : path.hasZero = false) : (Disk.parentOf path).hasZero = false := by
  obtain ⟨-, -, -, -, steps⟩ := exists_parentOf named
  refine hasZero_of_pieces zero fun piece member other => ?_
  have step : piece ∈ path.steps := by
    rw [steps]
    exact List.mem_append_left _ (List.mem_filter.mpr ⟨member, by simpa using other⟩)
  exact (List.mem_filter.mp step).1

theorem isDir_parentOf {tree : FileTree} (reached : tree.Reaches path) :
    tree.isDir (Disk.parentOf path) = true := by
  obtain ⟨-, -, -, -, steps⟩ := exists_parentOf named
  obtain ⟨dir, name, ended, -⟩ := reached
  obtain ⟨zero, -, -⟩ := (target_eq_ok_iff tree path _).mp ended
  rw [isDir_iff, stat_eq_dir_iff_passable]
  refine ⟨hasZero_parentOf named zero, Disk.parentOf_text path, ?_⟩
  rcases target_cases ended with ⟨-, same⟩ | ⟨front, final, split, way, same⟩
  · cases same
  -- the last step can be cut off the path or off its steps; what is left leads the same way
  · have cut : path.steps = (front.filter fun piece => piece ≠ ".") ++
        ([final].filter fun piece => piece ≠ ".") := by
      rw [Path.steps, split, List.filter_append]
    have other : final ≠ "." := by
      rintro rfl
      cases same
    rw [List.filter_cons_of_pos (by simpa using other), List.filter_nil, steps] at cut
    rw [← passable_filter, show (Disk.parentOf path).pieces.filter (fun piece => piece ≠ ".") =
      (Disk.parentOf path).steps from rfl, (List.append_inj' cut rfl).1, passable_filter]
    exact way

end Parent

theorem Reaches.run_writeAtomic {tree : FileTree} {path : Path} (reached : tree.Reaches path)
    (free : tree.find? path.place ≠ some .dir) (content : ByteArray) :
    (Disk.writeAtomic path content).run.run tree =
      (.ok (), tree.insert path.place (.file content)) := by
  have there : tree.isDir (Disk.parentOf path) = true := by
    obtain ⟨dir, name, ended, -⟩ := id reached
    exact isDir_parentOf (parts_of_named ended) reached
  have done := (replace_eq_ok_iff tree _ path content).mpr ⟨reached, free, rfl⟩
  rw [Disk.run_writeAtomic, Disk.run_createDirAll_of_isDir there]
  simp only [done]

end FileTree

end SourceAtlas
