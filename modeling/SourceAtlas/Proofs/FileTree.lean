import SourceAtlas.Proofs.Path
/-!
What operations on a file tree do to the entry at each place. Every operation that goes by a path
touches the place that the path leads to and no other; it succeeds exactly when the way there exists
and the entry there is of the right kind.
-/

namespace SourceAtlas.FileTree

def IsFileName (name : String) : Prop :=
  IsName name ∧ '\x00' ∉ name.toList ∧ name.utf8ByteSize ≤ nameLimit

instance (name : String) : Decidable (IsFileName name) :=
  inferInstanceAs (Decidable (IsName name ∧ '\x00' ∉ name.toList ∧ name.utf8ByteSize ≤ nameLimit))

/-- What every file system keeps to: entries have names that a directory can hold, and what an entry
stands in is a directory. -/
structure Sound (tree : FileTree) : Prop where
  named : ∀ place entry, tree.entries[place]? = some entry →
    place ≠ [] ∧ ∀ name ∈ place, IsFileName name
  rooted : ∀ place name entry, tree.find? (place ++ [name]) = some entry → tree.find? place = some .dir

@[simp] theorem find?_nil (tree : FileTree) : tree.find? [] = some .dir := by simp [find?]

theorem find?_of_ne_nil (tree : FileTree) {place : Place} (below : place ≠ []) :
    tree.find? place = tree.entries[place]? := by simp [find?, below]

theorem insert_entries_getElem? (tree : FileTree) (place : Place) (entry : FileEntry) (other : Place) :
    (tree.insert place entry).entries[other]? =
      if other = place then some entry else tree.entries[other]? := by
  by_cases same : other = place
  · simp [insert, same]
  · simp [insert, same, Std.ExtTreeMap.getElem?_insert, Ne.symm same]

theorem erase_entries_getElem? (tree : FileTree) (place other : Place) :
    (tree.erase place).entries[other]? = if other = place then none else tree.entries[other]? := by
  by_cases same : other = place
  · simp [erase, same]
  · simp [erase, same, Std.ExtTreeMap.getElem?_erase, Ne.symm same]

theorem find?_insert (tree : FileTree) {place : Place} (entry : FileEntry) (other : Place)
    (below : place ≠ []) :
    (tree.insert place entry).find? other = if other = place then some entry else tree.find? other := by
  unfold find?
  rw [insert_entries_getElem?]
  by_cases top : other = []
  · simp [top, Ne.symm below]
  · simp [top]

theorem find?_erase (tree : FileTree) {place : Place} (other : Place) (below : place ≠ []) :
    (tree.erase place).find? other = if other = place then none else tree.find? other := by
  unfold find?
  rw [erase_entries_getElem?]
  by_cases top : other = []
  · simp [top, Ne.symm below]
  · simp [top]

theorem mem_below_iff (tree : FileTree) (place names : Place) (entry : FileEntry) :
    (names, entry) ∈ tree.below place ↔ names ≠ [] ∧ tree.find? (place ++ names) = some entry := by
  unfold below
  rw [List.mem_filterMap]
  constructor
  · rintro ⟨⟨other, stood⟩, member, kept⟩
    simp only [Option.ite_none_right_eq_some, Bool.and_eq_true, bne_iff_ne] at kept
    obtain ⟨⟨lower, strict⟩, same⟩ := kept
    cases same
    obtain ⟨rest, rfl⟩ := List.isPrefixOf_iff_prefix.mp lower
    rw [List.drop_left]
    have filled : rest ≠ [] := by
      rintro rfl
      simp at strict
    refine ⟨filled, ?_⟩
    rw [find?_of_ne_nil tree (by simp [filled])]
    exact Std.ExtTreeMap.mem_toList_iff_getElem?_eq_some.mp member
  · rintro ⟨filled, held⟩
    refine ⟨(place ++ names, entry), ?_, ?_⟩
    · rw [find?_of_ne_nil tree (by simp [filled])] at held
      exact Std.ExtTreeMap.mem_toList_iff_getElem?_eq_some.mpr held
    · have strict : place ++ names ≠ place := by simp [filled]
      simp [strict]

/-- Putting back what stands at a place changes nothing. -/
theorem insert_of_find? {tree : FileTree} {place : Place} {entry : FileEntry} (below : place ≠ [])
    (found : tree.find? place = some entry) : tree.insert place entry = tree := by
  rw [find?_of_ne_nil tree below] at found
  have same : tree.entries.insert place entry = tree.entries := by
    apply Std.ExtTreeMap.ext_getElem?
    intro other
    rw [Std.ExtTreeMap.getElem?_insert]
    split
    · next equal =>
        rw [← Std.LawfulEqCmp.eq_of_compare equal, found]
    · rfl
  cases tree
  simpa [insert] using same

/-- After an operation only the touched places hold something else than before, but for directories
where nothing stood; directories stay, and what file systems keep to is kept. -/
structure Changes (touched : Place → Prop) (before after : FileTree) : Prop where
  elsewhere : ∀ place, ¬ touched place → after.find? place = before.find? place ∨
    (before.find? place = none ∧ after.find? place = some .dir)
  dirs : ∀ place, before.find? place = some .dir → after.find? place = some .dir
  sound : before.Sound → after.Sound

namespace Changes

variable {touched others : Place → Prop} {before middle after : FileTree}

theorem refl (touched : Place → Prop) (tree : FileTree) : Changes touched tree tree :=
  ⟨fun _ _ => Or.inl rfl, fun _ found => found, fun sound => sound⟩

theorem mono (changes : Changes touched before after) (wider : ∀ place, touched place → others place) :
    Changes others before after :=
  ⟨fun place outside => changes.elsewhere place fun inside => outside (wider place inside),
    changes.dirs, changes.sound⟩

theorem of_none (changes : Changes (fun _ => False) before after) : Changes touched before after :=
  changes.mono fun _ => False.elim

theorem trans (first : Changes touched before middle) (second : Changes touched middle after) :
    Changes touched before after where
  elsewhere place outside := by
    rcases second.elsewhere place outside with same | ⟨absent, made⟩
    · rw [same]
      exact first.elsewhere place outside
    · rcases first.elsewhere place outside with kept | ⟨-, dir⟩
      · exact Or.inr ⟨by rw [← kept, absent], made⟩
      · rw [dir] at absent
        cases absent
  dirs place found := second.dirs place (first.dirs place found)
  sound intact := second.sound (first.sound intact)

theorem file (changes : Changes touched before after) {place : Place} {content : ByteArray}
    (outside : ¬ touched place) (found : before.find? place = some (.file content)) :
    after.find? place = some (.file content) := by
  rcases changes.elsewhere place outside with same | ⟨absent, -⟩
  · rw [same, found]
  · rw [found] at absent
    cases absent

theorem file_before (changes : Changes touched before after) {place : Place} {content : ByteArray}
    (outside : ¬ touched place) (found : after.find? place = some (.file content)) :
    before.find? place = some (.file content) := by
  rcases changes.elsewhere place outside with same | ⟨-, dir⟩
  · rw [← same, found]
  · rw [found] at dir
    cases dir

end Changes

/-- The directories that the pieces of a path lead through are there. -/
def Passable (tree : FileTree) (place : Place) : List String → Prop
  | [] => True
  | piece :: rest =>
      (piece ≠ "." → piece ≠ ".." →
        piece.utf8ByteSize ≤ nameLimit ∧ tree.find? (place ++ [piece]) = some .dir) ∧
      Passable tree (Path.placeFrom place [piece]) rest

theorem passable_append (tree : FileTree) (place : Place) (before after : List String) :
    tree.Passable place (before ++ after) ↔
      tree.Passable place before ∧ tree.Passable (Path.placeFrom place before) after := by
  induction before generalizing place with
  | nil => simp [Passable, Path.placeFrom]
  | cons piece rest ih =>
      have onward : Path.placeFrom place (piece :: rest) =
          Path.placeFrom (Path.placeFrom place [piece]) rest := rfl
      rw [List.cons_append, Passable, Passable, ih, onward, and_assoc]

theorem Passable.mono {before after : FileTree}
    (dirs : ∀ place, before.find? place = some .dir → after.find? place = some .dir)
    {place : Place} {pieces : List String} (way : before.Passable place pieces) :
    after.Passable place pieces := by
  induction pieces generalizing place with
  | nil => trivial
  | cons piece rest ih =>
      refine ⟨fun notHere notUp => ?_, ih way.2⟩
      obtain ⟨short, found⟩ := way.1 notHere notUp
      exact ⟨short, dirs _ found⟩

theorem lookup_eq_ok_iff (tree : FileTree) (place : Place) (name : String) (found : Option FileEntry) :
    tree.lookup place name = .ok found ↔
      name.utf8ByteSize ≤ nameLimit ∧ found = tree.find? (place ++ [name]) := by
  unfold lookup
  split
  · next long => simp [Nat.not_le.mpr long]
  · next short => simp [Nat.not_lt.mp short, eq_comm]

theorem enter_eq_ok_iff (tree : FileTree) (place next : Place) (piece : String) :
    tree.enter place piece = .ok next ↔
      (piece ≠ "." → piece ≠ ".." →
        piece.utf8ByteSize ≤ nameLimit ∧ tree.find? (place ++ [piece]) = some .dir) ∧
      next = Path.placeFrom place [piece] := by
  unfold enter
  by_cases here : piece = "."
  · simp [here, Path.placeFrom, eq_comm]
  · by_cases up : piece = ".."
    · simp [up, Path.placeFrom, eq_comm]
    · rw [if_neg here, if_neg up]
      have down : Path.placeFrom place [piece] = place ++ [piece] := by simp [Path.placeFrom, here, up]
      rw [down]
      cases found : tree.lookup place piece with
      | error fault =>
          have absent : ¬ piece.utf8ByteSize ≤ nameLimit := by
            intro short
            have entry := (lookup_eq_ok_iff tree place piece _).mpr ⟨short, rfl⟩
            rw [found] at entry
            cases entry
          simp [bind, Except.bind, here, up, absent]
      | ok entry =>
          obtain ⟨short, same⟩ := (lookup_eq_ok_iff tree place piece entry).mp found
          rw [← same]
          rcases entry with _ | _ | content <;>
            simp [bind, Except.bind, here, up, short, eq_comm]

def Target.ofLast (slash : Bool) (place : Place) (last : String) : Target :=
  if last = "." then ⟨place, none, slash⟩
  else if last = ".." then ⟨place.dropLast, none, slash⟩
  else ⟨place, some last, slash⟩

def Target.place (target : Target) : Place := target.dir ++ target.name.toList

theorem Target.place_ofLast (slash : Bool) (place : Place) (last : String) :
    (ofLast slash place last).place = Path.placeFrom place [last] := by
  unfold ofLast
  by_cases here : last = "."
  · simp [here, Target.place, Path.placeFrom]
  · by_cases up : last = ".."
    · simp [up, Target.place, Path.placeFrom]
    · simp [here, up, Target.place, Path.placeFrom]

theorem follow_eq_ok_iff (tree : FileTree) (slash : Bool) (place : Place) (front : List String)
    (last : String) (target : Target) :
    tree.follow slash place (front ++ [last]) = .ok target ↔
      tree.Passable place front ∧
        target = Target.ofLast slash (Path.placeFrom place front) last := by
  induction front generalizing place with
  | nil =>
      simp only [List.nil_append, follow, Passable, true_and, Path.placeFrom, Target.ofLast]
      split
      · simp [eq_comm]
      · split <;> simp [eq_comm]
  | cons piece rest ih =>
      have step : tree.follow slash place (piece :: rest ++ [last]) =
          (tree.enter place piece >>= fun next => tree.follow slash next (rest ++ [last])) := by
        cases rest <;> rfl
      have onward : Path.placeFrom place (piece :: rest) =
          Path.placeFrom (Path.placeFrom place [piece]) rest := rfl
      rw [step, Passable, onward]
      cases entered : tree.enter place piece with
      | error fault =>
          have closed : ¬ (piece ≠ "." → piece ≠ ".." →
              piece.utf8ByteSize ≤ nameLimit ∧ tree.find? (place ++ [piece]) = some .dir) := by
            intro way
            have opened := (enter_eq_ok_iff tree place _ piece).mpr ⟨way, rfl⟩
            rw [entered] at opened
            cases opened
          simp [bind, Except.bind, closed]
      | ok next =>
          obtain ⟨way, rfl⟩ := (enter_eq_ok_iff tree place next piece).mp entered
          rw [and_assoc, ← ih]
          simp only [bind, Except.bind]
          exact ⟨fun followed => ⟨way, followed⟩, fun both => both.2⟩

def EndsInSlash (path : Path) : Bool := path.text.toList.getLast? == some '/'

theorem target_eq_ok_iff (tree : FileTree) (path : Path) (target : Target) :
    tree.target path = .ok target ↔ path.hasZero = false ∧ path.text ≠ "" ∧
      tree.follow (EndsInSlash path) [] path.pieces = .ok target := by
  unfold FileTree.target
  cases zero : path.hasZero with
  | true => simp
  | false =>
      by_cases empty : path.text = ""
      · simp [empty]
      · simp [empty, EndsInSlash]

/-- The pieces of a path on the way to where it ends, and the last one. -/
theorem target_cases {tree : FileTree} {path : Path} {target : Target}
    (found : tree.target path = .ok target) :
    (path.pieces = [] ∧ target = ⟨[], none, EndsInSlash path⟩) ∨
      ∃ front last, path.pieces = front ++ [last] ∧ tree.Passable [] front ∧
        target = Target.ofLast (EndsInSlash path) (Path.placeFrom [] front) last := by
  obtain ⟨-, -, followed⟩ := (target_eq_ok_iff tree path target).mp found
  rcases List.eq_nil_or_concat path.pieces with empty | ⟨front, last, split⟩
  · left
    rw [empty] at followed
    exact ⟨empty, by simpa [follow] using followed.symm⟩
  · right
    rw [List.concat_eq_append] at split
    rw [split] at followed
    exact ⟨front, last, split, (follow_eq_ok_iff ..).mp followed⟩

/-- A path ends at its place, in whatever tree. -/
theorem place_of_target {tree : FileTree} {path : Path} {target : Target}
    (found : tree.target path = .ok target) : target.place = path.place := by
  rcases target_cases found with ⟨empty, rfl⟩ | ⟨front, last, split, -, rfl⟩
  · simp [Target.place, Path.place, empty, Path.placeFrom]
  · rw [Target.place_ofLast, Path.place, split, Path.placeFrom_append]

theorem target_mono {before after : FileTree}
    (dirs : ∀ place, before.find? place = some .dir → after.find? place = some .dir)
    {path : Path} {target : Target} (found : before.target path = .ok target) :
    after.target path = .ok target := by
  obtain ⟨zero, filled, followed⟩ := (target_eq_ok_iff before path target).mp found
  refine (target_eq_ok_iff after path target).mpr ⟨zero, filled, ?_⟩
  rcases List.eq_nil_or_concat path.pieces with empty | ⟨front, last, split⟩
  · rw [empty] at followed ⊢
    exact followed
  · rw [split, List.concat_eq_append] at followed ⊢
    obtain ⟨way, same⟩ := (follow_eq_ok_iff ..).mp followed
    exact (follow_eq_ok_iff ..).mpr ⟨way.mono dirs, same⟩

/-- A path leads to a name in a directory that is there; it may hold an entry of that name or not. -/
def Reaches (tree : FileTree) (path : Path) : Prop :=
  ∃ dir name, tree.target path = .ok ⟨dir, some name, false⟩ ∧ name.utf8ByteSize ≤ nameLimit

theorem Reaches.mono {before after : FileTree}
    (dirs : ∀ place, before.find? place = some .dir → after.find? place = some .dir)
    {path : Path} (reached : before.Reaches path) : after.Reaches path := by
  obtain ⟨dir, name, found, short⟩ := reached
  exact ⟨dir, name, target_mono dirs found, short⟩

theorem place_of_named {tree : FileTree} {path : Path} {dir : Place} {name : String} {slash : Bool}
    (found : tree.target path = .ok ⟨dir, some name, slash⟩) : path.place = dir ++ [name] :=
  (place_of_target found).symm

theorem Reaches.place_ne_nil {tree : FileTree} {path : Path} (reached : tree.Reaches path) :
    path.place ≠ [] := by
  obtain ⟨dir, name, found, -⟩ := reached
  simp [place_of_named found]

theorem parts_of_named {tree : FileTree} {path : Path} {dir : Place} {name : String} {slash : Bool}
    (found : tree.target path = .ok ⟨dir, some name, slash⟩) :
    path.parts.getLast? = some (.name name) := by
  rcases target_cases found with ⟨-, same⟩ | ⟨front, last, split, -, same⟩
  · cases same
  · unfold Target.ofLast at same
    split at same
    · cases same
    · next notHere =>
        split at same
        · cases same
        · next notUp =>
            cases same
            have part : Path.partOf? name = some (.name name) := by simp [Path.partOf?, notHere, notUp]
            have inner : (path.pieces.filterMap Path.partOf?).getLast? = some (.name name) := by
              simp [split, List.filterMap_append, part]
            unfold Path.parts
            split
            · simp [List.getLast?_cons, inner]
            · split
              · simp [List.getLast?_cons, inner]
              · exact inner

theorem stat_eq_file_iff (tree : FileTree) (path : Path) (content : ByteArray) :
    tree.stat path = .ok (.file content) ↔
      tree.Reaches path ∧ tree.find? path.place = some (.file content) := by
  constructor
  · intro found
    unfold stat at found
    cases ended : tree.target path with
    | error fault => rw [ended] at found; cases found
    | ok target =>
        rcases target with ⟨dir, _ | name, slash⟩
        · rw [ended] at found
          cases found
        · simp only [ended, bind, Except.bind] at found
          cases looked : tree.lookup dir name with
          | error fault => rw [looked] at found; cases found
          | ok entry =>
              obtain ⟨short, same⟩ := (lookup_eq_ok_iff tree dir name entry).mp looked
              rw [looked] at found
              rcases entry with _ | _ | other
              · cases found
              · cases found
              · cases slash with
                | true => cases found
                | false =>
                    cases found
                    exact ⟨⟨dir, name, ended, short⟩, by rw [place_of_named ended, same]⟩
  · rintro ⟨⟨dir, name, ended, short⟩, held⟩
    rw [place_of_named ended] at held
    have looked := (lookup_eq_ok_iff tree dir name _).mpr ⟨short, rfl⟩
    simp [stat, ended, bind, Except.bind, looked, held]

/-- Bytes that are a text are the bytes of that text. -/
theorem fromUTF8?_eq_some_iff (content : ByteArray) (text : String) :
    String.fromUTF8? content = some text ↔ content = text.toUTF8 := by
  unfold String.fromUTF8?
  constructor
  · intro decoded
    split at decoded
    · cases decoded
      rfl
    · cases decoded
  · rintro rfl
    exact dif_pos text.isValidUTF8

theorem read_eq_ok_iff (tree : FileTree) (path : Path) (content : ByteArray) :
    tree.read path = .ok content ↔
      tree.Reaches path ∧ tree.find? path.place = some (.file content) := by
  rw [← stat_eq_file_iff]
  unfold read
  cases tree.stat path with
  | error fault => simp [bind, Except.bind]
  | ok entry => cases entry <;> simp [bind, Except.bind]

theorem readText_eq_ok_iff (tree : FileTree) (path : Path) (text : String) :
    tree.readText path = .ok text ↔
      tree.Reaches path ∧ tree.find? path.place = some (.file text.toUTF8) := by
  rw [← read_eq_ok_iff]
  unfold readText
  cases tree.read path with
  | error fault => simp [bind, Except.bind]
  | ok content =>
      simp only [bind, Except.bind, Except.ok.injEq, ← fromUTF8?_eq_some_iff]
      cases String.fromUTF8? content <;> simp

theorem replace_eq_ok_iff (tree after : FileTree) (path : Path) (content : ByteArray) :
    tree.replace path content = .ok after ↔
      tree.Reaches path ∧ tree.find? path.place ≠ some .dir ∧
        after = tree.insert path.place (.file content) := by
  constructor
  · intro done
    unfold replace at done
    cases zero : path.hasZero with
    | true => rw [zero] at done; cases done
    | false =>
        cases ended : tree.target path with
        | error fault => simp [zero, ended, bind, Except.bind] at done
        | ok target =>
            rcases target with ⟨dir, _ | name, slash⟩
            · simp [zero, ended, bind, Except.bind] at done
            · cases looked : tree.lookup dir name with
              | error fault => simp [zero, ended, looked, bind, Except.bind] at done
              | ok entry =>
                  obtain ⟨short, same⟩ := (lookup_eq_ok_iff tree dir name entry).mp looked
                  rw [place_of_named ended, ← same]
                  -- a free place and a file are written unless the path ends in a slash; a directory never is
                  rcases entry with _ | _ | other
                  · cases slash with
                    | true => simp [zero, ended, looked, bind, Except.bind] at done
                    | false =>
                        simp only [zero, ended, looked, bind, Except.bind] at done
                        cases done
                        exact ⟨⟨dir, name, ended, short⟩, by simp, rfl⟩
                  · cases slash <;>
                      simp [zero, ended, looked, bind, Except.bind] at done
                  · cases slash with
                    | true => simp [zero, ended, looked, bind, Except.bind] at done
                    | false =>
                        simp only [zero, ended, looked, bind, Except.bind] at done
                        cases done
                        exact ⟨⟨dir, name, ended, short⟩, by simp, rfl⟩
  · rintro ⟨⟨dir, name, ended, short⟩, free, rfl⟩
    obtain ⟨zero, -, -⟩ := (target_eq_ok_iff tree path _).mp ended
    rw [place_of_named ended] at free ⊢
    have looked := (lookup_eq_ok_iff tree dir name _).mpr ⟨short, rfl⟩
    unfold replace
    simp only [zero, ended, looked, bind, Except.bind]
    rcases found : tree.find? (dir ++ [name]) with _ | _ | other
    · rfl
    · exact absurd found free
    · rfl

theorem unlink_eq_ok_iff (tree after : FileTree) (path : Path) :
    tree.unlink path = .ok after ↔
      tree.Reaches path ∧ (∃ content, tree.find? path.place = some (.file content)) ∧
        after = tree.erase path.place := by
  constructor
  · intro done
    unfold unlink at done
    cases ended : tree.target path with
    | error fault => rw [ended] at done; cases done
    | ok target =>
        rcases target with ⟨dir, _ | name, slash⟩
        · rw [ended] at done
          cases done
        · cases looked : tree.lookup dir name with
          | error fault => simp [ended, looked, bind, Except.bind] at done
          | ok entry =>
              obtain ⟨short, same⟩ := (lookup_eq_ok_iff tree dir name entry).mp looked
              rw [place_of_named ended, ← same]
              simp only [ended, looked, bind, Except.bind] at done
              rcases entry with _ | _ | content
              · cases done
              · cases done
              · cases slash with
                | true => cases done
                | false =>
                    cases done
                    exact ⟨⟨dir, name, ended, short⟩, ⟨content, rfl⟩, rfl⟩
  · rintro ⟨⟨dir, name, ended, short⟩, ⟨content, held⟩, rfl⟩
    rw [place_of_named ended] at held ⊢
    have looked := (lookup_eq_ok_iff tree dir name _).mpr ⟨short, rfl⟩
    simp [unlink, ended, bind, Except.bind, looked, held]

theorem stat_eq_dir_iff (tree : FileTree) (path : Path) :
    tree.stat path = .ok .dir ↔ ∃ target, tree.target path = .ok target ∧
      ∀ name, target.name = some name →
        name.utf8ByteSize ≤ nameLimit ∧ tree.find? path.place = some .dir := by
  constructor
  · intro found
    unfold stat at found
    cases ended : tree.target path with
    | error fault => rw [ended] at found; cases found
    | ok target =>
        rcases target with ⟨dir, _ | name, slash⟩
        · exact ⟨_, rfl, by simp⟩
        · simp only [ended, bind, Except.bind] at found
          cases looked : tree.lookup dir name with
          | error fault => rw [looked] at found; cases found
          | ok entry =>
              obtain ⟨short, same⟩ := (lookup_eq_ok_iff tree dir name entry).mp looked
              rw [looked] at found
              rcases entry with _ | _ | other
              · cases found
              · refine ⟨_, rfl, fun other named => ?_⟩
                cases named
                exact ⟨short, by rw [place_of_named ended, same]⟩
              · cases slash <;> cases found
  · rintro ⟨⟨dir, _ | name, slash⟩, ended, held⟩
    · simp [stat, ended, bind, Except.bind]
    · obtain ⟨short, found⟩ := held name rfl
      rw [place_of_named ended] at found
      have looked := (lookup_eq_ok_iff tree dir name _).mpr ⟨short, rfl⟩
      simp [stat, ended, bind, Except.bind, looked, found]

theorem isDir_iff (tree : FileTree) (path : Path) :
    tree.isDir path = true ↔ tree.stat path = .ok .dir := by
  unfold isDir
  rcases tree.stat path with fault | _ | content <;> simp

theorem place?_of_stat {tree : FileTree} {path : Path} {entry : FileEntry}
    (stood : tree.stat path = .ok entry) : tree.place? path = some path.place := by
  cases ended : tree.target path with
  | error fault => simp [stat, ended, bind, Except.bind] at stood
  | ok target =>
      rw [← place_of_target ended]
      simp only [place?, stood, ended]
      rfl

theorem stat_of_place? {tree : FileTree} {path : Path} {place : Place}
    (there : tree.place? path = some place) :
    path.place = place ∧ ∃ entry, tree.stat path = .ok entry := by
  cases stood : tree.stat path with
  | error fault => simp [place?, stood] at there
  | ok entry =>
      rw [place?_of_stat stood, Option.some_inj] at there
      exact ⟨there, entry, rfl⟩

theorem stat_dir_mono {before after : FileTree}
    (dirs : ∀ place, before.find? place = some .dir → after.find? place = some .dir)
    {path : Path} (found : before.stat path = .ok .dir) : after.stat path = .ok .dir := by
  obtain ⟨target, ended, held⟩ := (stat_eq_dir_iff before path).mp found
  refine (stat_eq_dir_iff after path).mpr ⟨target, target_mono dirs ended, fun name named => ?_⟩
  exact ⟨(held name named).1, dirs _ (held name named).2⟩

theorem Sound.dropLast {tree : FileTree} (sound : tree.Sound) {place : Place}
    (found : tree.find? place = some .dir) : tree.find? place.dropLast = some .dir := by
  rcases List.eq_nil_or_concat place with rfl | ⟨front, last, rfl⟩
  · exact found
  · rw [List.concat_eq_append] at found ⊢
    rw [List.dropLast_concat]
    exact sound.rooted front last .dir found

/-- Pieces that can be passed from a directory lead to a directory. -/
theorem Sound.placeFrom {tree : FileTree} (sound : tree.Sound) {place : Place} {pieces : List String}
    (start : tree.find? place = some .dir) (way : tree.Passable place pieces) :
    tree.find? (Path.placeFrom place pieces) = some .dir := by
  induction pieces generalizing place with
  | nil => exact start
  | cons piece rest ih =>
      refine ih ?_ way.2
      by_cases here : piece = "."
      · simpa [Path.placeFrom, here] using start
      · by_cases up : piece = ".."
        · simpa [Path.placeFrom, up] using sound.dropLast start
        · simpa [Path.placeFrom, here, up] using (way.1 here up).2

/-- A path that ends under a name ends in a directory, and the name is one that it can hold. -/
theorem Sound.named_target {tree : FileTree} (sound : tree.Sound) {path : Path} {dir : Place}
    {name : String} {slash : Bool} (found : tree.target path = .ok ⟨dir, some name, slash⟩) :
    tree.find? dir = some .dir ∧ (name.utf8ByteSize ≤ nameLimit → IsFileName name) := by
  obtain ⟨zero, -, -⟩ := (target_eq_ok_iff tree path _).mp found
  rcases target_cases found with ⟨-, same⟩ | ⟨front, last, split, way, same⟩
  · cases same
  · have member : last ∈ path.pieces := by simp [split]
    unfold Target.ofLast at same
    split at same
    · cases same
    · next notHere =>
        split at same
        · cases same
        · next notUp =>
            cases same
            refine ⟨sound.placeFrom (find?_nil tree) way, fun short => ?_⟩
            obtain ⟨filled, slashless⟩ := Path.mem_pieces member
            refine ⟨⟨filled, notHere, notUp, slashless⟩, fun held => ?_, short⟩
            have inText := Path.mem_text_of_mem_pieces member held
            simp [Path.hasZero] at zero
            exact zero inText

theorem Sound.stat_dir {tree : FileTree} (sound : tree.Sound) {path : Path}
    (found : tree.stat path = .ok .dir) : tree.find? path.place = some .dir := by
  obtain ⟨⟨dir, _ | name, slash⟩, ended, held⟩ := (stat_eq_dir_iff tree path).mp found
  · rw [← place_of_target ended]
    rcases target_cases ended with ⟨-, same⟩ | ⟨front, last, split, way, same⟩
    · cases same
      simp [Target.place]
    · -- the last piece is a dot or two, and leads from a directory to one
      have start := sound.placeFrom (find?_nil tree) way
      unfold Target.ofLast at same
      split at same
      · cases same
        simpa [Target.place] using start
      · split at same
        · cases same
          simpa [Target.place] using sound.dropLast start
        · cases same
  · exact (held name rfl).2

theorem Sound.insert {tree : FileTree} (sound : tree.Sound) (dir : Place) (name : String)
    (entry : FileEntry) (held : tree.find? dir = some .dir) (ordinary : IsFileName name)
    (kind : tree.find? (dir ++ [name]) = some .dir → entry = .dir) :
    (tree.insert (dir ++ [name]) entry).Sound := by
  have below : dir ++ [name] ≠ [] := by simp
  constructor
  · intro place other found
    rw [insert_entries_getElem?] at found
    split at found
    · next same =>
        subst same
        refine ⟨below, fun part member => ?_⟩
        rcases List.mem_append.mp member with above | last
        · rcases List.eq_nil_or_concat dir with rfl | ⟨front, top, rfl⟩
          · cases above
          · rw [find?_of_ne_nil tree (by simp)] at held
            exact (sound.named _ _ held).2 part above
        · rw [List.mem_singleton.mp last]
          exact ordinary
    · exact sound.named place other found
  · intro place part other found
    rw [find?_insert tree entry _ below] at found ⊢
    split at found
    · next same =>
        have above : place = dir := (List.append_inj' same rfl).1
        subst above
        rw [if_neg (by simp), held]
    · have root := sound.rooted place part other found
      split
      · next same => rw [same] at root; rw [kind root]
      · exact root

theorem Sound.empty : Sound ({} : FileTree) := by
  constructor
  · intro place entry found
    simp at found
  · intro place name entry found
    rw [find?_of_ne_nil _ (by simp)] at found
    simp at found

theorem Sound.erase {tree : FileTree} (sound : tree.Sound) {place : Place} {content : ByteArray}
    (held : tree.find? place = some (.file content)) : (tree.erase place).Sound := by
  have below : place ≠ [] := by
    rintro rfl
    simp at held
  constructor
  · intro other entry found
    apply sound.named other entry
    rw [erase_entries_getElem?] at found
    split at found
    · cases found
    · exact found
  · intro other part entry found
    rw [find?_erase tree _ below] at found ⊢
    split at found
    · cases found
    · have root := sound.rooted other part entry found
      split
      · next same =>
          rw [same, held] at root
          cases root
      · exact root

theorem hasZero_names {names : List String} (ordinary : ∀ name ∈ names, IsFileName name) :
    Path.hasZero ⟨String.intercalate "/" names⟩ = false := by
  simp only [Path.hasZero, List.contains_eq_mem, decide_eq_false_iff_not]
  intro zero
  rcases Path.mem_intercalate zero with slash | ⟨name, member, inName⟩
  · revert slash
    decide
  · exact (ordinary name member).2.1 inName

/-- A path leads to a directory exactly when each of its pieces does. -/
theorem stat_eq_dir_iff_passable (tree : FileTree) (path : Path) :
    tree.stat path = .ok .dir ↔
      path.hasZero = false ∧ path.text ≠ "" ∧ tree.Passable [] path.pieces := by
  constructor
  · intro found
    obtain ⟨target, ended, held⟩ := (stat_eq_dir_iff tree path).mp found
    obtain ⟨zero, filled, -⟩ := (target_eq_ok_iff tree path target).mp ended
    refine ⟨zero, filled, ?_⟩
    rcases target_cases ended with ⟨empty, -⟩ | ⟨front, last, split, way, rfl⟩
    · rw [empty]
      trivial
    · rw [split, passable_append]
      refine ⟨way, fun notHere notUp => ?_, trivial⟩
      have named : (Target.ofLast (EndsInSlash path) (Path.placeFrom [] front) last).name = some last := by
        simp [Target.ofLast, notHere, notUp]
      obtain ⟨short, dir⟩ := held last named
      refine ⟨short, ?_⟩
      rw [← place_of_target ended] at dir
      simpa [Target.ofLast, Target.place, notHere, notUp] using dir
  · rintro ⟨zero, filled, way⟩
    rw [stat_eq_dir_iff]
    rcases List.eq_nil_or_concat path.pieces with empty | ⟨front, last, split⟩
    · refine ⟨_, (target_eq_ok_iff tree path ⟨[], none, EndsInSlash path⟩).mpr ⟨zero, filled, ?_⟩, nofun⟩
      rw [empty]
      rfl
    · rw [List.concat_eq_append] at split
      rw [split, passable_append] at way
      have ended : tree.target path =
          .ok (Target.ofLast (EndsInSlash path) (Path.placeFrom [] front) last) := by
        refine (target_eq_ok_iff tree path _).mpr ⟨zero, filled, ?_⟩
        rw [split, follow_eq_ok_iff]
        exact ⟨way.1, rfl⟩
      refine ⟨_, ended, fun name named => ?_⟩
      unfold Target.ofLast at named
      split at named
      · cases named
      · next notHere =>
          split at named
          · cases named
          · next notUp =>
              cases named
              obtain ⟨short, dir⟩ := way.2.1 notHere notUp
              refine ⟨short, ?_⟩
              rw [← place_of_target ended]
              simpa [Target.ofLast, Target.place, notHere, notUp] using dir

theorem Sound.above {tree : FileTree} (sound : tree.Sound) {place names : Place} {entry : FileEntry}
    (below : names ≠ []) (held : tree.find? (place ++ names) = some entry) :
    tree.find? place = some .dir := by
  induction names generalizing place with
  | nil => exact absurd rfl below
  | cons name rest ih =>
      cases rest with
      | nil => exact sound.rooted place name entry held
      | cons next rest =>
          have lower : tree.find? (place ++ [name]) = some .dir := by
            apply ih (by simp)
            simpa using held
          exact sound.rooted place name .dir lower

theorem Sound.isFileName {tree : FileTree} (sound : tree.Sound) {place : Place} {entry : FileEntry}
    (held : tree.find? place = some entry) : ∀ name ∈ place, IsFileName name := by
  by_cases top : place = []
  · simp [top]
  · rw [find?_of_ne_nil tree top] at held
    exact (sound.named place entry held).2

theorem Sound.passable {tree : FileTree} (sound : tree.Sound) {place names : Place}
    (held : tree.find? (place ++ names) = some .dir) : tree.Passable place names := by
  induction names generalizing place with
  | nil => trivial
  | cons name rest ih =>
      obtain ⟨⟨-, notHere, notUp, -⟩, -, short⟩ := sound.isFileName held name (by simp)
      have onward : tree.find? ((place ++ [name]) ++ rest) = some .dir := by simpa using held
      have lower : tree.find? (place ++ [name]) = some .dir := by
        cases rest with
        | nil => simpa using onward
        | cons next rest => exact sound.above (by simp) onward
      have next : Path.placeFrom place [name] = place ++ [name] := by
        simp [Path.placeFrom, notHere, notUp]
      refine ⟨fun _ _ => ⟨short, lower⟩, ?_⟩
      rw [next]
      exact ih onward

theorem Sound.fileName_of_passable {tree : FileTree} (sound : tree.Sound) {place : Place}
    {pieces : List String} (way : tree.Passable place pieces) {piece : String}
    (member : piece ∈ pieces) : piece = "." ∨ piece = ".." ∨ IsFileName piece := by
  induction pieces generalizing place with
  | nil => cases member
  | cons first rest ih =>
      rcases List.mem_cons.mp member with rfl | later
      · by_cases here : piece = "."
        · exact Or.inl here
        · by_cases up : piece = ".."
          · exact Or.inr (Or.inl up)
          · exact Or.inr (Or.inr (sound.isFileName (way.1 here up).2 piece (by simp)))
      · exact ih way.2 later

/-- A path that can be passed holds no zero character. -/
theorem Sound.hasZero_of_passable {tree : FileTree} (sound : tree.Sound) {path : Path}
    (way : tree.Passable [] path.pieces) : path.hasZero = false := by
  simp only [Path.hasZero, List.contains_eq_mem, decide_eq_false_iff_not]
  intro zero
  obtain ⟨piece, member, inPiece⟩ := Path.exists_mem_pieces zero (by decide)
  rcases sound.fileName_of_passable way member with rfl | rfl | named
  · exact absurd inPiece (by decide)
  · exact absurd inPiece (by decide)
  · exact named.2.1 inPiece

/-- Where a path can be passed and a directory stands below its end, names lead on to any name in that
directory. -/
theorem Sound.reaches_name {tree : FileTree} (sound : tree.Sound) {base : Path} {front : List String}
    {last : String} (way : tree.Passable [] base.pieces)
    (start : tree.find? (base.place ++ front) = some .dir) (named : IsFileName last) :
    tree.Reaches (base.join ⟨String.intercalate "/" (front ++ [last])⟩) := by
  have fileNames : ∀ name ∈ front ++ [last], IsFileName name := by
    intro name member
    rcases List.mem_append.mp member with above | final
    · exact sound.isFileName start name (List.mem_append_right _ above)
    · rw [List.mem_singleton.mp final]
      exact named
  have ordinary : ∀ name ∈ front ++ [last], IsName name := fun name member => (fileNames name member).1
  have relative := Path.isAbsolute_intercalate ordinary
  obtain ⟨⟨filled, notHere, notUp, slashless⟩, -, short⟩ := named
  obtain ⟨before, text⟩ := Path.join_text base ⟨String.intercalate "/" (front ++ [last])⟩
  obtain ⟨middle, inner⟩ := Path.intercalate_text front last
  have ending : (base.join ⟨String.intercalate "/" (front ++ [last])⟩).text = before ++ middle ++ last := by
    rw [text, inner, String.append_assoc]
  have chars : last.toList ≠ [] := fun empty => filled (String.toList_eq_nil_iff.mp empty)
  -- the last name has no slash, so the joined path does not end in one
  have open_ : EndsInSlash (base.join ⟨String.intercalate "/" (front ++ [last])⟩) = false := by
    simp only [EndsInSlash, ending, String.toList_append, beq_eq_false_iff_ne, ne_eq]
    rw [List.getLast?_append, List.getLast?_eq_some_getLast chars, Option.some_or, Option.some_inj]
    intro slash
    exact slashless (slash ▸ List.getLast_mem chars)
  have pieced := Path.join_of_relative base relative
  rw [Path.pieces_intercalate ordinary, ← List.append_assoc] at pieced
  refine ⟨base.place ++ front, last, ?_, short⟩
  refine (target_eq_ok_iff tree _ _).mpr ⟨?_, ?_, ?_⟩
  · rw [Path.hasZero_join relative, sound.hasZero_of_passable way, hasZero_names fileNames]
    rfl
  · rw [ending]
    intro empty
    simp [filled] at empty
  · rw [pieced, open_, follow_eq_ok_iff, passable_append]
    refine ⟨⟨way, sound.passable start⟩, ?_⟩
    rw [Path.placeFrom_append]
    have down : Path.placeFrom base.place front = base.place ++ front :=
      Path.placeFrom_ordinary fun name member => ordinary name (List.mem_append_left _ member)
    simp only [Target.ofLast, notHere, notUp, if_false]
    rw [← down]
    rfl

/-- From a directory that a path leads to, names lead on to what stands below it. -/
theorem Sound.reaches_join {tree : FileTree} (sound : tree.Sound) {base : Path} {names : List String}
    {entry : FileEntry} (there : tree.isDir base = true) (below : names ≠ [])
    (held : tree.find? (base.place ++ names) = some entry) :
    tree.Reaches (base.join ⟨String.intercalate "/" names⟩) := by
  obtain ⟨-, -, way⟩ := (stat_eq_dir_iff_passable tree base).mp ((isDir_iff tree base).mp there)
  rcases List.eq_nil_or_concat names with empty | ⟨front, last, split⟩
  · exact absurd empty below
  · rw [List.concat_eq_append] at split
    subst split
    have start : tree.find? (base.place ++ front) = some .dir := by
      apply sound.rooted _ last entry
      rwa [List.append_assoc]
    exact sound.reaches_name way start (sound.isFileName held last (by simp))

/-- From a directory that a path leads to, names lead on to a directory below it. -/
theorem Sound.isDir_join {tree : FileTree} (sound : tree.Sound) {base : Path} {names : List String}
    (there : tree.isDir base = true) (below : names ≠ [])
    (held : tree.find? (base.place ++ names) = some .dir) :
    tree.isDir (base.join ⟨String.intercalate "/" names⟩) = true := by
  have reached := sound.reaches_join there below held
  obtain ⟨dir, name, ended, short⟩ := reached
  rw [isDir_iff, stat_eq_dir_iff]
  refine ⟨_, ended, fun other named => ?_⟩
  cases named
  have ordinary : ∀ name ∈ names, IsName name := fun name member =>
    (sound.isFileName held name (List.mem_append_right _ member)).1
  rw [Path.place_join_intercalate ordinary]
  exact ⟨short, held⟩

end SourceAtlas.FileTree
