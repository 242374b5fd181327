import SourceAtlas.Proofs.Descent
import SourceAtlas.Proofs.Docs
/-!
Operations on a page as edits of the file tree. Where the docs directory is reached firmly, what becomes
of storing, loading or removing a page depends on the entry at its place and on the files above that,
and on nothing else; so it is the same in trees that are alike there.
-/

namespace SourceAtlas

namespace FileTree

/-- A change at one place, and directories that are made where nothing stands. -/
structure Edit where
  own : Place
  write : Option (Option FileEntry) := none
  opens : Place → Bool := fun _ => false

namespace Edit

variable (edit other : Edit)

/-- What an edit leaves where an entry or nothing stood. -/
def result (place : Place) (held : Option FileEntry) : Option FileEntry :=
  match edit.write with
  | some entry =>
      if place = edit.own then entry
      else if held = none ∧ edit.opens place = true then some .dir else held
  | none => if held = none ∧ edit.opens place = true then some .dir else held

def Leads (before after : FileTree) : Prop :=
  ∀ place, after.find? place = edit.result place (before.find? place)

/-- An edit makes directories above its own place alone. -/
def Confined : Prop := ∀ place, edit.opens place = true → place <+: edit.own ∧ place ≠ edit.own

variable {edit other}

theorem result_of_ne {place : Place} (away : place ≠ edit.own) (held : Option FileEntry) :
    edit.result place held = if held = none ∧ edit.opens place = true then some .dir else held := by
  unfold result
  cases edit.write with
  | none => rfl
  | some entry => exact if_neg away

theorem result_of_closed {place : Place} (away : place ≠ edit.own)
    (closed : ¬ edit.opens place = true) (held : Option FileEntry) : edit.result place held = held := by
  rw [result_of_ne away, if_neg fun both => closed both.2]

/-- Edits at places that are not above one another may come in either order. -/
theorem result_comm (confined : edit.Confined) (also : other.Confined)
    (apart : ¬ edit.own <+: other.own) (apart' : ¬ other.own <+: edit.own) (place : Place)
    (held : Option FileEntry) :
    other.result place (edit.result place held) = edit.result place (other.result place held) := by
  -- at its own place an edit is alone; elsewhere both make the same directory or none
  by_cases here : place = edit.own
  · have away : place ≠ other.own := fun same => apart ((here.symm.trans same) ▸ List.prefix_refl _)
    have closed : ¬ other.opens place = true := fun open_ => apart (here ▸ (also place open_).1)
    rw [result_of_closed away closed, result_of_closed away closed]
  · by_cases there : place = other.own
    · have closed : ¬ edit.opens place = true := fun open_ => apart' (there ▸ (confined place open_).1)
      rw [result_of_closed here closed, result_of_closed here closed]
    · rw [result_of_ne here, result_of_ne there, result_of_ne there, result_of_ne here]
      by_cases missing : held = none
      · subst missing
        by_cases first : edit.opens place = true <;> by_cases second : other.opens place = true <;>
          simp [first, second]
      · simp [missing]

end Edit

/-- Trees that agree at a place, and on the files above it. -/
structure AlikeAt (own : Place) (left right : FileTree) : Prop where
  entry : left.find? own = right.find? own
  files : ∀ upper, upper <+: own → ∀ content,
    left.find? upper = some (.file content) ↔ right.find? upper = some (.file content)

theorem AlikeAt.refl (own : Place) (tree : FileTree) : AlikeAt own tree tree :=
  ⟨rfl, fun _ _ _ => Iff.rfl⟩

/-- An edit elsewhere is not seen. -/
theorem Edit.Leads.alikeAt {edit : Edit} {before after : FileTree} (leads : edit.Leads before after)
    (confined : edit.Confined) {own : Place} (apart : ¬ edit.own <+: own) (apart' : ¬ own <+: edit.own) :
    AlikeAt own before after := by
  constructor
  · rw [leads, Edit.result_of_closed]
    · rintro rfl
      exact apart (List.prefix_refl _)
    · exact fun open_ => apart' (confined own open_).1
  · intro upper prefixed content
    have away : upper ≠ edit.own := by
      rintro rfl
      exact apart prefixed
    rw [leads, Edit.result_of_ne away]
    split
    · next both => simp [both.1]
    · rfl

/-- Directories do not show in what is in the way. -/
theorem obstacle?_congr {left right : FileTree} {place : Place} {names : List String}
    (files : ∀ front, front <+: names → ∀ content, left.find? (place ++ front) = some (.file content) ↔
      right.find? (place ++ front) = some (.file content)) :
    left.obstacle? place names = right.obstacle? place names := by
  induction names generalizing place with
  | nil => rfl
  | cons name rest ih =>
      have onward : left.obstacle? (place ++ [name]) rest = right.obstacle? (place ++ [name]) rest := by
        apply ih
        intro front prefixed content
        have lower := files (name :: front) (List.cons_prefix_cons.mpr ⟨rfl, prefixed⟩) content
        simpa using lower
      have here := files [name] (List.cons_prefix_cons.mpr ⟨rfl, List.nil_prefix⟩)
      rw [obstacle?, obstacle?, onward]
      by_cases long : nameLimit < name.utf8ByteSize
      · rw [if_pos long, if_pos long]
      · rw [if_neg long, if_neg long]
        rcases found : left.find? (place ++ [name]) with _ | _ | content
        · rcases other : right.find? (place ++ [name]) with _ | _ | content
          · rfl
          · rfl
          · rw [(here content).mpr other] at found
            cases found
        · rcases other : right.find? (place ++ [name]) with _ | _ | content
          · rfl
          · rfl
          · rw [(here content).mpr other] at found
            cases found
        · rw [(here content).mp found]

theorem Sound.ext {left right : FileTree} (sound : left.Sound) (also : right.Sound)
    (same : ∀ place, left.find? place = right.find? place) : left = right := by
  have entries : left.entries = right.entries := by
    apply Std.ExtTreeMap.ext_getElem?
    intro place
    by_cases top : place = []
    · subst top
      have none : ∀ {tree : FileTree}, tree.Sound → tree.entries[([] : Place)]? = none := by
        intro tree whole
        cases held : tree.entries[([] : Place)]? with
        | none => rfl
        | some entry => exact absurd rfl (whole.named [] entry held).1
      rw [none sound, none also]
    · rw [← find?_of_ne_nil left top, ← find?_of_ne_nil right top, same]
  cases left
  cases right
  exact congrArg FileTree.mk entries

theorem Firm.passable {tree : FileTree} (sound : tree.Sound) {pieces : List String}
    (firm : tree.Firm pieces) (there : tree.find? (Path.placeFrom [] pieces) = some .dir) :
    tree.Passable [] pieces := by
  have way : tree.Passable [] (Path.placeFrom [] pieces) :=
    sound.passable (show tree.find? ([] ++ Path.placeFrom [] pieces) = some .dir from there)
  -- along the names there is a way, and a firm path is entered as they are
  have entered := (enterAll_eq_ok_iff tree [] _ (Path.placeFrom [] pieces)).mpr ⟨way, rfl⟩
  rw [← firm.enterAll_eq sound] at entered
  exact ((enterAll_eq_ok_iff ..).mp entered).1

end FileTree

namespace Docs

open FileTree

variable (docs : Docs)

/-- Every step upwards in the path of the docs directory leaves a directory that is there. -/
def Firm (tree : FileTree) : Prop := tree.Firm docs.root.pieces

variable {docs} in
/-- A docs directory that is there is reached firmly. -/
theorem firm_of_isDir {tree : FileTree} (there : tree.isDir docs.root = true) : docs.Firm tree := by
  obtain ⟨-, -, way⟩ := (stat_eq_dir_iff_passable ..).mp ((isDir_iff ..).mp there)
  intro front back split
  rw [split, passable_append] at way
  exact way.1

variable {docs} in
/-- The empty path has no steps upwards. -/
theorem named_of_not_firm {tree : FileTree} (loose : ¬ docs.Firm tree) : docs.root.text ≠ "" := by
  intro empty
  refine loose fun front back split => ?_
  rw [show docs.root = ⟨""⟩ from congrArg Path.mk empty, Path.pieces_empty] at split
  simp at split

def fileOf (page : String) : Path := docs.root.join ⟨page⟩

/-- No directory can be made for a page: there is a zero character in its path. -/
def shut (page : String) : Bool := (Disk.parentOf (docs.fileOf page)).hasZero

/-- What storing a page comes to: what is in the way of its directory, and then what is wrong with its
name or stands in its place. -/
def storing (tree : FileTree) (page : String) : Except IoFault Unit :=
  if docs.shut page then .error .zeroInName
  else match tree.obstacle? [] (docs.placeOf page).dropLast with
    | some fault => .error fault
    | none =>
        if (docs.fileOf page).hasZero then .error .invalidArgument
        else if nameLimit < ((docs.placeOf page).getLastD "").utf8ByteSize then .error .nameTooLong
        else if tree.find? (docs.placeOf page) = some .dir then .error .isDirectory
        else .ok ()

def storeEdit (tree : FileTree) (page body : String) : Edit where
  own := docs.placeOf page
  write := if docs.storing tree page = .ok () then some (some (.file body.toUTF8)) else none
  opens place := !docs.shut page && tree.Opens (docs.placeOf page).dropLast place

def removeEdit (tree : FileTree) (page : String) : Edit where
  own := docs.placeOf page
  write := match tree.find? (docs.placeOf page) with
    | some (.file _) => some none
    | _ => none

variable {docs} {page : String}

theorem placeOf_ne_nil (docs : Docs) (plain : IsPlain page) : docs.placeOf page ≠ [] := by
  simp [placeOf, plain.names_ne_nil]

theorem confined_storeEdit (plain : IsPlain page) (tree : FileTree) (body : String) :
    (docs.storeEdit tree page body).Confined := by
  intro place opens
  simp only [storeEdit, Bool.and_eq_true, decide_eq_true_eq] at opens ⊢
  have prefixed := opens.2.1
  refine ⟨prefixed.trans (List.dropLast_prefix _), ?_⟩
  rintro rfl
  have shorter := prefixed.length_le
  rw [List.length_dropLast] at shorter
  have filled := List.length_pos_iff.mpr (docs.placeOf_ne_nil plain)
  omega

theorem confined_removeEdit (tree : FileTree) : (docs.removeEdit tree page).Confined := nofun

section Alike

variable {left right : FileTree} (alike : AlikeAt (docs.placeOf page) left right)

include alike

theorem obstacle?_dropLast_congr {place : Place} (prefixed : place <+: (docs.placeOf page).dropLast) :
    left.obstacle? [] place = right.obstacle? [] place :=
  obstacle?_congr fun _ above content =>
    alike.files _ (above.trans (prefixed.trans (List.dropLast_prefix _))) content

theorem storing_congr : docs.storing left page = docs.storing right page := by
  unfold storing
  rw [obstacle?_dropLast_congr alike (List.prefix_refl _), alike.entry]

theorem storeEdit_congr (body : String) :
    docs.storeEdit left page body = docs.storeEdit right page body := by
  have opens : ∀ place, left.Opens (docs.placeOf page).dropLast place ↔
      right.Opens (docs.placeOf page).dropLast place := fun place =>
    and_congr_right fun prefixed => by rw [obstacle?_dropLast_congr alike prefixed]
  simp only [storeEdit, storing_congr alike, opens]

theorem removeEdit_congr : docs.removeEdit left page = docs.removeEdit right page := by
  simp only [removeEdit, alike.entry]

end Alike

section Firm

variable {tree : FileTree} (sound : tree.Sound) (firm : docs.Firm tree) (plain : IsPlain page)

include plain

theorem pieces_fileOf : (docs.fileOf page).pieces = docs.root.pieces ++ Path.names ⟨page⟩ := by
  rw [fileOf, Path.join_of_relative _ plain.isAbsolute, plain.pieces]

variable (docs) in
theorem place_fileOf : (docs.fileOf page).place = docs.placeOf page :=
  docs.place_of_locate (docs.locate_of_plain plain)

theorem parts_fileOf :
    (docs.fileOf page).parts = docs.root.parts ++ (Path.names ⟨page⟩).map .name := by
  have joined := Path.parts_join docs.root plain.isName
  rwa [plain.intercalate] at joined

include firm

theorem firm_fileOf : tree.Firm (docs.fileOf page).pieces := by
  rw [pieces_fileOf plain]
  exact FileTree.Firm.append firm fun up => (plain.isName _ up).2.2.1 rfl

include sound

/-- Where the directory of a page is there its file can be reached under any name. -/
theorem reaches_fileOf {front : List String} {last : String}
    (split : Path.names ⟨page⟩ = front ++ [last]) (named : IsFileName last)
    (there : tree.find? (docs.root.place ++ front) = some .dir) : tree.Reaches (docs.fileOf page) := by
  have root : tree.find? docs.root.place = some .dir :=
    sound.dir_of_prefix there (List.prefix_append ..)
  have reached : tree.Reaches (docs.root.join ⟨String.intercalate "/" (front ++ [last])⟩) :=
    sound.reaches_name (FileTree.Firm.passable sound firm root) there named
  rwa [← split, plain.intercalate] at reached

theorem reaches_of_file {content : ByteArray}
    (held : tree.find? (docs.placeOf page) = some (.file content)) : tree.Reaches (docs.fileOf page) := by
  rcases List.eq_nil_or_concat (Path.names ⟨page⟩) with empty | ⟨front, last, split⟩
  · exact absurd empty plain.names_ne_nil
  · rw [List.concat_eq_append] at split
    rw [placeOf, split, ← List.append_assoc] at held
    exact reaches_fileOf sound firm plain split (sound.isFileName held last (by simp))
      (sound.rooted _ _ _ held)

theorem load_iff_file (text : String) :
    docs.load tree page = .ok text ↔ tree.find? (docs.placeOf page) = some (.file text.toUTF8) := by
  refine ⟨docs.file_of_load, fun held => ?_⟩
  refine (docs.load_eq_ok_iff tree page text).mpr ⟨_, docs.locate_of_plain plain, ?_⟩
  refine (readText_eq_ok_iff ..).mpr ⟨reaches_of_file sound firm plain held, ?_⟩
  exact docs.place_fileOf plain ▸ held

theorem leads_remove :
    (docs.removeEdit tree page).Leads tree ((docs.remove page).run.run tree).2 := by
  have placed := docs.place_fileOf plain
  have located : docs.locate page = .ok (docs.fileOf page) := docs.locate_of_plain plain
  rw [run_remove, located]
  simp only
  by_cases file : ∃ content, tree.find? (docs.placeOf page) = some (.file content)
  · obtain ⟨content, held⟩ := file
    have done := (unlink_eq_ok_iff tree _ (docs.fileOf page)).mpr
      ⟨reaches_of_file sound firm plain held, ⟨content, by rw [placed, held]⟩, rfl⟩
    intro place
    rw [done]
    simp only
    rw [placed, find?_erase tree _ (docs.placeOf_ne_nil plain)]
    simp [removeEdit, Edit.result, held]
  · have unchanged : (removeEdit docs tree page).write = none := by
      unfold removeEdit
      rcases held : tree.find? (docs.placeOf page) with _ | _ | content
      · rfl
      · rfl
      · exact absurd ⟨content, held⟩ file
    intro place
    have same : (removeEdit docs tree page).result place (tree.find? place) = tree.find? place := by
      simp only [Edit.result, unchanged]
      exact if_neg fun both => by cases both.2
    rw [same]
    cases done : tree.unlink (docs.fileOf page) with
    | ok after =>
        obtain ⟨-, held, -⟩ := (unlink_eq_ok_iff ..).mp done
        exact absurd (placed ▸ held) file
    | error fault => cases fault <;> rfl

theorem replace_fileOf {front : List String} {last : String}
    (split : Path.names ⟨page⟩ = front ++ [last])
    (there : tree.find? (docs.root.place ++ front) = some .dir) (content : ByteArray) :
    tree.replace (docs.fileOf page) content =
      if (docs.fileOf page).hasZero then .error .invalidArgument
      else if nameLimit < last.utf8ByteSize then .error .nameTooLong
      else if tree.find? (docs.placeOf page) = some .dir then .error .isDirectory
      else .ok (tree.insert (docs.placeOf page) (.file content)) := by
  have placed := docs.place_fileOf plain
  cases zero : (docs.fileOf page).hasZero with
  | true => simp [replace, zero, throw, throwThe, MonadExceptOf.throw, bind, Except.bind]
  | false =>
      have ordinary : ∀ name ∈ front ++ [last], IsName name := split ▸ plain.isName
      have final := ordinary last (by simp)
      have pieced : (docs.fileOf page).pieces = (docs.root.pieces ++ front) ++ [last] := by
        rw [pieces_fileOf plain, split, List.append_assoc]
      have filled : (docs.fileOf page).text ≠ "" := by
        intro empty
        rw [show docs.fileOf page = ⟨""⟩ from by rw [← empty], Path.pieces_empty] at pieced
        simp at pieced
      have root : tree.find? docs.root.place = some .dir :=
        sound.dir_of_prefix there (List.prefix_append ..)
      have way : tree.Passable [] (docs.root.pieces ++ front) :=
        (passable_append ..).mpr ⟨FileTree.Firm.passable sound firm root, sound.passable there⟩
      have ended := target_of_passable zero filled pieced way
      simp only [Target.ofLast, final.2.1, final.2.2.1, if_false] at ended
      rw [if_neg (by simp)]
      by_cases long : nameLimit < last.utf8ByteSize
      · simp [replace, zero, ended, bind, Except.bind, lookup, long]
      · have named : IsFileName last := by
          refine ⟨final, fun held => ?_, Nat.le_of_not_lt long⟩
          have listed : last ∈ (docs.fileOf page).pieces := by simp [pieced]
          have inText := Path.mem_text_of_mem_pieces listed held
          simp [Path.hasZero, inText] at zero
        have reached := reaches_fileOf sound firm plain split named there
        rw [if_neg long]
        by_cases taken : tree.find? (docs.placeOf page) = some .dir
        · obtain ⟨dir, name, direct, short⟩ := reached
          have looked := (lookup_eq_ok_iff tree dir name _).mpr ⟨short, rfl⟩
          rw [← placed, place_of_named direct] at taken
          rw [← placed, place_of_named direct, if_pos taken]
          simp [replace, zero, direct, bind, Except.bind, looked, taken]
        · rw [if_neg taken, ← placed]
          exact (replace_eq_ok_iff ..).mpr ⟨reached, placed ▸ taken, rfl⟩

omit sound firm plain in
/-- A page that is not stored has the directories made that can be. -/
theorem leads_of_paved {body : String} {after : FileTree} {result : Except IoFault Unit}
    (closed : docs.storing tree page ≠ .ok ()) (open_ : docs.shut page = false)
    (paved : Paved tree (docs.placeOf page).dropLast result after) :
    (docs.storeEdit tree page body).Leads tree after := by
  intro place
  rw [paved.find?]
  simp [storeEdit, Edit.result, closed, open_]

omit sound in
/-- Once its directory is made a page is put in place when it can be stored at all. -/
theorem replace_of_paved {middle : FileTree} {front : List String} {last : String}
    (split : Path.names ⟨page⟩ = front ++ [last]) (open_ : docs.shut page = false)
    (free : tree.obstacle? [] (docs.placeOf page).dropLast = none)
    (paved : Paved tree (docs.placeOf page).dropLast (.ok ()) middle)
    (changes : Changes (fun _ => False) tree middle) (whole : middle.Sound)
    (there : middle.find? (docs.root.place ++ front) = some .dir) (content : ByteArray) :
    middle.replace (docs.fileOf page) content = (docs.storing tree page).map fun _ =>
      middle.insert (docs.placeOf page) (.file content) := by
  have final : (docs.placeOf page).getLastD "" = last := by simp [placeOf, split]
  have same : middle.find? (docs.placeOf page) = tree.find? (docs.placeOf page) := by
    rw [paved.find?, if_neg]
    rintro ⟨-, prefixed, -⟩
    have shorter := prefixed.length_le
    rw [List.length_dropLast] at shorter
    have filled := List.length_pos_iff.mpr (docs.placeOf_ne_nil plain)
    omega
  rw [replace_fileOf whole (firm.mono changes.dirs) plain split there, same]
  simp only [storing, open_, free, final]
  by_cases zero : (docs.fileOf page).hasZero = true
  · simp [zero, Except.map]
  · by_cases long : nameLimit < last.utf8ByteSize
    · simp [zero, long, Except.map]
    · by_cases taken : tree.find? (docs.placeOf page) = some .dir <;>
        simp [zero, long, taken, Except.map]

/-- Storing a page comes out as what stands on the way to it and in its place has it, and does what the
edit says. -/
theorem run_store (body : String) :
    ((docs.store page body).run.run tree).1 = (docs.storing tree page).mapError .io ∧
      (docs.storeEdit tree page body).Leads tree ((docs.store page body).run.run tree).2 := by
  rcases List.eq_nil_or_concat (Path.names ⟨page⟩) with empty | ⟨front, last, split⟩
  · exact absurd empty plain.names_ne_nil
  rw [List.concat_eq_append] at split
  have located : docs.locate page = .ok (docs.fileOf page) := docs.locate_of_plain plain
  have named : (docs.fileOf page).parts.getLast? = some (.name last) := by
    rw [parts_fileOf plain, split]
    simp
  have above : (docs.placeOf page).dropLast = (Disk.parentOf (docs.fileOf page)).place := by
    rw [← docs.place_fileOf plain, place_parentOf named, List.dropLast_concat]
  have below : (Disk.parentOf (docs.fileOf page)).place = docs.root.place ++ front := by
    rw [← above, placeOf, split, ← List.append_assoc, List.dropLast_concat]
  rw [store, located]
  simp only
  rw [run_adapt, Disk.run_writeAtomic]
  cases shut : docs.shut page with
  | true =>
      have stopped : docs.storing tree page = .error .zeroInName := by rw [storing, if_pos shut]
      rw [Disk.run_createDirAll_of_zero (Disk.parentOf_text _) shut, stopped]
      exact ⟨rfl, fun place => by simp [storeEdit, Edit.result, stopped, shut]⟩
  | false =>
      have paved := sound.paved_parentOf named (firm_fileOf firm plain) shut
      rw [← above] at paved
      -- the directory is made first; if it cannot be, the page is not written at all
      cases ran : (Disk.createDirAll (Disk.parentOf (docs.fileOf page))).run.run tree with
      | mk outcome middle =>
          obtain ⟨changes, led⟩ := Disk.createDirAll_changes ran
          rw [ran] at paved
          have told := paved.result
          cases met : tree.obstacle? [] (docs.placeOf page).dropLast with
          | some fault =>
              have stopped : docs.storing tree page = .error fault := by simp [storing, shut, met]
              rw [met] at told
              subst told
              exact ⟨by rw [stopped], leads_of_paved (by simp [stopped]) shut paved⟩
          | none =>
              rw [met] at told
              subst told
              have whole := changes.sound sound
              have there := whole.stat_dir ((isDir_iff ..).mp (led rfl (Disk.parentOf_text _)))
              rw [below] at there
              simp only
              rw [replace_of_paved firm plain split shut met paved changes whole there]
              cases answer : docs.storing tree page with
              | error fault => exact ⟨rfl, leads_of_paved (by simp [answer]) shut paved⟩
              | ok stored =>
                  refine ⟨rfl, fun place => ?_⟩
                  simp only [Except.map]
                  rw [find?_insert middle _ _ (docs.placeOf_ne_nil plain), paved.find?]
                  simp [storeEdit, Edit.result, answer, shut]

end Firm

end Docs

end SourceAtlas
