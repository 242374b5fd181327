import SourceAtlas.FileTree
/-!
What a path leads to. Without links the place at the end of a path is settled by its pieces alone; a
file tree only decides whether the way there exists.
-/

namespace SourceAtlas

theorem splitAtChar_ne_nil (sep : Char) (text : List Char) : splitAtChar sep text ≠ [] := by
  cases text with
  | nil => simp [splitAtChar]
  | cons c rest =>
      rw [splitAtChar]
      split
      · simp
      · split <;> simp

/-- The pieces around a separator are those before it and those after it. -/
theorem splitAtChar_append (sep : Char) (before after : List Char) :
    splitAtChar sep (before ++ sep :: after) = splitAtChar sep before ++ splitAtChar sep after := by
  induction before with
  | nil => simp [splitAtChar]
  | cons c rest ih =>
      rw [List.cons_append, splitAtChar, splitAtChar, ih]
      split
      · rfl
      · cases split : splitAtChar sep rest with
        | nil => exact absurd split (splitAtChar_ne_nil sep rest)
        | cons piece pieces => rfl

theorem splitAtChar_of_not_mem {sep : Char} {text : List Char} (absent : sep ∉ text) :
    splitAtChar sep text = [text] := by
  induction text with
  | nil => rfl
  | cons c rest ih =>
      have other : ¬ c = sep := fun same => absent (by simp [same])
      rw [splitAtChar, if_neg other, ih fun member => absent (List.mem_cons_of_mem c member)]

theorem not_mem_of_mem_splitAtChar {sep : Char} {text piece : List Char}
    (member : piece ∈ splitAtChar sep text) : sep ∉ piece := by
  induction text generalizing piece with
  | nil =>
      simp only [splitAtChar, List.mem_singleton] at member
      simp [member]
  | cons c rest ih =>
      rw [splitAtChar] at member
      split at member
      · rcases List.mem_cons.mp member with rfl | later
        · simp
        · exact ih later
      · next other =>
          cases split : splitAtChar sep rest with
          | nil => exact absurd split (splitAtChar_ne_nil sep rest)
          | cons first pieces =>
              rw [split] at member ih
              rcases List.mem_cons.mp member with rfl | later
              · simpa [Ne.symm other] using ih (List.mem_cons_self ..)
              · exact ih (List.mem_cons_of_mem first later)

theorem mem_of_mem_splitAtChar {sep : Char} {text piece : List Char}
    (member : piece ∈ splitAtChar sep text) {c : Char} (inPiece : c ∈ piece) : c ∈ text := by
  induction text generalizing piece with
  | nil =>
      rw [splitAtChar, List.mem_singleton] at member
      simp [member] at inPiece
  | cons d rest ih =>
      rw [splitAtChar] at member
      split at member
      · rcases List.mem_cons.mp member with rfl | later
        · cases inPiece
        · exact List.mem_cons_of_mem d (ih later inPiece)
      · cases split : splitAtChar sep rest with
        | nil => exact absurd split (splitAtChar_ne_nil sep rest)
        | cons first pieces =>
            rw [split] at member ih
            rcases List.mem_cons.mp member with rfl | later
            · rcases List.mem_cons.mp inPiece with rfl | inFirst
              · exact List.mem_cons_self ..
              · exact List.mem_cons_of_mem d (ih (List.mem_cons_self ..) inFirst)
            · exact List.mem_cons_of_mem d (ih (List.mem_cons_of_mem first later) inPiece)

theorem exists_mem_splitAtChar {sep c : Char} {text : List Char} (inText : c ∈ text) (other : c ≠ sep) :
    ∃ piece ∈ splitAtChar sep text, c ∈ piece := by
  induction text with
  | nil => cases inText
  | cons d rest ih =>
      rw [splitAtChar]
      rcases List.mem_cons.mp inText with rfl | later
      · rw [if_neg other]
        split
        · exact ⟨[c], by simp, by simp⟩
        · next piece pieces _ => exact ⟨c :: piece, by simp, by simp⟩
      · obtain ⟨piece, member, inPiece⟩ := ih later
        split
        · exact ⟨piece, List.mem_cons_of_mem _ member, inPiece⟩
        · split
          · next none => exact absurd none (splitAtChar_ne_nil sep rest)
          · next first pieces split =>
              rw [split] at member
              rcases List.mem_cons.mp member with rfl | inPieces
              · exact ⟨d :: piece, by simp, List.mem_cons_of_mem d inPiece⟩
              · exact ⟨piece, List.mem_cons_of_mem _ inPieces, inPiece⟩

/-- A name as it may stand in a path: it is not empty, holds no slash and is neither of the dots. -/
def IsName (name : String) : Prop :=
  name ≠ "" ∧ name ≠ "." ∧ name ≠ ".." ∧ '/' ∉ name.toList

instance (name : String) : Decidable (IsName name) :=
  inferInstanceAs (Decidable (name ≠ "" ∧ name ≠ "." ∧ name ≠ ".." ∧ '/' ∉ name.toList))

namespace Path

theorem mem_pieces {path : Path} {piece : String} (member : piece ∈ path.pieces) :
    piece ≠ "" ∧ '/' ∉ piece.toList := by
  simp only [pieces, List.mem_map, List.mem_filter] at member
  obtain ⟨text, ⟨split, filled⟩, rfl⟩ := member
  refine ⟨fun empty => ?_, by simpa using not_mem_of_mem_splitAtChar split⟩
  rw [String.ofList_eq_empty_iff] at empty
  simp [empty] at filled

theorem mem_text_of_mem_pieces {path : Path} {piece : String} (member : piece ∈ path.pieces) {c : Char}
    (inPiece : c ∈ piece.toList) : c ∈ path.text.toList := by
  simp only [pieces, List.mem_map, List.mem_filter] at member
  obtain ⟨text, ⟨split, -⟩, rfl⟩ := member
  exact mem_of_mem_splitAtChar split (by simpa using inPiece)

theorem exists_mem_pieces {path : Path} {c : Char} (inText : c ∈ path.text.toList) (other : c ≠ '/') :
    ∃ piece ∈ path.pieces, c ∈ piece.toList := by
  obtain ⟨piece, member, inPiece⟩ := exists_mem_splitAtChar inText other
  refine ⟨String.ofList piece, List.mem_map_of_mem (List.mem_filter.mpr ⟨member, ?_⟩), by simpa using inPiece⟩
  simpa using List.ne_nil_of_mem inPiece

theorem pieces_append (before after : String) :
    pieces ⟨before ++ "/" ++ after⟩ = pieces ⟨before⟩ ++ pieces ⟨after⟩ := by
  have text : (before ++ "/" ++ after).toList = before.toList ++ '/' :: after.toList := by
    simp [String.toList_append]
  simp only [pieces, text, splitAtChar_append, List.filter_append, List.map_append]

@[simp] theorem pieces_empty : pieces ⟨""⟩ = [] := rfl

theorem pieces_of_slashless {text : String} (filled : text ≠ "") (slashless : '/' ∉ text.toList) :
    pieces ⟨text⟩ = [text] := by
  have nonempty : text.toList ≠ [] := fun empty => filled (String.toList_eq_nil_iff.mp empty)
  simp [pieces, splitAtChar_of_not_mem slashless, nonempty]

/-- Texts joined by slashes are read back as they were when they hold none. -/
theorem pieces_intercalate_of_slashless {texts : List String}
    (slashless : ∀ text ∈ texts, text ≠ "" ∧ '/' ∉ text.toList) :
    pieces ⟨String.intercalate "/" texts⟩ = texts := by
  induction texts with
  | nil => rfl
  | cons text rest ih =>
      obtain ⟨filled, free⟩ := slashless text (List.mem_cons_self ..)
      have first := pieces_of_slashless filled free
      have later := ih fun other member => slashless other (List.mem_cons_of_mem text member)
      cases rest with
      | nil => simpa using first
      | cons next rest =>
          rw [String.intercalate_cons_cons, pieces_append, first, later, List.singleton_append]

theorem pieces_intercalate {names : List String} (ordinary : ∀ name ∈ names, IsName name) :
    pieces ⟨String.intercalate "/" names⟩ = names :=
  pieces_intercalate_of_slashless fun name member =>
    ⟨(ordinary name member).1, (ordinary name member).2.2.2⟩

theorem mem_pieces_of_mem_parts {path : Path} {text : String} (member : .name text ∈ path.parts) :
    text ∈ path.pieces ∧ text ≠ "." ∧ text ≠ ".." := by
  have inner : .name text ∈ path.pieces.filterMap partOf? := by
    unfold parts at member
    split at member
    · simpa using member
    · split at member
      · simpa using member
      · exact member
  obtain ⟨piece, found, part⟩ := List.mem_filterMap.mp inner
  unfold partOf? at part
  split at part
  · cases part
  · next notHere =>
      split at part
      · cases part
      · next notUp =>
          cases part
          exact ⟨found, notHere, notUp⟩

theorem mem_parts_name {path : Path} {text : String} (member : .name text ∈ path.parts) :
    IsName text := by
  obtain ⟨found, notHere, notUp⟩ := mem_pieces_of_mem_parts member
  exact ⟨(mem_pieces found).1, notHere, notUp, (mem_pieces found).2⟩

theorem partOf?_name {name : String} (ordinary : IsName name) : partOf? name = some (.name name) := by
  simp [partOf?, ordinary.2.1, ordinary.2.2.1]

theorem isAbsolute_intercalate_of_slashless {texts : List String}
    (slashless : ∀ text ∈ texts, text ≠ "" ∧ '/' ∉ text.toList) :
    isAbsolute ⟨String.intercalate "/" texts⟩ = false := by
  cases texts with
  | nil => rfl
  | cons text rest =>
      obtain ⟨filled, free⟩ := slashless text (List.mem_cons_self ..)
      cases chars : text.toList with
      | nil => exact absurd (String.toList_eq_nil_iff.mp chars) filled
      | cons c later =>
          have other : c ≠ '/' := fun same => free (by simp [chars, same])
          cases rest with
          | nil => simp [isAbsolute, chars, other]
          | cons next rest =>
              simp [isAbsolute, String.intercalate_cons_cons, String.toList_append, chars, other]

theorem isAbsolute_intercalate {names : List String} (ordinary : ∀ name ∈ names, IsName name) :
    isAbsolute ⟨String.intercalate "/" names⟩ = false :=
  isAbsolute_intercalate_of_slashless fun name member =>
    ⟨(ordinary name member).1, (ordinary name member).2.2.2⟩

theorem filterMap_partOf?_names {names : List String} (ordinary : ∀ name ∈ names, IsName name) :
    names.filterMap partOf? = names.map .name := by
  induction names with
  | nil => rfl
  | cons name rest ih =>
      rw [List.filterMap_cons, partOf?_name (ordinary name (List.mem_cons_self ..)),
        ih fun other member => ordinary other (List.mem_cons_of_mem name member), List.map_cons]

theorem parts_intercalate {names : List String} (ordinary : ∀ name ∈ names, IsName name) :
    parts ⟨String.intercalate "/" names⟩ = names.map .name := by
  have inner := filterMap_partOf?_names ordinary
  unfold parts
  rw [isAbsolute_intercalate ordinary, pieces_intercalate ordinary, if_neg (by simp)]
  split
  · exact absurd rfl (ordinary "." (by simp)).2.1
  · exact inner

/-- Where pieces lead from a place, if the way is there. -/
def placeFrom (place : Place) : List String → Place
  | [] => place
  | piece :: rest =>
      placeFrom (if piece = "." then place else if piece = ".." then place.dropLast
        else place ++ [piece]) rest

def place (path : Path) : Place := placeFrom [] path.pieces

theorem placeFrom_append (place : Place) (before after : List String) :
    placeFrom place (before ++ after) = placeFrom (placeFrom place before) after := by
  induction before generalizing place with
  | nil => rfl
  | cons piece rest ih => simp only [List.cons_append, placeFrom, ih]

theorem join_of_relative (base : Path) {path : Path} (relative : path.isAbsolute = false) :
    (base.join path).pieces = base.pieces ++ path.pieces := by
  unfold join
  rw [if_neg (by simp [relative])]
  split
  · next glued =>
      rcases Bool.or_eq_true _ _ |>.mp glued with empty | slash
      · have none : base.text = "" := by simpa using empty
        simp [pieces, none, splitAtChar]
      · -- the slash at the end of the base is the one between the two
        have last : base.text.toList.getLast? = some '/' := by simpa using slash
        obtain ⟨front, text⟩ := List.getLast?_eq_some_iff.mp last
        have ended : base.text = String.ofList front ++ "/" ++ "" := by
          rw [← String.toList_inj]
          simp [String.toList_append, text]
        have cut := pieces_append (String.ofList front) ""
        have glue := pieces_append (String.ofList front) path.text
        rw [pieces_empty, List.append_nil, ← ended] at cut
        have joined : base.text ++ path.text = String.ofList front ++ "/" ++ path.text := by
          rw [ended, String.append_empty]
        rw [joined, glue, ← cut]
  · exact pieces_append base.text path.text

/-- Where parts lead from a place. -/
def follow (place : Place) (parts : List PathPart) : Place :=
  parts.foldl (fun place part =>
    match part with
    | .up => place.dropLast
    | .name text => place ++ [text]
    | _ => place) place

theorem placeFrom_eq_follow (place : Place) (pieces : List String) :
    placeFrom place pieces = follow place (pieces.filterMap partOf?) := by
  induction pieces generalizing place with
  | nil => rfl
  | cons piece rest ih =>
      rw [placeFrom, ih]
      by_cases here : piece = "."
      · simp [here, partOf?]
      · by_cases up : piece = ".."
        · simp [up, partOf?, follow]
        · simp [here, up, partOf?, follow]

theorem follow_of_no_up (place : Place) {parts : List PathPart} (down : .up ∉ parts) :
    follow place parts = place ++ parts.filterMap PathPart.name? := by
  induction parts generalizing place with
  | nil => simp [follow]
  | cons part rest ih =>
      have later := ih (follow place [part]) fun member => down (List.mem_cons_of_mem part member)
      have step : follow place (part :: rest) = follow (follow place [part]) rest := rfl
      rw [step, later]
      cases part with
      | up => exact absurd (List.mem_cons_self ..) down
      | root => rfl
      | here => rfl
      | name text => simp [follow, PathPart.name?]

theorem placeFrom_of_names (place : Place) {pieces : List String}
    (names : ∀ part ∈ pieces.filterMap partOf?, part.isName = true) :
    placeFrom place pieces = place ++ (pieces.filterMap partOf?).filterMap PathPart.name? := by
  rw [placeFrom_eq_follow, follow_of_no_up]
  exact fun up => nomatch names .up up

/-- A path ends where its parts lead from the root. -/
theorem place_eq_follow (path : Path) : path.place = follow [] path.parts := by
  rw [place, placeFrom_eq_follow]
  unfold parts
  split
  · rfl
  · split <;> rfl

theorem afterParts?_eq_some_iff (before parts after : List PathPart) :
    afterParts? before parts = some after ↔ parts = before ++ after := by
  induction before generalizing parts with
  | nil => simp [afterParts?]
  | cons part rest ih =>
      cases parts with
      | nil => simp [afterParts?]
      | cons other parts =>
          rw [afterParts?]
          by_cases same : part = other
          · simp [same, ih]
          · simp [same, Ne.symm same]

theorem pieces_ne_nil {path : Path} (relative : path.isAbsolute = false) (filled : path.text ≠ "") :
    path.pieces ≠ [] := by
  intro none
  cases text : path.text.toList with
  | nil => exact filled (String.toList_eq_nil_iff.mp text)
  | cons c rest =>
      have other : c ≠ '/' := by
        rintro rfl
        simp [isAbsolute, text] at relative
      simp only [pieces, text, splitAtChar, if_neg other] at none
      cases split : splitAtChar '/' rest with
      | nil => exact absurd split (splitAtChar_ne_nil '/' rest)
      | cons piece later =>
          rw [split] at none
          simp at none

theorem isAbsolute_join (base : Path) {path : Path} (relative : path.isAbsolute = false) :
    (base.join path).isAbsolute = base.isAbsolute := by
  unfold join
  rw [if_neg (by simp [relative])]
  cases text : base.text.toList with
  | nil =>
      have empty : base.text = "" := String.toList_eq_nil_iff.mp text
      have bare : base.isAbsolute = false := by simp [isAbsolute, text]
      rw [if_pos (by simp [empty]), empty, String.empty_append, bare]
      exact relative
  | cons c rest =>
      by_cases slash : c = '/'
      · split <;> simp [isAbsolute, String.toList_append, text, slash]
      · split <;> simp [isAbsolute, String.toList_append, text, slash]

theorem parts_join_of_filled {base path : Path} (filled : base.text ≠ "")
    (relative : path.isAbsolute = false) :
    (base.join path).parts = base.parts ++ path.pieces.filterMap partOf? := by
  unfold parts
  rw [isAbsolute_join base relative, join_of_relative base relative, List.filterMap_append]
  split
  · rfl
  · next relativeBase =>
      cases pieces : base.pieces with
      | nil => exact absurd pieces (pieces_ne_nil (by simpa using relativeBase) filled)
      | cons piece rest =>
          by_cases here : piece = "."
          · subst here
            rfl
          · simp only [List.cons_append]
            split
            · next same => cases same; exact absurd rfl here
            · split
              · next same => cases same; exact absurd rfl here
              · rfl

theorem join_of_empty {base path : Path} (empty : base.text = "") (relative : path.isAbsolute = false) :
    base.join path = path := by
  simp [join, relative, empty]

theorem parts_ne_nil {path : Path} (filled : path.text ≠ "") : path.parts ≠ [] := by
  unfold parts
  cases absolute : path.isAbsolute with
  | true => simp
  | false =>
      have pieces := pieces_ne_nil absolute filled
      simp only [Bool.false_eq_true, if_false]
      split
      · simp
      · next other =>
          -- a first piece other than a dot is a part
          cases split : path.pieces with
          | nil => exact absurd split pieces
          | cons piece rest =>
              have first : piece ≠ "." := fun dot => other rest (dot ▸ split)
              by_cases up : piece = ".." <;> simp [partOf?, first, up]

theorem parts_of_empty {path : Path} (empty : path.text = "") : path.parts = [] := by
  rw [show path = ⟨""⟩ from by rw [← empty]]
  rfl

/-- The parts of joined names are those of the base and then the names. -/
theorem parts_join (base : Path) {names : List String} (ordinary : ∀ name ∈ names, IsName name) :
    (base.join ⟨String.intercalate "/" names⟩).parts = base.parts ++ names.map .name := by
  have relative := isAbsolute_intercalate ordinary
  by_cases empty : base.text = ""
  · rw [join_of_empty empty relative, parts_intercalate ordinary, parts_of_empty empty, List.nil_append]
  · rw [parts_join_of_filled empty relative, pieces_intercalate ordinary, filterMap_partOf?_names ordinary]

theorem place_join {base path : Path} (relative : path.isAbsolute = false) :
    (base.join path).place = placeFrom base.place path.pieces := by
  rw [place, join_of_relative _ relative, placeFrom_append, place]

theorem join_text (base path : Path) : ∃ before, (base.join path).text = before ++ path.text := by
  unfold join
  split
  · exact ⟨"", by simp⟩
  · split
    · exact ⟨base.text, rfl⟩
    · exact ⟨base.text ++ "/", rfl⟩

theorem hasZero_join {base path : Path} (relative : path.isAbsolute = false) :
    (base.join path).hasZero = (base.hasZero || path.hasZero) := by
  unfold join
  rw [if_neg (by simp [relative])]
  split <;> simp [hasZero, String.toList_append, Bool.decide_or]

theorem intercalate_text (front : List String) (last : String) :
    ∃ before, String.intercalate "/" (front ++ [last]) = before ++ last := by
  cases front with
  | nil => exact ⟨"", by simp⟩
  | cons name rest =>
      refine ⟨String.intercalate "/" (name :: rest) ++ "/", ?_⟩
      rw [String.intercalate_append_of_ne_nil (by simp) (by simp)]
      simp

theorem placeFrom_ordinary {place : Place} {names : List String}
    (ordinary : ∀ name ∈ names, IsName name) : placeFrom place names = place ++ names := by
  have inner := filterMap_partOf?_names ordinary
  rw [placeFrom_of_names place (by simp [inner, PathPart.isName]), inner]
  simp [List.filterMap_map, PathPart.name?, Function.comp_def]

theorem mem_intercalate {names : List String} {c : Char}
    (member : c ∈ (String.intercalate "/" names).toList) : c = '/' ∨ ∃ name ∈ names, c ∈ name.toList := by
  induction names with
  | nil => simp at member
  | cons name rest ih =>
      cases rest with
      | nil =>
          rw [String.intercalate_singleton] at member
          exact Or.inr ⟨name, by simp, member⟩
      | cons next rest =>
          rw [String.intercalate_cons_cons, String.toList_append, String.toList_append] at member
          rcases List.mem_append.mp member with front | later
          · rcases List.mem_append.mp front with first | slash
            · exact Or.inr ⟨name, by simp, first⟩
            · exact Or.inl (by simpa using slash)
          · rcases ih later with slash | ⟨other, inRest, inOther⟩
            · exact Or.inl slash
            · exact Or.inr ⟨other, List.mem_cons_of_mem name inRest, inOther⟩

theorem place_join_intercalate {base : Path} {names : List String}
    (ordinary : ∀ name ∈ names, IsName name) :
    (base.join ⟨String.intercalate "/" names⟩).place = base.place ++ names := by
  rw [place_join (isAbsolute_intercalate ordinary), pieces_intercalate ordinary,
    placeFrom_ordinary ordinary]

/-- Joining may begin at either end. -/
theorem place_join_join {base middle path : Path} (relative : path.isAbsolute = false) :
    (base.join (middle.join path)).place = ((base.join middle).join path).place := by
  cases absolute : middle.isAbsolute with
  | true =>
      have joined : (middle.join path).isAbsolute = true := by rw [isAbsolute_join _ relative, absolute]
      have outer : base.join (middle.join path) = middle.join path := by
        rw [join, if_pos joined]
      have inner : base.join middle = middle := by rw [join, if_pos absolute]
      rw [outer, inner]
  | false =>
      have joined : (middle.join path).isAbsolute = false := by rw [isAbsolute_join _ relative, absolute]
      unfold place
      rw [join_of_relative _ joined, join_of_relative _ relative, join_of_relative _ relative,
        join_of_relative _ absolute, List.append_assoc]

theorem splitAtLast_eq_none_iff (sep : Char) (text : List Char) :
    splitAtLast sep text = none ↔ sep ∉ text := by
  induction text with
  | nil => simp [splitAtLast]
  | cons c rest ih =>
      rw [splitAtLast]
      cases later : splitAtLast sep rest with
      | some split =>
          have present : sep ∈ rest := by
            rw [later] at ih
            simpa using ih
          simp [present]
      | none => simp [ih.mp later, eq_comm]

theorem splitAtLast_append {sep : Char} {before after : List Char} (absent : sep ∉ after) :
    splitAtLast sep (before ++ sep :: after) = some (before, after) := by
  induction before with
  | nil => simp [splitAtLast, (splitAtLast_eq_none_iff ..).mpr absent]
  | cons c rest ih => simp [splitAtLast, ih]

theorem splitAtLast_eq_some_iff (sep : Char) (text before after : List Char) :
    splitAtLast sep text = some (before, after) ↔ text = before ++ sep :: after ∧ sep ∉ after := by
  constructor
  · intro split
    induction text generalizing before with
    | nil => cases split
    | cons c rest ih =>
        rw [splitAtLast] at split
        cases later : splitAtLast sep rest with
        | some parts =>
            simp only [later, Option.some_inj, Prod.mk.injEq] at split
            obtain ⟨rfl, rfl⟩ := split
            obtain ⟨text, absent⟩ := ih parts.1 later
            exact ⟨by rw [text, List.cons_append], absent⟩
        | none =>
            -- this is the last separator, for the rest holds none
            simp only [later, Option.ite_none_right_eq_some, Option.some_inj, Prod.mk.injEq] at split
            obtain ⟨rfl, rfl, rfl⟩ := split
            exact ⟨rfl, (splitAtLast_eq_none_iff ..).mp later⟩
  · rintro ⟨rfl, absent⟩
    exact splitAtLast_append absent

theorem fileName?_intercalate {names : List String} {last : String}
    (ordinary : ∀ name ∈ names ++ [last], IsName name) :
    fileName? ⟨String.intercalate "/" (names ++ [last])⟩ = some last := by
  simp [fileName?, parts_intercalate ordinary, PathPart.name?]

/-- The last part of a path of names that ends in a suffix has that suffix for its extension. -/
theorem extension?_suffix {names : List String} {stem suffix : String} (filled : stem ≠ "")
    (dotless : '.' ∉ suffix.toList)
    (ordinary : ∀ name ∈ names ++ [stem ++ "." ++ suffix], IsName name) :
    extension? ⟨String.intercalate "/" (names ++ [stem ++ "." ++ suffix])⟩ = some suffix := by
  have stemmed : stem.toList ≠ [] := fun empty => filled (String.toList_eq_nil_iff.mp empty)
  have text : (stem ++ "." ++ suffix).toList = stem.toList ++ '.' :: suffix.toList := by
    simp [String.toList_append]
  simp [extension?, fileName?_intercalate ordinary, text, splitAtLast_append dotless, stemmed]

def suffix? (name : String) : Option String := do
  let (before, after) ← splitAtLast '.' name.toList
  if before.isEmpty then none else some (String.ofList after)

theorem extension?_eq_suffix? (path : Path) : path.extension? = path.fileName?.bind suffix? := rfl

def names (path : Path) : List String := path.parts.filterMap PathPart.name?

theorem names_intercalate {parts : List String} (ordinary : ∀ name ∈ parts, IsName name) :
    names ⟨String.intercalate "/" parts⟩ = parts := by
  unfold names
  rw [parts_intercalate ordinary]
  simp [List.filterMap_map, PathPart.name?, Function.comp_def]

end Path

/-- A path text of names with single slashes between them. -/
def IsPlain (text : String) : Prop :=
  ∃ names : List String, names ≠ [] ∧ (∀ name ∈ names, IsName name) ∧
    text = String.intercalate "/" names

namespace IsPlain

variable {text other : String}

theorem names_ne_nil (plain : IsPlain text) : Path.names ⟨text⟩ ≠ [] := by
  obtain ⟨parts, filled, ordinary, rfl⟩ := plain
  rw [Path.names_intercalate ordinary]
  exact filled

theorem isName (plain : IsPlain text) : ∀ name ∈ Path.names ⟨text⟩, IsName name := by
  obtain ⟨parts, -, ordinary, rfl⟩ := plain
  rw [Path.names_intercalate ordinary]
  exact ordinary

theorem intercalate (plain : IsPlain text) : String.intercalate "/" (Path.names ⟨text⟩) = text := by
  obtain ⟨parts, -, ordinary, rfl⟩ := plain
  rw [Path.names_intercalate ordinary]

theorem eq_of_names (plain : IsPlain text) (also : IsPlain other)
    (same : Path.names ⟨text⟩ = Path.names ⟨other⟩) : text = other := by
  rw [← plain.intercalate, same, also.intercalate]

theorem ne_empty (plain : IsPlain text) : text ≠ "" := by
  rintro rfl
  exact plain.names_ne_nil rfl

theorem pieces (plain : IsPlain text) : Path.pieces ⟨text⟩ = Path.names ⟨text⟩ := by
  obtain ⟨parts, -, ordinary, rfl⟩ := plain
  rw [Path.names_intercalate ordinary, Path.pieces_intercalate ordinary]

theorem parts (plain : IsPlain text) : Path.parts ⟨text⟩ = (Path.names ⟨text⟩).map .name := by
  obtain ⟨parts, -, ordinary, rfl⟩ := plain
  rw [Path.names_intercalate ordinary, Path.parts_intercalate ordinary]

theorem isAbsolute (plain : IsPlain text) : Path.isAbsolute ⟨text⟩ = false := by
  obtain ⟨parts, -, ordinary, rfl⟩ := plain
  exact Path.isAbsolute_intercalate ordinary

end IsPlain

namespace Path

/-- The slash-separated name of a path that ends in a name ends in it as well, unless the path is the
root's. -/
theorem relativeTo_eq {root path : Path} {last : String}
    (named : path.parts.getLast? = some (.name last)) (other : path.parts ≠ root.parts) :
    ∃ front, (∀ name ∈ front ++ [last], IsName name) ∧
      relativeTo root path = String.intercalate "/" (front ++ [last]) := by
  have inside : ∀ before below, path.parts = before ++ below → below ≠ [] →
      ∃ front, (∀ name ∈ front ++ [last], IsName name) ∧
        below.filterMap PathPart.name? = front ++ [last] := by
    intro before below split filled
    have final : below = below.dropLast ++ [.name last] := by
      rw [split, List.getLast?_append, List.getLast?_eq_some_getLast filled, Option.some_or,
        Option.some_inj] at named
      rw [← named, List.dropLast_concat_getLast filled]
    have names : below.filterMap PathPart.name? = below.dropLast.filterMap PathPart.name? ++ [last] := by
      conv => lhs; rw [final]
      rw [List.filterMap_append]
      rfl
    refine ⟨_, fun name member => ?_, names⟩
    rw [← names] at member
    obtain ⟨part, inBelow, same⟩ := List.mem_filterMap.mp member
    cases part <;> simp [PathPart.name?] at same
    subst same
    exact mem_parts_name (split ▸ List.mem_append_right before inBelow)
  unfold relativeTo
  cases after : afterParts? root.parts path.parts with
  | none =>
      obtain ⟨front, ordinary, names⟩ := inside [] path.parts rfl (by
        intro empty
        simp [empty] at named)
      exact ⟨front, ordinary, congrArg (String.intercalate "/") names⟩
  | some below =>
      rw [afterParts?_eq_some_iff] at after
      obtain ⟨front, ordinary, names⟩ := inside root.parts below after (by
        rintro rfl
        rw [List.append_nil] at after
        exact other after)
      exact ⟨front, ordinary, congrArg (String.intercalate "/") names⟩

theorem isPlain_relativeTo {root path : Path} {last : String}
    (named : path.parts.getLast? = some (.name last)) (other : path.parts ≠ root.parts) :
    IsPlain (relativeTo root path) := by
  obtain ⟨front, ordinary, text⟩ := relativeTo_eq named other
  exact ⟨front ++ [last], by simp, ordinary, text⟩

/-- A path keeps its extension below the root. -/
theorem extension?_relativeTo {root path : Path} {last : String}
    (named : path.parts.getLast? = some (.name last)) (other : path.parts ≠ root.parts) :
    extension? ⟨relativeTo root path⟩ = path.extension? := by
  obtain ⟨front, ordinary, text⟩ := relativeTo_eq named other
  rw [extension?_eq_suffix?, extension?_eq_suffix?, text, fileName?_intercalate ordinary, fileName?, named]
  rfl

/-- Paths that end in names and are one name below the root have one extension. -/
theorem extension?_eq_of_relativeTo {root path other : Path} {last otherLast : String}
    (named : path.parts.getLast? = some (.name last))
    (otherNamed : other.parts.getLast? = some (.name otherLast))
    (same : relativeTo root path = relativeTo root other) : path.extension? = other.extension? := by
  have top : ∀ {path : Path}, path.parts = root.parts → relativeTo root path = "" := by
    intro path parts
    rw [relativeTo, parts, (afterParts?_eq_some_iff _ _ []).mpr (List.append_nil _).symm]
    rfl
  by_cases here : path.parts = root.parts
  · by_cases there : other.parts = root.parts
    · rw [extension?_eq_suffix?, extension?_eq_suffix?, fileName?, fileName?, here, there]
    · exact absurd (same.symm.trans (top here)) (isPlain_relativeTo otherNamed there).ne_empty
  · by_cases there : other.parts = root.parts
    · exact absurd (same.trans (top there)) (isPlain_relativeTo named here).ne_empty
    · rw [← extension?_relativeTo named here, same, extension?_relativeTo otherNamed there]

end Path

end SourceAtlas
