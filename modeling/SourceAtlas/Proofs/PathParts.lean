import SourceAtlas.Proofs.Path
/-!
Paths that are put together from parts. The parts of a path are a mark of where it starts and then
steps; a path made from them leads the same way, and leaving out the last leads to the directory above.
-/

namespace SourceAtlas.Path

/-- The pieces of a path that lead somewhere: all but the dots. -/
def steps (path : Path) : List String := path.pieces.filter fun piece => piece ≠ "."

/-- A part as a piece of a path; the root is none. -/
def pieceOf? : PathPart → Option String
  | .root => none
  | part => some part.text

def IsStep (part : PathPart) : Prop := part = .up ∨ ∃ name, IsName name ∧ part = .name name

/-- Parts as they are read off a path: at most one that marks the start, and steps. -/
def AreParts (parts : List PathPart) : Prop :=
  ∃ start steps, parts = start ++ steps ∧ (start = [] ∨ start = [.root] ∨ start = [.here]) ∧
    ∀ part ∈ steps, IsStep part

theorem isStep_of_partOf? {path : Path} {piece : String} (member : piece ∈ path.pieces)
    {part : PathPart} (found : partOf? piece = some part) : IsStep part := by
  unfold partOf? at found
  split at found
  · cases found
  · next notHere =>
      split at found
      · cases found
        exact Or.inl rfl
      · next notUp =>
          cases found
          obtain ⟨filled, slashless⟩ := mem_pieces member
          exact Or.inr ⟨piece, ⟨filled, notHere, notUp, slashless⟩, rfl⟩

theorem areParts_parts (path : Path) : AreParts path.parts := by
  have inner : ∀ part ∈ path.pieces.filterMap partOf?, IsStep part := by
    intro part member
    obtain ⟨piece, inPieces, found⟩ := List.mem_filterMap.mp member
    exact isStep_of_partOf? inPieces found
  unfold parts
  split
  · exact ⟨[.root], _, rfl, by simp, inner⟩
  · split
    · exact ⟨[.here], _, rfl, by simp, inner⟩
    · exact ⟨[], _, rfl, by simp, inner⟩

/-- Parts without the last are parts, and the last is a step if any are left. -/
theorem AreParts.init {parts : List PathPart} {last : PathPart} (ordered : AreParts (parts ++ [last])) :
    AreParts parts ∧ (parts ≠ [] → IsStep last) := by
  obtain ⟨start, steps, split, kind, inner⟩ := ordered
  rcases List.eq_nil_or_concat steps with rfl | ⟨front, final, rfl⟩
  · have empty : parts = [] := by
      rw [List.append_nil] at split
      rcases kind with rfl | rfl | rfl <;> simpa using congrArg List.length split
    rw [empty]
    exact ⟨⟨[], [], rfl, Or.inl rfl, nofun⟩, fun filled => absurd rfl filled⟩
  · rw [List.concat_eq_append, ← List.append_assoc] at split
    obtain ⟨rfl, same⟩ := List.append_inj' split rfl
    cases same
    refine ⟨⟨start, front, rfl, kind, fun part member => ?_⟩, fun _ => ?_⟩
    · exact inner part (by simp [member])
    · exact inner last (by simp)

theorem IsStep.text {part : PathPart} (step : IsStep part) :
    part.text ≠ "" ∧ '/' ∉ part.text.toList ∧ partOf? part.text = some part := by
  rcases step with rfl | ⟨name, ordinary, rfl⟩
  · exact ⟨by decide, by decide, rfl⟩
  · exact ⟨ordinary.1, ordinary.2.2.2, partOf?_name ordinary⟩

theorem filterMap_pieceOf?_steps {steps : List PathPart} (inner : ∀ part ∈ steps, IsStep part) :
    steps.filterMap pieceOf? = steps.map PathPart.text := by
  induction steps with
  | nil => rfl
  | cons part rest ih =>
      rw [List.map_cons, ← ih fun other member => inner other (List.mem_cons_of_mem part member)]
      rcases inner part (List.mem_cons_self ..) with rfl | ⟨name, -, rfl⟩ <;> rfl

theorem filterMap_partOf?_steps {steps : List PathPart} (inner : ∀ part ∈ steps, IsStep part) :
    (steps.map PathPart.text).filterMap partOf? = steps := by
  induction steps with
  | nil => rfl
  | cons part rest ih =>
      rw [List.map_cons, List.filterMap_cons, (inner part (List.mem_cons_self ..)).text.2.2,
        ih fun other member => inner other (List.mem_cons_of_mem part member)]

theorem slashless_steps {steps : List PathPart} (inner : ∀ part ∈ steps, IsStep part) :
    ∀ text ∈ steps.map PathPart.text, text ≠ "" ∧ '/' ∉ text.toList := by
  intro text member
  obtain ⟨part, inSteps, rfl⟩ := List.mem_map.mp member
  exact ⟨(inner part inSteps).text.1, (inner part inSteps).text.2.1⟩

theorem ofParts_steps {steps : List PathPart} (inner : ∀ part ∈ steps, IsStep part) :
    ofParts steps = ⟨String.intercalate "/" (steps.map PathPart.text)⟩ := by
  unfold ofParts
  split
  · next rest =>
      rcases inner .root (List.mem_cons_self ..) with wrong | ⟨name, -, wrong⟩ <;> cases wrong
  · rfl

theorem AreParts.pieces_ofParts {parts : List PathPart} (ordered : AreParts parts) :
    (ofParts parts).pieces = parts.filterMap pieceOf? := by
  obtain ⟨start, steps, rfl, kind, inner⟩ := ordered
  have texts := filterMap_pieceOf?_steps inner
  have slashless := slashless_steps inner
  -- by the mark at the start: none, the root, the directory that one is in
  rcases kind with rfl | rfl | rfl
  · rw [List.nil_append, ofParts_steps inner, pieces_intercalate_of_slashless slashless, texts]
  · have cut := pieces_append "" (String.intercalate "/" (steps.map PathPart.text))
    rw [String.empty_append, pieces_empty, List.nil_append,
      pieces_intercalate_of_slashless slashless] at cut
    rw [List.singleton_append, List.filterMap_cons, texts]
    exact cut
  · have dotted : ∀ text ∈ "." :: steps.map PathPart.text, text ≠ "" ∧ '/' ∉ text.toList := by
      rw [List.forall_mem_cons]
      exact ⟨by decide, slashless⟩
    rw [List.singleton_append, List.filterMap_cons, texts]
    exact pieces_intercalate_of_slashless dotted

theorem AreParts.parts_ofParts {parts : List PathPart} (ordered : AreParts parts) :
    (ofParts parts).parts = parts := by
  have pieced := ordered.pieces_ofParts
  obtain ⟨start, steps, rfl, kind, inner⟩ := ordered
  have texts := filterMap_pieceOf?_steps inner
  have read := filterMap_partOf?_steps inner
  have slashless := slashless_steps inner
  rcases kind with rfl | rfl | rfl
  · have relative : (ofParts ([] ++ steps)).isAbsolute = false := by
      rw [List.nil_append, ofParts_steps inner]
      exact isAbsolute_intercalate_of_slashless slashless
    unfold Path.parts
    rw [relative, pieced, List.nil_append, texts, read, if_neg (by simp)]
    -- a first step is never a dot, so no mark is read in front of it
    cases steps with
    | nil => rfl
    | cons part rest =>
        rcases inner part (List.mem_cons_self ..) with rfl | ⟨name, ordinary, rfl⟩
        · rfl
        · split
          · next same =>
              cases same
              exact absurd rfl ordinary.2.1
          · rfl
  · have absolute : (ofParts ([.root] ++ steps)).isAbsolute = true := by
      simp [ofParts, isAbsolute, String.toList_append]
    unfold Path.parts
    rw [absolute, pieced, List.singleton_append, List.filterMap_cons, texts]
    simp only [if_true, pieceOf?, read]
  · have plain : ∀ text ∈ "." :: steps.map PathPart.text, text ≠ "" ∧ '/' ∉ text.toList := by
      rw [List.forall_mem_cons]
      exact ⟨by decide, slashless⟩
    have relative : (ofParts ([.here] ++ steps)).isAbsolute = false :=
      isAbsolute_intercalate_of_slashless plain
    unfold Path.parts
    rw [relative, pieced, List.singleton_append, List.filterMap_cons, texts, if_neg (by simp)]
    simp [pieceOf?, PathPart.text, partOf?, read]

theorem AreParts.ofParts_text {parts : List PathPart} (ordered : AreParts parts) (filled : parts ≠ []) :
    (ofParts parts).text ≠ "" := by
  intro empty
  have read := ordered.parts_ofParts
  rw [show ofParts parts = ⟨""⟩ from by rw [← empty]] at read
  exact filled read.symm

theorem steps_eq_parts (path : Path) :
    path.steps = (path.parts.filterMap pieceOf?).filter fun piece => piece ≠ "." := by
  have inner : (path.pieces.filterMap partOf?).filterMap pieceOf? =
      path.pieces.filter fun piece => piece ≠ "." := by
    induction path.pieces with
    | nil => rfl
    | cons piece rest ih =>
        by_cases here : piece = "."
        · simpa [here, partOf?] using ih
        · by_cases up : piece = ".."
          · simpa [up, partOf?, pieceOf?, PathPart.text] using ih
          · simpa [here, up, partOf?, pieceOf?, PathPart.text] using ih
  have again : path.steps.filter (fun piece => piece ≠ ".") = path.steps := by
    simp [steps, List.filter_filter]
  rw [← again, steps, ← inner]
  unfold parts
  split
  · rfl
  · split
    · simp [pieceOf?, PathPart.text]
    · rfl

theorem AreParts.steps_ofParts {parts : List PathPart} (ordered : AreParts parts) :
    (ofParts parts).steps = (parts.filterMap pieceOf?).filter fun piece => piece ≠ "." := by
  rw [steps_eq_parts, ordered.parts_ofParts]

theorem steps_of_last {path : Path} {init : List PathPart} {last : String}
    (split : path.parts = init ++ [.name last]) : path.steps = (ofParts init).steps ++ [last] := by
  have ordered := areParts_parts path
  have ordinary : IsName last := mem_parts_name (split ▸ List.mem_append_right init (List.mem_singleton_self _))
  rw [split] at ordered
  rw [steps_eq_parts, split, ordered.init.1.steps_ofParts]
  simp [pieceOf?, PathPart.text, ordinary.2.1]

theorem placeFrom_steps (path : Path) : placeFrom [] path.steps = path.place := by
  unfold steps place
  generalize ([] : Place) = start
  induction path.pieces generalizing start with
  | nil => rfl
  | cons piece rest ih =>
      by_cases here : piece = "."
      · simpa [here, placeFrom] using ih start
      · simp only [ne_eq, here, not_false_eq_true, decide_true, List.filter_cons_of_pos, placeFrom, ih]

/-- Above a path stands the path without its last part, and then what stands above that. -/
theorem pathsAbove_ofParts {parts : List PathPart} {last : PathPart} (filled : parts ≠ [])
    (ordered : AreParts (parts ++ [last])) :
    Disk.pathsAbove (ofParts (parts ++ [last])) =
      ofParts parts :: Disk.pathsAbove (ofParts parts) := by
  have positive : 1 ≤ parts.length := List.length_pos_iff.mpr filled
  unfold Disk.pathsAbove
  rw [ordered.parts_ofParts, ordered.init.1.parts_ofParts]
  simp only
  -- the longest cut comes first and is the parts without the last; the others are cuts of these
  rw [List.length_append, List.length_singleton,
    List.range_succ, List.drop_append_of_le_length (by simpa using positive), List.reverse_append,
    List.reverse_singleton, List.singleton_append, List.map_cons, List.take_left]
  congr 1
  apply List.map_congr_left
  intro count member
  have inside : count ∈ List.range parts.length := List.mem_of_mem_drop (List.mem_reverse.mp member)
  rw [List.take_append_of_le_length (Nat.le_of_lt (List.mem_range.mp inside))]

end SourceAtlas.Path
