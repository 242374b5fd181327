import SourceAtlas.ParsedFile
/-!
The lines of what a file defines: none lies behind the end of the file.
-/

namespace SourceAtlas

theorem toList_eq (bytes : ByteArray) : bytes.toList = bytes.data.toList := by
  have loop : ∀ (at_ : Nat) (read : List UInt8),
      ByteArray.toList.loop bytes at_ read = read.reverse ++ bytes.data.toList.drop at_ := by
    intro at_ read
    fun_induction ByteArray.toList.loop bytes at_ read with
    | case1 at_ read inside ih =>
        rw [ih, List.reverse_cons, List.append_assoc, List.drop_eq_getElem_cons inside]
        rw [ByteArray.get!, getElem!_pos bytes.data at_ inside]
        rfl
    | case2 at_ read outside =>
        rw [List.drop_eq_nil_of_le (Nat.not_lt.mp outside), List.append_nil]
  exact loop 0 []

theorem length_toList (bytes : ByteArray) : bytes.toList.length = bytes.size := by
  rw [toList_eq]
  rfl

namespace Source

variable (source : Source)

theorem lineAt_le (offset : Nat) : source.lineAt offset ≤ source.bytes.size + 1 := by
  have counted : (source.bytes.extract 0 offset).toList.count 10 ≤ source.bytes.size := by
    refine Nat.le_trans List.count_le_length ?_
    rw [length_toList, ByteArray.size_extract]
    omega
  exact Nat.succ_le_succ counted

/-- What stands further behind in a file stands on a later line, or on the same. -/
theorem lineAt_mono {left right : Nat} (before : left ≤ right) : source.lineAt left ≤ source.lineAt right := by
  have upTo : ∀ offset, (source.bytes.extract 0 offset).toList = source.bytes.data.toList.take offset := by
    intro offset
    rw [toList_eq, ByteArray.data_extract, Array.toList_extract, List.extract_eq_take_drop]
    rfl
  rw [lineAt, lineAt, upTo, upTo]
  exact Nat.succ_le_succ ((List.take_sublist_take_left before).count_le 10)

theorem lines_le_of_mem_entities {language : Language} {noise : NoiseWords} {entity : Entity}
    (member : entity ∈ (source.analyze language noise).entities) :
    entity.startLine ≤ source.bytes.size + 1 ∧ entity.endLine ≤ source.bytes.size + 1 := by
  obtain ⟨definition, -, rfl⟩ := List.mem_map.mp (List.mem_mergeSort.mp member)
  exact ⟨source.lineAt_le _, source.lineAt_le _⟩

end Source

/-- The lines that the definitions of a file cover lie in the file. -/
theorem ParsedFile.lineSpan?_le {languages : LanguageSet} {limit : Nat} {parse : Parser}
    {tree : FileTree} {path : Path} {file : ParsedFile}
    (read : ParsedFile.read? languages limit parse tree path = some file) {noise : NoiseWords}
    {first last : Nat} (span : (file.analyze noise).lineSpan? = some (first, last)) :
    ∃ text, tree.readText path = .ok text ∧ first ≤ text.toUTF8.size + 1 ∧ last ≤ text.toUTF8.size + 1 := by
  obtain ⟨start, least, span⟩ := Option.bind_eq_some_iff.mp span
  obtain ⟨stop, greatest, same⟩ := Option.bind_eq_some_iff.mp span
  cases same
  obtain ⟨top, inEntities, rfl⟩ := List.mem_map.mp (List.min?_mem least)
  obtain ⟨bottom, alsoIn, rfl⟩ := List.mem_map.mp (List.max?_mem greatest)
  have upper := (file.source.lines_le_of_mem_entities inEntities).1
  have lower := (file.source.lines_le_of_mem_entities alsoIn).2
  obtain ⟨language, -, read⟩ := Option.bind_eq_some_iff.mp read
  split at read
  · cases read
  · next text present =>
      split at read
      · cases read
      · cases read
        exact ⟨text, present, upper, lower⟩

end SourceAtlas
