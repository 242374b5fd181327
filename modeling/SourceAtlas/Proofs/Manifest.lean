import SourceAtlas.Manifest.Written
import SourceAtlas.Proofs.Json
import SourceAtlas.Proofs.Table
import SourceAtlas.Proofs.Timestamp
/-!
A manifest is read back from its file as it was saved, as long as it is valid and its line numbers
can be read.
-/

namespace SourceAtlas

namespace Json

section Maps

variable {α : Type} {write : α → Json} {read : Json → Option α}

theorem isData_texts (items : List String) : IsData (texts items) := by
  refine .arr fun item member => ?_
  obtain ⟨text, -, rfl⟩ := List.mem_map.mp member
  exact .str text

theorem isData_ofMap (map : Std.ExtTreeMap String α)
    (data : ∀ (key : String) (value : α), map[key]? = some value → IsData (write value)) :
    IsData (ofMap write map) := by
  refine .obj fun field member => ?_
  obtain ⟨⟨key, value⟩, listed, rfl⟩ := List.mem_map.mp member
  exact data key value (Std.ExtTreeMap.mem_toList_iff_getElem?_eq_some.mp listed)

theorem texts?_texts (items : List String) : (texts items).texts? = some items := by
  have all : (items.map str).mapM text? = some items := by
    induction items with
    | nil => rfl
    | cons item rest ih =>
        rw [List.map_cons, List.mapM_cons, ih]
        rfl
  exact all

theorem foldl_insert_toList (map : Std.ExtTreeMap String α) :
    map.toList.foldl (fun built (entry : String × α) => built.insert entry.1 entry.2) ∅ = map := by
  refine Std.ExtTreeMap.ext_getElem? fun key => Option.ext fun value => ?_
  have listed : ∀ {key value}, (key, value) ∈ map.toList ↔ map[key]? = some value :=
    Std.ExtTreeMap.mem_toList_iff_getElem?_eq_some
  constructor
  · intro filled
    rcases Table.exists_of_fill Prod.fst Prod.snd filled with
      ⟨⟨other, held⟩, member, rfl, rfl⟩ | none
    · exact listed.mp member
    · simp at none
  · intro found
    refine Table.getElem?_fill Prod.fst Prod.snd (listed.mpr found) ?_
    rintro ⟨other, held⟩ member rfl
    have equal := (listed.mp member).symm.trans found
    exact Option.some.inj equal

theorem map?_ofMap (map : Std.ExtTreeMap String α)
    (back : ∀ (key : String) (value : α), map[key]? = some value → read (write value) = some value) :
    (ofMap write map).map? read = some map := by
  have entries : ∀ entries : List (String × α),
      (∀ entry ∈ entries, read (write entry.2) = some entry.2) →
      (entries.map fun entry => (entry.1, write entry.2)).mapM
        (fun field => (read field.2).bind fun value => some (field.1, value)) = some entries := by
    intro entries all
    induction entries with
    | nil => rfl
    | cons entry rest ih =>
        rw [List.map_cons, List.mapM_cons, ih fun other member => all other (by simp [member])]
        simp [all entry (by simp)]
  have listed := entries map.toList fun entry member =>
    back entry.1 entry.2 (Std.ExtTreeMap.mem_toList_iff_getElem?_eq_some.mp member)
  have built := foldl_insert_toList map
  calc (ofMap write map).map? read
      = ((map.toList.map fun entry => (entry.1, write entry.2)).mapM
          (fun field => (read field.2).bind fun value => some (field.1, value))).bind
          fun entries => some (entries.foldl (fun map entry => map.insert entry.1 entry.2) ∅) := rfl
    _ = some map := by rw [listed, Option.bind_some, built]

theorem mem_of_mapM_eq_some {β : Type} {step : α → Option β} {items : List α} {answers : List β}
    (ran : items.mapM step = some answers) {answer : β} (member : answer ∈ answers) :
    ∃ item ∈ items, step item = some answer := by
  induction items generalizing answers with
  | nil =>
      cases ran
      cases member
  | cons item rest ih =>
      rw [List.mapM_cons] at ran
      obtain ⟨first, made, ran⟩ := Option.bind_eq_some_iff.mp ran
      obtain ⟨others, later, ran⟩ := Option.bind_eq_some_iff.mp ran
      cases ran
      rcases List.mem_cons.mp member with rfl | inRest
      · exact ⟨item, List.mem_cons_self .., made⟩
      · obtain ⟨other, inItems, same⟩ := ih later inRest
        exact ⟨other, List.mem_cons_of_mem item inItems, same⟩

theorem exists_of_map? {json : Json} {map : Std.ExtTreeMap String α}
    (made : json.map? read = some map) {key : String} {value : α} (entry : map[key]? = some value) :
    ∃ part, read part = some value := by
  cases json with
  | obj fields =>
      obtain ⟨entries, listed, built⟩ := Option.bind_eq_some_iff.mp made
      cases built
      rcases Table.exists_of_fill Prod.fst Prod.snd entry with
        ⟨other, member, -, equal⟩ | none
      · obtain ⟨field, -, taken⟩ := mem_of_mapM_eq_some listed member
        obtain ⟨found, same, kept⟩ := Option.bind_eq_some_iff.mp taken
        cases kept
        exact ⟨field.2, by rw [same, ← equal]⟩
      · simp at none
  | _ => cases made

theorem of_nullable? {json : Json} {value : α} (made : json.nullable? read = some (some value)) :
    read json = some value := by
  cases json <;> simp_all [nullable?]

end Maps

end Json

def LineRange.IsReadable (range : LineRange) : Prop :=
  range.first < Json.lineLimit ∧ range.last < Json.lineLimit

theorem LineRange.isData_toJson (range : LineRange) : Json.IsData range.toJson := by
  refine .obj fun field member => ?_
  simp only [List.mem_cons, List.not_mem_nil, or_false] at member
  rcases member with rfl | rfl <;> exact .natural _

theorem LineRange.lineRange?_toJson {range : LineRange} (readable : range.IsReadable) :
    Json.lineRange? range.toJson = some range := by
  obtain ⟨first, last⟩ := readable
  simp [Json.lineRange?, LineRange.toJson, Json.recordFields?, Json.line?, first, last]

theorem LineRange.isReadable_of_lineRange? {json : Json} {range : LineRange}
    (read : Json.lineRange? json = some range) : range.IsReadable := by
  have line : ∀ {json : Json} {n : Nat}, json.line? = some n → n < Json.lineLimit := by
    intro json n read
    cases json with
    | natural value =>
        simp only [Json.line?, Option.ite_none_right_eq_some, Option.some_inj] at read
        exact read.2 ▸ read.1
    | _ => cases read
  obtain ⟨fields, -, read⟩ := Option.bind_eq_some_iff.mp read
  split at read
  · obtain ⟨first, firstRead, read⟩ := Option.bind_eq_some_iff.mp read
    obtain ⟨last, lastRead, read⟩ := Option.bind_eq_some_iff.mp read
    cases read
    exact ⟨line firstRead, line lastRead⟩
  · cases read

namespace PageStatus

def IsReadable (status : PageStatus) : Prop :=
  ∀ lines, status.lines = some lines →
    ∀ (source : String) (range : LineRange), lines[source]? = some range → range.IsReadable

theorem isData_toJson (status : PageStatus) : Json.IsData status.toJson := by
  refine .obj fun field member => ?_
  simp only [timelessFields, List.mem_append, List.mem_cons, List.not_mem_nil, or_false] at member
  rcases member with (((rfl | rfl) | member) | rfl) | rfl
  · exact Json.isData_texts _
  · exact Json.isData_ofMap _ fun _ text _ => .str text
  · cases lines : status.lines with
    | none => simp [lines] at member
    | some info =>
        simp only [lines, List.mem_singleton] at member
        rw [member]
        exact Json.isData_ofMap _ fun _ range _ => range.isData_toJson
  · exact .str _
  · exact .str _

theorem pageStatus?_toJson {status : PageStatus} (readable : status.IsReadable) :
    Json.pageStatus? status.toJson = some status := by
  have sources := Json.texts?_texts status.sources
  have hashes : (Json.ofMap Json.str status.hashes).map? Json.text? = some status.hashes :=
    Json.map?_ofMap _ fun _ _ _ => rfl
  have time := Timestamp.ofText?_toText status.generatedAt
  cases lines : status.lines with
  | none =>
      simp [Json.pageStatus?, toJson, timelessFields, lines, Json.recordFields?, sources, hashes,
        Json.nullable?, Json.text?, Json.timestamp?, time]
      rw [← lines]
  | some info =>
      have ranges : (LineInfo.toJson info).map? Json.lineRange? = some info :=
        Json.map?_ofMap _ fun source range found =>
          LineRange.lineRange?_toJson (readable info lines source range found)
      have present : (LineInfo.toJson info).nullable? (Json.map? Json.lineRange?) = some (some info) := by
        simp only [LineInfo.toJson, Json.ofMap, Json.nullable?] at ranges ⊢
        rw [ranges]
        rfl
      simp [Json.pageStatus?, toJson, timelessFields, lines, Json.recordFields?, sources, hashes,
        present, Json.text?, Json.timestamp?, time]
      rw [← lines]

theorem isReadable_of_pageStatus? {json : Json} {status : PageStatus}
    (read : Json.pageStatus? json = some status) : status.IsReadable := by
  obtain ⟨fields, -, read⟩ := Option.bind_eq_some_iff.mp read
  split at read
  · next sources hashes lines contentHash generatedAt =>
      obtain ⟨texts, _, read⟩ := Option.bind_eq_some_iff.mp read
      obtain ⟨prints, _, read⟩ := Option.bind_eq_some_iff.mp read
      obtain ⟨info, ranges, read⟩ := Option.bind_eq_some_iff.mp read
      obtain ⟨hash, _, read⟩ := Option.bind_eq_some_iff.mp read
      obtain ⟨time, _, read⟩ := Option.bind_eq_some_iff.mp read
      cases read
      rintro known rfl source range entry
      obtain ⟨part, read⟩ := Json.exists_of_map? (Json.of_nullable? ranges) entry
      exact LineRange.isReadable_of_lineRange? read
  · cases read

end PageStatus

namespace Manifest

def IsReadable (manifest : Manifest) : Prop :=
  ∀ (page : String) (status : PageStatus), manifest[page]? = some status → status.IsReadable

theorem isValid_iff (manifest : Manifest) :
    manifest.isValid = true ↔ ∀ (page : String) (status : PageStatus),
      manifest[page]? = some status → page ≠ "" ∧ status.isValid = true := by
  simp only [isValid, List.all_eq_true, Bool.and_eq_true, Bool.not_eq_true', String.isEmpty_eq_false_iff]
  constructor
  · intro all page status entry
    exact all (page, status) (Std.ExtTreeMap.mem_toList_iff_getElem?_eq_some.mpr entry)
  · rintro all ⟨page, status⟩ member
    exact all page status (Std.ExtTreeMap.mem_toList_iff_getElem?_eq_some.mp member)

/-- A manifest that was read is valid, and its lines can be read again. -/
theorem isValid_of_ofText? {text : String} {manifest : Manifest} (read : ofText? text = some manifest) :
    manifest.isValid = true ∧ manifest.IsReadable := by
  obtain ⟨json, -, read⟩ := Option.bind_eq_some_iff.mp read
  obtain ⟨fields, -, read⟩ := Option.bind_eq_some_iff.mp read
  split at read
  · obtain ⟨map, mapped, read⟩ := Option.bind_eq_some_iff.mp read
    obtain ⟨valid, same⟩ := Option.ite_none_right_eq_some.mp read
    cases same
    refine ⟨valid, fun page status entry => ?_⟩
    obtain ⟨part, read⟩ := Json.exists_of_map? mapped entry
    exact PageStatus.isReadable_of_pageStatus? read
  · cases read

theorem isData_toJson (manifest : Manifest) : Json.IsData manifest.toJson := by
  refine .obj fun field member => ?_
  rw [List.mem_singleton.mp member]
  exact Json.isData_ofMap _ fun _ status _ => status.isData_toJson

/-- A valid manifest whose lines can be read is read back from its text. -/
theorem ofText?_toText {manifest : Manifest} (valid : manifest.isValid = true)
    (readable : manifest.IsReadable) : ofText? manifest.toText = some manifest := by
  have parsed := Json.parse?_toPretty manifest.isData_toJson
  have pages : (Json.ofMap PageStatus.toJson manifest).map? Json.pageStatus? = some manifest :=
    Json.map?_ofMap _ fun page status found =>
      PageStatus.pageStatus?_toJson (readable page status found)
  have known : manifest.toJson.recordFields? ["pages"] =
      some [some (Json.ofMap PageStatus.toJson manifest)] := rfl
  simp [ofText?, toText, parsed, known, pages, valid]

end Manifest

end SourceAtlas
