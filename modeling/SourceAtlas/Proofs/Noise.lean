import SourceAtlas.Proofs.DeclaredCalls
/-!
A project's own noise words. They take names out of the call graph and do nothing else: whether a call is
left out is decided before repeated names are dropped and before the functions with one name are put
together, and the graph is the same as if it were decided last.
-/

namespace SourceAtlas

/-- Leaving items out does not depend on whether repeated ones are dropped before. -/
theorem eraseDups_filter {α : Type} [BEq α] [LawfulBEq α] (keep : α → Bool) :
    (items : List α) → (items.filter keep).eraseDups = items.eraseDups.filter keep
  | [] => rfl
  | first :: rest => by
      have later := eraseDups_filter keep (rest.filter fun other => !other == first)
      rw [List.filter_filter] at later
      rw [List.eraseDups_cons]
      by_cases kept : keep first = true
      · rw [List.filter_cons_of_pos kept, List.filter_cons_of_pos kept, List.eraseDups_cons,
          List.filter_filter, ← later]
        simp only [Bool.and_comm]
      · rw [List.filter_cons_of_neg kept, List.filter_cons_of_neg kept, ← later]
        -- the first item is not kept, so no other one like it is
        congr 1
        apply List.filter_congr
        intro other member
        by_cases same : other = first
        · simp [same, kept]
        · simp [same]
termination_by items => items.length
decreasing_by exact Nat.lt_succ_of_le (List.length_filter_le _ rest)

namespace Lowercase

/-- From behind the capitals of ASCII up to the letters with accents no character has another
lower-case form. -/
def IsSmall (c : Char) : Prop := 0x5A < c.toNat ∧ c.toNat < 0xC0

instance : DecidablePred IsSmall := fun _ => inferInstanceAs (Decidable (_ ∧ _))

def AllSmall (text : String) : Prop := ∀ c ∈ text.toList, IsSmall c

instance : DecidablePred AllSmall := fun text => List.decidableBAll IsSmall text.toList

theorem simple_of_small {c : Char} (small : IsSmall c) : simple c = c := by
  have outside : CaseTables.lowerRuns.all (fun run => run.last ≤ 0x5A || 0xC0 ≤ run.first) = true := by
    decide +kernel
  have none := List.find?_eq_none.mpr fun run (member : run ∈ CaseTables.lowerRuns) => show
      ¬ (run.first ≤ c.toNat && c.toNat ≤ run.last && (c.toNat - run.first) % run.stride == 0) = true by
    have apart := List.all_eq_true.mp outside run member
    unfold IsSmall at small
    simp only [Bool.or_eq_true, Bool.and_eq_true, decide_eq_true_eq] at apart ⊢
    omega
  rw [simple, none]

theorem lower_of_small {text : String} (small : AllSmall text) : lower text = text := by
  have kept : ∀ (rest before : List Char), (∀ c ∈ rest, IsSmall c) → lowerFrom before rest = rest := by
    intro rest
    induction rest with
    | nil => exact fun before _ => rfl
    | cons c rest ih =>
        intro before small
        obtain ⟨first, others⟩ := List.forall_mem_cons.mp small
        have sigma : c ≠ 'Σ' := by
          rintro rfl
          exact absurd first (by decide)
        have dotted : c ≠ 'İ' := by
          rintro rfl
          exact absurd first (by decide)
        rw [lowerFrom, ih _ others, lowerAt, if_neg sigma, if_neg dotted, simple_of_small first]
        rfl
  rw [lower, kept _ _ small, String.ofList_toList]

end Lowercase

namespace NoiseSettings

def wordsFor (settings : NoiseSettings) (tag : String) : List String :=
  settings.common ++ settings.languages.getD tag []

/-- A name is an extra noise word of a language, whatever its case. -/
def Silences (settings : NoiseSettings) (tag name : String) : Prop :=
  ∃ word ∈ settings.wordsFor tag, Lowercase.lower name = Lowercase.lower word

instance (settings : NoiseSettings) (tag name : String) : Decidable (settings.Silences tag name) :=
  inferInstanceAs (Decidable (∃ word ∈ _, _))

/-- What the extra words of a language leave of a caller's callees; a caller that is left with none is
no caller. -/
def remaining? (settings : NoiseSettings) (tag : String) (callees : List String) :
    Option (List String) :=
  match callees.filter fun name => ¬ settings.Silences tag name with
  | [] => none
  | kept => some kept

end NoiseSettings

namespace NoiseWords

variable (words : NoiseWords) (settings : NoiseSettings)

theorem toList_filter_key (table : Std.ExtTreeMap String (List String)) (tag : String) :
    (table.toList.filter fun entry => entry.1 = tag).flatMap Prod.snd = table.getD tag [] := by
  rw [Std.ExtTreeMap.getD_eq_getD_getElem?]
  have distinct : table.toList.Nodup := by
    apply table.distinct_keys_toList.imp
    rintro first second apart rfl
    exact apart Std.ReflCmp.compare_self
  cases found : table[tag]? with
  | none =>
      have none : (table.toList.filter fun entry => entry.1 = tag) = [] := by
        rw [List.filter_eq_nil_iff]
        rintro ⟨key, value⟩ listed here
        simp only [decide_eq_true_eq] at here
        subst here
        rw [Std.ExtTreeMap.mem_toList_iff_getElem?_eq_some, found] at listed
        cases listed
      rw [none]
      rfl
  | some value =>
      have one : (table.toList.filter fun entry => entry.1 = tag) = [(tag, value)] := by
        rw [← List.perm_singleton, List.perm_ext_iff_of_nodup (distinct.filter _) (by simp)]
        rintro ⟨key, other⟩
        simp only [List.mem_filter, Std.ExtTreeMap.mem_toList_iff_getElem?_eq_some,
          decide_eq_true_eq, List.mem_singleton, Prod.mk.injEq]
        constructor
        · rintro ⟨listed, rfl⟩
          rw [found, Option.some_inj] at listed
          exact ⟨rfl, listed.symm⟩
        · rintro ⟨rfl, rfl⟩
          exact ⟨found, rfl⟩
      rw [one]
      simp

theorem listed_withSettings (tag : String) :
    (words.withSettings settings).listed tag = words.listed tag ++ settings.languages.getD tag [] := by
  have merged : ∀ (entries : List (String × List String))
      (known : Std.ExtTreeMap String (List String)),
      (entries.foldl (fun merged entry =>
        merged.insert entry.1 (merged.getD entry.1 [] ++ entry.2)) known).getD tag [] =
          known.getD tag [] ++ (entries.filter fun entry => entry.1 = tag).flatMap Prod.snd := by
    intro entries
    induction entries with
    | nil => simp
    | cons entry rest ih =>
        intro known
        rw [List.foldl_cons, ih, Std.ExtTreeMap.getD_insert]
        by_cases same : entry.1 = tag
        · simp [same]
        · simp [same]
  rw [listed, withSettings, Std.ExtTreeMap.foldl_eq_foldl_toList, merged, toList_filter_key]
  rfl

theorem isNoise_iff (name tag : String) : words.isNoise name tag = true ↔
    ∃ word ∈ words.common ++ words.listed tag, Lowercase.lower word = Lowercase.lower name := by
  simp only [isNoise, List.any_eq_true, beq_iff_eq]

/-- Among small letters a name is noise only as it is written. -/
theorem isNoise_of_small {name tag : String} (small : Lowercase.AllSmall name)
    (alike : ∀ word ∈ words.common ++ words.listed tag, Lowercase.AllSmall word) :
    words.isNoise name tag = (words.common ++ words.listed tag).contains name := by
  rw [Bool.eq_iff_iff, isNoise_iff, List.contains_iff_mem, Lowercase.lower_of_small small]
  constructor
  · rintro ⟨word, member, same⟩
    rw [Lowercase.lower_of_small (alike word member)] at same
    exact same ▸ member
  · exact fun member => ⟨name, member, Lowercase.lower_of_small small⟩

/-- With extra words a name is noise that was noise before, or is one of them. -/
theorem isNoise_withSettings (name tag : String) :
    (words.withSettings settings).isNoise name tag =
      (words.isNoise name tag || settings.Silences tag name) := by
  rw [Bool.eq_iff_iff, Bool.or_eq_true, isNoise_iff, isNoise_iff, decide_eq_true_eq,
    listed_withSettings]
  simp only [withSettings, NoiseSettings.Silences, NoiseSettings.wordsFor, List.mem_append, eq_comm]
  constructor
  · rintro ⟨word, ((common | extra) | (own | extra)), same⟩
    · exact Or.inl ⟨word, Or.inl common, same⟩
    · exact Or.inr ⟨word, Or.inl extra, same⟩
    · exact Or.inl ⟨word, Or.inr own, same⟩
    · exact Or.inr ⟨word, Or.inr extra, same⟩
  · rintro (⟨word, (common | own), same⟩ | ⟨word, (common | own), same⟩)
    · exact ⟨word, Or.inl (Or.inl common), same⟩
    · exact ⟨word, Or.inr (Or.inl own), same⟩
    · exact ⟨word, Or.inl (Or.inr common), same⟩
    · exact ⟨word, Or.inr (Or.inr own), same⟩

theorem isNoise_of_lower {name alike : String} (same : Lowercase.lower name = Lowercase.lower alike)
    (tag : String) : words.isNoise name tag = words.isNoise alike tag := by
  rw [isNoise, isNoise, same]

end NoiseWords

namespace Source

variable (source : Source) (language : Language) (words : NoiseWords) (settings : NoiseSettings)

/-- An analysis depends on what is noise among the names that the file calls, in its own language. -/
theorem analyze_congr {noise other : NoiseWords} (same : ∀ node name,
      source.callName? language node = some name →
        noise.isNoise name language.tag = other.isNoise name language.tag) :
    source.analyze language noise = source.analyze language other := by
  have calls : source.callsIn language noise = source.callsIn language other := by
    funext node
    rw [callsIn, callsIn]
    congr 1
    apply List.filter_congr
    intro name called
    obtain ⟨call, -, named⟩ := List.mem_filterMap.mp called
    rw [same call name named]
  have added : source.addDefinition language noise = source.addDefinition language other := by
    funext graph definition
    simp only [addDefinition, calls]
  rw [analyze, analyze, added]

theorem namesCalled_withSettings (node : source.tree.Node) :
    source.namesCalled language (words.withSettings settings) node =
      (source.namesCalled language words node).filter fun name =>
        ¬ settings.Silences language.tag name := by
  rw [namesCalled, namesCalled, List.filter_filter]
  apply List.filter_congr
  intro name called
  rw [NoiseWords.isNoise_withSettings, Bool.not_or, decide_not, Bool.and_comm]

theorem callees?_analyze_eq_none_iff (key : String) :
    (source.analyze language words).graph.callees? key = none ↔
      ((source.analyze language words).graph.callees? key).getD [] = [] := by
  cases found : (source.analyze language words).graph.callees? key with
  | none => simp
  | some callees =>
      have filled := ((source.arranged_analyze language words).filled_of_get? found).2.1
      simpa using filled

/-- Leaving out extra words first or last makes no difference to what stands under a name. -/
theorem callees?_withSettings (key : String) :
    (source.analyze language (words.withSettings settings)).graph.callees? key =
      ((source.analyze language words).graph.callees? key).bind
        (settings.remaining? language.tag) := by
  have under : ((source.analyze language (words.withSettings settings)).graph.callees? key).getD [] =
      (((source.analyze language words).graph.callees? key).getD []).filter fun name =>
        ¬ settings.Silences language.tag name := by
    have each := funext (source.namesCalled_withSettings language words settings)
    rw [callees?_analyze, callees?_analyze, ← eraseDups_filter, List.filter_flatMap, each]
  have absent := source.callees?_analyze_eq_none_iff language (words.withSettings settings) key
  rw [under] at absent
  cases wide : (source.analyze language words).graph.callees? key with
  | none =>
      rw [wide] at absent
      exact absent.mpr rfl
  | some callees =>
      rw [wide, Option.getD_some] at absent under
      rw [Option.bind_some, NoiseSettings.remaining?]
      split
      · next nothing => exact absent.mpr nothing
      · next filled =>
          cases narrow : (source.analyze language (words.withSettings settings)).graph.callees? key with
          | none => exact absurd (absent.mp narrow) filled
          | some kept =>
              rw [narrow] at under
              exact congrArg some under

/-- Names that differ in case alone stand under a caller together or not at all, when it calls both. -/
theorem containsEdge_of_lower {name alike : String}
    (same : Lowercase.lower name = Lowercase.lower alike) {key : String}
    (called : (source.analyze language {}).graph.containsEdge key name = true)
    (also : (source.analyze language {}).graph.containsEdge key alike = true) :
    (source.analyze language words).graph.containsEdge key name =
      (source.analyze language words).graph.containsEdge key alike := by
  have heard : ∀ {name : String}, (source.analyze language {}).graph.containsEdge key name = true →
      ((source.analyze language words).graph.containsEdge key name = true ↔
        words.isNoise name language.tag = false) := by
    intro name called
    rw [containsEdge_analyze_iff] at called ⊢
    obtain ⟨node, declares, call, inside, kind, resolved, -⟩ := called
    constructor
    · rintro ⟨-, -, -, -, -, -, kept⟩
      exact kept
    · exact fun kept => ⟨node, declares, call, inside, kind, resolved, kept⟩
  rw [Bool.eq_iff_iff, heard called, heard also, words.isNoise_of_lower same]

/-- A project's own noise words only filter what a file amounts to. Its entities stay, and under every
caller stand in their order the callees that are no extra word of the language in any case, or the
caller is gone with the last of them. The extra words of other languages change nothing, and of names
that differ in case alone all are kept or none. -/
theorem analyze_withSettings (source : Source) (language : Language) (words : NoiseWords)
    (settings : NoiseSettings) :
    let wide := source.analyze language words
    let narrow := source.analyze language (words.withSettings settings)
    narrow.entities = wide.entities ∧
    (∀ key, narrow.graph.callees? key =
      (wide.graph.callees? key).bind (settings.remaining? language.tag)) ∧
    (∀ others : NoiseSettings, others.wordsFor language.tag = settings.wordsFor language.tag →
      source.analyze language (words.withSettings others) = narrow) ∧
    ∀ name alike, Lowercase.lower name = Lowercase.lower alike → ∀ key,
      (source.analyze language {}).graph.containsEdge key name = true →
      (source.analyze language {}).graph.containsEdge key alike = true →
        narrow.graph.containsEdge key name = narrow.graph.containsEdge key alike := by
  refine ⟨rfl, source.callees?_withSettings language words settings, fun others agree => ?_,
    fun name alike same key called also => source.containsEdge_of_lower language _ same called also⟩
  refine source.analyze_congr language fun _ name _ => ?_
  have alike : others.Silences language.tag name ↔ settings.Silences language.tag name := by
    rw [NoiseSettings.Silences, NoiseSettings.Silences, agree]
  rw [NoiseWords.isNoise_withSettings, NoiseWords.isNoise_withSettings, decide_eq_decide.mpr alike]

end Source

end SourceAtlas
