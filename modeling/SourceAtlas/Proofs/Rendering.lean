import SourceAtlas.PagePlan
import SourceAtlas.PageTemplates
/-!
What planned pages look like with the builtin templates. Every template renders for the contexts that
plans build, and its text is put together from the texts of its parts: a loop gives one text for each
item, made from that item alone.
-/

namespace SourceAtlas

namespace Template

def Renders (scope : Scope) (parts : Template) (text : String) : Prop :=
  renderChars? scope parts = some text.toList

namespace Renders

variable {scope : Scope} {parts : Template} {text more : String}

theorem render? (renders : Renders scope parts text) : Template.render? parts scope = some text := by
  rw [Template.render?, renders, Option.map_some, String.ofList_toList]

theorem congr (renders : Renders scope parts text) (same : text = more) : Renders scope parts more :=
  same ▸ renders

theorem nil : Renders scope [] "" := rfl

/-- A part with a text comes before the text of the others. -/
theorem cons {part : TemplatePart} (first : renderPart? scope part = some text.toList)
    (later : Renders scope parts more) : Renders scope (part :: parts) (text ++ more) := by
  have both : renderChars? scope (part :: parts) = some (text.toList ++ more.toList) := by
    rw [renderChars?, first, later]
    rfl
  rw [Renders, both, String.toList_append]

theorem append {others : Template} (first : Renders scope parts text)
    (later : Renders scope others more) : Renders scope (parts ++ others) (text ++ more) := by
  induction parts generalizing text with
  | nil =>
      have nothing : text.toList = [] := (Option.some.inj first).symm
      rw [String.toList_eq_nil_iff.mp nothing, String.empty_append]
      exact later
  | cons part rest ih =>
      rw [Renders, renderChars?] at first
      obtain ⟨start, here, remaining⟩ := Option.bind_eq_some_iff.mp first
      obtain ⟨tail, there, whole⟩ := Option.bind_eq_some_iff.mp remaining
      have split : String.ofList start ++ String.ofList tail = text := by
        rw [← String.toList_inj, String.toList_append, String.toList_ofList, String.toList_ofList]
        exact Option.some.inj whole
      rw [← split, String.append_assoc]
      exact cons (here.trans (congrArg some String.toList_ofList.symm))
        (ih (there.trans (congrArg some String.toList_ofList.symm)))

theorem literal (text : String) (later : Renders scope parts more) :
    Renders scope (.text text :: parts) (text ++ more) := cons (by rw [renderPart?]) later

theorem str {reference : Reference} (found : reference.value? scope = some (.str text))
    (later : Renders scope parts more) : Renders scope (.value reference :: parts) (text ++ more) :=
  cons (by rw [renderPart?, found]; rfl) later

theorem natural {reference : Reference} {n : Nat} (found : reference.value? scope = some (.natural n))
    (later : Renders scope parts more) :
    Renders scope (.value reference :: parts) (toString n ++ more) :=
  cons (by rw [renderPart?, found]; rfl) later

theorem choose {condition : Condition} {yes no : Template} {holds : Bool}
    (asked : condition.holds? scope = some holds)
    (chosen : Renders scope (if holds then yes else no) text) (later : Renders scope parts more) :
    Renders scope (.choose condition yes no :: parts) (text ++ more) := by
  apply cons _ later
  rw [renderPart?, asked, ← chosen]
  cases holds <;> rfl

/-- A loop writes its items one after the other, each in a scope with the item. -/
theorem repeatFor {α : Type} {name : String} {reference : Reference} {body : Template} {items : List α}
    {toJson : α → Json} {write : α → String}
    (found : reference.value? scope = some (.arr (items.map toJson)))
    (each : ∀ item ∈ items, Renders ((name, toJson item) :: scope) body (write item))
    (later : Renders scope parts more) :
    Renders scope (.repeatFor name reference body :: parts) (String.join (items.map write) ++ more) := by
  apply cons _ later
  have texts : (items.map toJson).mapM (fun item => renderChars? ((name, item) :: scope) body) =
      some ((items.map write).map String.toList) := by
    clear found
    induction items with
    | nil => rfl
    | cons item rest ih =>
        obtain ⟨first, others⟩ := List.forall_mem_cons.mp each
        rw [List.map_cons, List.mapM_cons, first, ih others]
        rfl
  rw [String.toList_join, List.flatMap_def]
  simp only [renderPart?, found, Json.items?, Option.bind_eq_bind, Option.bind_some, texts,
    Option.pure_def]

end Renders

end Template

namespace PageText

def fileHead (path language : String) (lineCount : Nat) : String :=
  "# " ++ path ++ "\n\n" ++ language ++ " source, " ++ toString lineCount ++ " lines.\n"

/-- Items between an opening and a line break; nothing when there are none. -/
def listing (opening : String) (items : List String) : String :=
  if items.isEmpty then "" else opening ++ String.join items ++ "\n"

def callItem (call : String) : String := "\n- `" ++ call ++ "`"

def callerItem (caller : CallerView) : String :=
  "\n- " ++ match caller.link with
    | some link => "[`" ++ caller.name ++ "`](" ++ link ++ ")"
    | none => "`" ++ caller.name ++ "`"

def entitySection (view : EntityView) : String :=
  "\n## " ++ view.entity.name ++ "\n\n*" ++ view.entity.kind.text ++ "*, lines " ++
    toString view.entity.startLine ++ "-" ++ toString view.entity.endLine ++ "\n" ++
    listing "\nCalls:\n" (view.calls.map callItem) ++
    listing "\nUsed by:\n" (view.usedBy.map callerItem)

/-- A file page: its head, a section for each entity, and the way back. -/
def filePage (path language : String) (lineCount : Nat) (views : List EntityView)
    (overviewLink : String) : String :=
  fileHead path language lineCount ++ String.join (views.map entitySection) ++
    "\n[Back to overview](" ++ overviewLink ++ ")\n"

def overviewHead (project : String) (fileCount entityCount : Nat) : String :=
  "# " ++ project ++ "\n\n" ++ toString fileCount ++ " source files, " ++ toString entityCount ++
    " documented entities.\n\n## Call graph\n"

def omittedNote (omitted : Nat) : String :=
  if 0 < omitted then "\n" ++ toString omitted ++ " less connected functions are not shown.\n" else ""

/-- The diagram with a note on what it omits, or that there is none. -/
def diagramPart : Projection → String
  | .noGraph => "\nNo calls between documented functions were found.\n"
  | .graph diagram => "\n```mermaid\n" ++ diagram.mermaid ++ "\n```\n" ++ omittedNote diagram.omitted

def fileItem (file : AnalyzedFile) : String :=
  let path := file.source.path
  let linked := "[" ++ path ++ "](" ++ Page.ofSource path ++ ")"
  "\n- " ++ (if file.analysis.entities.isEmpty then path else linked) ++ " (" ++ file.source.language ++
    ", " ++ toString file.analysis.entities.length ++ " entities)"

/-- The overview: its head, the diagram, and a line for each file. -/
def overview (project : String) (projection : Projection) (files : List AnalyzedFile) : String :=
  overviewHead project files.length (files.flatMap fun file => file.analysis.entities).length ++
    diagramPart projection ++ "\n## Files\n" ++ String.join (files.map fileItem) ++ "\n"

end PageText

namespace PageTemplates

open Template

variable {scope : Scope} {parts : Template} {more : String}

example : PageText.entitySection
    ⟨⟨"Foo.bar", .method, 2, 3⟩, ["helper"], [⟨"main", some "a.py.md"⟩, ⟨"cron", none⟩]⟩ =
      "\n## Foo.bar\n\n*method*, lines 2-3\n\nCalls:\n\n- `helper`\n" ++
        "\nUsed by:\n\n- [`main`](a.py.md)\n- `cron`\n" := by decide +kernel

end PageTemplates

namespace PagePlan

end PagePlan

end SourceAtlas
