import Mathlib.Data.List.Induction
import SourceAtlas.ParsedFile
import SourceAtlas.Proofs.DeclaredCalls
import SourceAtlas.Proofs.MirroredCalls
import SourceAtlas.Proofs.Snapshots
/-!
Where the links of planned pages lead. A link climbs to the docs directory and goes down to the page of
the file that defines the caller; that file has a page, for every caller is one of its definitions.
-/

namespace SourceAtlas

namespace Page

/-- The directory that a part of a link leads to from another, both below the docs directory. Nothing
leads out of it. -/
def enter? (dir : List String) : PathPart → Option (List String)
  | .root => none
  | .here => some dir
  | .up => if dir = [] then none else some dir.dropLast
  | .name text => some (dir ++ [text])

/-- The path that a link on a page leads to. -/
def resolve? (page link : String) : Option String :=
  ((Path.parts ⟨link⟩).foldlM enter? (Path.names ⟨page⟩).dropLast).map (String.intercalate "/")

theorem foldlM_enter?_names (dir names : List String) :
    (names.map PathPart.name).foldlM enter? dir = some (dir ++ names) := by
  induction names generalizing dir with
  | nil => simp
  | cons name rest ih =>
      rw [List.map_cons, List.foldlM_cons, enter?, Option.bind_eq_bind, Option.bind_some, ih,
        List.append_assoc, List.singleton_append]

theorem foldlM_enter?_up (dir : List String) (parts : List PathPart) :
    (List.replicate dir.length PathPart.up ++ parts).foldlM enter? dir = parts.foldlM enter? [] := by
  induction dir using List.reverseRecOn with
  | nil => rfl
  | append_singleton front last ih =>
      rw [List.length_append, List.length_singleton, List.replicate_succ, List.cons_append,
        List.foldlM_cons, enter?, if_neg (by simp), Option.bind_eq_bind, Option.bind_some,
        List.dropLast_concat, ih]

/-- A plain path has a slash between any two of its names. -/
theorem count_slash {path : String} (plain : IsPlain path) :
    path.toList.count '/' = (Path.names ⟨path⟩).dropLast.length := by
  obtain ⟨names, filled, ordinary, rfl⟩ := plain
  rw [Path.names_intercalate ordinary, List.length_dropLast]
  induction names with
  | nil => exact absurd rfl filled
  | cons name rest ih =>
      have slashless : name.toList.count '/' = 0 :=
        List.count_eq_zero.mpr (ordinary name (List.mem_cons_self ..)).2.2.2
      cases rest with
      | nil => simpa using slashless
      | cons next rest =>
          have later := ih (by simp) fun name member => ordinary name (List.mem_cons_of_mem _ member)
          rw [String.intercalate_cons_of_ne_nil (by simp)]
          simp only [String.toList_append, List.count_append, slashless, later]
          simp
          omega

theorem parts_climb (count : Nat) {target : String} (plain : IsPlain target) :
    Path.parts ⟨String.join (List.replicate count "../") ++ target⟩ =
      List.replicate count .up ++ (Path.names ⟨target⟩).map .name := by
  have pieces : ∀ steps, Path.pieces ⟨String.join (List.replicate steps "../") ++ target⟩ =
      List.replicate steps ".." ++ Path.names ⟨target⟩ := by
    intro steps
    induction steps with
    | zero => simpa using plain.pieces
    | succ steps ih =>
        have text : String.join (List.replicate (steps + 1) "../") ++ target =
            ".." ++ "/" ++ (String.join (List.replicate steps "../") ++ target) := by
          rw [List.replicate_succ, String.join_cons, String.append_assoc]
          rfl
        rw [text, Path.pieces_append, ih, Path.pieces_of_slashless (by decide) (by decide)]
        rfl
  have inner : (List.replicate count ".." ++ Path.names ⟨target⟩).filterMap Path.partOf? =
      List.replicate count .up ++ (Path.names ⟨target⟩).map .name := by
    rw [List.filterMap_append, Path.filterMap_partOf?_names plain.isName, List.filterMap_replicate]
    rfl
  cases count with
  | zero => simpa using plain.parts
  | succ count =>
      have relative : Path.isAbsolute ⟨String.join (List.replicate (count + 1) "../") ++ target⟩ = false := by
        rw [List.replicate_succ, String.join_cons]
        simp [Path.isAbsolute, String.toList_append]
      rw [Path.parts, relative, pieces, inner, if_neg (by simp)]
      rfl

theorem resolve?_link {page target : String} (plain : IsPlain page) (also : IsPlain target) :
    resolve? page (link page target) = some target := by
  rw [resolve?, link, parts_climb _ also, count_slash plain, foldlM_enter?_up, foldlM_enter?_names,
    List.nil_append, Option.map_some, also.intercalate]

theorem resolve?_from_overview {target : String} (plain : IsPlain target) :
    resolve? overview target = some target := by
  have climbless : link overview target = target := by simp [link, overview]
  have led := resolve?_link overview_isPlain plain
  rwa [climbless] at led

end Page

/-- What the extractor makes of a file: the analysis of what was parsed, or an empty one. -/
inductive FileAnalysis.Extracted : FileAnalysis → Prop
  | unparsed : Extracted {}
  | parsed (file : ParsedFile) (noise : NoiseWords) : Extracted (file.analyze noise)

namespace FileAnalysis.Extracted

variable {analysis : FileAnalysis}

theorem built (extracted : analysis.Extracted) : analysis.graph.Built := by
  cases extracted with
  | unparsed => exact .empty
  | parsed file noise =>
      have grown : ∀ (definitions : List file.source.Definition) (graph : CallGraph), graph.Built →
          (definitions.foldl (file.source.addDefinition file.language noise) graph).Built := by
        intro definitions
        induction definitions with
        | nil => exact fun graph built => built
        | cons definition rest ih =>
            intro graph built
            rw [List.foldl_cons]
            apply ih
            unfold Source.addDefinition
            split
            · exact built
            · exact built.addCalls ..
      exact grown _ {} .empty

theorem defines_caller (extracted : analysis.Extracted) {caller callee : String}
    (edge : (caller, callee) ∈ analysis.graph.edges) : ∃ entity ∈ analysis.entities, entity.name = caller := by
  cases extracted with
  | unparsed => cases edge
  | parsed file noise =>
      rw [CallGraph.edges, ParsedFile.analyze, Source.analyze_graph,
        Adjacency.arranged_empty.mem_pairs_addPairs] at edge
      rcases edge with none | ⟨called, -⟩
      · cases none
      · obtain ⟨definition, member, paired⟩ := List.mem_flatMap.mp called
        have named : definition.name = caller := by
          unfold Source.callPairs at paired
          split at paired
          · cases paired
          · obtain ⟨_, -, same⟩ := List.mem_map.mp paired
            exact (Prod.mk.inj same).1
        exact ⟨_, List.mem_mergeSort.mpr (List.mem_map_of_mem member), named⟩

end FileAnalysis.Extracted

namespace PagePlan

theorem exists_page_of_file {plan : PagePlan} {file : AnalyzedFile} (inPlan : file ∈ plan.files)
    (filled : file.analysis.entities ≠ []) : plan.filePage file ∈ plan.pages :=
  (plan.mem_pages_iff _).mpr (Or.inl ⟨file, inPlan, filled, rfl⟩)

theorem overviewPage_mem_pages {plan : PagePlan} : plan.overviewPage ∈ plan.pages :=
  (plan.mem_pages_iff _).mpr (Or.inr rfl)

/-- A name that some file defines has an owner, and the owner's page lists it. -/
theorem owner?_page {plan : PagePlan} {file : AnalyzedFile} (inPlan : file ∈ plan.files)
    {name : String} (defines : file.Defines name) : ∃ owner ∈ plan.files, plan.owner? name = some owner.source.path ∧
      plan.filePage owner ∈ plan.pages ∧ name ∈ (plan.filePage owner).entities := by
  cases owned : plan.owner? name with
  | none =>
      have absent := List.find?_eq_none.mp (Option.map_eq_none_iff.mp owned) file inPlan
      exact absurd ((file.defines_iff name).mp defines) absent
  | some path =>
      obtain ⟨owner, member, rfl, entity, inEntities, named⟩ := plan.file_of_owner? owned
      exact ⟨owner, member, rfl, exists_page_of_file member (List.ne_nil_of_mem inEntities),
        List.mem_map.mpr ⟨entity, inEntities, named⟩⟩

section Planned

variable {plan : PagePlan} (plain : ∀ file ∈ plan.files, IsPlain file.source.path)

include plain

theorem overview_link {file : AnalyzedFile} (inPlan : file ∈ plan.files) :
    Page.resolve? (plan.filePage file).path (Page.link (Page.ofSource file.source.path) Page.overview) =
      some Page.overview :=
  Page.resolve?_link (Page.ofSource_isPlain (plain file inPlan)) Page.overview_isPlain

/-- The overview's links lead to the pages of the files, one to each. -/
theorem overview_links_lead : plan.overviewPage.links.map (Page.resolve? Page.overview) =
    ((plan.pages.map PageRequest.path).filter (· ≠ Page.overview)).map some := by
  have others : ∀ path ∈ (plan.files.filter fun file => !file.analysis.entities.isEmpty).map
      (fun file => Page.ofSource file.source.path), decide (path ≠ Page.overview) = true := by
    intro path inFiles
    obtain ⟨file, -, rfl⟩ := List.mem_map.mp inFiles
    exact decide_eq_true (Page.ofSource_ne_overview _)
  have paths : (plan.pages.map PageRequest.path).filter (· ≠ Page.overview) =
      (plan.files.filter fun file => !file.analysis.entities.isEmpty).map
        fun file => Page.ofSource file.source.path := by
    rw [pages_paths, List.filter_append, List.filter_eq_self.mpr others]
    simp
  rw [links_overviewPage, paths, List.map_map, List.map_map]
  apply List.map_congr_left
  intro file kept
  exact Page.resolve?_from_overview (Page.ofSource_isPlain (plain file (List.mem_filter.mp kept).1))

variable (extracted : ∀ file ∈ plan.files, file.analysis.Extracted)
  (callers : plan.usedBy = .ofGraphs (plan.files.map fun file => file.analysis.graph))

include extracted callers

/-- Every user of an entity is shown with a link to the page of a file that defines it. -/
theorem user_link {file : AnalyzedFile} (inPlan : file ∈ plan.files) {view : EntityView}
    (listed : view ∈ plan.entityViews file) {user : CallerView} (uses : user ∈ view.usedBy) :
    ∃ link, user.link = some link ∧ ∃ target ∈ plan.pages,
      Page.resolve? (plan.filePage file).path link = some target.path ∧ user.name ∈ target.entities := by
  have built : ∀ file ∈ plan.files, file.analysis.graph.Built := fun file member =>
    (extracted file member).built
  obtain ⟨entity, -, rfl⟩ := List.mem_map.mp listed
  obtain ⟨caller, calls, rfl⟩ := List.mem_map.mp uses
  obtain ⟨part, inFiles, called⟩ := (mem_callersOf_iff_containsEdge built callers _ _).mp calls
  have edge : ∃ callee, part.analysis.graph.containsEdge caller callee = true := by
    rcases called with whole | ⟨member, -, short⟩
    · exact ⟨_, whole⟩
    · exact ⟨member, short⟩
  obtain ⟨callee, contains⟩ := edge
  have inGraph := (CallGraph.containsEdge_iff (built part inFiles).arranged caller callee).mp contains
  have defines : part.Defines caller := (extracted part inFiles).defines_caller inGraph
  obtain ⟨owner, ownerIn, owned, member, names⟩ := owner?_page inFiles defines
  refine ⟨Page.link (Page.ofSource file.source.path) (Page.ofSource owner.source.path), ?_, _, member, ?_,
    names⟩
  · simp [callerView, owned]
  · exact Page.resolve?_link (Page.ofSource_isPlain (plain file inPlan))
      (Page.ofSource_isPlain (plain owner ownerIn))

theorem exists_page_of_link {request : PageRequest} (member : request ∈ plan.pages) {link : String}
    (inLinks : link ∈ request.links) :
    ∃ target ∈ plan.pages, Page.resolve? request.path link = some target.path := by
  rcases (plan.mem_pages_iff request).mp member with ⟨file, inPlan, -, rfl⟩ | rfl
  · rw [links_filePage] at inLinks
    rcases List.mem_cons.mp inLinks with rfl | shown
    · exact ⟨_, overviewPage_mem_pages, overview_link plain inPlan⟩
    · obtain ⟨view, listed, fromView⟩ := List.mem_flatMap.mp shown
      obtain ⟨user, uses, own⟩ := List.mem_flatMap.mp fromView
      obtain ⟨target, linked, page, inPages, led, -⟩ :=
        user_link plain extracted callers inPlan listed uses
      rw [linked, Option.toList_some, List.mem_singleton] at own
      exact ⟨page, inPages, own ▸ led⟩
  · rw [links_overviewPage] at inLinks
    obtain ⟨file, kept, rfl⟩ := List.mem_map.mp inLinks
    obtain ⟨inPlan, filled⟩ := List.mem_filter.mp kept
    exact ⟨_, exists_page_of_file inPlan (by simpa using filled),
      Page.resolve?_from_overview (Page.ofSource_isPlain (plain file inPlan))⟩

end Planned

/-- Every link of a planned page leads to a planned page. Every user of an entity has a link, to a page
that lists it; the page of a file links the overview; and the overview links the page of each file once,
and nothing else. -/
theorem links_lead (plan : PagePlan) (distinct : (plan.files.map fun file => file.source.path).Nodup)
    (plain : ∀ file ∈ plan.files, IsPlain file.source.path)
    (extracted : ∀ file ∈ plan.files, file.analysis.Extracted)
    (callers : plan.usedBy = .ofGraphs (plan.files.map fun file => file.analysis.graph)) :
    (∀ request ∈ plan.pages, ∀ link ∈ request.links, ∃ target ∈ plan.pages,
      Page.resolve? request.path link = some target.path) ∧
    (∀ request ∈ plan.pages, ∀ view, request.Shows view → ∀ user ∈ view.usedBy,
      ∃ link ∈ request.links, user.link = some link ∧ ∃ target ∈ plan.pages,
        Page.resolve? request.path link = some target.path ∧ user.name ∈ target.entities) ∧
    (∀ request ∈ plan.pages, request.path ≠ Page.overview →
      ∃ link ∈ request.links, request.context.field? "overview_link" = some (.str link) ∧
        Page.resolve? request.path link = some Page.overview) ∧
    (∀ request ∈ plan.pages, request.path = Page.overview →
      request.links.map (Page.resolve? request.path) =
        ((plan.pages.map PageRequest.path).filter (· ≠ Page.overview)).map some) ∧
    (plan.pages.map PageRequest.path).Nodup := by
  refine ⟨?_, ?_, ?_, ?_, plan.pages_nodup distinct⟩
  · exact fun request member link inLinks => exists_page_of_link plain extracted callers member inLinks
  · intro request member view shown user uses
    obtain ⟨file, inPlan, rfl, listed⟩ := (plan.shows_iff member view).mp shown
    obtain ⟨link, linked, led⟩ := user_link plain extracted callers inPlan listed uses
    refine ⟨link, ?_, linked, led⟩
    rw [links_filePage]
    exact List.mem_cons_of_mem _
      (List.mem_flatMap.mpr ⟨view, listed, List.mem_flatMap.mpr ⟨user, uses, by simp [linked]⟩⟩)
  · intro request member other
    obtain ⟨file, inPlan, rfl⟩ := plan.filePage_of_mem_pages member other
    refine ⟨_, ?_, rfl, overview_link plain inPlan⟩
    rw [links_filePage]
    exact List.mem_cons_self ..
  · intro request member first
    rcases (plan.mem_pages_iff request).mp member with ⟨file, -, -, rfl⟩ | rfl
    · exact absurd first (Page.ofSource_ne_overview _)
    · exact overview_links_lead plain

/-- A method of one letter that makes one call to a name of one letter. -/
def methodTree : SyntaxTree where
  rows := #[⟨none, "program", none, 0, 12⟩, ⟨some 0, "method_declaration", none, 0, 12⟩,
    ⟨some 1, "identifier", some "name", 0, 1⟩, ⟨some 1, "method_invocation", none, 6, 9⟩,
    ⟨some 3, "identifier", some "name", 6, 7⟩]
  nonempty := by decide
  preorder := by decide

def methodFile (path text : String) : AnalyzedFile where
  source := ⟨path, ⟨"r/" ++ path⟩, "java", "h", 1⟩
  analysis := ParsedFile.analyze ⟨.java, ⟨text.toUTF8, methodTree⟩⟩ {}

def farCaller : PagePlan :=
  let files := [methodFile "src/app/f.java" "f() { g(); }", methodFile "lib/g.java" "g() { g(); }",
    { source := ⟨"empty.java", ⟨"r/empty.java"⟩, "java", "h", 0⟩, analysis := {} }]
  { project := "p", files, usedBy := .ofGraphs (files.map fun file => file.analysis.graph),
    projection := .noGraph }

theorem links_lead_farCaller :
    (farCaller.files.map fun file => file.source.path).Nodup ∧
    (∀ file ∈ farCaller.files, IsPlain file.source.path) ∧
    (∀ file ∈ farCaller.files, file.analysis.Extracted) ∧
    farCaller.usedBy = .ofGraphs (farCaller.files.map fun file => file.analysis.graph) ∧
    ∃ view, (farCaller.filePage (methodFile "lib/g.java" "g() { g(); }")).Shows view ∧
      view.usedBy = [⟨"f", some "../../files/src/app/f.java.md"⟩, ⟨"g", some "../../files/lib/g.java.md"⟩] ∧
      ∃ target ∈ farCaller.pages, Page.resolve? "files/lib/g.java.md" "../../files/src/app/f.java.md" =
        some target.path ∧ "f" ∈ target.entities := by
  have distinct : (farCaller.files.map fun file => file.source.path).Nodup := by decide
  have plain : ∀ file ∈ farCaller.files, IsPlain file.source.path := by
    simp only [farCaller, List.forall_mem_cons]
    exact ⟨⟨["src", "app", "f.java"], by simp, by decide, by decide⟩,
      ⟨["lib", "g.java"], by simp, by decide, by decide⟩, ⟨["empty.java"], by simp, by decide, by decide⟩,
      nofun⟩
  have extracted : ∀ file ∈ farCaller.files, file.analysis.Extracted := by
    simp only [farCaller, List.forall_mem_cons]
    exact ⟨.parsed _ _, .parsed _ _, .unparsed, nofun⟩
  have member : farCaller.filePage (methodFile "lib/g.java" "g() { g(); }") ∈ farCaller.pages :=
    exists_page_of_file (by simp [farCaller]) (by decide +kernel)
  have shown : (farCaller.filePage (methodFile "lib/g.java" "g() { g(); }")).Shows (farCaller.entityView
      "files/lib/g.java.md" (methodFile "lib/g.java" "g() { g(); }").analysis.graph ⟨"g", .function, 1, 1⟩) :=
    ⟨_, rfl, List.mem_map_of_mem (List.mem_map_of_mem (by decide +kernel))⟩
  have users : (farCaller.entityView "files/lib/g.java.md"
      (methodFile "lib/g.java" "g() { g(); }").analysis.graph ⟨"g", .function, 1, 1⟩).usedBy =
      [⟨"f", some "../../files/src/app/f.java.md"⟩, ⟨"g", some "../../files/lib/g.java.md"⟩] := by
    decide +kernel
  refine ⟨distinct, plain, extracted, rfl, _, shown, users, ?_⟩
  obtain ⟨link, -, linked, led⟩ := (links_lead farCaller distinct plain extracted rfl).2.1 _ member _ shown
    ⟨"f", some "../../files/src/app/f.java.md"⟩ (by simp [users])
  rw [Option.some_inj.mp linked]
  exact led

end PagePlan

namespace Analysis

theorem extracted_fileOf (config : Config) (parser : Parser) (tree : FileTree) (source : SourceFile) :
    (fileOf config parser tree source).analysis.Extracted := by
  unfold fileOf
  cases ParsedFile.read? (indexOf config).languages config.parsing.maxFileSize parser tree
      source.location with
  | none => exact .unparsed
  | some file => exact .parsed file _

theorem exists_page_of_link {config : Config} {root : Path} {parser : Parser} {tree : FileTree}
    {analysis : Analysis} (sound : tree.Sound)
    (rooted : ∀ content, tree.find? root.place ≠ some (.file content))
    (analyzed : ofTree config root parser tree = .ok analysis) {request : PageRequest}
    (member : request ∈ analysis.pages) {link : String} (inLinks : link ∈ request.links) :
    ∃ target ∈ analysis.pages, Page.resolve? request.path link = some target.path := by
  obtain ⟨-, files, pages⟩ := files_of_ofTree analyzed
  have sources : ∀ file ∈ (plan config analysis).files, ∃ source ∈ analysis.sources,
      file = fileOf config parser tree source := by
    intro file inPlan
    have inFiles : file ∈ analysis.files := inPlan
    rw [files] at inFiles
    obtain ⟨source, inSources, rfl⟩ := List.mem_map.mp inFiles
    exact ⟨source, inSources, rfl⟩
  have plain : ∀ file ∈ (plan config analysis).files, IsPlain file.source.path := by
    intro file inPlan
    obtain ⟨source, inSources, rfl⟩ := sources file inPlan
    exact isPlain_of_mem_sources sound rooted analyzed inSources
  have extracted : ∀ file ∈ (plan config analysis).files, file.analysis.Extracted := by
    intro file inPlan
    obtain ⟨source, -, rfl⟩ := sources file inPlan
    exact extracted_fileOf config parser tree source
  rw [pages] at member ⊢
  exact PagePlan.exists_page_of_link plain extracted (sound_plan analyzed).callers member inLinks

end Analysis

end SourceAtlas
