import SourceAtlas.Proofs.Merging
import SourceAtlas.Proofs.Noise
import SourceAtlas.Proofs.Overview
import SourceAtlas.Proofs.RunEndings
/-!
Runs over snapshots of a project, one after the other. What a page is kept by lists its contributors
with the fingerprints that they have now, so they have the same texts, and the page can differ from
the one that would be made now in the callers alone. It does not differ where every call stands in
the file that documents its caller.
-/

namespace SourceAtlas.Analysis

open FileTree

variable {config : Config} {root : Path} {parser : Parser} {before after : FileTree}
  {old new : Analysis}

/-- Plans over two snapshots are kin when they list the same contributors of a page, these have the
fingerprints that they had, and fingerprints tell their texts apart. -/
theorem kin_of_current (sound : before.Sound) (alsoSound : after.Sound)
    (analyzed : ofTree config root parser before = .ok old)
    (alsoAnalyzed : ofTree config root parser after = .ok new)
    (apart : TextsApart before after old new) {file twin : AnalyzedFile} (member : file ∈ new.files)
    (twinMember : twin ∈ old.files) (path : file.source.path = twin.source.path)
    (contributors : ∀ path, path ∈ (plan config new).contributors file ↔
      path ∈ (plan config old).contributors twin)
    (current : ∀ path ∈ (plan config new).contributors file, new.hashes[path]? = old.hashes[path]?) :
    (plan config new).Kin (plan config old) file twin := by
  have alike : ∀ part ∈ new.files, ∀ same ∈ old.files, part.source.path = same.source.path →
      part.source.path ∈ (plan config new).contributors file → part.shown = same.shown := by
    intro part inNew same inOld placed contributes
    apply shown_eq sound alsoSound analyzed alsoAnalyzed apart inNew inOld placed
    have hashes := current part.source.path contributes
    rw [hash_of_mem_files alsoAnalyzed inNew, placed, hash_of_mem_files analyzed inOld] at hashes
    exact Option.some.inj hashes
  -- the file is one of its own contributors
  refine ⟨rfl, sound_plan alsoAnalyzed, sound_plan analyzed, ?_, contributors, fun name contributes => ?_⟩
  · exact alike file member twin twinMember path
      (((plan config new).mem_contributors_iff file _).mpr (Or.inl rfl))
  · obtain ⟨part, inNew, rfl⟩ := (plan config new).file_of_mem_contributors member contributes
    obtain ⟨same, inOld, placed⟩ := (plan config old).file_of_mem_contributors twinMember
      ((contributors _).mp contributes)
    exact ⟨part, inNew, same, inOld, rfl, alike part inNew same inOld placed.symm contributes⟩

/-- The analysis of a file by the text that it has. -/
theorem fileOf_of_text {source : SourceFile} {language : Language} {text : String}
    (claimed : (indexOf config).languages.detect? source.location = some language)
    (read : before.readText source.location = .ok text)
    (short : text.utf8ByteSize ≤ config.parsing.maxFileSize) :
    fileOf config parser before source =
      ⟨source, Source.analyze ⟨text.toUTF8, parser language text⟩ language (noiseOf config)⟩ := by
  have parsed : ParsedFile.read? (indexOf config).languages config.parsing.maxFileSize parser before
      source.location = some ⟨language, ⟨text.toUTF8, parser language text⟩⟩ := by
    simp only [ParsedFile.read?, claimed, read, Option.bind_eq_bind, Option.bind_some]
    rw [if_neg (Nat.not_lt.mpr short)]
  rw [fileOf, parsed]
  rfl

end SourceAtlas.Analysis

namespace SourceAtlas.Source

/-- The analysis of a file that calls nothing but one name, which is heard. -/
theorem analyze_of_heard {source : Source} {language : Language} {noise : NoiseWords} {name : String}
    {analysis : FileAnalysis}
    (heard : noise.isNoise name language.tag = NoiseWords.isNoise {} name language.tag)
    (only : (source.nodes.all fun node => (source.callName? language node).all (· == name)) = true)
    (built : analysis.graph.Built) (entities : (source.analyze language {}).entities = analysis.entities)
    (entries : (source.analyze language {}).graph.toList = analysis.graph.toList) :
    source.analyze language noise = analysis := by
  have same : ∀ node other, source.callName? language node = some other →
      noise.isNoise other language.tag = NoiseWords.isNoise {} other language.tag := by
    intro node other called
    have one := List.all_eq_true.mp only node (source.mem_nodes node)
    rw [called, Option.all_some, beq_iff_eq] at one
    rw [one]
    exact heard
  have graph := (source.arranged_analyze language {}).eq_of_toList built.arranged entries
  rw [source.analyze_congr language same]
  obtain ⟨⟨adjacency⟩, listed⟩ := analysis
  rw [FileAnalysis.mk.injEq]
  exact ⟨congrArg CallGraph.mk graph, entities⟩

end SourceAtlas.Source

namespace SourceAtlas.Project

open FileTree

variable {project : Project}

/-- The texts that a page has to do with in a snapshot: those of the sources, the one that stands where
the page does, and the one that is made for it. -/
inductive TextOf (project : Project) (page : String) (tree : FileTree) : String → Prop
  | source {analysis : Analysis} (analyzed : project.analyze tree = .ok analysis) {source : SourceFile}
      (member : source ∈ analysis.sources) {text : String}
      (read : tree.readText source.location = .ok text) : TextOf project page tree text
  | stood {text : String} (held : tree.find? (project.docs.placeOf page) = some (.file text.toUTF8)) :
      TextOf project page tree text
  | made {analysis : Analysis} (analyzed : project.analyze tree = .ok analysis) {request : PageRequest}
      (member : request ∈ analysis.pages) (path : request.path = page) {body : String}
      (generated : project.generator request = .ok body) : TextOf project page tree body

/-- Fingerprints tell the texts of snapshots apart. -/
def ToldApart (project : Project) (page : String) (trees : List FileTree) : Prop :=
  ∀ first ∈ trees, ∀ second ∈ trees, ∀ text other, TextOf project page first text →
    TextOf project page second other → Fingerprint.ofText text = Fingerprint.ofText other → text = other

/-- In a snapshot, every call of what a page shows stands in the file that documents its caller. -/
def Homed (project : Project) (page : String) (tree : FileTree) : Prop :=
  ∀ analysis, project.analyze tree = .ok analysis → ∀ file ∈ analysis.files,
    Page.ofSource file.source.path = page → ∀ entity ∈ file.analysis.entities,
      ∀ asked ∈ PagePlan.askedNames entity.name, (Analysis.plan project.config analysis).Homed asked

/-- A status describes a page as it is planned in a snapshot, with the text that it has then. -/
inductive MadeIn (project : Project) (page : String) (tree : FileTree) (status : PageStatus) : Prop
  | intro {analysis : Analysis} {request : PageRequest} {body : String}
      (analyzed : project.analyze tree = .ok analysis) (member : request ∈ analysis.pages)
      (path : request.path = page) (describes : status.Describes request analysis.hashes)
      (generated : project.generator request = .ok body)
      (hashed : status.contentHash = Fingerprint.ofText body)

/-- What a manifest has on record of a page was made in the last of some snapshots. -/
def Known (project : Project) (page : String) (trees : List FileTree) (previous : Option Manifest) : Prop :=
  ∀ status, (previous.bind fun manifest => manifest[page]?) = some status →
    status.isValid = true ∧ ∃ seen ∈ trees.head?, MadeIn project page seen status

theorem ToldApart.mono {page : String} {trees others : List FileTree}
    (toldApart : ToldApart project page trees) (fewer : ∀ tree ∈ others, tree ∈ trees) :
    ToldApart project page others :=
  fun first inFirst second inSecond => toldApart first (fewer first inFirst) second (fewer second inSecond)

theorem ToldApart.pair {page : String} {trees : List FileTree} (toldApart : ToldApart project page trees)
    {first second : FileTree} (inFirst : first ∈ trees) (inSecond : second ∈ trees) :
    ToldApart project page [first, second] :=
  toldApart.mono fun tree member => by
    rcases List.mem_cons.mp member with rfl | last
    · exact inFirst
    · exact List.mem_singleton.mp last ▸ inSecond

/-- What a page is kept by was planned over the same contributors. -/
theorem exists_kin {seen tree : FileTree} {old new : Analysis} (seenRooted : project.Rooted seen)
    (rooted : project.Rooted tree) (analyzedOld : project.analyze seen = .ok old)
    (analyzed : project.analyze tree = .ok new) {page : String}
    (toldApart : ToldApart project page [tree, seen]) {request recorded : PageRequest}
    (member : request ∈ new.pages) (recordedMember : recorded ∈ old.pages)
    (path : recorded.path = request.path) (other : request.path ≠ Page.overview) {status : PageStatus}
    (describes : status.Describes recorded old.hashes)
    (reusable : Staleness.ofStatus status request new.hashes = .reusable) :
    ∃ file ∈ new.files, ∃ twin ∈ old.files,
      request = (Analysis.plan project.config new).filePage file ∧
      recorded = (Analysis.plan project.config old).filePage twin ∧
      (Analysis.plan project.config new).Kin (Analysis.plan project.config old) file twin := by
  rw [(Analysis.files_of_ofTree analyzed).2.2] at member
  rw [(Analysis.files_of_ofTree analyzedOld).2.2] at recordedMember
  obtain ⟨file, inNew, rfl⟩ := PagePlan.filePage_of_mem_pages _ member other
  obtain ⟨twin, inOld, rfl⟩ := PagePlan.filePage_of_mem_pages _ recordedMember (path ▸ other)
  obtain ⟨current, same⟩ := (Staleness.ofStatus_eq_reusable_iff ..).mp reusable
  refine ⟨file, inNew, twin, inOld, rfl, rfl, ?_⟩
  refine Analysis.kin_of_current seenRooted.sound rooted.sound analyzedOld analyzed ?_ inNew inOld
    (Page.ofSource_inj path).symm ?_ ?_
  · intro source inSources otherSource inOther text otherText read otherRead
    exact toldApart tree (by simp) seen (by simp) _ _ (.source analyzed inSources read)
      (.source analyzedOld inOther otherRead)
  · exact fun path => (same path).trans (describes.sources path)
  · intro path contributes
    obtain ⟨hash, recordedHash, now⟩ := (Staleness.isCurrent_iff ..).mp (current path contributes)
    rw [describes.hashes, if_pos ((describes.sources path).mp ((same path).mp contributes))] at recordedHash
    rw [now, recordedHash]

/-- What a page is kept by was planned as the page is now, where every call is at home. -/
theorem eq_of_reusable {seen tree : FileTree} {old new : Analysis} (seenRooted : project.Rooted seen)
    (rooted : project.Rooted tree) (analyzedOld : project.analyze seen = .ok old)
    (analyzed : project.analyze tree = .ok new) {page : String}
    (toldApart : ToldApart project page [tree, seen]) (homed : Homed project page tree)
    (seenHomed : Homed project page seen) {request recorded : PageRequest} (member : request ∈ new.pages)
    (recordedMember : recorded ∈ old.pages) (path : request.path = page) (recordedPath : recorded.path = page)
    (other : page ≠ Page.overview) {status : PageStatus} (describes : status.Describes recorded old.hashes)
    (reusable : Staleness.ofStatus status request new.hashes = .reusable) : request = recorded := by
  obtain ⟨file, inNew, twin, inOld, rfl, rfl, kin⟩ := exists_kin seenRooted rooted analyzedOld analyzed
    toldApart member recordedMember (recordedPath.trans path.symm) (path ▸ other) describes reusable
  refine kin.filePage_eq fun entity inFile => kin.callersOf_of_homed inFile fun asked inAsked => ?_
  exact ⟨homed new analyzed file inNew path entity inFile asked inAsked,
    seenHomed old analyzedOld twin inOld recordedPath entity (kin.entities ▸ inFile) asked inAsked⟩

namespace Completed

variable {previous : Option Manifest} {schedule : Schedule} {tree after : FileTree} {report : RunReport}
  (completed : project.Completed previous schedule tree report after)

include completed

theorem stood_of_reused (rooted : project.Rooted tree) {request : PageRequest}
    (member : request ∈ completed.analysis.pages)
    (reused : (request.path, PageOutcome.reused) ∈ completed.outcomes) {text : String}
    (loaded : project.docs.load completed.made.tree request.path = .ok text) :
    tree.find? (project.docs.placeOf request.path) = some (.file text.toUTF8) := by
  obtain ⟨outcome, listed, spares⟩ := (project.pass schedule).runTasks_spares
    (start tree completed.analysis) (completed.tasks_nodup previous) (List.mem_map_of_mem member)
    (completed.plain_task rooted previous) rooted.sound
  rw [completed.ran] at listed spares
  obtain rfl := completed.outcome_eq listed reused
  exact Changes.file_before spares (fun other => other rfl) (project.docs.file_of_load loaded)

/-- One run. When what it may keep a page by was made in the last snapshot, what it records of the page
is made in its own, and the page has the text that is made for it. -/
theorem made_of_known {trees : List FileTree} {page : String} (known : Known project page trees previous)
    (rooted : ∀ seen ∈ tree :: trees, project.Rooted seen)
    (toldApart : ToldApart project page (tree :: trees))
    (homed : ∀ seen ∈ tree :: trees, Homed project page seen) (other : page ≠ Page.overview)
    {status : PageStatus} (entry : completed.made.recorder.manifest[page]? = some status) :
    MadeIn project page tree status ∧ ∃ request ∈ completed.analysis.pages, request.path = page ∧
      ∃ body, project.generator request = .ok body ∧
        project.docs.load completed.made.tree page = .ok body := by
  have inSelf : tree ∈ tree :: trees := List.mem_cons_self ..
  obtain ⟨request, member, rfl⟩ := completed.planned_of_entry entry
  obtain ⟨outcome, listed, recorded⟩ := completed.recorded (rooted tree inSelf) member
  cases recorded with
  | kept prior text priorEntry loaded hashed was decided =>
      rw [entry, Option.some_inj] at priorEntry
      subst priorEntry
      obtain ⟨valid, seen, last, madeIn⟩ := known status was
      have inTrees : seen ∈ tree :: trees := List.mem_cons_of_mem tree (List.mem_of_mem_head? last)
      obtain @⟨old, asked, body, analyzedOld, askedMember, path, describes, generated, bodyHash⟩ := madeIn
      obtain ⟨found, again, reusable⟩ := (Staleness.classify_eq_reusable_iff ..).mp decided
      rw [was, Option.some_inj] at again
      subst again
      have same := eq_of_reusable (rooted seen inTrees) (rooted tree inSelf) analyzedOld completed.analyzed
        (toldApart.pair inSelf inTrees) (homed tree inSelf) (homed seen inTrees) member askedMember rfl path
        other describes reusable
      subst same
      -- the page on disk has the fingerprint of the body, and so it is the body
      have text_eq : text = body := toldApart tree inSelf seen inTrees _ _
        (.stood (completed.stood_of_reused (rooted tree inSelf) member listed loaded))
        (.made analyzedOld askedMember rfl generated) (hashed.trans bodyHash)
      subst text_eq
      exact ⟨.intro completed.analyzed member rfl (PageStatus.describes_of_reusable valid reusable)
        generated bodyHash, request, member, rfl, text, generated, loaded⟩
  | made body now madeEntry loaded generated =>
      rw [entry, Option.some_inj] at madeEntry
      subst madeEntry
      exact ⟨.intro completed.analyzed member rfl (PageStatus.describes_ofPage ..) generated rfl,
        request, member, rfl, body, generated, loaded⟩
  | failed fault absent =>
      rw [entry] at absent
      cases absent

end Completed

/-- Runs that ended well, the first by no manifest and each later one by the manifest that was left
before it; with the snapshots that they found, the last one first, and the manifest after them. -/
inductive Rounds (project : Project) : List FileTree → Option Manifest → Prop
  | start : Rounds project [] none
  | next {trees : List FileTree} {previous : Option Manifest} (rounds : Rounds project trees previous)
      {schedule : Schedule} {tree after : FileTree} {report : RunReport}
      (ran : (project.run previous false schedule).run.run tree = (.ok report, after)) :
      Rounds project (tree :: trees) (project.previous after)

/-- What rounds leave on record of a page was made in the last snapshot, also what was carried over from
an earlier one. -/
theorem Rounds.known {trees : List FileTree} {previous : Option Manifest}
    (rounds : Rounds project trees previous) (apart : project.ManifestApart) {page : String}
    (rooted : ∀ seen ∈ trees, project.Rooted seen)
    (sized : ∀ seen ∈ trees, ∀ place content, seen.find? place = some (.file content) →
      content.size + 1 < Json.lineLimit)
    (toldApart : ToldApart project page trees) (homed : ∀ seen ∈ trees, Homed project page seen)
    (other : page ≠ Page.overview) :
    PageKeys previous ∧
      (∀ manifest, previous = some manifest → manifest.isValid = true ∧ manifest.IsReadable) ∧
      Known project page trees previous := by
  -- what a run records is what the next one goes by, as long as it can be read back; so that is carried
  -- through the induction as well
  induction rounds with
  | start =>
      refine ⟨fun manifest same => ?_, fun manifest same => ?_, fun status entry => ?_⟩
      · cases same
      · cases same
      · cases entry
  | @next trees previous rounds schedule tree after report ran ih =>
      obtain ⟨keys, readable, known⟩ := ih
        (fun seen member => rooted seen (List.mem_cons_of_mem tree member))
        (fun seen member => sized seen (List.mem_cons_of_mem tree member))
        (toldApart.mono fun seen member => List.mem_cons_of_mem tree member)
        (fun seen member => homed seen (List.mem_cons_of_mem tree member))
      obtain ⟨completed⟩ := project.completed_of_run ran
      obtain ⟨valid, legible⟩ :=
        completed.manifest_readable (sized tree (List.mem_cons_self ..)) readable
      rw [completed.previous_after valid legible apart.graph]
      refine ⟨completed.pageKeys (rooted tree (List.mem_cons_self ..)), ?_, fun status entry => ?_⟩
      · rintro manifest ⟨⟩
        exact ⟨valid, legible⟩
      · have found : completed.made.recorder.manifest[page]? = some status := entry
        exact ⟨((Manifest.isValid_iff _).mp valid _ _ found).2, tree, rfl,
          (completed.made_of_known known rooted toldApart homed other found).1⟩

/-- A run after rounds of runs. A page of a file that it keeps was planned in the last round just as it
is planned now, and a page that it keeps or makes has the text that is made for it now, which a run by
no manifest would write. This is so if, in every snapshot, the calls of what the page shows stand in
the files that document their callers. -/
theorem run_refreshes (project : Project) {trees : List FileTree} {previous : Option Manifest}
    (rounds : Rounds project trees previous) (apart : project.ManifestApart) {page : String}
    {schedule : Schedule} {tree after : FileTree} {report : RunReport}
    (rooted : ∀ seen ∈ tree :: trees, project.Rooted seen)
    (sized : ∀ seen ∈ trees, ∀ place content, seen.find? place = some (.file content) →
      content.size + 1 < Json.lineLimit)
    (toldApart : ToldApart project page (tree :: trees))
    (homed : ∀ seen ∈ tree :: trees, Homed project page seen) (other : page ≠ Page.overview)
    (ran : (project.run previous false schedule).run.run tree = (.ok report, after)) :
    ∃ analysis, project.analyze tree = .ok analysis ∧
      (∀ request ∈ analysis.pages, request.path = page →
        Staleness.classify previous request analysis.hashes = .reusable →
          ∃ seen ∈ trees.head?, ∃ last, project.analyze seen = .ok last ∧ request ∈ last.pages) ∧
      (page ∈ report.regenerated ∨ page ∈ report.reused →
        ∃ request ∈ analysis.pages, request.path = page ∧ ∃ text, project.generator request = .ok text ∧
          project.docs.load after page = .ok text ∧
          ∀ clock forced ended, (project.run none false clock).run.run tree = (.ok forced, ended) →
            page ∈ forced.regenerated → project.docs.load ended page = .ok text) := by
  have inSelf : tree ∈ tree :: trees := List.mem_cons_self ..
  have here := rooted tree inSelf
  obtain ⟨keys, -, known⟩ := rounds.known apart
    (fun seen member => rooted seen (List.mem_cons_of_mem tree member)) sized
    (toldApart.mono fun seen member => List.mem_cons_of_mem tree member)
    (fun seen member => homed seen (List.mem_cons_of_mem tree member)) other
  obtain ⟨completed⟩ := project.completed_of_run ran
  refine ⟨completed.analysis, completed.analyzed, fun request member path reusable => ?_, fun reported => ?_⟩
  · obtain ⟨status, was, current⟩ := (Staleness.classify_eq_reusable_iff ..).mp reusable
    obtain ⟨-, seen, last, madeIn⟩ := known status (path ▸ was)
    obtain @⟨old, asked, body, analyzedOld, askedMember, askedPath, describes, -, -⟩ := madeIn
    have inTrees : seen ∈ tree :: trees := List.mem_cons_of_mem tree (List.mem_of_mem_head? last)
    have same := eq_of_reusable (rooted seen inTrees) here analyzedOld completed.analyzed
      (toldApart.pair inSelf inTrees) (homed tree inSelf) (homed seen inTrees) member askedMember path
      askedPath other describes current
    exact ⟨seen, last, old, analyzedOld, same ▸ askedMember⟩
  · obtain ⟨status, entry⟩ := Table.exists_of_mem ((completed.mem_manifest_iff page).mpr reported)
    obtain ⟨-, request, member, rfl, text, generated, loaded⟩ :=
      completed.made_of_known known rooted toldApart homed other entry
    refine ⟨request, member, rfl, text, generated,
      completed.load_after here keys.plain apart member loaded, fun clock forced ended forcedRun fresh => ?_⟩
    -- the forced run plans the page from the same tree, so it makes the same request
    obtain ⟨again⟩ := project.completed_of_run forcedRun
    have alsoMember : request ∈ again.analysis.pages :=
      Except.ok.inj (again.analyzed.symm.trans completed.analyzed) ▸ member
    obtain ⟨outcome, listed, recorded⟩ := again.recorded here alsoMember
    rw [again.outcome_eq listed ((again.mem_regenerated_iff _).mp fresh)] at recorded
    cases recorded with
    | made body now madeEntry bodyLoaded bodyGenerated =>
        rw [generated] at bodyGenerated
        cases bodyGenerated
        exact again.load_after here nofun apart alsoMember bodyLoaded

section TwoSources

/-- The tree of a text with one function `g` that calls an `f`. -/
def oneCall : SyntaxTree where
  rows := #[⟨none, "module", none, 0, 13⟩, ⟨some 0, "function_definition", none, 0, 12⟩,
    ⟨some 1, "identifier", some "name", 4, 5⟩, ⟨some 1, "block", some "body", 9, 12⟩,
    ⟨some 3, "call", none, 9, 12⟩, ⟨some 4, "identifier", some "function", 9, 10⟩]
  nonempty := by decide
  preorder := by decide

def usedText : String := "def f(): pass\n"

def idleText : String := "def g(): pass\n"

def callText : String := "def g(): f()\n"

/-- Templates for pages that say of each entity what it is used by. -/
def usersTemplates : PageTemplates where
  file := [.repeatFor "entity" { name := "entities" }
    [PageTemplates.fieldOf "entity" "name", .text " is used by:",
      .repeatFor "caller" { name := "entity", steps := ["used_by"] }
        [.text " ", PageTemplates.fieldOf "caller" "name"]]]
  overview := [.text "overview"]

/-- The project in `/r` whose sources have one function each. -/
def linked : Project where
  config := { project := { docsDir := ⟨"docs"⟩, ignorePatterns := [] } }
  root := ⟨"/r"⟩
  parser := fun _ text => if text = callText then oneCall else oneFunction
  generator := usersTemplates.generate

def sourceOf (text : String) : Source := ⟨text.toUTF8, linked.parser .python text⟩

def otherSource (text : String) : SourceFile :=
  ⟨"src/b.py", ⟨"/r/src/b.py"⟩, "python", Fingerprint.ofText text, 1⟩

def usedFile : AnalyzedFile := ⟨ownSource, { entities := [⟨"f", .function, 1, 1⟩] }⟩

def idle : FileAnalysis := { entities := [⟨"g", .function, 1, 1⟩] }

def calling : FileAnalysis :=
  { graph := .ofList [("g", ["f"])], entities := [⟨"g", .function, 1, 1⟩] }

def linkedAnalysis (text : String) (other : FileAnalysis) : Analysis :=
  .ofFiles linked.config [usedFile, ⟨otherSource text, other⟩]

def linkedPlan (text : String) (other : FileAnalysis) : PagePlan :=
  Analysis.plan linked.config (linkedAnalysis text other)

theorem heard_linked : ∀ tag ∈ ["python", "java"],
    (Analysis.noiseOf linked.config).isNoise "f" tag = false := by
  refine List.forall_mem_cons.mpr ⟨?_, List.forall_mem_singleton.mpr ?_⟩
  · rw [NoiseWords.isNoise_of_small _ (by decide) (by decide +kernel)]
    decide +kernel
  · rw [NoiseWords.isNoise_of_small _ (by decide) (by decide +kernel)]
    decide +kernel

/-- A snapshot of the project: one source has the function `f`, and another one a text that amounts to
something. -/
structure Linked (tree : FileTree) (text : String) (other : FileAnalysis) : Prop where
  rooted : linked.Rooted tree
  ownRead : tree.readText ownSource.location = .ok usedText
  otherRead : tree.readText (otherSource text).location = .ok text
  analyzed : linked.analyze tree = .ok (linkedAnalysis text other)

theorem Linked.of_walked {tree : FileTree} {text : String} {other : FileAnalysis}
    (rooted : linked.Rooted tree)
    (walked : (linked.config.project.sourceDirs.mapM fun dir => (Analysis.indexOf linked.config).inDir
      tree linked.root (linked.root.join dir)).toOption.map (fun lists => lists.flatten.map unprinted) =
        some ([ownSource, otherSource text].map unprinted))
    (ownRead : (tree.readText ownSource.location).toOption = some usedText)
    (otherRead : (tree.readText (otherSource text).location).toOption = some text)
    (short : text.utf8ByteSize ≤ linked.config.parsing.maxFileSize)
    (parsed : (sourceOf text).analyze .python (Analysis.noiseOf linked.config) = other) :
    Linked tree text other := by
  have used : (sourceOf usedText).analyze .python (Analysis.noiseOf linked.config) = usedFile.analysis :=
    Source.analyze_of_heard (heard_linked _ (by decide)) (by decide +kernel) .empty (by decide +kernel)
      (by decide +kernel)
  have claimed : ∀ path ∈ [(⟨"/r/src/a.py"⟩ : Path), ⟨"/r/src/b.py"⟩],
      (Analysis.indexOf linked.config).languages.detect? path = some .python := by
    decide +kernel
  have own : Analysis.fileOf linked.config linked.parser tree ownSource = usedFile := by
    rw [Analysis.fileOf_of_text (claimed _ (by simp [ownSource])) (ok_of_toOption ownRead) (by decide)]
    exact congrArg (AnalyzedFile.mk ownSource) used
  have second : Analysis.fileOf linked.config linked.parser tree (otherSource text) =
      ⟨otherSource text, other⟩ := by
    rw [Analysis.fileOf_of_text (claimed _ (by simp [otherSource])) (ok_of_toOption otherRead) short]
    exact congrArg (AnalyzedFile.mk (otherSource text)) parsed
  have ordered : ownSource.path < (otherSource text).path := show "src/a.py" < "src/b.py" by decide
  have printedAll : ∀ source ∈ [ownSource, otherSource text], printed tree source = source :=
    List.forall_mem_cons.mpr ⟨printed_ownSource ownRead,
      List.forall_mem_singleton.mpr (printed_eq_self (ok_of_toOption otherRead) rfl)⟩
  refine ⟨rooted, ok_of_toOption ownRead, ok_of_toOption otherRead, ?_⟩
  rw [analyze_of_walked rooted.sound walked printedAll (List.pairwise_pair.mpr ordered)]
  simp only [List.map_cons, List.map_nil, own, second]
  rfl

def idleTree : FileTree := singleTree.insert ["r", "src", "b.py"] (.file idleText.toUTF8)

theorem linked_idleTree : Linked idleTree idleText idle := by
  have sound : idleTree.Sound := singleTree_sound.insert ["r", "src"] "b.py" _ (by decide) (by decide)
    fun found => absurd found (by decide)
  exact .of_walked (.of_dir sound (by decide +kernel) (by decide)) (by decide +kernel) (by decide +kernel)
    (by decide +kernel) (by decide)
    (Source.analyze_of_heard (heard_linked _ (by decide)) (by decide +kernel) .empty (by decide +kernel)
      (by decide +kernel))

/-- The tasks of a first run. -/
def firstPass : List (String × PageOutcome) × PassState :=
  (linked.pass newYear).runTasks (tasks none (linkedAnalysis idleText idle))
    (start idleTree (linkedAnalysis idleText idle))

def pagesTree : FileTree :=
  ((((((idleTree.insert ["r", "docs"] .dir).insert ["r", "docs", "files"] .dir).insert
    ["r", "docs", "files", "src"] .dir).insert ["r", "docs", "files", "src", "a.py.md"]
      (.file "f is used by:".toUTF8)).insert ["r", "docs", "files", "src", "b.py.md"]
        (.file "g is used by:".toUTF8)).insert ["r", "docs", "index.md"]
          (.file "overview".toUTF8))

theorem tree_firstPass : firstPass.2.tree = pagesTree :=
  eq_of_entries (by decide +kernel)

/-- What the first run leaves behind. -/
def leftTree : FileTree :=
  (pagesTree.insert linked.manifestPath.place (.file firstPass.2.recorder.manifest.toText.toUTF8)).insert
    linked.graphPath.place
      (.file (graphText (linkedAnalysis idleText idle) firstPass.2.references).toUTF8)

/-- The second source has come to call the function of the first. -/
def editedTree : FileTree := leftTree.insert ["r", "src", "b.py"] (.file callText.toUTF8)

theorem manifestApart_linked : linked.ManifestApart :=
  manifestApart_of_name ".docwright-manifest.json" (by decide) rfl (by decide) (by decide) (by decide)

/-- The run ends well when its tasks leave a docs directory with room for the two files. -/
theorem run_linked {previous : Option Manifest} {tree : FileTree} {text : String} {other : FileAnalysis}
    (snapshot : Linked tree text other) {passed : List (String × PageOutcome) × PassState}
    (ran : (linked.pass newYear).runTasks (tasks previous (linkedAnalysis text other))
      (start tree (linkedAnalysis text other)) = passed)
    (there : passed.2.tree.isDir linked.docsDir = true)
    (free : ∀ path ∈ [linked.manifestPath, linked.graphPath],
      passed.2.tree.find? path.place ≠ some .dir) :
    (linked.run previous false newYear).run.run tree =
      (.ok (.ofOutcomes (Staleness.plan (linkedAnalysis text other).pages previous
          (linkedAnalysis text other).hashes) passed.1),
        ((linked.swept previous (linkedAnalysis text other) passed.2).insert linked.manifestPath.place
          (.file passed.2.recorder.manifest.toText.toUTF8)).insert linked.graphPath.place
            (.file (graphText (linkedAnalysis text other) passed.2.references).toUTF8)) := by
  have changes := (linked.pass newYear).runTasks_changes (tasks previous (linkedAnalysis text other))
    (start tree (linkedAnalysis text other))
  rw [ran] at changes
  have sound : passed.2.tree.Sound := changes.sound snapshot.rooted.sound
  have kept : linked.manifestPath = linked.docsDir.join ⟨".docwright-manifest.json"⟩ := by decide
  refine run_of_writable snapshot.analyzed ran ?_ (free _ (by simp)) (sound.reaches_child there (by decide))
    (free _ (by simp)) manifestApart_linked.graph
  rw [kept]
  exact sound.reaches_child there (by decide)

theorem swept_firstPass : linked.swept none (linkedAnalysis idleText idle) firstPass.2 = pagesTree := by
  have below : (pagesTree.entries.toList.all fun entry =>
      entry.2 = .dir || !List.isPrefixOf ["r", "docs", "files"] entry.1 ||
        entry.1.drop 3 ∈ [["src", "a.py.md"], ["src", "b.py.md"]]) = true := by
    decide +kernel
  have paths : (linkedAnalysis idleText idle).pages.map PageRequest.path =
      ["files/src/a.py.md", "files/src/b.py.md", "index.md"] := by
    decide +kernel
  have orphans : linked.orphans pagesTree none
      ((linkedAnalysis idleText idle).pages.map PageRequest.path) = [] := by
    refine List.eq_nil_iff_forall_not_mem.mpr fun page orphan => ?_
    rw [paths] at orphan
    obtain ⟨unplanned, ⟨manifest, same, -⟩ | listed⟩ := (mem_orphans_iff ..).mp orphan
    · cases same
    · obtain ⟨-, names, content, filled, rfl, held, -⟩ :=
        (linked.docs.mem_pagesBelow_iff Page.filesDir_isPlain page).mp listed
      have placed : linked.docs.placeOf Page.filesDir = ["r", "docs", "files"] := by decide +kernel
      rw [placed] at held
      rcases List.mem_pair.mp (mem_of_file_below below filled held) with rfl | rfl
      · exact unplanned (by decide)
      · exact unplanned (by decide)
  rw [swept, tree_firstPass, orphans]
  rfl

theorem run_idleTree : ∃ report,
    (linked.run none false newYear).run.run idleTree = (.ok report, leftTree) := by
  have ran := run_linked linked_idleTree (show _ = firstPass from rfl)
    (tree_firstPass ▸ by decide +kernel) (tree_firstPass ▸ by decide +kernel)
  rw [swept_firstPass] at ran
  exact ⟨_, ran⟩

/-- The pages that are planned once the function is called. -/
def calledPages : List PageRequest :=
  [{ (linkedPlan callText calling).filePage usedFile with sources := ["src/a.py", "src/b.py"] },
    (linkedPlan callText calling).filePage ⟨otherSource callText, calling⟩,
    (linkedPlan callText calling).overviewPage]

theorem pages_calling : (linkedAnalysis callText calling).pages = calledPages := by
  have owners : ((usedFile.source.path :: usedFile.analysis.entities.flatMap fun entity =>
      ((linkedPlan callText calling).callersOf entity.name).filterMap
        (linkedPlan callText calling).owner?).eraseDups) = ["src/a.py", "src/b.py"] := by
    decide +kernel
  have contributors : (linkedPlan callText calling).contributors usedFile = ["src/a.py", "src/b.py"] := by
    rw [PagePlan.contributors, owners, List.mergeSort_of_pairwise (by decide)]
  have page : (linkedPlan callText calling).filePage usedFile =
      { (linkedPlan callText calling).filePage usedFile with sources := ["src/a.py", "src/b.py"] } := by
    rw [← contributors]
    rfl
  rw [calledPages, ← page]
  rfl

/-- The texts that a page has to do with, which their fingerprints tell apart. -/
def linkedTexts : { texts : List String // (texts.map Fingerprint.ofText).Nodup } :=
  ⟨[usedText, idleText, callText, "f is used by:", "f is used by: g"], by decide +kernel⟩

theorem request_linked {text : String} {other : FileAnalysis} {request : PageRequest}
    (member : request ∈ (linkedAnalysis text other).pages) (path : request.path = "files/src/a.py.md") :
    request = (linkedPlan text other).filePage usedFile := by
  obtain ⟨file, inPlan, rfl⟩ := PagePlan.filePage_of_mem_pages (linkedPlan text other) member
    (path ▸ by decide)
  rcases List.mem_cons.mp inPlan with rfl | last
  · rfl
  · rw [List.mem_singleton.mp last] at path
    exact absurd path (show Page.ofSource "src/b.py" ≠ "files/src/a.py.md" by decide)

theorem Linked.text_mem {tree : FileTree} {text : String} {other : FileAnalysis}
    (snapshot : Linked tree text other) (member : text ∈ linkedTexts.val)
    (stood : ∀ content, tree.find? (linked.docs.placeOf "files/src/a.py.md") =
      some (.file content.toUTF8) → content ∈ linkedTexts.val)
    {body : String} (made : linked.generator ((linkedPlan text other).filePage usedFile) = .ok body)
    (bodyMember : body ∈ linkedTexts.val) {shown : String}
    (textOf : TextOf linked "files/src/a.py.md" tree shown) : shown ∈ linkedTexts.val := by
  cases textOf with
  | @source analysis found source inSources _ read =>
      rw [snapshot.analyzed, Except.ok.injEq] at found
      subst found
      rcases List.mem_cons.mp inSources with rfl | last
      · rw [show usedFile.source = ownSource from rfl, snapshot.ownRead, Except.ok.injEq] at read
        exact read ▸ List.mem_cons_self ..
      · rw [List.mem_singleton.mp last, snapshot.otherRead, Except.ok.injEq] at read
        exact read ▸ member
  | stood held => exact stood shown held
  | made found inPages path generated =>
      rw [snapshot.analyzed, Except.ok.injEq] at found
      subst found
      rw [request_linked inPages path, made, Except.ok.injEq] at generated
      exact generated ▸ bodyMember

theorem Linked.homed {tree : FileTree} {text : String} {other : FileAnalysis}
    (snapshot : Linked tree text other) (page : String)
    (home : ((linkedPlan text other).files.all fun file => file.analysis.graph.edges.all fun edge =>
      (linkedPlan text other).owner? edge.1 == some file.source.path) = true) :
    Homed linked page tree := by
  intro analysis found file _ _ entity _ asked _ part inPlan caller calls
  rw [snapshot.analyzed, Except.ok.injEq] at found
  subst found
  exact beq_iff_eq.mp (List.all_eq_true.mp (List.all_eq_true.mp home part inPlan) _ calls)

theorem linked_editedTree : Linked editedTree callText calling := by
  obtain ⟨report, ran⟩ := run_idleTree
  obtain ⟨completed⟩ := linked.completed_of_run ran
  have changes := completed.changes linked_idleTree.rooted nofun
  have sources : leftTree.find? ["r", "src"] = some .dir := changes.dirs _ (by decide +kernel)
  have sound : editedTree.Sound := (changes.sound linked_idleTree.rooted.sound).insert ["r", "src"] "b.py" _
    sources (by decide) fun found => absurd found (by decide +kernel)
  exact .of_walked (.of_dir sound (by decide +kernel) (by decide)) (by decide +kernel) (by decide +kernel)
    (by decide +kernel) (by decide)
    (Source.analyze_of_heard (heard_linked _ (by decide)) (by decide +kernel) (.ofList _) (by decide +kernel)
      (by decide +kernel))

/-- The manifest of the first run is found by the second one. -/
theorem previous_leftTree : linked.previous leftTree = some firstPass.2.recorder.manifest ∧
    linked.previous editedTree = some firstPass.2.recorder.manifest := by
  obtain ⟨report, ran⟩ := run_idleTree
  obtain ⟨completed⟩ := linked.completed_of_run ran
  have made : completed.made = firstPass.2 := by
    have ran := completed.ran
    rw [Except.ok.inj (completed.analyzed.symm.trans linked_idleTree.analyzed)] at ran
    rw [firstPass, ran]
  obtain ⟨valid, readable⟩ := completed.manifest_readable (sized_of_entries (by decide +kernel)) nofun
  rw [← made]
  refine ⟨completed.previous_after valid readable manifestApart_linked.graph,
    completed.previous_of_same valid readable manifestApart_linked.graph ?_⟩
  -- the manifest is not where the edited source is
  have saved := completed.manifest_saved manifestApart_linked.graph
  obtain ⟨reached, held⟩ := (readText_eq_ok_iff ..).mp saved
  rw [saved, readText_eq_ok_iff, editedTree, find?_insert _ _ _ (by simp), if_neg (by decide +kernel)]
  refine ⟨reached.mono fun place dir => ?_, held⟩
  rw [find?_insert _ _ _ (by simp)]
  split
  · next same =>
      rw [same] at dir
      exact absurd dir (by decide +kernel)
  · exact dir

theorem toldApart_linked : ToldApart linked "files/src/a.py.md" [editedTree, idleTree] := by
  have texts : ∀ tree ∈ [editedTree, idleTree], ∀ text, TextOf linked "files/src/a.py.md" tree text →
      text ∈ linkedTexts.val := by
    refine List.forall_mem_cons.mpr ⟨fun text => ?_, List.forall_mem_singleton.mpr fun text => ?_⟩
    · refine linked_editedTree.text_mem (by decide) (fun content held => ?_)
        (ok_of_toOption (show _ = some "f is used by: g" by decide +kernel)) (by decide)
      have stands : editedTree.find? (linked.docs.placeOf "files/src/a.py.md") =
          some (.file "f is used by:".toUTF8) := by
        decide +kernel
      rw [stands, Option.some.injEq, FileEntry.file.injEq, ← fromUTF8?_eq_some_iff,
        (fromUTF8?_eq_some_iff ..).mpr rfl, Option.some.injEq] at held
      rw [← held]
      decide
    · refine linked_idleTree.text_mem (by decide) (fun content held => ?_)
        (ok_of_toOption (show _ = some "f is used by:" by decide +kernel)) (by decide)
      have missing : idleTree.find? (linked.docs.placeOf "files/src/a.py.md") = none := by decide +kernel
      rw [missing] at held
      cases held
  intro first inFirst second inSecond text other textOf otherOf same
  exact List.inj_on_of_nodup_map linkedTexts.property (texts first inFirst text textOf)
    (texts second inSecond other otherOf) same

/-- The tasks of the second run. -/
def secondPass : List (String × PageOutcome) × PassState :=
  (linked.pass newYear).runTasks (calledPages.map (Pass.taskFor (some firstPass.2.recorder.manifest)
    (linkedAnalysis callText calling).hashes)) (start editedTree (linkedAnalysis callText calling))

theorem runTasks_editedTree :
    (linked.pass newYear).runTasks (tasks (some firstPass.2.recorder.manifest)
      (linkedAnalysis callText calling)) (start editedTree (linkedAnalysis callText calling)) =
        secondPass := by
  rw [tasks, pages_calling]
  rfl

theorem secondPass_settled : ("files/src/a.py.md", PageOutcome.regenerated) ∈ secondPass.1 ∧
    secondPass.2.tree.isDir linked.docsDir = true ∧
    ∀ path ∈ [linked.manifestPath, linked.graphPath],
      secondPass.2.tree.find? path.place ≠ some .dir := by
  decide +kernel

/-- The second source gains a call, which stands in the file that documents the caller: the page of the
first source is made again, although that one is as it was. -/
theorem run_refreshes_editedTree : ∃ first report after,
    (linked.generate true false newYear).run.run idleTree = (.ok first, leftTree) ∧
      linked.docs.load editedTree "files/src/a.py.md" = .ok "f is used by:" ∧
      (linked.generate false false newYear).run.run editedTree = (.ok report, after) ∧
      "files/src/a.py.md" ∈ report.regenerated ∧
      linked.docs.load after "files/src/a.py.md" = .ok "f is used by: g" := by
  obtain ⟨first, ran⟩ := run_idleTree
  obtain ⟨listed, there, free⟩ := secondPass_settled
  have again := run_linked linked_editedTree runTasks_editedTree there free
  obtain ⟨recorded, found⟩ := previous_leftTree
  have rounds : Rounds linked [idleTree] (linked.previous leftTree) := .next .start ran
  rw [recorded] at rounds
  obtain ⟨analysis, analyzed, -, refreshed⟩ := run_refreshes linked rounds manifestApart_linked
    (List.forall_mem_cons.mpr ⟨linked_editedTree.rooted,
      List.forall_mem_singleton.mpr linked_idleTree.rooted⟩)
    (List.forall_mem_singleton.mpr (sized_of_entries (by decide +kernel))) toldApart_linked
    (List.forall_mem_cons.mpr ⟨linked_editedTree.homed _ (by decide +kernel),
      List.forall_mem_singleton.mpr (linked_idleTree.homed _ (by decide +kernel))⟩) (by decide) again
  rw [linked_editedTree.analyzed, Except.ok.injEq] at analyzed
  subst analyzed
  have remade : "files/src/a.py.md" ∈ RunReport.pagesWith secondPass.1 .regenerated :=
    (RunReport.mem_pagesWith_iff ..).mpr listed
  obtain ⟨request, member, path, text, generated, loaded, -⟩ := refreshed (Or.inl remade)
  have shown : linked.generator ((linkedPlan callText calling).filePage usedFile) =
      .ok "f is used by: g" := ok_of_toOption (by decide +kernel)
  rw [request_linked member path, shown, Except.ok.injEq] at generated
  subst generated
  have generatedFirst := (linked.run_generate true false newYear idleTree).trans ran
  have generatedAgain := linked.run_generate false false newYear editedTree
  rw [if_neg Bool.false_ne_true, found, again] at generatedAgain
  exact ⟨first, _, _, generatedFirst, ok_of_toOption (by decide +kernel), generatedAgain, remade, loaded⟩

end TwoSources

/-- The tree of a text with one method `f` that calls an `f`. -/
def oneCaller : SyntaxTree where
  rows := #[⟨none, "program", none, 0, 13⟩, ⟨some 0, "method_declaration", none, 0, 12⟩,
    ⟨some 1, "identifier", some "name", 0, 1⟩, ⟨some 1, "method_invocation", none, 6, 9⟩,
    ⟨some 3, "identifier", some "name", 6, 7⟩]
  nonempty := by decide +kernel
  preorder := by decide +kernel

/-- The project whose sources in Java have one method, which calls its own name, and whose others have
one function without calls. -/
def mixed : Project :=
  { single with parser := fun language _ => if language = .java then oneCaller else oneFunction }

def callerSource : SourceFile :=
  ⟨"src/b.java", ⟨"/r/src/b.java"⟩, "java", Fingerprint.ofText "f() { f(); }\n", 1⟩

def callerTree : FileTree :=
  singleTree.insert ["r", "src", "b.java"] (.file "f() { f(); }\n".toUTF8)

theorem callerTree_sound : callerTree.Sound :=
  singleTree_sound.insert ["r", "src"] "b.java" _ (by decide) (by decide)
    fun found => absurd found (by decide)

theorem analyze_singleTree_mixed :
    mixed.analyze singleTree = .ok (analysisOf mixed singleTree [ownSource]) :=
  analyze_of_walked singleTree_sound (by decide +kernel)
    (List.forall_mem_singleton.mpr (printed_ownSource (by decide +kernel))) (List.pairwise_singleton ..)

theorem analyze_callerTree :
    mixed.analyze callerTree = .ok (analysisOf mixed callerTree [ownSource, callerSource]) := by
  have read : callerTree.readText callerSource.location = .ok "f() { f(); }\n" :=
    ok_of_toOption (by decide +kernel)
  have ordered : ownSource.path < callerSource.path := show "src/a.py" < "src/b.java" by decide
  exact analyze_of_walked callerTree_sound (by decide +kernel)
    (List.forall_mem_cons.mpr ⟨printed_ownSource (by decide +kernel),
      List.forall_mem_singleton.mpr (printed_eq_self read rfl)⟩) (List.pairwise_pair.mpr ordered)

theorem fileOf_callerSource : Analysis.fileOf mixed.config mixed.parser callerTree callerSource =
    ⟨callerSource, { graph := .ofList [("f", ["f"])], entities := [⟨"f", .function, 1, 1⟩] }⟩ := by
  have read : callerTree.readText callerSource.location = .ok "f() { f(); }\n" :=
    ok_of_toOption (by decide +kernel)
  have analysis : Source.analyze ⟨"f() { f(); }\n".toUTF8, oneCaller⟩ .java (Analysis.noiseOf mixed.config) =
      { graph := .ofList [("f", ["f"])], entities := [⟨"f", .function, 1, 1⟩] } :=
    Source.analyze_of_heard (heard_linked _ (by decide)) (by decide +kernel) (.ofList _) (by decide +kernel)
      (by decide +kernel)
  rw [Analysis.fileOf_of_text (show _ = some .java by decide +kernel) read (by decide)]
  exact congrArg (AnalyzedFile.mk callerSource) analysis

def ownFile (tree : FileTree) : AnalyzedFile :=
  Analysis.fileOf mixed.config mixed.parser tree ownSource

/-- Where nothing but the function itself is said to call it, its file is the only contributor. -/
theorem mem_contributors_ownFile {plan : PagePlan} {tree : FileTree}
    (named : (ownFile tree).analysis.entities.map Entity.name = ["f"])
    (called : ∀ caller ∈ plan.callersOf "f", caller = "f") (owned : plan.owner? "f" = some "src/a.py")
    (path : String) : path ∈ plan.contributors (ownFile tree) ↔ path = "src/a.py" := by
  rw [plan.mem_contributors_iff]
  constructor
  · rintro (same | ⟨entity, member, caller, calls, there⟩)
    · exact same
    · have inNames : entity.name ∈ (ownFile tree).analysis.entities.map Entity.name :=
        List.mem_map_of_mem member
      rw [named, List.mem_singleton] at inNames
      rw [inNames] at calls
      rw [called caller calls, owned, Option.some_inj] at there
      exact there.symm
  · exact Or.inl

/-- A page can be kept although its callers are not what they were: the file with the new call is none
of its contributors, because the first file that defines the caller is the page's own. -/
theorem reusable_page_outdated : ∃ old new recorded request,
    mixed.analyze singleTree = .ok old ∧ mixed.analyze callerTree = .ok new ∧ recorded ∈ old.pages ∧
      request ∈ new.pages ∧ request.path = recorded.path ∧
      (∀ clock body, Staleness.ofStatus (.ofPage old.hashes clock recorded.sources recorded.lines body)
        request new.hashes = .reusable) ∧ request.context ≠ recorded.context := by
  generalize before : analysisOf mixed singleTree [ownSource] = old
  generalize after : analysisOf mixed callerTree [ownSource, callerSource] = new
  have analyzedOld := before ▸ analyze_singleTree_mixed
  have analyzed := after ▸ analyze_callerTree
  have named : (ownFile singleTree).analysis.entities.map Entity.name = ["f"] := by decide +kernel
  have same : (ownFile callerTree).analysis.entities = (ownFile singleTree).analysis.entities := by
    decide +kernel
  have uncalled : (Analysis.plan mixed.config old).callersOf "f" = [] := by
    rw [← before]
    decide +kernel
  have called : (Analysis.plan mixed.config new).callersOf "f" = ["f"] := by
    rw [← after, analysisOf, List.map_cons, List.map_cons, fileOf_callerSource]
    decide +kernel
  have owned : (Analysis.plan mixed.config old).owner? "f" = some "src/a.py" := by
    rw [← before]
    decide +kernel
  have stillOwned : (Analysis.plan mixed.config new).owner? "f" = some "src/a.py" := by
    rw [← after]
    decide +kernel
  have filled : ∀ tree, (ownFile tree).analysis.entities = (ownFile singleTree).analysis.entities →
      (!(ownFile tree).analysis.entities.isEmpty) = true := by
    intro tree entities
    rw [entities, ← List.isEmpty_map (f := Entity.name), named]
    rfl
  -- before and after, the page is made from its own file alone
  have first := mem_contributors_ownFile named (by simp [uncalled]) owned
  have second := mem_contributors_ownFile (by rw [same, named]) (by simp [called]) stillOwned
  refine ⟨old, new, (Analysis.plan mixed.config old).filePage (ownFile singleTree),
    (Analysis.plan mixed.config new).filePage (ownFile callerTree), analyzedOld, analyzed, ?_, ?_, rfl,
    fun clock body => ?_, fun equal => ?_⟩
  · rw [← before]
    exact List.mem_append_left _ (List.mem_map_of_mem
      (List.mem_filter.mpr ⟨List.mem_cons_self .., filled singleTree rfl⟩))
  · rw [← after]
    exact List.mem_append_left _ (List.mem_map_of_mem
      (List.mem_filter.mpr ⟨List.mem_cons_self .., filled callerTree same⟩))
  · apply (Staleness.ofStatus_eq_reusable_iff ..).mpr
    refine ⟨fun source listed => ?_, fun source => (second source).trans (first source).symm⟩
    have own := (second source).mp listed
    rw [own]
    refine (Staleness.isCurrent_iff ..).mpr ⟨ownSource.hash, ?_, ?_⟩
    · rw [PageStatus.ofPage_hashes]
      apply (if_pos ((first "src/a.py").mpr rfl)).trans
      rw [← before]
      exact Analysis.hash_of_mem_sources analyze_singleTree_mixed (List.mem_cons_self ..)
    · rw [← after]
      exact Analysis.hash_of_mem_sources analyze_callerTree (List.mem_cons_self ..)
  · have entity : ∃ entity ∈ (ownFile callerTree).analysis.entities, entity.name = "f" := by
      apply List.mem_map.mp
      rw [same, named]
      exact List.mem_singleton_self _
    obtain ⟨entity, member, name⟩ := entity
    have callers := PagePlan.callersOf_of_context same equal entity member
    rw [name, called, uncalled] at callers
    cases callers

end SourceAtlas.Project
