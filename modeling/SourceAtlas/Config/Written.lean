import SourceAtlas.Config
import SourceAtlas.Text.Decimal
import SourceAtlas.Toml.Quoted
/-!
Settings as a TOML document. A group of settings may also be read from an array of its values in
order; keys that are not known do not count.
-/

namespace SourceAtlas

namespace Toml

/-- The values of a group's settings; what stands after them in an array does not count. -/
def settings? (names : List String) : Toml → Option (List (Option Toml))
  | table _ fields => some (names.map fun name => fields.lookup name)
  | inline fields => some (names.map fun name => fields.lookup name)
  | array items => some ((List.range names.length).map fun position => items[position]?)
  | tables items => some ((List.range names.length).map fun position => items[position]?)
  | _ => none

def string? : Toml → Option String
  | str value => some value
  | _ => none

def natural? : Toml → Option Nat
  | integer (.ofNat value) => some value
  | _ => none

def path? (toml : Toml) : Option Path := toml.string?.map Path.mk

def list? {α : Type} (read : Toml → Option α) : Toml → Option (List α)
  | array items => items.mapM read
  | tables items => items.mapM read
  | _ => none

def fields? : Toml → Option Fields
  | table _ fields => some fields
  | inline fields => some fields
  | _ => none

def orDefault {α : Type} (read : Toml → Option α) (given : α) : Option Toml → Option α
  | none => some given
  | some toml => read toml

def projectConfig? (toml : Toml) : Option ProjectConfig := do
  let [some name, some sourceDirs, some ignorePatterns, some docsDir] ←
    toml.settings? ["name", "source_dirs", "ignore_patterns", "docs_dir"] | none
  return {
    name := ← name.string?
    sourceDirs := ← sourceDirs.list? path?
    ignorePatterns := ← ignorePatterns.list? string?
    docsDir := ← docsDir.path? }

def parsingConfig? (toml : Toml) : Option ParsingConfig := do
  let [some languages, some maxFileSize] ← toml.settings? ["languages", "max_file_size"] | none
  return { languages := ← languages.list? string?, maxFileSize := ← maxFileSize.natural? }

/-- The template directory may be left out of a table, but not of an array. -/
def generationConfig? (toml : Toml) : Option GenerationConfig := do
  let [some maxConcurrency, some manifestFile, templateDir] ←
    toml.settings? ["max_concurrency", "manifest_file", "template_dir"] | none
  if templateDir.isNone && toml.fields?.isNone then none
  else return {
    maxConcurrency := ← maxConcurrency.natural?
    manifestFile := ← manifestFile.path?
    templateDir := ← orDefault (fun toml => toml.path?.map some) none templateDir }

def graphConfig? (toml : Toml) : Option GraphConfig := do
  let [some maxNodes, some labelBudget] ← toml.settings? ["max_nodes", "label_budget"] | none
  return { maxNodes := ← maxNodes.natural?, labelBudget := ← labelBudget.natural? }

def wordLists? (toml : Toml) : Option (Std.ExtTreeMap String (List String)) := do
  let entries ← (← toml.fields?).mapM fun (tag, words) => do return (tag, ← words.list? string?)
  return entries.foldl (fun lists (tag, words) => lists.insert tag words) ∅

def noiseSettings? (toml : Toml) : Option NoiseSettings := do
  let [common, languages] ← toml.settings? ["common", "languages"] | none
  return {
    common := ← orDefault (list? string?) [] common
    languages := ← orDefault wordLists? ∅ languages }

def config? (toml : Toml) : Option Config := do
  let [some project, some parsing, some generation, graph, noise] ←
    toml.settings? ["project", "parsing", "generation", "graph", "noise"] | none
  return {
    project := ← project.projectConfig?
    parsing := ← parsing.parsingConfig?
    generation := ← generation.generationConfig?
    graph := ← orDefault graphConfig? {} graph
    noise := ← orDefault noiseSettings? {} noise }

end Toml

namespace Config

def ofText (text : String) : Except Fault Config :=
  match (Toml.ofText? text).bind Toml.config? with
  | some config => config.validate
  | none => .error .malformedSettings

def line (key : String) (value : List Char) : List Char :=
  Toml.quotedKey key ++ [' ', '=', ' '] ++ value ++ ['\n']

def group (header : String) (lines : List (List Char)) : List Char :=
  '[' :: header.toList ++ [']', '\n'] ++ lines.flatten

def toText (config : Config) : String :=
  let project := config.project
  let generation := config.generation
  let groups := [
    group "project" [
      line "name" (Toml.quoted project.name),
      line "source_dirs" (Toml.quotedArray (project.sourceDirs.map Path.text)),
      line "ignore_patterns" (Toml.quotedArray project.ignorePatterns),
      line "docs_dir" (Toml.quoted project.docsDir.text)],
    group "parsing" [
      line "languages" (Toml.quotedArray config.parsing.languages),
      line "max_file_size" (Decimal.digits config.parsing.maxFileSize)],
    group "generation" ([
      line "max_concurrency" (Decimal.digits generation.maxConcurrency),
      line "manifest_file" (Toml.quoted generation.manifestFile.text)] ++
      generation.templateDir.toList.map fun dir => line "template_dir" (Toml.quoted dir.text)),
    group "graph" [
      line "max_nodes" (Decimal.digits config.graph.maxNodes),
      line "label_budget" (Decimal.digits config.graph.labelBudget)],
    group "noise" [line "common" (Toml.quotedArray config.noise.common)],
    group "noise.languages" (config.noise.languages.toList.map fun (tag, words) =>
      line tag (Toml.quotedArray words))]
  String.ofList (['\n'].intercalate groups)

end Config

end SourceAtlas
