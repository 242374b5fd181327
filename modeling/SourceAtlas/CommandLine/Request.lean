import SourceAtlas.CommandLine.Switches
import SourceAtlas.Path
/-!
What the arguments of the command line ask for.
-/

namespace SourceAtlas

inductive Verb where
  | generate
  | sync
  | status
  deriving Repr, DecidableEq

namespace Verb

def all : List Verb := [generate, sync, status]

def name : Verb → String
  | generate => "generate"
  | sync => "sync"
  | status => "status"

def ofName? (text : String) : Option Verb := all.find? fun verb => verb.name == text

def about : Verb → String
  | generate => "Generate documentation, reusing pages whose sources are unchanged"
  | sync => "Update only changed pages"
  | status => "Show which pages are stale and why"

def helpSwitch : Switch := ⟨some 'h', "help", .help, "Print help"⟩

/-- The switches that may follow a verb. -/
def switches : Verb → List Switch
  | generate => [
      ⟨some 's', "source", .value, "Source directory to analyze"⟩,
      ⟨some 'o', "output", .value, "Output directory for documentation"⟩,
      ⟨none, "force", .flag, "Force regeneration of all docs"⟩,
      helpSwitch]
  | sync => [
      ⟨none, "dry-run", .flag, "Dry run - show what would be updated"⟩,
      ⟨none, "fail-on-changes", .flag, "Fail if changes would be made (useful for CI)"⟩,
      helpSwitch]
  | status => [helpSwitch]

end Verb

def programSwitches : List Switch := [
  ⟨some 'c', "config", .value, "Path to configuration file"⟩,
  ⟨some 'v', "verbose", .flag, "Enable verbose logging"⟩,
  Verb.helpSwitch,
  ⟨some 'V', "version", .version, "Print version"⟩]

inductive Command where
  | generate (source output : Option Path) (force : Bool)
  | sync (dryRun failOnChanges : Bool)
  | status
  deriving Repr, DecidableEq

/-- A command, and the settings file to go by. -/
structure Invocation where
  config : Option Path
  command : Command
  deriving Repr, DecidableEq

/-- What help can be about; help on help is there too. -/
inductive HelpTopic where
  | program
  | verb (verb : Verb)
  | help
  deriving Repr, DecidableEq

def HelpTopic.word : String := "help"

/-- What the words after the word for help name. -/
def HelpTopic.ofWords? : List String → Option HelpTopic
  | [] => some program
  | [name] => if name = word then some help else (Verb.ofName? name).map HelpTopic.verb
  | _ => none

inductive Request where
  | invoke (invocation : Invocation)
  | help (topic : HelpTopic)
  | version
  | misuse
  deriving Repr, DecidableEq

namespace Request

/-- What it comes to when the reading of switches ends early. -/
def ofStop (topic : HelpTopic) : Stop → Request
  | .help => help topic
  | .version => version
  | .misuse => misuse

def command (given : GivenSwitches) : Verb → Command
  | .generate =>
      let path (name : String) : Option Path := (given.value? name).map Path.mk
      .generate (path "source") (path "output") (given.has "force")
  | .sync => .sync (given.has "dry-run") (given.has "fail-on-changes")
  | .status => .status

/-- What the switches of the program, a verb and the arguments after it ask for. -/
def ofVerb (settings : GivenSwitches) (verb : Verb) (rest : List String) : Request :=
  match GivenSwitches.read verb.switches [] rest with
  | .error stop => ofStop (.verb verb) stop
  | .ok (given, []) =>
      invoke { config := (settings.value? "config").map Path.mk, command := command given verb }
  | .ok _ => misuse

/-- What arguments ask for. They are read from left to right, so a plea for help counts only if what
stands before it makes sense. -/
def ofArguments (arguments : List String) : Request :=
  match GivenSwitches.read programSwitches [] arguments with
  | .error stop => ofStop .program stop
  | .ok (_, []) => misuse
  | .ok (settings, word :: rest) =>
      if word = HelpTopic.word then ((HelpTopic.ofWords? rest).map help).getD misuse
      else
        match Verb.ofName? word with
        | some verb => ofVerb settings verb rest
        | none => misuse

end Request

end SourceAtlas
