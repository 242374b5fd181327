import SourceAtlas.CommandLine.Request
/-!
The texts that explain the command line.
-/

namespace SourceAtlas

def programName : String := "docwright"

def programVersion : String := "0.1.0"

/-- A text in a column of a width. -/
def inColumn (width : Nat) (text : String) : String :=
  String.ofList (text.toList.rightpad width ' ')

def helpTable (title : String) (rows : List (String × String)) : List String :=
  let width := (rows.map fun row => row.1.length).foldl max 0
  (title ++ ":") :: rows.map fun (term, about) => "  " ++ inColumn width term ++ "  " ++ about

def Switch.term (switch : Switch) : String :=
  let short := match switch.letter with
    | some letter => String.ofList ['-', letter, ',', ' ']
    | none => "    "
  let value := if switch.role = .value then " <" ++ switch.name.toUpper ++ ">" else ""
  short ++ "--" ++ switch.name ++ value

def switchTable (switches : List Switch) : List String :=
  helpTable "Options" (switches.map fun switch => (switch.term, switch.about))

namespace HelpTopic

def about : HelpTopic → String
  | program => "Call-graph aware documentation that only rebuilds what changed"
  | .verb named => named.about
  | help => "Print this message or the help of the given subcommand(s)"

/-- What stands after the name of the program. -/
def usage : HelpTopic → String
  | program => "[OPTIONS] <COMMAND>"
  | .verb named => if named.switches.length = 1 then named.name else named.name ++ " [OPTIONS]"
  | help => word ++ " [COMMAND]..."

def tables : HelpTopic → List String
  | program =>
      helpTable "Commands" (Verb.all.map (fun named => (named.name, named.about)) ++
        [(word, help.about)]) ++ "" :: switchTable programSwitches
  | .verb named => switchTable named.switches
  | help => helpTable "Arguments" [("[COMMAND]...", "Print help for the subcommand(s)")]

def lines (topic : HelpTopic) : List String :=
  [topic.about, "", "Usage: " ++ programName ++ " " ++ topic.usage, ""] ++ topic.tables

end HelpTopic

end SourceAtlas
