/-!
Switches among the arguments of a command: long ones as `--name`, `--name=value` and `--name value`,
short ones as `-n`, `-nvalue`, `-n=value` and `-n value`, and short ones without a value in one
argument. They are read from left to right, and the first one that cannot be taken decides.
-/

namespace SourceAtlas

inductive SwitchRole where
  | flag
  | value
  | help
  | version
  deriving Repr, DecidableEq

/-- A switch, its one-letter form, and what it does. -/
structure Switch where
  letter : Option Char
  name : String
  role : SwitchRole
  about : String
  deriving Repr, DecidableEq

/-- Why the reading of switches ends before all of them are read. -/
inductive Stop where
  | help
  | version
  | misuse
  deriving Repr, DecidableEq

/-- An argument by its form. The form `--` ends the switches. -/
inductive Argument where
  | word
  | separator
  | long (name : String) (value : Option String)
  | short (letters : List Char)
  deriving Repr, DecidableEq

def Argument.ofText (text : String) : Argument :=
  match text.toList with
  | ['-', '-'] => separator
  | '-' :: '-' :: rest =>
      let name := rest.takeWhile (· ≠ '=')
      long (.ofList name) ((rest.drop name.length).tail?.map String.ofList)
  | '-' :: letter :: letters => short (letter :: letters)
  | _ => word

/-- The switches that were given, by name; a flag has the empty text for a value. -/
abbrev GivenSwitches := List (String × String)

namespace GivenSwitches

def has (given : GivenSwitches) (name : String) : Bool := (given.lookup name).isSome

def value? (given : GivenSwitches) (name : String) : Option String := given.lookup name

/-- Takes a switch. None may be repeated, and a value is not empty. -/
def put (given : GivenSwitches) (switch : Switch) (value : String) : Except Stop GivenSwitches :=
  match switch.role with
  | .help => .error .help
  | .version => .error .version
  | .flag => if given.has switch.name then .error .misuse else .ok ((switch.name, "") :: given)
  | .value =>
      if given.has switch.name || value.isEmpty then .error .misuse
      else .ok ((switch.name, value) :: given)

/-- Takes the short switches of one argument, and answers the last one if its value is still to come. -/
def putLetters (known : List Switch) (given : GivenSwitches) :
    List Char → Except Stop (GivenSwitches × Option Switch)
  | [] => .ok (given, none)
  | letter :: rest =>
      match known.find? fun switch => switch.letter == some letter with
      | none => .error .misuse
      | some switch =>
          if switch.role = .value then
            match rest with
            | [] => .ok (given, some switch)
            | '=' :: value => do return (← given.put switch (.ofList value), none)
            | value => do return (← given.put switch (.ofList value), none)
          else do putLetters known (← given.put switch "") rest

/-- Takes the switch of one argument, as `putLetters` does. -/
def putLong (known : List Switch) (given : GivenSwitches) (name : String) (value : Option String) :
    Except Stop (GivenSwitches × Option Switch) :=
  match known.find? fun switch => switch.name == name with
  | none => .error .misuse
  | some switch =>
      match decide (switch.role = .value), value with
      | true, none => .ok (given, some switch)
      | true, some value => do return (← given.put switch value, none)
      | false, none => do return (← given.put switch "", none)
      | false, some _ => .error .misuse

/-- Takes the switches of one argument; a word and the separator hold none. -/
def putArgument (known : List Switch) (given : GivenSwitches) :
    Argument → Except Stop (GivenSwitches × Option Switch)
  | .short letters => given.putLetters known letters
  | .long name value => given.putLong known name value
  | _ => .ok (given, none)

/-- Takes the switches before the first word, and answers the arguments from that word on. After the
separator nothing may follow. -/
def read (known : List Switch) (given : GivenSwitches) :
    List String → Except Stop (GivenSwitches × List String)
  | [] => .ok (given, [])
  | argument :: rest =>
      match Argument.ofText argument with
      | .word => .ok (given, argument :: rest)
      | .separator => if rest.isEmpty then .ok (given, []) else .error .misuse
      | form =>
          match given.putArgument known form with
          | .error stop => .error stop
          | .ok (given, none) => read known given rest
          | .ok (given, some switch) =>
              match rest with
              | [] => .error .misuse
              | value :: rest =>
                  match Argument.ofText value, given.put switch value with
                  | .word, .ok given => read known given rest
                  | _, _ => .error .misuse

end GivenSwitches

end SourceAtlas
