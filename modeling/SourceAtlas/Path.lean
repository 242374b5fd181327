/-!
Slash-separated path texts and what they are made of. A path is kept as it was written; its parts are
read off when they are asked for, with repeated slashes and inner dots left out.
-/

namespace SourceAtlas

/-- Text cut at every occurrence of a character: always at least one piece. -/
def splitAtChar (sep : Char) : List Char → List (List Char)
  | [] => [[]]
  | c :: rest =>
      if c = sep then [] :: splitAtChar sep rest
      else match splitAtChar sep rest with
        | [] => [[c]]
        | piece :: pieces => (c :: piece) :: pieces

def splitAtLast (sep : Char) : List Char → Option (List Char × List Char)
  | [] => none
  | c :: rest =>
      match splitAtLast sep rest with
      | some (before, after) => some (c :: before, after)
      | none => if c = sep then some ([], rest) else none

/-- A part of a path. `here` is a dot at the start; dots elsewhere say nothing and are no part. -/
inductive PathPart where
  | root
  | here
  | up
  | name (text : String)
  deriving Repr, DecidableEq

namespace PathPart

def text : PathPart → String
  | root => "/"
  | here => "."
  | up => ".."
  | name text => text

def name? : PathPart → Option String
  | name text => some text
  | _ => none

def isName : PathPart → Bool
  | name _ => true
  | _ => false

end PathPart

structure Path where
  text : String
  deriving Repr, DecidableEq

namespace Path

def isAbsolute (path : Path) : Bool :=
  match path.text.toList with
  | '/' :: _ => true
  | _ => false

/-- The text holds a zero character, which no file name can. -/
def hasZero (path : Path) : Bool := path.text.toList.contains '\x00'

/-- The pieces between slashes that are not empty. -/
def pieces (path : Path) : List String :=
  ((splitAtChar '/' path.text.toList).filter fun piece => !piece.isEmpty).map String.ofList

def partOf? (piece : String) : Option PathPart :=
  if piece = "." then none
  else if piece = ".." then some .up
  else some (.name piece)

def parts (path : Path) : List PathPart :=
  let inner := path.pieces.filterMap partOf?
  if path.isAbsolute then .root :: inner
  else match path.pieces with
    | "." :: _ => .here :: inner
    | _ => inner

def ofParts : List PathPart → Path
  | .root :: rest => ⟨"/" ++ String.intercalate "/" (rest.map PathPart.text)⟩
  | parts => ⟨String.intercalate "/" (parts.map PathPart.text)⟩

/-- `path` seen from `base`: an absolute path is itself. -/
def join (base path : Path) : Path :=
  if path.isAbsolute then path
  else if base.text.isEmpty || base.text.toList.getLast? == some '/' then ⟨base.text ++ path.text⟩
  else ⟨base.text ++ "/" ++ path.text⟩

/-- The path without its last part; the root and the empty path have none. -/
def parent? (path : Path) : Option Path :=
  match path.parts with
  | [] => none
  | [.root] => none
  | parts => some (ofParts parts.dropLast)

def fileName? (path : Path) : Option String :=
  path.parts.getLast?.bind PathPart.name?

/-- The text after the last dot of the file name, unless that dot comes first. -/
def extension? (path : Path) : Option String := do
  let (before, after) ← splitAtLast '.' (← path.fileName?).toList
  if before.isEmpty then none else some (String.ofList after)

def afterParts? : List PathPart → List PathPart → Option (List PathPart)
  | [], parts => some parts
  | _ :: _, [] => none
  | part :: before, other :: parts => if part = other then afterParts? before parts else none

/-- `path` as a slash-separated name below `root`: the parts after those of `root` (all of them for a
path elsewhere), names only. -/
def relativeTo (root path : Path) : String :=
  let below := (afterParts? root.parts path.parts).getD path.parts
  String.intercalate "/" (below.filterMap PathPart.name?)

end Path

end SourceAtlas
