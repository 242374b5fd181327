/-!
Wildcard patterns for slash-separated paths. A pattern is read into parts, and a path is matched byte
by byte: a wildcard never matches half of a slash-free name and the slash after it, unless it is a
double star.
-/

namespace SourceAtlas

inductive GlobFault where
  | unclosedClass
  | invalidRange (first last : Char)
  | unopenedGroup
  | unclosedGroup
  | danglingEscape
  deriving Repr, DecidableEq

def GlobFault.message : GlobFault → String
  | unclosedClass => "unclosed character class; missing ']'"
  | invalidRange first last =>
      "invalid range; '" ++ String.singleton first ++ "' > '" ++ String.singleton last ++ "'"
  | unopenedGroup =>
      "unopened alternate group; missing '\x7b' (maybe escape '\x7d' with '[\x7d]'?)"
  | unclosedGroup =>
      "unclosed alternate group; missing '\x7d' (maybe escape '\x7b' with '[\x7b]'?)"
  | danglingEscape => "dangling '\\'"

/-- A part of a glob. `anyDirsStart`, `anyDirs` and `anyBelow` are double stars before, between and
after slashes, which they include. -/
inductive GlobPart where
  | char (c : Char)
  | anyByte
  | anyName
  | anyDirsStart
  | anyDirs
  | anyBelow
  | oneOf (negated : Bool) (ranges : List (Char × Char))
  | choice (branches : List (List GlobPart))

namespace GlobPart

def slash : UInt8 := 47

def bytesOf (c : Char) : List UInt8 := (String.singleton c).toUTF8.toList

/-- The text after the bytes that it must start with. -/
def afterBytes? : List UInt8 → List UInt8 → Option (List UInt8)
  | [], text => some text
  | _ :: _, [] => none
  | byte :: bytes, first :: text => if byte = first then afterBytes? bytes text else none

/-- `rest` accepts the text, or what is left of it after some of its first bytes in `test`. -/
def afterSome (test : UInt8 → Bool) (rest : List UInt8 → Bool) : List UInt8 → Bool
  | [] => rest []
  | byte :: text => rest (byte :: text) || (test byte && afterSome test rest text)

/-- `rest` accepts what follows one of the slashes of the text. -/
def afterSlash (rest : List UInt8 → Bool) : List UInt8 → Bool
  | [] => false
  | byte :: text => (byte == slash && rest text) || afterSlash rest text

/-- The bytes that a range of characters names. Characters of several bytes name each of them, and
only the last byte of the first character and the first byte of the last one bound a range. -/
def rangeHas (first last : Char) (byte : UInt8) : Bool :=
  if first = last then (bytesOf first).contains byte
  else
    (bytesOf first).dropLast.contains byte || (bytesOf last).tail.contains byte ||
      ((bytesOf first).getLastD 0 ≤ byte && byte ≤ (bytesOf last).headD 0)

/-- The text starts with a slash, and `rest` accepts what follows it. -/
def afterFirstSlash (rest : List UInt8 → Bool) : List UInt8 → Bool
  | [] => false
  | byte :: text => byte == slash && rest text

mutual

/-- The part matches the start of a text, and `rest` accepts what is left. -/
def accepts (part : GlobPart) (rest : List UInt8 → Bool) (text : List UInt8) : Bool :=
  match part with
  | char c => match afterBytes? (bytesOf c) text with
      | none => false
      | some text => rest text
  | anyByte => match text with
      | [] => false
      | byte :: text => byte != slash && rest text
  | anyName => afterSome (· != slash) rest text
  | anyDirsStart => rest text || afterSlash rest text
  | anyDirs => afterFirstSlash (fun text => rest text || afterSlash rest text) text
  | anyBelow => afterFirstSlash (afterSome (fun _ => true) rest) text
  | oneOf negated ranges => match text with
      | [] => false
      | byte :: text =>
          (ranges.any fun range => rangeHas range.1 range.2 byte) != negated && rest text
  | choice [] => rest text
  | choice (branch :: branches) => acceptsAny (branch :: branches) rest text

def acceptsAll (parts : List GlobPart) (rest : List UInt8 → Bool) (text : List UInt8) : Bool :=
  match parts with
  | [] => rest text
  | part :: parts => part.accepts (acceptsAll parts rest) text

def acceptsAny (branches : List (List GlobPart)) (rest : List UInt8 → Bool) (text : List UInt8) : Bool :=
  match branches with
  | [] => false
  | branch :: branches => acceptsAll branch rest text || acceptsAny branches rest text

end

/-- A group of no branches matches nothing but the empty text. -/
def isBlank : GlobPart → Bool
  | choice [] => true
  | _ => false

def isDirs : GlobPart → Bool
  | anyDirsStart => true
  | _ => false

def char? : GlobPart → Option Char
  | char c => some c
  | _ => none

end GlobPart

structure Glob where
  parts : List GlobPart

namespace Glob

/-- The text is nothing but a double star before a slash, which stands for every path. -/
def isEverything (glob : Glob) : Bool :=
  match glob.parts with
  | [part] => part.isDirs
  | _ => false

def literal? (parts : List GlobPart) : Option (List Char) := parts.mapM GlobPart.char?

/-- The parts end with an extension: a dot and characters without a slash after it. -/
def endsInExtension : List GlobPart → Bool
  | [] => false
  | .char c :: reversed => if c = '.' then true else c != '/' && endsInExtension reversed
  | _ :: _ => false

/-- Only the last name of a path decides whether the glob can match. -/
def looksAtName (glob : Glob) : Bool :=
  match glob.parts with
  | [] => false
  | .anyDirsStart :: parts =>
      match literal? parts with
      | some chars => !chars.isEmpty && !chars.contains '/'
      | none => endsInExtension parts.reverse
  | parts => (literal? parts).isNone && endsInExtension parts.reverse

/-- Whether a path matches. A path that ends in a dot counts as one without a last name. -/
def accepts (glob : Glob) (path : String) : Bool :=
  let text := path.toUTF8.toList
  glob.isEverything ||
    (!(glob.looksAtName && path.toList.getLast? == some '.') &&
      GlobPart.acceptsAll glob.parts List.isEmpty text)

/-- The characters of a class after its opening bracket, up to the closing one. `first` tells that
none has been read, `opened` that a range has begun with the last one read. -/
def readRanges (read : List (Char × Char)) (first opened : Bool) :
    List Char → Except GlobFault (List (Char × Char) × List Char)
  | [] => .error .unclosedClass
  | c :: rest =>
      let close (last : Char) : Except GlobFault (List (Char × Char)) :=
        match read with
        | [] => .ok [(last, last)]
        | (low, _) :: before =>
            if last < low then .error (.invalidRange low last) else .ok ((low, last) :: before)
      if c = ']' && !first then
        .ok (((if opened then ('-', '-') :: read else read)).reverse, rest)
      else if opened then do readRanges (← close c) false false rest
      else if c = '-' && !first then readRanges read false true rest
      else readRanges ((c, c) :: read) false false rest

def readClass (text : List Char) : Except GlobFault (GlobPart × List Char) := do
  let (negated, text) := match text with
    | '!' :: rest => (true, rest)
    | '^' :: rest => (true, rest)
    | _ => (false, text)
  let (ranges, rest) ← readRanges [] true false text
  return (.oneOf negated ranges, rest)

/-- A group that is being read: the branches that are complete and the parts of the last one, both
with the latest first. -/
structure Group where
  branches : List (List GlobPart) := []
  parts : List GlobPart := []

namespace Group

def push (group : Group) (part : GlobPart) : Group := { group with parts := part :: group.parts }

def next (group : Group) : Group :=
  { branches := group.parts.reverse :: group.branches, parts := [] }

/-- The finished group; branches that can match nothing but the empty text are left out. -/
def close (group : Group) : GlobPart :=
  .choice (group.next.branches.reverse.filter fun branch => !branch.all GlobPart.isBlank)

end Group

/-- How far a glob has been read: the group that is open, the groups around it, the character before
the next one, and whether brackets stand for themselves from here on. -/
structure Reading where
  group : Group := {}
  around : List Group := []
  last : Option Char := none
  plainBrackets : Bool := false

namespace Reading

def push (reading : Reading) (part : GlobPart) : Reading :=
  { reading with group := reading.group.push part }

def seen (reading : Reading) (c : Char) : Reading := { reading with last := some c }

/-- Puts a double star with the slash before it in place of that slash. -/
def replaceLast (reading : Reading) (part : GlobPart) : Reading :=
  let parts := match reading.group.parts with
    | .anyDirsStart :: before => .anyDirsStart :: before
    | .anyBelow :: before => .anyBelow :: before
    | _ :: before => part :: before
    | [] => [part]
  { reading with group := { reading.group with parts } }

/-- Reads two stars in a row before `rest`; a slash that belongs to them is read too. -/
def doubleStar (reading : Reading) (rest : List Char) : Reading × List Char :=
  let plain := ((reading.push .anyName).push .anyName, rest)
  let inGroup := !reading.around.isEmpty
  if reading.group.parts.isEmpty then
    match rest with
    | [] => (reading.push .anyDirsStart, [])
    | '/' :: rest => ((reading.push .anyDirsStart).seen '/', rest)
    | _ => (plain.1.seen '*', rest)
  else if reading.last != some '/' &&
      !(inGroup && (reading.last == some ',' || reading.last == some '\x7b')) then
    (plain.1.seen '*', rest)
  else
    match rest with
    | [] => (reading.replaceLast .anyBelow, [])
    | '/' :: rest => ((reading.replaceLast .anyDirs).seen '/', rest)
    | c :: _ =>
        if inGroup && (c = ',' || c = '\x7d') then ((reading.replaceLast .anyBelow).seen '*', rest)
        else (plain.1.seen '*', rest)

end Reading

/-- Reads on. `lenient` lets a bracket without its partner stand for itself. -/
def readFrom (lenient : Bool) : Nat → Reading → List Char → Except GlobFault Reading
  | 0, reading, _ => .ok reading
  | _ + 1, reading, [] => .ok reading
  | fuel + 1, reading, c :: rest =>
      if c = '?' then readFrom lenient fuel ((reading.push .anyByte).seen c) rest
      else if c = '*' then
        match rest with
        | '*' :: rest =>
            let (reading, rest) := reading.doubleStar rest
            readFrom lenient fuel reading rest
        | _ => readFrom lenient fuel ((reading.push .anyName).seen c) rest
      else if c = '[' && !reading.plainBrackets then
        match readClass rest with
        | .ok (part, rest) => readFrom lenient fuel ((reading.push part).seen ']') rest
        | .error .unclosedClass =>
            if lenient then
              readFrom lenient fuel { (reading.push (.char c)).seen c with plainBrackets := true } rest
            else .error .unclosedClass
        | .error fault => .error fault
      else if c = '\x7b' then
        readFrom lenient fuel
          { reading with group := {}, around := reading.group :: reading.around, last := some c } rest
      else if c = '\x7d' then
        match reading.around with
        | [] => .error .unopenedGroup
        | outer :: around =>
            readFrom lenient fuel
              { reading with group := outer.push reading.group.close, around, last := some c } rest
      else if c = ',' && !reading.around.isEmpty then
        readFrom lenient fuel { reading with group := reading.group.next, last := some c } rest
      else if c = '\\' then
        match rest with
        | [] => .error .danglingEscape
        | c :: rest => readFrom lenient fuel ((reading.push (.char c)).seen c) rest
      else readFrom lenient fuel ((reading.push (.char c)).seen c) rest

/-- The glob that a text is. Every step reads a character at least. -/
def read (lenient : Bool) (text : List Char) : Except GlobFault Glob := do
  let reading ← readFrom lenient (text.length + 1) {} text
  if reading.around.isEmpty then return { parts := reading.group.parts.reverse }
  else throw .unclosedGroup

end Glob

end SourceAtlas
