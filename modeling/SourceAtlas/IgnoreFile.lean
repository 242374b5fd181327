import SourceAtlas.Fault
/-!
Ignore files. A directory's `.ignore` file holds for all that is below it, and so do its `.gitignore`
and `.git/info/exclude` as far as they belong to the innermost repository around a path. The closest
file that decides about a path wins, and `.ignore` files go before the others.
-/

namespace SourceAtlas

structure IgnoreFile where
  rules : IgnoreRules := []
  bad : List BadIgnoreLine := []

namespace IgnoreFile

/-- Bytes cut after each line break, which is left out together with a carriage return before it.
`line` holds what has been read of the first line, latest byte first. -/
def splitLines (line : List UInt8) : List UInt8 → List (List UInt8)
  | [] => if line.isEmpty then [] else [line.reverse]
  | byte :: rest =>
      if byte = 10 then
        let ended := match line with
          | 13 :: before => before.reverse
          | _ => line.reverse
        ended :: splitLines [] rest
      else splitLines (byte :: line) rest

/-- The text of a line; byte order marks before the first one do not count. -/
def lineText? (number : Nat) (line : List UInt8) : Option String := do
  let text ← String.fromUTF8? ⟨line.toArray⟩
  if number = 1 then return String.ofList (text.toList.dropWhile (· == '\uFEFF')) else return text

/-- Reads lines from `number` on; one that is no text ends the file. -/
def readLines (file : Path) (number : Nat) : List (List UInt8) → IgnoreFile
  | [] => {}
  | line :: lines =>
      match lineText? number line with
      | none => { bad := [{ file, line := number, fault := .notText }] }
      | some text =>
          let later := readLines file (number + 1) lines
          match IgnoreRule.ofLine? true text with
          | .ok none => later
          | .ok (some rule) => { later with rules := rule :: later.rules }
          | .error bad => { later with bad := { file, line := number, fault := .rule bad } :: later.bad }

/-- The bad lines that count: a file whose only fault is that it is no text is taken as it is. -/
def reported (ignoreFile : IgnoreFile) : List BadIgnoreLine :=
  match ignoreFile.bad with
  | [one] => if one.fault = .notText then [] else [one]
  | bad => bad

end IgnoreFile

namespace FileTree

/-- The ignore file at a place; anything but a file holds no rules. -/
def ignoreFile (tree : FileTree) (place : Place) : IgnoreFile :=
  match tree.find? place with
  | some (.file content) =>
      IgnoreFile.readLines ⟨"/" ++ String.intercalate "/" place⟩ 1
        (IgnoreFile.splitLines [] content.toList)
  | _ => {}

def ignorePlace (dir : Place) : Place := dir ++ [".ignore"]

def gitIgnorePlace (dir : Place) : Place := dir ++ [".gitignore"]

def excludePlace (dir : Place) : Place := dir ++ [".git", "info", "exclude"]

def isRepository (tree : FileTree) (dir : Place) : Bool := (tree.find? (dir ++ [".git"])).isSome

def dirsAbove (place : Place) : List Place :=
  (List.range place.length).reverse.map place.take

/-- The directories above a place up to the top of the innermost repository; none outside of one. -/
def dirsInRepository (tree : FileTree) (place : Place) : List Place :=
  match (dirsAbove place).findIdx? tree.isRepository with
  | some top => (dirsAbove place).take (top + 1)
  | none => []

/-- What the closest of some directories' ignore files says about a place. -/
def verdictIn (tree : FileTree) (dirs : List Place) (file : Place → Place) (place : Place)
    (isDir : Bool) : Verdict :=
  dirs.foldr (fun dir later =>
    let below := String.intercalate "/" (place.drop dir.length)
    ((tree.ignoreFile (file dir)).rules.verdict below isDir).orElse later) .undecided

def ignoreVerdict (tree : FileTree) (place : Place) (isDir : Bool) : Verdict :=
  (tree.verdictIn (dirsAbove place) ignorePlace place isDir).orElse
    ((tree.verdictIn (tree.dirsInRepository place) gitIgnorePlace place isDir).orElse
      (tree.verdictIn (tree.dirsInRepository place) excludePlace place isDir))

/-- The bad lines in the ignore files above a place, outermost directory first. -/
def badIgnoreLinesAbove (tree : FileTree) (place : Place) : List BadIgnoreLine :=
  (dirsAbove place).reverse.flatMap fun dir =>
    [ignorePlace dir, gitIgnorePlace dir, excludePlace dir].flatMap fun file =>
      (tree.ignoreFile file).reported

end FileTree

end SourceAtlas
