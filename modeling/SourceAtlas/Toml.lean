/-!
TOML documents as tables of values, and how keys and headers build them up. A table may grow only in
the way it began: one with a header of its own is not declared again, and dotted keys do not reach
into it.
-/

namespace SourceAtlas

/-- How a table began: with a header of its own, with the header of a table inside it, or with a
dotted key. -/
inductive TableOrigin where
  | declared
  | implied
  | dotted
  deriving Repr, DecidableEq

/-- A value. Values that settings never hold (truth values, floats, dates) are all `other`; a table
in braces is `inline` and never grows, and `tables` is the array that double headers fill. -/
inductive Toml where
  | str (value : String)
  | integer (value : Int)
  | other
  | array (items : List Toml)
  | inline (fields : List (String × Toml))
  | tables (items : List Toml)
  | table (origin : TableOrigin) (fields : List (String × Toml))

namespace Toml

abbrev Fields := List (String × Toml)

/-- Replaces the value of a key, or adds one, unless the change is refused. -/
def update? (key : String) (change : Option Toml → Option Toml) : Fields → Option Fields
  | [] => (change none).map fun value => [(key, value)]
  | (name, value) :: rest =>
      if name = key then (change (some value)).map fun value => (name, value) :: rest
      else (update? key change rest).map ((name, value) :: ·)

/-- Changes the table that a path leads to. Tables that are missing begin as the path is written, and
in an array of tables the last one is meant. -/
def descend? (byDots : Bool) (change : TableOrigin → Fields → Option Fields) :
    List String → TableOrigin → Fields → Option Fields
  | [], origin, fields => change origin fields
  | key :: path, _, fields => fields |> update? key fun found =>
      match found with
      | none =>
          let origin := if byDots then .dotted else .implied
          (descend? byDots change path origin []).map (.table origin)
      | some (.table origin inner) =>
          if byDots && origin == .declared then none
          else (descend? byDots change path origin inner).map (.table origin)
      | some (.tables items) =>
          match items.getLast? with
          | some (.table origin inner) =>
              (descend? byDots change path origin inner).map fun fields =>
                .tables (items.dropLast ++ [.table origin fields])
          | _ => none
      | some _ => none

/-- Gives a key its value; it must be new. -/
def insertNew? (key : String) (value : Toml) : Fields → Option Fields :=
  update? key fun found =>
    match found with
    | none => some value
    | some _ => none

def insertAt? (path : List String) (key : String) (value : Toml) (origin : TableOrigin) :
    Fields → Option Fields :=
  descend? true (fun reached fields =>
    if (reached == .dotted) == path.isEmpty then none else insertNew? key value fields) path origin

def declare? (path : List String) (key : String) : Fields → Option Fields :=
  descend? false (fun _ => update? key fun found =>
    match found with
    | none => some (.table .declared [])
    | some (.table .implied fields) => some (.table .declared fields)
    | _ => none) path .declared

def declareNext? (path : List String) (key : String) : Fields → Option Fields :=
  descend? false (fun _ => update? key fun found =>
    match found with
    | none => some (.tables [.table .declared []])
    | some (.tables items) => some (.tables (items ++ [.table .declared []]))
    | _ => none) path .declared

/-- Adds a value under a dotted key in the table of a header. -/
def insertUnder? (header path : List String) (key : String) (value : Toml) : Fields → Option Fields :=
  descend? false (fun origin => insertAt? path key value origin) header .declared

end Toml

end SourceAtlas
