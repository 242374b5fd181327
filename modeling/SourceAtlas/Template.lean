import SourceAtlas.Json
/-!
Templates over JSON values. Printing or repeating over what is not there fails; asking whether
something is there does not.
-/

namespace SourceAtlas

/-- A name and the steps from its value to a part of it. -/
structure Reference where
  name : String
  steps : List String := []
  deriving Repr, DecidableEq

/-- What a template asks of a reference. -/
inductive Condition where
  | filled (reference : Reference)
  | hasItems (reference : Reference)
  | isPositive (reference : Reference)
  deriving Repr, DecidableEq

inductive TemplatePart where
  | text (literal : String)
  | value (reference : Reference)
  | choose (condition : Condition) (yes no : List TemplatePart)
  | repeatFor (name : String) (reference : Reference) (body : List TemplatePart)

abbrev Template := List TemplatePart

/-- Names with their values; inner names come first. -/
abbrev Scope := List (String × Json)

namespace Json

/-- A number's text stands for something above zero. -/
def positiveText (text : String) : Bool :=
  match text.toList with
  | '-' :: _ => false
  | digits => (digits.takeWhile fun c => c != 'e' && c != 'E').any fun c => '1' ≤ c && c ≤ '9'

/-- Every value but null, false, zero and what is empty. -/
def isFilled : Json → Bool
  | null => false
  | bool value => value
  | natural value => value != 0
  | number text => positiveText (String.ofList (text.toList.dropWhile (· == '-')))
  | str text => !text.isEmpty
  | illText => true
  | arr items => !items.isEmpty
  | obj fields => !fields.isEmpty

def step? (json : Json) (step : String) : Option Json :=
  match json with
  | obj _ => json.field? step
  | arr items => do if step.toList.all Char.isDigit then items[← step.toNat?]? else none
  | _ => none

/-- The items to repeat over; a text has its characters. -/
def items? : Json → Option (List Json)
  | arr items => some items
  | str text => some (text.toList.map fun c => str (String.singleton c))
  | _ => none

def length? : Json → Option Nat
  | arr items => some items.length
  | obj fields => some fields.length
  | str text => some text.length
  | _ => none

def isPositive? : Json → Option Bool
  | natural value => some (value != 0)
  | number text => some (positiveText text)
  | _ => none

mutual

def shown : Json → List Char
  | null => []
  | str text => text.toList
  | arr items => '[' :: shownItems items ++ [']']
  | obj _ => "[object]".toList
  | other => scalar other

def shownItems : List Json → List Char
  | [] => []
  | [item] => shown item
  | item :: rest => shown item ++ ',' :: ' ' :: shownItems rest

end

end Json

namespace Reference

def value? (reference : Reference) (scope : Scope) : Option Json :=
  reference.steps.foldlM Json.step? =<< scope.lookup reference.name

end Reference

namespace Condition

/-- Whether a condition holds; none when it makes no sense. -/
def holds? (condition : Condition) (scope : Scope) : Option Bool :=
  match condition with
  | filled reference => some (((reference.value? scope).map Json.isFilled).getD false)
  | hasItems reference => do return 0 < (← (← reference.value? scope).length?)
  | isPositive reference => do (← reference.value? scope).isPositive?

end Condition

namespace Template

mutual

/-- The text of a part; none when it prints or repeats over what is not there. -/
def renderPart? (scope : Scope) : TemplatePart → Option (List Char)
  | .text literal => some literal.toList
  | .value reference => (reference.value? scope).map Json.shown
  | .choose condition yes no => do
      if ← condition.holds? scope then renderChars? scope yes else renderChars? scope no
  | .repeatFor name reference body => do
      let items ← (← reference.value? scope).items?
      let texts ← items.mapM fun item => renderChars? ((name, item) :: scope) body
      return texts.flatten

def renderChars? (scope : Scope) : List TemplatePart → Option (List Char)
  | [] => some []
  | part :: parts => do return (← renderPart? scope part) ++ (← renderChars? scope parts)

end

def render? (template : Template) (scope : Scope) : Option String :=
  (renderChars? scope template).map String.ofList

end Template

end SourceAtlas
