/-!
Hexadecimal digits.
-/

namespace SourceAtlas.Hex

/-- The lower-case digit of a value below sixteen. -/
def digit (n : Nat) : Char := if n < 10 then Char.ofNat (48 + n) else Char.ofNat (87 + n)

def value? (c : Char) : Option Nat :=
  if '0' ≤ c ∧ c ≤ '9' then some (c.toNat - 48)
  else if 'a' ≤ c ∧ c ≤ 'f' then some (c.toNat - 87)
  else if 'A' ≤ c ∧ c ≤ 'F' then some (c.toNat - 55)
  else none

/-- The number that digits stand for, first digit highest. -/
def number? (digits : List Char) : Option Nat :=
  digits.foldlM (fun value c => do return value * 16 + (← value? c)) 0

end SourceAtlas.Hex
