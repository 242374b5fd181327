/-!
Numbers in decimal digits.
-/

namespace SourceAtlas.Decimal

/-- The number that digits stand for, first digit highest. -/
def value (digits : List Char) : Nat :=
  digits.foldl (fun value digit => value * 10 + (digit.toNat - 48)) 0

def digits (n : Nat) : List Char := (Nat.repr n).toList

/-- The digits of a number, filled up with zeros to a width. -/
def padded (width n : Nat) : List Char :=
  List.replicate (width - (digits n).length) '0' ++ digits n

end SourceAtlas.Decimal
