/-!
Sums of words. Offsets are words of 32 bits and counts are words of 64; a sum that is no such word
is an error and not a smaller number.
-/

namespace SfcJsx

inductive WordError where
  | overflow
  deriving DecidableEq, Repr

def addWords (size a b : Nat) : Except WordError Nat :=
  if a + b < size then .ok (a + b) else .error .overflow

theorem addWords_of_lt {size a b : Nat} (fits : a + b < size) :
    addWords size a b = .ok (a + b) := if_pos fits

theorem addWords_of_le {size a b : Nat} (large : size ≤ a + b) :
    addWords size a b = .error .overflow := if_neg (Nat.not_lt.2 large)

end SfcJsx
