import SfcJsx.Text.Basic

/-!
Sets of code points: as ranges, both ends included, or as the lengths of runs.
-/

namespace SfcJsx

abbrev Ranges := List (Nat × Nat)

def Ranges.covers (ranges : Ranges) (code : Nat) : Bool :=
  ranges.any fun (lo, hi) => lo ≤ code && code ≤ hi

theorem Ranges.covers_eq_true_iff (ranges : Ranges) (code : Nat) :
    ranges.covers code = true ↔ ∃ range ∈ ranges, range.1 ≤ code ∧ code ≤ range.2 := by
  simp [Ranges.covers]

/-- Lengths of runs of code points, in turn outside and inside of a set; none is inside behind the
last run. -/
abbrev RunLengths := List Nat

def RunLengths.covers (inside : Bool) : RunLengths → Nat → Bool
  | [], _ => false
  | n :: runs, code => if code < n then inside else covers (!inside) runs (code - n)

end SfcJsx
