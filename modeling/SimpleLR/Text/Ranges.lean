/-!
# Classes of characters as ranges of code points

A class of characters taken from a standard is kept as a list of closed ranges of code
points, ascending and apart. Membership is a scan of the list, so closed checks evaluate in
the kernel.
-/

namespace SimpleLR.Text

/-- The code points from `lo` to `hi`, both included. -/
structure CodeRange where
  lo : Nat
  hi : Nat
deriving DecidableEq, Repr

/-- Whether the code point `n` lies in one of the ranges. -/
def inRanges (rs : List CodeRange) (n : Nat) : Bool :=
  rs.any fun r => r.lo ≤ n && n ≤ r.hi

/-- The range that holds the code point `n`, if any. -/
def rangeOf? (rs : List CodeRange) (n : Nat) : Option CodeRange :=
  rs.find? fun r => r.lo ≤ n && n ≤ r.hi

/-- Whether the ranges ascend and leave a gap between neighbours. -/
def wellSpaced : List CodeRange → Bool
  | [] => true
  | [r] => r.lo ≤ r.hi
  | r :: s :: rest => r.lo ≤ r.hi && r.hi + 1 < s.lo && wellSpaced (s :: rest)

/-- The number of code points in the ranges. -/
def size (rs : List CodeRange) : Nat :=
  (rs.map fun r => r.hi + 1 - r.lo).foldl (· + ·) 0

theorem inRanges_iff (rs : List CodeRange) (n : Nat) :
    inRanges rs n = true ↔ ∃ r ∈ rs, r.lo ≤ n ∧ n ≤ r.hi := by
  simp [inRanges]

end SimpleLR.Text
