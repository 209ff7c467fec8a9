/-!
# Runs of code points

A set of code points is kept as the ascending list of its boundaries: the first code point of a run,
the first one after it, and so on. A code point lies inside a run when an odd number of boundaries do
not exceed it.
-/

namespace ImpLower.Text

/-- Number of leading entries of an ascending array that are at most `n`, by bisection between `low`
and `high`. -/
def rankBetween (boundaries : Array Nat) (n low high : Nat) : Nat :=
  if low < high then
    let mid := (low + high) / 2
    if boundaries.getD mid 0 ≤ n then rankBetween boundaries n (mid + 1) high
    else rankBetween boundaries n low mid
  else low
termination_by high - low

/-- Whether `n` lies in one of the runs that the boundaries delimit. -/
def inRuns (boundaries : Array Nat) (n : Nat) : Bool :=
  rankBetween boundaries n 0 boundaries.size % 2 = 1

end ImpLower.Text
