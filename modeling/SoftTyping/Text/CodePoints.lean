/-!
# Sets of code points

A property of characters is written as the increasing list of the code points at which it changes: it begins to hold at
the first one, ceases to hold at the second, holds again from the third, and so on. A code point has the property when
an odd number of changes lie at or below it. A long list is written as lines of the distances from one change to the
next (`ofGaps`).
-/

namespace SoftTyping.Text

/-- A set of code points, as the increasing list of its borders. -/
abbrev Borders := List Nat

/-- Whether a code point lies in the set. -/
def Borders.contains (borders : Borders) (code : Nat) : Bool :=
  (borders.takeWhile (fun border => decide (border ≤ code))).length % 2 == 1

/-- The borders that lie at some distances after one another, the first after `start`. -/
def Borders.after (start : Nat) : List Nat → Borders
  | [] => []
  | gap :: gaps => (start + gap) :: after (start + gap) gaps

/-- The borders at the distances after one another that some lines hold, with blanks between them. -/
def Borders.ofGaps (lines : List String) : Borders :=
  after 0 (lines.flatMap fun line => (line.splitOn " ").filterMap String.toNat?)

/-- The empty list of borders is the empty set. -/
@[simp] theorem Borders.contains_nil (code : Nat) : Borders.contains [] code = false := rfl

/-- Two borders make the half-open range between them. -/
theorem Borders.contains_pair (lo hi code : Nat) :
    Borders.contains [lo, hi] code = (decide (lo ≤ code) && decide (¬ hi ≤ code)) := by
  by_cases h₁ : lo ≤ code <;> by_cases h₂ : hi ≤ code <;> simp [Borders.contains, List.takeWhile, h₁, h₂]

end SoftTyping.Text
