/-!
# Edit distance

The edit distance between two sequences is the least number of insertions, deletions and
substitutions of single elements that turn one into the other. It scores how far the tokens of a
term are from those of the goal's other side.

## One row at a time

The distances from one sequence `a` to every prefix of `b` form a row, the shortest prefix first.
The row of `a ++ [x]` overwrites the row of `a` from left to right, so only one row is held at a
time. An entry depends on three others: the one to its left, which is new already, the one that it
overwrites, and the one that stood to the left before. The last of them is gone from the row by
then, and is carried along.
-/

namespace Joinability

variable {α : Type} [DecidableEq α]

/-- Overwrites what is left of a row, entry by entry. To its left there stood `diagonal`, and there
stands `left` now. -/
def overwrite (x : α) (diagonal left : Nat) : List α → List Nat → List Nat
  | y :: b, above :: row =>
    let entry := min (min (above + 1) (left + 1)) (diagonal + if x = y then 0 else 1)
    entry :: overwrite x above entry b row
  | _, _ => []

/-- The row of `a ++ [x]` against `b`, from the row of `a` against `b`. -/
def nextRow (b : List α) (row : List Nat) (x : α) : List Nat :=
  match row with
  | first :: row => (first + 1) :: overwrite x first (first + 1) b row
  | [] => []

/-- The least number of insertions, deletions and substitutions that turn `a` into `b`. -/
def editDistance (a b : List α) : Nat :=
  (a.foldl (nextRow b) (List.range (b.length + 1))).getD b.length 0

example : editDistance [1, 2, 3, 4] [2, 3, 5] = 2 := by decide

end Joinability
