import Joinability.Text.Basic

/-!
# The two sides of a goal

A goal is an equation between two terms. The search grows one tree from each of them, and `Side`
says to which of the two a vertex belongs. The root of the left tree is vertex `0` and the root of
the right tree is vertex `1`.
-/

namespace Joinability

/-- A side of the goal. -/
inductive Side where
  /-- The left side of the equation. -/
  | left
  /-- The right side of the equation. -/
  | right
deriving DecidableEq, Repr, Inhabited

namespace Side

/-- The other side. -/
def opposite : Side → Side
  | left => right
  | right => left

/-- The id of the vertex at the root of the tree of a side. -/
def root : Side → Nat
  | left => 0
  | right => 1

/-- The name of a side. -/
def name : Side → Text
  | left => utf8 "left"
  | right => utf8 "right"

theorem ne_opposite_iff {s t : Side} : s ≠ t ↔ s.opposite = t := by
  cases s <;> cases t <;> simp [opposite]

theorem eq_opposite_of_ne {s t : Side} (h : s ≠ t) : s = t.opposite :=
  (ne_opposite_iff.mp (Ne.symm h)).symm

theorem eq_of_ne_of_ne {s t u : Side} (hs : s ≠ u) (ht : t ≠ u) : s = t := by
  rw [eq_opposite_of_ne hs, eq_opposite_of_ne ht]

end Side

/-- The id that stands for a vertex, edge or token which no table has issued. -/
def unissued : Nat := UInt64.size - 1

end Joinability
