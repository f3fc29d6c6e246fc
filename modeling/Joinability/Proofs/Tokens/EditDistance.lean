import Joinability.Distance
import Joinability.Proofs.Tokens.Levenshtein

/-!
# The edit distance row by row

The recursion of `levenshtein` solves the same subproblems again and again; `editDistance` solves
each of them once. Its passes read the two sequences from left to right, so what they have read is a
prefix with its last element in front. A row is therefore a row of distances between mirrored
prefixes, and its last entry is in the end the distance of the mirrored sequences, which is that of
the sequences.

## The invariant

When a pass for the element `x`, made after `p`, has read `q`, the entry to its left is the distance
of `x :: p` from `q`, the entry that it carries along is that of `p` from `q`, and all entries to
its right are still distances of `p`: **`overwrite_eq`**.
-/

namespace Joinability

section Readings

variable {α : Type}

/-- What will have been read after each element of `b`, the last element in front, when `q` was read
before. -/
def readings (q : List α) : List α → List (List α)
  | [] => []
  | y :: b => (y :: q) :: readings (y :: q) b

theorem map_length_readings (q b : List α) :
    (readings q b).map List.length = List.range' (q.length + 1) b.length := by
  induction b generalizing q with
  | nil => rfl
  | cons y b ih =>
    rw [readings, List.map_cons, ih, List.length_cons, List.length_cons, List.range'_succ]

theorem getElem?_readings (q b : List α) :
    (q :: readings q b)[b.length]? = some (b.reverse ++ q) := by
  induction b generalizing q with
  | nil => rfl
  | cons y b ih =>
    rw [readings, List.length_cons, List.getElem?_cons_succ, ih, List.reverse_cons,
      List.append_assoc, List.singleton_append]

end Readings

variable {α : Type} [DecidableEq α]

/-! ## Rows -/

/-- The row of a sequence that was read: its distances from everything that will have been read of
`b`. -/
def rowOf (p b : List α) : List Nat := ([] :: readings [] b).map (levenshtein p)

theorem range_eq_rowOf (b : List α) : List.range (b.length + 1) = rowOf [] b := by
  have hlengths : ([] :: readings [] b).map List.length = List.range (b.length + 1) := by
    rw [List.map_cons, map_length_readings, List.range_eq_range', List.range'_succ]
    rfl
  rw [rowOf, ← hlengths]
  exact List.map_congr_left fun q _ ↦ (levenshtein_nil_left q).symm

/-- **A pass keeps the invariant.** -/
theorem overwrite_eq (x : α) (p q b : List α) :
    overwrite x (levenshtein p q) (levenshtein (x :: p) q) b ((readings q b).map (levenshtein p))
      = (readings q b).map (levenshtein (x :: p)) := by
  induction b generalizing q with
  | nil => rfl
  | cons y b ih =>
    rw [readings, List.map_cons, List.map_cons, overwrite, ← levenshtein_cons_cons, ih]

theorem nextRow_rowOf (x : α) (p b : List α) : nextRow b (rowOf p b) x = rowOf (x :: p) b := by
  have hfirst : levenshtein (x :: p) [] = levenshtein p [] + 1 := by
    rw [levenshtein_nil_right, levenshtein_nil_right, List.length_cons]
  rw [rowOf, rowOf, List.map_cons, List.map_cons, nextRow, ← hfirst, overwrite_eq]

theorem foldl_nextRow (p a b : List α) :
    a.foldl (nextRow b) (rowOf p b) = rowOf (a.reverse ++ p) b := by
  induction a generalizing p with
  | nil => rfl
  | cons x a ih =>
    rw [List.foldl_cons, nextRow_rowOf, ih, List.reverse_cons, List.append_assoc,
      List.singleton_append]

theorem editDistance_eq (a b : List α) : editDistance a b = levenshtein a b := by
  have hlast : (rowOf a.reverse b).getD b.length 0 = levenshtein a.reverse b.reverse := by
    rw [rowOf, List.getD_eq_getElem?_getD, List.getElem?_map, getElem?_readings, List.append_nil]
    rfl
  rw [editDistance, range_eq_rowOf, foldl_nextRow, List.append_nil, hlast, levenshtein_reverse]

/-- **What is computed row by row is the edit distance**: the distance by the usual recursion, and
the least number of insertions, deletions and substitutions of single elements. It tells different
sequences apart, is symmetric, satisfies the triangle inequality, and lies between the difference of
the lengths and the greater of them. -/
theorem isLeast_editDistance (a b c : List α) :
    editDistance a b = levenshtein a b ∧ IsLeast {n | Edits n a b} (editDistance a b) ∧
      (editDistance a b = 0 ↔ a = b) ∧ editDistance b a = editDistance a b ∧
      editDistance a c ≤ editDistance a b + editDistance b c ∧
      max a.length b.length - min a.length b.length ≤ editDistance a b ∧
      editDistance a b ≤ max a.length b.length := by
  have hleast (a b : List α) : IsLeast {n | Edits n a b} (editDistance a b) :=
    editDistance_eq a b ▸ isLeast_levenshtein a b
  have hedits (a b : List α) : Edits (editDistance a b) a b := (hleast a b).1
  refine ⟨editDistance_eq a b, hleast a b, ?_, ?_, ?_, ?_, ?_⟩
  · constructor
    · intro hzero
      exact edits_zero.mp (hzero ▸ hedits a b)
    · rintro rfl
      exact Nat.le_zero.mp ((hleast a a).2 (Edits.refl a))
  · refine (hleast b a).unique ?_
    simp only [edits_comm (a := b)]
    exact hleast a b
  · exact (hleast a c).2 ((hedits a b).trans (hedits b c))
  · have hgrow := (hedits a b).length_le
    have hshrink := (hedits a b).symm.length_le
    omega
  · exact editDistance_eq a b ▸ levenshtein_le_max a b

end Joinability
