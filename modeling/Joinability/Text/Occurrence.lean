import Joinability.Text.Basic

/-!
# Occurrences of a pattern

A pattern occurs in a text at every position from which the text continues with the pattern.
Occurrences may overlap: `aa` occurs twice in `aaa`. They are listed from left to right and numbered
from zero, and replacing one of them leaves the rest of the text alone.
-/

namespace Joinability

namespace Text

/-- The positions of a pattern in a text whose first byte stands at position `i`. -/
def positionsFrom (pattern : Text) (i : Nat) : Text → List Nat
  | [] => if pattern.isPrefixOf [] then [i] else []
  | b :: t =>
    let later := positionsFrom pattern (i + 1) t
    if pattern.isPrefixOf (b :: t) then i :: later else later

/-- The positions at which a pattern occurs in a text, in increasing order. -/
def positions (t pattern : Text) : List Nat := positionsFrom pattern 0 t

/-- The text with the `length` bytes from position `p` on replaced. -/
def splice (t : Text) (p length : Nat) (replacement : Text) : Text :=
  t.take p ++ replacement ++ t.drop (p + length)

theorem mem_positionsFrom_iff {pattern : Text} {i p : Nat} {t : Text} :
    p ∈ positionsFrom pattern i t ↔ i ≤ p ∧ p ≤ i + t.length ∧ pattern <+: t.drop (p - i) := by
  induction t generalizing i with
  | nil =>
    simp only [positionsFrom, List.length_nil, List.drop_nil, List.isPrefixOf_iff_prefix]
    split <;> simp_all
    omega
  | cons b t ih =>
    have step : p ∈ positionsFrom pattern (i + 1) t ↔
        i < p ∧ p ≤ i + (b :: t).length ∧ pattern <+: (b :: t).drop (p - i) := by
      rw [ih]
      constructor
      · rintro ⟨h₁, h₂, h₃⟩
        obtain ⟨k, rfl⟩ : ∃ k, p = i + 1 + k := ⟨p - (i + 1), by omega⟩
        refine ⟨by omega, by simp; omega, ?_⟩
        simpa [show i + 1 + k - i = k + 1 by omega] using h₃
      · rintro ⟨h₁, h₂, h₃⟩
        obtain ⟨k, rfl⟩ : ∃ k, p = i + 1 + k := ⟨p - (i + 1), by omega⟩
        refine ⟨by omega, by simp at h₂; omega, ?_⟩
        simpa [show i + 1 + k - i = k + 1 by omega] using h₃
    have here : (p = i ∧ pattern <+: b :: t) ↔
        p = i ∧ p ≤ i + (b :: t).length ∧ pattern <+: (b :: t).drop (p - i) := by
      constructor
      · rintro ⟨rfl, h⟩
        exact ⟨rfl, by omega, by simpa using h⟩
      · rintro ⟨rfl, _, h⟩
        exact ⟨rfl, by simpa using h⟩
    simp only [positionsFrom, List.isPrefixOf_iff_prefix]
    split
    · next h =>
      rw [List.mem_cons, step]
      grind
    · next h =>
      rw [step]
      grind

theorem mem_positions_iff {pattern t : Text} {p : Nat} :
    p ∈ t.positions pattern ↔ p ≤ t.length ∧ pattern <+: t.drop p := by
  simp [positions, mem_positionsFrom_iff]

example : positions (utf8 "aaba aaa") (utf8 "aa") = [0, 5, 6] := by decide

end Text

end Joinability
