import Joinability.Fault
import Joinability.Rule.Use

/-!
# Proofs of equalities

A proof that two texts are equal records its two ends and the reasons for the steps between them, in
order. Proofs compose: reflexivity has no steps, symmetry turns every step round, and transitivity
appends, which makes sense only where the first proof ends at the text at which the second begins.

Turning a step round toggles the mark of its direction, so a reason that was quoted against its
direction is quoted plainly again.
-/

namespace Joinability

/-- A proof of `lhs = rhs`. -/
structure Equality where
  /-- The text at which the proof begins. -/
  lhs : Text := []
  /-- The text at which the proof ends. -/
  rhs : Text := []
  /-- The reasons of the steps from `lhs` to `rhs`. -/
  reasons : List Text := []
deriving DecidableEq, Repr, Inhabited

namespace Equality

/-- A text equals itself. -/
def refl (t : Text) : Equality := ⟨t, t, []⟩

/-- The reason for the same step in the other direction. -/
def turnReason (reason : Text) : Text :=
  if backwardMark.isPrefixOf reason then reason.drop backwardMark.length
  else backwardMark ++ reason

/-- The proof read from its end to its beginning. -/
def symm (p : Equality) : Equality := ⟨p.rhs, p.lhs, p.reasons.reverse.map turnReason⟩

/-- The proof that goes on with `q` where `p` ends. -/
def trans (p q : Equality) : Except Fault Equality :=
  if p.rhs = q.lhs then .ok ⟨p.lhs, q.rhs, p.reasons ++ q.reasons⟩
  else .error (.chainMismatch p.rhs q.lhs)

/-- The equation and the list of reasons. -/
def render (p : Equality) : Text :=
  p.lhs ++ utf8 " = " ++ p.rhs ++ utf8 " by [" ++ (utf8 ", ").intercalate p.reasons ++ utf8 "]"

@[simp] theorem lhs_refl (t : Text) : (refl t).lhs = t := rfl

@[simp] theorem rhs_refl (t : Text) : (refl t).rhs = t := rfl

@[simp] theorem reasons_refl (t : Text) : (refl t).reasons = [] := rfl

@[simp] theorem lhs_symm (p : Equality) : p.symm.lhs = p.rhs := rfl

@[simp] theorem rhs_symm (p : Equality) : p.symm.rhs = p.lhs := rfl

@[simp] theorem reasons_symm (p : Equality) :
    p.symm.reasons = p.reasons.reverse.map turnReason := rfl

theorem trans_eq_ok_iff {p q r : Equality} :
    p.trans q = .ok r ↔ p.rhs = q.lhs ∧ r = ⟨p.lhs, q.rhs, p.reasons ++ q.reasons⟩ := by
  simp only [trans]
  split <;> simp_all [eq_comm]

theorem trans_of_ne {p q : Equality} (h : p.rhs ≠ q.lhs) :
    p.trans q = .error (.chainMismatch p.rhs q.lhs) := if_neg h

end Equality

end Joinability
