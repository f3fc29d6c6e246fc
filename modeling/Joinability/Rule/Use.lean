import Joinability.Text.Basic

/-!
# Uses of a rule

One step is described by the rule that was used, the direction in which it was read and which of
the occurrences of its pattern was replaced, out of how many. The description is what edges of the
search graph carry, what proofs quote as reasons and what the printed scripts are made of.

A rule read from right to left is marked by an arrow in front of its name.
-/

namespace Joinability

/-- One use of a rule on a term. -/
structure RuleUse where
  /-- The name of the rule. -/
  name : Text := []
  /-- The position of the rule in the list of rules. -/
  index : Nat := 0
  /-- Which occurrence of the pattern is replaced, counted from zero. -/
  occurrence : Nat := 0
  /-- Whether the rule is read from right to left. -/
  reversed : Bool := false
  /-- How many occurrences of the pattern the term before the step has. -/
  matchCount : Nat := 1
deriving DecidableEq, Repr, Inhabited

/-- The mark of a rule that is read from right to left. -/
def backwardMark : Text := utf8 "← "

namespace RuleUse

/-- The name of the rule, marked when the rule is read from right to left. -/
def reference (u : RuleUse) : Text :=
  if u.reversed then backwardMark ++ u.name else u.name

/-- The reference followed by the number of the occurrence, which is left out for the first one. -/
def reason (u : RuleUse) : Text :=
  if 0 < u.occurrence then u.reference ++ utf8 "#" ++ decimal u.occurrence else u.reference

end RuleUse

end Joinability
