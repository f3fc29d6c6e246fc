import Joinability.Rule.Use
import Joinability.Text.Occurrence

/-!
# Rules and where they apply

A rule is a named equation between two texts. Using it replaces an occurrence of its left side by
its right side, and a symmetric rule can also be used the other way round.

## Sites

A site is one place at which one rule can be used in one direction. The sites of a text under a list
of rules are listed rule by rule, forward before backward, and from left to right; a symmetric rule
whose sides are equal has no backward sites, since they would repeat the forward ones. Sites are
cheap: the resulting text is only built when it is asked for.
-/

namespace Joinability

/-- A named equation between two texts. -/
structure Rule where
  /-- The name under which proofs quote the rule. -/
  name : Text
  /-- The left side. -/
  lhs : Text
  /-- The right side. -/
  rhs : Text
  /-- Whether the rule may be read from right to left. -/
  symmetric : Bool := true
deriving DecidableEq, Repr, Inhabited

/-- A place in a text at which a rule can be used. -/
structure Site where
  /-- The use of the rule. -/
  use : RuleUse
  /-- Where the pattern stands. -/
  position : Nat
  /-- What is replaced. -/
  pattern : Text
  /-- What it is replaced by. -/
  replacement : Text
deriving DecidableEq, Repr, Inhabited

namespace Site

/-- The text that results from using the rule at this site of `t`. -/
def result (s : Site) (t : Text) : Text :=
  t.splice s.position s.pattern.length s.replacement

/-- The sites of a pattern in a text, described by the uses that agree with `base` in rule and
direction. -/
def ofPattern (base : RuleUse) (pattern replacement t : Text) : List Site :=
  let places := t.positions pattern
  places.zipIdx.map fun (position, occurrence) ↦
    { use := { base with occurrence, matchCount := places.length }
      position, pattern, replacement }

end Site

namespace Rule

/-- Whether both sides are non-empty, as every rule in use must have them. -/
def isUsable (r : Rule) : Bool := !r.lhs.isEmpty && !r.rhs.isEmpty

/-- The sites of a text at which the rule with index `index` can be used. -/
def sites (r : Rule) (index : Nat) (t : Text) : List Site :=
  let forward := Site.ofPattern { name := r.name, index } r.lhs r.rhs t
  if r.symmetric && r.lhs != r.rhs then
    forward ++ Site.ofPattern { name := r.name, index, reversed := true } r.rhs r.lhs t
  else forward

end Rule

/-- The sites of a text under a list of rules. -/
def sites (rules : List Rule) (t : Text) : List Site :=
  rules.zipIdx.flatMap fun (r, index) ↦ r.sites index t

/-- The reducts of a text, each with the use that leads to it. -/
def reducts (rules : List Rule) (t : Text) : List (Text × RuleUse) :=
  (sites rules t).map fun s ↦ (s.result t, s.use)

end Joinability
