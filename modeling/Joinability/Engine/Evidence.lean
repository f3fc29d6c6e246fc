import Joinability.Equality
import Joinability.Term

/-!
# Payloads and evidence of the text engines

The engines of this library work on texts. Their terms carry a text or, when they come from
elsewhere, a number that no rule applies to; their proofs are equalities of texts, and again may
come from elsewhere.

## Recipes

The recipe for the proof of a step by a rule keeps the two texts and the use of the rule. A recipe
may also hand out a proof that was made in advance, or fail. The tally counts how many steps were
proved and how often a recipe of the other two kinds was followed, whether it failed or not.
-/

namespace Joinability

/-- What a term carries. -/
inductive Payload where
  /-- A text. -/
  | text (t : Text)
  /-- A number, which means nothing to rules. -/
  | number (n : Int)
deriving DecidableEq, Repr, Inhabited

/-- The term that carries a text and prints as it. -/
def Term.ofText (t : Text) : Term Payload := ⟨some (.text t), t⟩

/-- The text that a term carries. -/
def Term.text (t : Term Payload) : Except Fault Text :=
  match t.payload with
  | some (.text s) => .ok s
  | _ => .error (.payloadNotText t.pretty)

/-- What counts as a proof. -/
inductive Evidence where
  /-- A proof that two texts are equal. -/
  | equality (p : Equality)
  /-- A number, which proves nothing. -/
  | number (n : Int)
  /-- Nothing at all. -/
  | nothing
deriving DecidableEq, Repr, Inhabited

namespace Evidence

/-- The equality that was proved. -/
def toEquality : Evidence → Except Fault Equality
  | equality p => .ok p
  | _ => .error .proofNotEquality

/-- A term equals itself. -/
def reflexivity (t : Term Payload) : Except Fault Evidence := do
  return equality (.refl (← t.text))

/-- The equation read backwards. -/
def symmetry (p : Evidence) : Except Fault Evidence := do
  return equality (← p.toEquality).symm

/-- Two equations chained. -/
def transitivity (p q : Evidence) : Except Fault Evidence := do
  let p ← p.toEquality
  let q ← q.toEquality
  return equality (← p.trans q)

end Evidence

/-- How a proof is built. -/
inductive Recipe where
  /-- The step from one text to another by a rule. -/
  | byRule (before after : Text) (use : RuleUse)
  /-- A proof made in advance. -/
  | given (evidence : Evidence)
  /-- A proof of a use of the named rule that cannot be built. -/
  | failing (name : Text)
deriving DecidableEq, Repr, Inhabited

/-- How many proofs have been built. -/
structure Tally where
  /-- The steps by rules that were proved. -/
  byRule : Nat := 0
  /-- The recipes of the other kinds that were followed. -/
  others : Nat := 0
deriving DecidableEq, Repr, Inhabited

/-- Follows a recipe. -/
def Recipe.run (r : Recipe) (tally : Tally) : Except Fault Evidence × Tally :=
  match r with
  | byRule before after use =>
    (.ok (.equality ⟨before, after, [use.reason]⟩), { tally with byRule := tally.byRule + 1 })
  | given evidence => (.ok evidence, { tally with others := tally.others + 1 })
  | failing name => (.error (.proofFailed name), { tally with others := tally.others + 1 })

end Joinability
