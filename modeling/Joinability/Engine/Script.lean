import Joinability.Engine.Basic
import Joinability.Engine.Evidence

/-!
# Scripted engines

A scripted engine plays back a table. Each row says that a text turns into a term, and the rows of
one text are its reducts in order; the cursor counts them. A row may fail when its turn comes.

What a row leaves open follows from its place among the rows of its text: the index of the rule is
that place, and the cursor moves on by one.
-/

namespace Joinability

/-- One row of a script. -/
structure Row where
  /-- The printed form of the terms to which the row applies. -/
  source : Text
  /-- The term that results. -/
  target : Term Payload
  /-- The name of the rule. -/
  name : Text
  /-- The index of the rule. -/
  index : Option Nat := none
  /-- Which occurrence is replaced. -/
  occurrence : Nat := 0
  /-- Whether the rule is read from right to left. -/
  reversed : Bool := false
  /-- How many occurrences there are. -/
  matchCount : Nat := 1
  /-- The cursor to resume from. -/
  next : Option Nat := none
  /-- How to build the proof. -/
  recipe : Option Recipe := none
  /-- The message with which the row fails, if it does. -/
  failure : Option Text := none
deriving DecidableEq, Repr, Inhabited

namespace Row

/-- The reduct of a row that stands at place `cursor` among the rows of its text. -/
def reduct (r : Row) (cursor : Nat) : Reduct Payload Recipe :=
  { term := r.target
    next := r.next.getD (cursor + 1)
    recipe := r.recipe
    use :=
      { name := r.name, index := r.index.getD cursor, occurrence := r.occurrence
        reversed := r.reversed, matchCount := r.matchCount } }

end Row

/-- The engine that plays back a script. -/
def Engine.ofScript (script : List Row) : Engine Tally Payload Recipe Evidence where
  tryNext v cursor tally :=
    match (script.filter (·.source = v.pretty))[cursor]? with
    | none => (.ok none, tally)
    | some row =>
      match row.failure with
      | some message => (.error (.engineFailed message), tally)
      | none => (.ok (some (row.reduct cursor)), tally)
  prove := Recipe.run
  reflexivity := Evidence.reflexivity
  symmetry := Evidence.symmetry
  transitivity := Evidence.transitivity

end Joinability
