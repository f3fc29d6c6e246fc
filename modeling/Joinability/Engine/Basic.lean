import Joinability.Graph.Edge
import Joinability.Graph.Vertex

/-!
# Rewriting engines

The search does not know what terms mean. An engine tells it which reducts a term has, one at a
time, and builds proofs.

## Cursors

A vertex keeps a cursor, which starts at zero and whose meaning is private to the engine. Asked with
a cursor, the engine either reports the next reduct together with the cursor to resume from, or says
that there is none left. An engine may also fail; what it has done to its own state by then remains
done.

## Proofs

A reduct comes with a recipe for the proof that it equals its term, which is only followed when the
proof is needed. The combinators then chain the proofs of single steps.
-/

namespace Joinability

/-- What a term turns into by one use of a rule, as an engine reports it. -/
structure Reduct (α τ : Type) where
  /-- The term that results. -/
  term : Term α
  /-- The cursor to resume from. -/
  next : Nat
  /-- How to build the proof that the two terms are equal. -/
  recipe : Option τ
  /-- The rule that was used. -/
  use : RuleUse
deriving DecidableEq, Repr

/-- A rewriting engine with states of type `σ`, for terms with payloads of type `α`. Its proofs have
type `π`, and the recipes for them type `τ`. -/
structure Engine (σ α τ π : Type) where
  /-- The next reduct of a vertex from a cursor on, or nothing if there is none left. -/
  tryNext : Vertex α → Nat → σ → Except Fault (Option (Reduct α τ)) × σ
  /-- Builds a proof. -/
  prove : τ → σ → Except Fault π × σ
  /-- The proof that a term equals itself. -/
  reflexivity : Term α → Except Fault π
  /-- The proof of the equation read backwards. -/
  symmetry : π → Except Fault π
  /-- The proof that goes on where the first one ends. -/
  transitivity : π → π → Except Fault π

namespace Engine

variable {σ α τ π : Type}

/-- The engine that also counts how often it is asked for a reduct. -/
def counted (e : Engine σ α τ π) : Engine (σ × Nat) α τ π where
  tryNext v cursor s :=
    let (answer, state) := e.tryNext v cursor s.1
    (answer, state, s.2 + 1)
  prove recipe s :=
    let (answer, state) := e.prove recipe s.1
    (answer, state, s.2)
  reflexivity := e.reflexivity
  symmetry := e.symmetry
  transitivity := e.transitivity

/-- The reducts of a vertex that are found by following the cursors from `cursor` on, at most `n` of
them, and whether the last answer was that none is left. -/
def follow (e : Engine σ α τ π) (v : Vertex α) :
    Nat → Nat → σ → Except Fault (List (Reduct α τ) × Bool) × σ
  | 0, _, s => (.ok ([], false), s)
  | n + 1, cursor, s =>
    match e.tryNext v cursor s with
    | (.error fault, s) => (.error fault, s)
    | (.ok none, s) => (.ok ([], true), s)
    | (.ok (some r), s) =>
      match e.follow v n r.next s with
      | (.error fault, s) => (.error fault, s)
      | (.ok (rest, ended), s) => (.ok (r :: rest, ended), s)

end Engine

end Joinability
