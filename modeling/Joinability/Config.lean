import Joinability.Fault
import Joinability.Frontier.Basic
import Joinability.Term

/-!
# Settings of a search

`Settings` is what a caller asks for; `Config` is what a search runs with. Validation turns one into
the other and is the only place at which settings are refused: a time limit has to be positive, and
the code of the strategy has to name one.

## Limits

The depth bound says how deep vertices are expanded; roots have depth zero. The step budget bounds
the number of expansion steps and the time limit the time they may take together. Bounds are machine
words, and a configuration keeps the fact that its step budget is one: depths, which are counted in
words as well, can then never wrap around during a search.

A time limit is compared with the time spent in nanoseconds, for which it is counted in a signed
machine word. A limit too long for a word wraps around, and may be spent from the start.

The canonical key decides when two terms are the same vertex. By default it is the printed text.
-/

namespace Joinability

/-- What a caller asks for. -/
structure Settings (α : Type) where
  /-- The greatest depth that is expanded. -/
  maxDepth : UInt64 := 50
  /-- The number of expansion steps after which the search gives up. -/
  maxSteps : UInt64 := 10000
  /-- The code of the strategy. -/
  strategy : Int := Strategy.breadthFirst.code
  /-- The time in milliseconds after which the search gives up, if limited. -/
  timeout : Option Int := none
  /-- The canonical key of a term. -/
  key : Term α → Text := Term.pretty

/-- What a search runs with. -/
structure Config (α : Type) where
  /-- The greatest depth that is expanded. -/
  maxDepth : Nat := 50
  /-- The number of expansion steps after which the search gives up. -/
  maxSteps : Nat := 10000
  /-- The order of expansion. -/
  strategy : Strategy := .breadthFirst
  /-- The time in milliseconds after which the search gives up, if limited. -/
  timeout : Option Nat := none
  /-- The canonical key of a term. -/
  key : Term α → Text := Term.pretty
  /-- The step budget is a machine word. -/
  maxSteps_lt : maxSteps < UInt64.size := by decide

/-- A time limit in milliseconds, as a signed machine word that counts nanoseconds. -/
def nanoseconds (milliseconds : Nat) : Int := ((milliseconds : Int) * 1000000).bmod UInt64.size

namespace Settings

variable {α : Type}

/-- The time limit in milliseconds, refused unless it is positive. -/
def validTimeout (s : Settings α) : Except Fault (Option Nat) :=
  match s.timeout with
  | none => .ok none
  | some (.ofNat (t + 1)) => .ok (some (t + 1))
  | some _ => .error .timeoutNotPositive

/-- The configuration that the settings describe. -/
def validate (s : Settings α) : Except Fault (Config α) := do
  let timeout ← s.validTimeout
  match Strategy.ofCode? s.strategy with
  | none => throw .unknownStrategy
  | some strategy =>
    return { maxDepth := s.maxDepth.toNat, maxSteps := s.maxSteps.toNat, strategy, timeout
             key := s.key, maxSteps_lt := s.maxSteps.toNat_lt_size }

end Settings

end Joinability
