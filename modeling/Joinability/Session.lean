import Joinability.Engine.Rules
import Joinability.Engine.Script
import Joinability.Rule.Grammar
import Joinability.Search.Proof

/-!
# Sessions

A session is one search at a time, taken step by step or in one go, over an engine whose rules may
grow in between. It keeps what goes beyond a single search: the rules, the counters of the engine, a
clock, the observers, and the edge that the last step came to.

Each operation leaves a journal. Observers are notified entry by entry: for each entry the observers
take their turns in the order in which they were attached, and each gets all events of the entry.

## Time

The clock of a session only moves when the session waits. A search therefore takes no time of its
own, and its time limit is compared with the time that was waited since it was started.
-/

namespace Joinability

/-- The state of a text engine: its tally, and how often it was asked for a reduct. -/
abbrev TextState := Tally × Nat

/-- A search over a text engine. -/
abbrev TextSearch := Search Payload Recipe Evidence

/-- A graph explored over a text engine. -/
abbrev TextGraph := Exploration Payload Recipe Evidence

/-- One search at a time, over an engine whose rules may grow. -/
structure Session where
  /-- The rules. -/
  rules : List Rule := []
  /-- The script that takes the place of the rules, if there is one. -/
  script : Option (List Row) := none
  /-- The counters of the engine. -/
  engineState : TextState := ({}, 0)
  /-- The search. -/
  search : TextSearch := .idle
  /-- The milliseconds waited so far. -/
  clock : Nat := 0
  /-- What the clock showed when the search was started. -/
  startedAt : Nat := 0
  /-- The names of the observers, in the order in which they were attached. -/
  observers : List Text := []
  /-- The edge of the outcome of the last step. -/
  lastEdge : Nat := unissued

/-- What an operation on a session leaves behind. -/
structure Session.Reply (ρ : Type) where
  /-- The answer. -/
  answer : Except Fault ρ
  /-- The session after the operation. -/
  session : Session
  /-- What the operation has done. -/
  journal : List (Entry Payload) := []

namespace Session

variable {ρ : Type}

/-- The engine of a session. -/
def engine (s : Session) : Engine TextState Payload Recipe Evidence :=
  match s.script with
  | none => (Engine.ofRules s.rules).counted
  | some script => (Engine.ofScript script).counted

/-- The milliseconds waited since the search was started. -/
def elapsed (s : Session) : Nat := s.clock - s.startedAt

/-- How often the engine was asked for a reduct. -/
def calls (s : Session) : Nat := s.engineState.2

/-- The proofs that the engine has built. -/
def tally (s : Session) : Tally := s.engineState.1

/-- What a session takes over from an operation on its search. -/
private def adopt (s : Session) (r : Joinability.Reply TextState Payload Recipe Evidence ρ) :
    Reply ρ :=
  { answer := r.answer
    session := { s with search := r.search, engineState := r.engine }
    journal := r.journal }

/-- Adds a rule, and answers how many there are then. -/
def addRule (s : Session) (r : Rule) : Reply Nat :=
  match Joinability.addRule s.rules r with
  | .error fault => { answer := .error fault, session := s }
  | .ok rules =>
    { answer := .ok rules.length
      session := { s with rules }
      journal := [.ruleAdded s.rules.length r] }

/-- Adds a rule that is given in its written form. -/
def addWrittenRule (s : Session) (t : Text) : Reply Nat :=
  match Rule.parse t with
  | .error fault => { answer := .error fault, session := s }
  | .ok r => s.addRule r

/-- Attaches an observer, unless it is attached already. -/
def attach (s : Session) (observer : Text) : Session :=
  if s.observers.any (· = observer) then s else { s with observers := s.observers ++ [observer] }

/-- Detaches an observer. -/
def detach (s : Session) (observer : Text) : Session :=
  { s with observers := s.observers.filter (· ≠ observer) }

/-- Waits. -/
def wait (s : Session) (milliseconds : Nat) : Session :=
  { s with clock := s.clock + milliseconds }

/-- Starts a search. Settings that are refused leave the search before it as it was. -/
def start (s : Session) (settings : Settings Payload) (lhs rhs : Term Payload) : Reply Unit :=
  match settings.validate with
  | .error fault => { answer := .error fault, session := s }
  | .ok config =>
    let (search, journal) := Search.start config lhs rhs
    { answer := .ok (), session := { s with search, startedAt := s.clock }, journal }

/-- Searches for a proof in one go. -/
def solve (s : Session) (settings : Settings Payload) (lhs rhs : Term Payload) :
    Reply (Result Evidence) :=
  match settings.validate with
  | .error fault => { answer := .error fault, session := s }
  | .ok config =>
    { s with startedAt := s.clock }.adopt
      (Search.solve s.engine (fun _ ↦ 0) config lhs rhs s.engineState)

/-- Takes one step of the search. -/
def step (s : Session) : Reply Outcome :=
  let reply := s.adopt (s.search.step s.engine s.elapsed s.engineState)
  match reply.answer with
  | .error _ => reply
  | .ok outcome => { reply with session := { reply.session with lastEdge := outcome.edge } }

/-- Steps on until the search ends or an operation fails, and answers the outcomes on the way. -/
def run (s : Session) : Reply (List Outcome) :=
  let (outcomes, last) := s.search.run s.engine (fun _ ↦ s.elapsed) s.engineState
  let reply := s.adopt last
  let lastEdge := (outcomes.getLast?.map Outcome.edge).getD s.lastEdge
  { answer := reply.answer.map fun _ ↦ outcomes
    session := { reply.session with lastEdge }
    journal := reply.journal }

/-- Builds the proof over an edge. -/
def prove (s : Session) (edge : Nat) : Reply (Result Evidence) :=
  s.adopt (s.search.prove s.engine edge s.engineState)

/-- The graph that is being explored. -/
def graph (s : Session) : Except Fault TextGraph := s.search.graph

/-- The session with its graph and the tally of its engine changed. -/
def withGraph (s : Session) (x : TextGraph) (tally : Tally) : Session :=
  { s with search := s.search.withGraph x, engineState := (tally, s.calls) }

/-- What the observers are notified of, each notification with the name of the observer. -/
def notifications {α : Type} (observers : List Text) (journal : List (Entry α)) :
    List (Text × Event α) :=
  journal.flatMap fun entry ↦
    observers.flatMap fun observer ↦ entry.events.map fun event ↦ (observer, event)

end Session

end Joinability
