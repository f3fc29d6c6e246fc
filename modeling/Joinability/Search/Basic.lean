import Joinability.Engine.Basic
import Joinability.Exploration

/-!
# Searching from both sides

A search for a proof of `lhs = rhs` grows one tree of reducts from each side, one reduct per step,
until a reduct of one side is a vertex of the other. The two trees then meet, and the goal has a
proof.

## Steps

A step asks the engine for one more reduct of the vertex *in focus*. Without a focus, the next
vertex that has not been visited is taken from the frontier. One of three things then happens: the
reduct becomes a vertex, or it is a vertex of the same side already and is discarded, or it is a
vertex of the other side and ends the search. When the engine has no reduct left, the vertex is
visited and loses the focus.

## Endings

A search has ended when its sides have met, when its budget is spent, or when no vertex is left to
expand. No flag records that: a later step finds the same cause again, because an ended search no
longer changes what its endings depend on. A fault of the engine ends nothing. The vertex keeps the
focus and its cursor, so the next step asks the same question again.
-/

namespace Joinability

/-- How a search ends. -/
inductive Ending where
  /-- The sides meet at an edge, or have agreed from the start. -/
  | met (edge : Nat)
  /-- The budget is spent. -/
  | aborted
  /-- No vertex is left to expand. -/
  | exhausted
deriving DecidableEq, Repr

/-- What one step of a search comes to. -/
inductive Outcome where
  /-- A vertex was added, or a vertex turned out to have no further reduct. -/
  | progressed
  /-- A reduct was a vertex of the same side. -/
  | repeated
  /-- The search has ended. -/
  | ended (ending : Ending)
deriving DecidableEq, Repr

namespace Outcome

/-- Whether the search has ended. -/
def isTerminal : Outcome → Bool
  | ended _ => true
  | _ => false

/-- The edge at which the sides meet, if the search has ended that way. -/
def edge : Outcome → Nat
  | ended (.met e) => e
  | _ => unissued

/-- Why the search has ended without a proof; empty in all other cases. -/
def reason : Outcome → Text
  | ended .aborted => Status.abort.message
  | ended .exhausted => Status.failure.message
  | _ => []

/-- The numeric code of the name of an outcome. -/
def code : Outcome → Nat
  | progressed => 0
  | repeated => 1
  | ended (.met _) => 2
  | ended .aborted => 3
  | ended .exhausted => 4

/-- The names of outcomes, in the order of their codes. -/
def names : List Text := ["continue", "repeat", "done", "abort", "exhausted"].map utf8

/-- The name with a numeric code. -/
def nameOfCode : Int → Text
  | .ofNat n => names.getD n (utf8 "unknown")
  | .negSucc _ => utf8 "unknown"

/-- The name of an outcome. -/
def name (o : Outcome) : Text := nameOfCode o.code

end Outcome

/-- Where a search stands. -/
inductive Search (α τ π : Type) where
  /-- No search has been started. -/
  | idle
  /-- The sides of the goal have the same canonical key, so there is nothing to explore. -/
  | agreed (lhs : Term α)
  /-- The graph explored so far, and the vertex in focus. -/
  | exploring (graph : Exploration α τ π) (focus : Option Nat)

/-- What an operation on a search leaves behind: its answer, the search and the state of the engine
after it, and what it has done. -/
structure Reply (σ α τ π ρ : Type) where
  /-- The answer. -/
  answer : Except Fault ρ
  /-- The search after the operation. -/
  search : Search α τ π
  /-- The state of the engine after the operation. -/
  engine : σ
  /-- What the operation has done. -/
  journal : List (Entry α) := []

variable {σ α τ π ρ : Type}

/-- The reply to an operation that came after one with the given journal. -/
def Reply.after (r : Reply σ α τ π ρ) (journal : List (Entry α)) : Reply σ α τ π ρ :=
  { r with journal := journal ++ r.journal }

namespace Exploration

/-- Whether the step budget or the time limit is spent after `elapsed` milliseconds. -/
def isSpent (x : Exploration α τ π) (elapsed : Nat) : Bool :=
  x.config.maxSteps ≤ x.stats.steps ||
    match x.config.timeout with
    | none => false
    | some limit => nanoseconds limit ≤ elapsed * 1000000

/-- Takes vertices from the frontier until one comes that has not been visited. -/
def select (x : Exploration α τ π) :
    Except Fault (Option Nat) × Exploration α τ π × List (Entry α) :=
  go x.frontier.size x
where
  /-- Passes over at most `n` visited vertices. -/
  go (n : Nat) (x : Exploration α τ π) :
      Except Fault (Option Nat) × Exploration α τ π × List (Entry α) :=
    match x.next with
    | (none, x, entries) => (.ok none, x, entries)
    | (some id, x, entries) =>
      match x.vertices.get id with
      | .error fault => (.error fault, x, entries)
      | .ok v =>
        if v.visited then
          let entries := entries ++ [.visitedSkipped id]
          match n with
          | 0 => (.ok none, x, entries)
          | n + 1 =>
            let (answer, x, later) := go n x
            (answer, x, entries ++ later)
        else (.ok (some id), x, entries)

/-- Takes in a reduct of the vertex `v`, which is in focus. -/
def absorb (x : Exploration α τ π) (v : Vertex α) (r : Reduct α τ) :
    Outcome × Search α τ π × Entry α :=
  let v := { v with cursor := r.next }
  let x :=
    { x with
      vertices := x.vertices.update v.id fun _ ↦ v
      stats := { x.stats with reducts := x.stats.reducts + 1 } }
  match x.find? r.term with
  | none =>
    let (child, e, x) := x.grow v r.term r.use r.recipe
    (.progressed, .exploring x (some v.id), .vertexAdded child e.toArc)
  | some known =>
    if known.side = v.side then
      let x := { x with stats := { x.stats with duplicates := x.stats.duplicates + 1 } }
      (.repeated, .exploring x (some v.id), .duplicateDiscarded v known r.use)
    else
      let (e, x) := x.link v.id known.id r.use r.recipe
      (.ended (.met e.id), .exploring (x.markMeeting e.id) none, .sidesMet v known e.toArc)

/-- Spends one step on the vertex in focus. -/
def expand (e : Engine σ α τ π) (x : Exploration α τ π) (focus : Nat) (s : σ) :
    Reply σ α τ π Outcome :=
  let x := { x with stats := { x.stats with steps := x.stats.steps + 1 } }
  match x.vertices.getForUpdate focus with
  | .error fault => { answer := .error fault, search := .exploring x (some focus), engine := s }
  | .ok v =>
    match e.tryNext v v.cursor s with
    | (.error fault, s) =>
      { answer := .error fault, search := .exploring x (some focus), engine := s }
    | (.ok none, s) =>
      let v := { v with visited := true }
      let x := { x with vertices := x.vertices.update v.id fun _ ↦ v }
      { answer := .ok .progressed, search := .exploring x none, engine := s
        journal := [.vertexExhausted v] }
    | (.ok (some r), s) =>
      let (outcome, search, entry) := x.absorb v r
      { answer := .ok outcome, search, engine := s, journal := [entry] }

end Exploration

namespace Search

/-- Starts a search with valid settings. -/
def start (config : Config α) (lhs rhs : Term α) : Search α τ π × List (Entry α) :=
  if config.key lhs = config.key rhs then (.agreed lhs, [.sidesAgree lhs rhs])
  else
    let (left, right, x) := (Exploration.ofConfig config).createRoots lhs rhs
    (.exploring x none,
      [.rootsCreated left right config.strategy,
       .searchStarted config.maxDepth config.maxSteps config.strategy left right])

/-- The graph that is being explored. -/
def graph? : Search α τ π → Option (Exploration α τ π)
  | exploring x _ => some x
  | _ => none

/-- The graph that is being explored, which somebody asks for. -/
def graph (s : Search α τ π) : Except Fault (Exploration α τ π) :=
  match s.graph? with
  | some x => .ok x
  | none => .error .nothingExplored

/-- The search with its graph changed. -/
def withGraph (s : Search α τ π) (x : Exploration α τ π) : Search α τ π :=
  match s with
  | exploring _ focus => .exploring x focus
  | s => s

/-- What has been done so far; nothing, if there is no graph. -/
def stats (s : Search α τ π) : Stats := (s.graph?.map (·.stats)).getD {}

/-- The steps that are left of the budget. -/
def stepsLeft (s : Search α τ π) : Nat :=
  match s with
  | exploring x _ => x.config.maxSteps - x.stats.steps
  | _ => 0

/-- One step of a search, taken when `elapsed` milliseconds have passed since its start. -/
def step (e : Engine σ α τ π) (elapsed : Nat) (search : Search α τ π) (s : σ) :
    Reply σ α τ π Outcome :=
  match search with
  | idle => { answer := .error .stepBeforeStart, search, engine := s }
  | agreed _ => { answer := .ok (.ended (.met unissued)), search, engine := s }
  | exploring x focus =>
    match x.meeting with
    | some edge => { answer := .ok (.ended (.met edge)), search, engine := s }
    | none =>
      if x.isSpent elapsed then
        { answer := .ok (.ended .aborted), search, engine := s
          journal := [.budgetSpent x.stats.steps] }
      else
        match focus with
        | some v => x.expand e v s
        | none =>
          match x.select with
          | (.error fault, x, entries) =>
            { answer := .error fault, search := .exploring x none, engine := s
              journal := entries }
          | (.ok none, x, entries) =>
            { answer := .ok (.ended .exhausted), search := .exploring x none, engine := s
              journal := entries ++ [.frontierExhausted x.frontier.depth x.frontier.isCut] }
          | (.ok (some v), x, entries) => (x.expand e v s).after entries

/-- Steps on until the search ends or an operation fails, and lists the outcomes on the way. The
clock gives the time that has passed when a number of steps have been taken. The remaining budget
bounds the number of steps: every step that does not end the search spends one. -/
def run (e : Engine σ α τ π) (clock : Nat → Nat) (search : Search α τ π) (s : σ) :
    List Outcome × Reply σ α τ π Ending :=
  go search.stepsLeft search s
where
  /-- Takes at most `n + 1` steps. -/
  go (n : Nat) (search : Search α τ π) (s : σ) : List Outcome × Reply σ α τ π Ending :=
    let reply := search.step e (clock search.stats.steps) s
    match reply.answer with
    | .error fault => ([], { reply with answer := .error fault })
    | .ok (.ended ending) => ([.ended ending], { reply with answer := .ok ending })
    | .ok outcome =>
      match n with
      | 0 => ([outcome], { reply with answer := .ok .aborted })
      | n + 1 =>
        let (outcomes, last) := go n reply.search reply.engine
        (outcome :: outcomes, last.after reply.journal)

end Search

end Joinability
