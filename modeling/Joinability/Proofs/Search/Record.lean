import Joinability.Proofs.Search.Run

/-!
# What a search has asked for

Of what a search has done on its way, two things cannot be read off the search itself: in which
order its frontier has handed out the vertices, and which calls it has made of the engine.
`Search.Recorded` keeps a record of both beside any number of steps.

`Engine.recorded` keeps the record of the calls: for which vertex and cursor the engine was asked
for a reduct, and what it answered. A step makes no call when it halts, and one call otherwise.

## From steps to moves

`Exploration.Logged` is the same record kept along moves, with one constructor for everything that
can happen to it. Laws about the record are proved by induction on it; `Recorded.exists_logged`
takes them to steps.
-/

namespace Joinability

variable {σ α τ π : Type}

/-- A call of an engine for a reduct, and its answer. -/
structure Call (α τ : Type) where
  /-- The vertex of which a reduct was asked for. -/
  vertex : Vertex α
  /-- The cursor from which on it was asked for. -/
  cursor : Nat
  /-- The answer. -/
  answer : Except Fault (Option (Reduct α τ))

/-- Whether the engine has failed. -/
def Call.hasFailed (c : Call α τ) : Bool := !c.answer.isOk

/-- The engine that also records the calls for reducts, the latest last. -/
def Engine.recorded (e : Engine σ α τ π) : Engine (σ × List (Call α τ)) α τ π where
  tryNext v cursor s :=
    let (answer, state) := e.tryNext v cursor s.1
    (answer, state, s.2 ++ [{ vertex := v, cursor, answer }])
  prove recipe s :=
    let (answer, state) := e.prove recipe s.1
    (answer, state, s.2)
  reflexivity := e.reflexivity
  symmetry := e.symmetry
  transitivity := e.transitivity

theorem Exploration.engine_expand_recorded {e : Engine σ α τ π} {x : Exploration α τ π}
    {v : Vertex α} (hv : x.vertices.items[v.id]? = some v) (s : σ × List (Call α τ)) :
    (x.expand e.recorded v.id s).engine.2
      = s.2 ++ [{ vertex := v, cursor := v.cursor, answer := (e.tryNext v v.cursor s.1).1 }] := by
  rw [engine_expand_eq hv]
  rfl

/-! ## What the frontier hands out -/

/-- The vertex that was passed over, if the entry says so. -/
def Entry.passedOver? : Entry α → Option Nat
  | visitedSkipped v => some v
  | _ => none

/-- The vertices that the frontier hands out until one comes that has not been visited: those that
are passed over, and then the one that is taken. -/
def Exploration.handedOut (x : Exploration α τ π) : List Nat :=
  x.select.2.2.filterMap Entry.passedOver? ++ x.select.1.toOption.join.toList

/-- The vertices that the frontier hands out in a step that is taken when `elapsed` milliseconds
have passed. -/
def Search.handedOut (elapsed : Nat) : Search α τ π → List Nat
  | exploring x none => if x.meeting.isNone && !x.isSpent elapsed then x.handedOut else []
  | _ => []

namespace Exploration

variable {x y : Exploration α τ π} {focus : Option Nat} {elapsed : Nat} {ending : Ending}
  {v : Vertex α} {entries : List (Entry α)}

theorem filterMap_passedOver?_of_next {i : Option Nat} (h : x.next = (i, y, entries)) :
    entries.filterMap Entry.passedOver? = [] := by
  rw [List.filterMap_eq_nil_iff]
  intro entry hentry
  obtain ⟨maxDepth, count, rfl⟩ := eq_levelsCut_of_next h hentry
  rfl

theorem Halts.handedOut_eq_nil (h : x.Halts focus elapsed ending y entries) :
    (Search.exploring x focus).handedOut elapsed = [] := by
  cases h with
  | met h => cases focus <;> simp [Search.handedOut, h]
  | spent _ h => cases focus <;> simp [Search.handedOut, h]
  | dry hmeet hspent hfocus hnext =>
    subst hfocus
    simp only [Search.handedOut, hmeet, hspent, Exploration.handedOut, select_of_next_none hnext,
      filterMap_passedOver?_of_next hnext]
    rfl

/-- A step that asks the engine takes one vertex from the frontier if there was no focus, and none
otherwise. -/
theorem Asks.handedOut_eq (h : x.Asks focus elapsed y v entries) :
    (Search.exploring x focus).handedOut elapsed = if focus = none then [v.id] else [] := by
  cases h with
  | kept _ _ hfocus _ =>
    subst hfocus
    rfl
  | taken hmeet hspent hfocus hnext hv hvis =>
    subst hfocus
    simp only [Search.handedOut, hmeet, hspent, Exploration.handedOut,
      select_of_unvisited hnext hv hvis, filterMap_passedOver?_of_next hnext]
    rfl

end Exploration

/-! ## The record -/

/-- What a search has asked for. -/
structure Record (α τ : Type) where
  /-- The vertices that the frontier has handed out, the first one first. -/
  handedOut : List Nat := []
  /-- The calls of the engine for reducts, the first one first. -/
  calls : List (Call α τ) := []

/-- The number of calls in which the engine has failed. -/
def Record.failures (r : Record α τ) : Nat := r.calls.countP Call.hasFailed

theorem Record.failures_append (r : Record α τ) (c : Call α τ) :
    ({ r with calls := r.calls ++ [c] } : Record α τ).failures
      = r.failures + if c.answer.isOk then 0 else 1 := by
  rw [failures, List.countP_append, List.countP_singleton, Call.hasFailed]
  cases c.answer.isOk <;> rfl

/-- What starting a search and then stepping any number of times leaves behind, and what the search
has asked for on the way. Each step may find any time elapsed and the engine in any state. -/
inductive Search.Recorded (e : Engine σ α τ π) (config : Config α) (lhs rhs : Term α) :
    Search α τ π → Record α τ → Prop
  | start : Recorded e config lhs rhs (start config lhs rhs).1 {}
  | step {search : Search α τ π} {r : Record α τ} (h : Recorded e config lhs rhs search r)
      (elapsed : Nat) (s : σ) : Recorded e config lhs rhs (search.step e elapsed s).search
        { handedOut := r.handedOut ++ search.handedOut elapsed
          calls := (search.step e.recorded elapsed (s, r.calls)).engine.2 }

namespace Exploration

/-- What moves make of the two roots, and what they ask for. -/
inductive Logged (e : Engine σ α τ π) (config : Config α) (lhs rhs : Term α) :
    Exploration α τ π → Option Nat → Record α τ → Prop
  | start : Logged e config lhs rhs (rooted config lhs rhs) none {}
  /-- The frontier hands out a vertex. -/
  | take {x y : Exploration α τ π} {i : Nat} {entries : List (Entry α)} {r : Record α τ}
      (h : Logged e config lhs rhs x none r) (hx : x.IsOpen)
        (hnext : x.next = (some i, y, entries)) :
      Logged e config lhs rhs y (some i) { r with handedOut := r.handedOut ++ [i] }
  /-- The frontier has nothing to hand out. -/
  | dry {x y : Exploration α τ π} {entries : List (Entry α)} {r : Record α τ}
      (h : Logged e config lhs rhs x none r) (hx : x.IsOpen) (hnext : x.next = (none, y, entries)) :
      Logged e config lhs rhs y none r
  /-- The engine is asked for a reduct of the vertex in focus. -/
  | ask {x y : Exploration α τ π} {v : Vertex α} {g : Option Nat} {s : σ} {r : Record α τ}
      (h : Logged e config lhs rhs x (some v.id) r) (hv : x.vertices.items[v.id]? = some v)
      (hm : Move (e.frozen s) x (some v.id) y g) :
      Logged e config lhs rhs y g { r with calls := r.calls ++
        [{ vertex := v, cursor := v.cursor, answer := (e.tryNext v v.cursor s).1 }] }

variable {e : Engine σ α τ π} {config : Config α} {lhs rhs : Term α} {x y : Exploration α τ π}
  {focus : Option Nat} {r : Record α τ} {elapsed : Nat} {entries : List (Entry α)}

theorem Logged.reached (h : Logged e config lhs rhs x focus r) :
    Reached e config lhs rhs x focus := by
  induction h with
  | start => exact .start
  | take _ hx hnext ih => exact ih.move (.take hx hnext)
  | dry _ hx hnext ih => exact ih.move (.dry hx hnext)
  | ask _ _ hm ih => exact ih.move hm.of_frozen

theorem Logged.halts (h : Logged e config lhs rhs x focus r) {ending : Ending}
    (hhalts : x.Halts focus elapsed ending y entries) : Logged e config lhs rhs y focus r := by
  cases hhalts with
  | met _ => exact h
  | spent _ _ => exact h
  | dry hmeet hspent hfocus hnext =>
    subst hfocus
    exact h.dry (isOpen_of_not_spent hmeet hspent) hnext

theorem Logged.asks (h : Logged e config lhs rhs x focus r) {v : Vertex α}
    (hasks : x.Asks focus elapsed y v entries) : y.IsOpen ∧ Logged e config lhs rhs y (some v.id)
      { r with handedOut := r.handedOut ++ (Search.exploring x focus).handedOut elapsed } := by
  refine ⟨hasks.isOpen, ?_⟩
  rw [hasks.handedOut_eq]
  cases hasks with
  | kept _ _ hfocus _ =>
    subst hfocus
    rw [if_neg (by simp), List.append_nil]
    exact h
  | taken hmeet hspent hfocus hnext _ _ =>
    subst hfocus
    exact h.take (isOpen_of_not_spent hmeet hspent) hnext

end Exploration

namespace Search

variable {e : Engine σ α τ π} {config : Config α} {lhs rhs : Term α} {search : Search α τ π}
  {r : Record α τ}

theorem Recorded.stepped (h : Recorded e config lhs rhs search r) :
    Stepped e config lhs rhs search := by
  induction h with
  | start => exact .start
  | step _ elapsed s ih => exact ih.step elapsed s

/-- The record of steps over two different keys is one of moves. -/
theorem Recorded.exists_logged (h : Recorded e config lhs rhs search r)
    (hne : config.key lhs ≠ config.key rhs) :
    ∃ x focus, search = .exploring x focus ∧ Exploration.Logged e config lhs rhs x focus r := by
  induction h with
  | start => exact ⟨_, _, Exploration.start_of_key_ne hne, .start⟩
  | @step _ r _ elapsed s ih =>
    obtain ⟨x, focus, rfl, hx⟩ := ih
    rcases (hx.reached.orderly hne).halts_or_asks elapsed with
      ⟨ending, y, entries, hhalts⟩ | ⟨y, v, entries, hasks⟩
    · rw [hhalts.handedOut_eq_nil, List.append_nil, hhalts.step_eq, hhalts.step_eq]
      exact ⟨y, focus, rfl, hx.halts hhalts⟩
    · obtain ⟨hopen, hy⟩ := hx.asks hasks
      have hv := hasks.getElem?
      obtain ⟨z, g, hsearch, hm, -⟩ := (hy.reached.orderly hne).exists_move (e := e) hopen hv s
      have hcalls := Exploration.engine_expand_recorded (e := e) hv (s, r.calls)
      rw [hasks.step_eq, hasks.step_eq]
      exact ⟨z, g, hsearch, hcalls ▸ hy.ask hv hm⟩

theorem Recorded.logged {x : Exploration α τ π} {focus : Option Nat}
    (h : Recorded e config lhs rhs (.exploring x focus) r) :
    config.key lhs ≠ config.key rhs ∧ Exploration.Logged e config lhs rhs x focus r := by
  obtain ⟨hne, -⟩ := h.stepped.reached
  obtain ⟨_, _, ⟨⟩, hx⟩ := h.exists_logged hne
  exact ⟨hne, hx⟩

end Search

end Joinability
