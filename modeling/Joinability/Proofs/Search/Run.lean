import Joinability.Proofs.Search.Step

/-!
# Runs

A step either ends the search without asking the engine, or it asks the engine once and counts one
step (`Search.Stepped.ends_or_expands`). A run goes on with steps until one of them ends the search
or fails. It is defined by recursion on the steps that are left when it begins, and would give up
when they are used up.

`Search.Rounds` is the loop that a run stands for, which is bounded by nothing. The bound never
makes itself felt (`Search.Stepped.rounds_run`): each step on the way spends one unit of the budget,
and the last one needs none. What holds of runs is therefore proved of the loop, and what a search
leaves behind was reached by moves (`Exploration.exists_reached_of_solve`).
-/

namespace Joinability

variable {σ α τ π : Type}

/-! ## What a step costs -/

namespace Exploration

variable {e : Engine σ α τ π} {x : Exploration α τ π} {v : Vertex α}

theorem steps_absorb (x : Exploration α τ π) (v : Vertex α) (r : Reduct α τ) :
    (x.absorb v r).2.1.stats.steps = x.stats.steps := by
  rw [absorb_eq]
  split
  · exact steps_grow (x.advance v r.next) { v with cursor := r.next } r.term r.use r.recipe
  · split <;> rfl

/-- Expanding a vertex counts one step, whatever comes of it. -/
theorem steps_expand (hv : x.vertices.items[v.id]? = some v) (s : σ) :
    (x.expand e v.id s).search.stats.steps = x.stats.steps + 1 := by
  rw [expand_eq hv]
  rcases e.tryNext v v.cursor s with ⟨_ | _ | r, t⟩
  · rfl
  · rfl
  · exact steps_absorb x.spend v r

theorem engine_expand_eq (hv : x.vertices.items[v.id]? = some v) (s : σ) :
    (x.expand e v.id s).engine = (e.tryNext v v.cursor s).2 := by
  rw [expand_eq hv]
  rcases e.tryNext v v.cursor s with ⟨_ | _ | r, t⟩ <;> rfl

end Exploration

namespace Search

variable {e : Engine σ α τ π} {config : Config α} {lhs rhs : Term α} {search : Search α τ π}
  {clock : Nat → Nat}

/-- **A step ends the search without asking the engine, or expands one vertex.** -/
theorem Stepped.ends_or_expands (h : Stepped e config lhs rhs search) (elapsed : Nat) (s : σ) :
    (∃ ending, (search.step e elapsed s).answer = .ok (.ended ending) ∧
      (search.step e elapsed s).engine = s ∧
      (search.step e elapsed s).search.stats = search.stats) ∨
    ∃ (x : Exploration α τ π) (v : Vertex α) (entries : List (Entry α)),
      search.step e elapsed s = (x.expand e v.id s).after entries ∧ x.IsOpen ∧
      x.vertices.items[v.id]? = some v ∧ x.stats = search.stats ∧ x.config = config := by
  rcases h.agreed_or_reached with ⟨-, rfl⟩ | ⟨hkey, x, focus, rfl, hx⟩
  · exact Or.inl ⟨_, rfl, rfl, rfl⟩
  · rcases (hx.orderly hkey).halts_or_asks elapsed with
      ⟨ending, y, entries, hhalts⟩ | ⟨y, v, entries, hasks⟩
    · refine Or.inl ⟨ending, ?_⟩
      rw [hhalts.step_eq]
      exact ⟨rfl, rfl, hhalts.stats_eq⟩
    · obtain ⟨hy, hopen⟩ := hx.asks hasks
      exact Or.inr ⟨y, v, entries, hasks.step_eq e s, hopen, hasks.getElem?, hasks.stats_eq,
        hy.config_eq⟩

theorem steps_start (config : Config α) (lhs rhs : Term α) :
    (start config lhs rhs : Search α τ π × List (Entry α)).1.stats.steps = 0 := by
  rw [start]
  split <;> rfl

theorem Stepped.steps_step (h : Stepped e config lhs rhs search) {elapsed : Nat} {s : σ}
    {outcome : Outcome} (hans : (search.step e elapsed s).answer = .ok outcome)
    (hgo : outcome.isTerminal = false) :
    (search.step e elapsed s).search.stats.steps = search.stats.steps + 1 := by
  rcases h.ends_or_expands elapsed s with ⟨ending, hended, -⟩ | ⟨x, v, entries, hstep, -, hv, hx, -⟩
  · rw [hended] at hans
    obtain rfl := Except.ok.inj hans
    exact absurd hgo (by simp [Outcome.isTerminal])
  · rw [hstep, ← hx]
    exact Exploration.steps_expand hv s

/-- No more steps are counted than the budget has. -/
theorem Stepped.steps_le (h : Stepped e config lhs rhs search) :
    search.stats.steps ≤ config.maxSteps := by
  induction h with
  | start => exact steps_start config lhs rhs ▸ Nat.zero_le _
  | step h elapsed s ih =>
    rcases h.ends_or_expands elapsed s with
      ⟨ending, -, -, hstats⟩ | ⟨x, v, entries, hstep, hopen, hv, -, hconfig⟩
    · rw [hstats]
      exact ih
    · have hsteps := Exploration.steps_expand (e := e) hv s
      rw [hstep, ← hconfig]
      exact hsteps ▸ Nat.succ_le_of_lt hopen.steps

theorem Stepped.stepsLeft_le (h : Stepped e config lhs rhs search) :
    search.stepsLeft ≤ config.maxSteps := by
  rcases h.agreed_or_reached with ⟨-, rfl⟩ | ⟨-, x, focus, rfl, hx⟩
  · exact Nat.zero_le _
  · rw [stepsLeft, hx.config_eq]
    exact Nat.sub_le _ _

/-- A step that does not end the search spends one unit of what is left. -/
theorem Stepped.stepsLeft_step (h : Stepped e config lhs rhs search) {elapsed : Nat} {s : σ}
    {outcome : Outcome} (hans : (search.step e elapsed s).answer = .ok outcome)
    (hgo : outcome.isTerminal = false) :
    (search.step e elapsed s).search.stepsLeft + 1 = search.stepsLeft := by
  have hsteps := h.steps_step hans hgo
  have hle := (h.step elapsed s).steps_le
  rcases h.agreed_or_reached with ⟨-, rfl⟩ | ⟨hkey, x, focus, rfl, hx⟩
  · exact absurd (show 0 = 0 + 1 from hsteps) (by decide)
  · obtain ⟨y, g, hy, hreach⟩ := (h.step elapsed s).exists_reached hkey
    rw [hy] at hsteps hle ⊢
    rw [stepsLeft, stepsLeft, hx.config_eq, hreach.config_eq]
    have hxy : y.stats.steps = x.stats.steps + 1 := hsteps
    have hyle : y.stats.steps ≤ config.maxSteps := hle
    omega

/-! ## Rounds -/

/-- `Rounds e clock search s n r`: stepping on from a search until it ends or a step fails takes `n`
rounds. Its outcomes and the last reply are `r`. -/
inductive Rounds (e : Engine σ α τ π) (clock : Nat → Nat) :
    Search α τ π → σ → Nat → List Outcome × Reply σ α τ π Ending → Prop
  /-- The first step fails. -/
  | fault {search : Search α τ π} {s : σ} {fault : Fault}
      (h : (search.step e (clock search.stats.steps) s).answer = .error fault) :
      Rounds e clock search s 1
        ([], { search.step e (clock search.stats.steps) s with answer := .error fault })
  /-- The first step ends the search. -/
  | ended {search : Search α τ π} {s : σ} {ending : Ending}
      (h : (search.step e (clock search.stats.steps) s).answer = .ok (.ended ending)) :
      Rounds e clock search s 1 ([.ended ending],
        { search.step e (clock search.stats.steps) s with answer := .ok ending })
  /-- The first step does not end the search. -/
  | next {search : Search α τ π} {s : σ} {outcome : Outcome} {n : Nat} {outcomes : List Outcome}
      {last : Reply σ α τ π Ending}
      (h : (search.step e (clock search.stats.steps) s).answer = .ok outcome)
      (hgo : outcome.isTerminal = false)
      (hrest : Rounds e clock (search.step e (clock search.stats.steps) s).search
        (search.step e (clock search.stats.steps) s).engine n (outcomes, last)) :
      Rounds e clock search s (n + 1) (outcome :: outcomes,
        last.after (search.step e (clock search.stats.steps) s).journal)

theorem rounds_of_stopped {s : σ} (hstop : ¬∃ outcome : Outcome,
    (search.step e (clock search.stats.steps) s).answer = .ok outcome ∧ outcome.isTerminal = false)
    (n : Nat) : Rounds e clock search s 1 (run.go e clock n search s) := by
  unfold run.go
  rcases hans : (search.step e (clock search.stats.steps) s).answer with fault | outcome
  · simp only [hans]
    exact .fault hans
  · cases outcome with
    | ended ending =>
      simp only [hans]
      exact .ended hans
    | progressed | repeated => exact absurd ⟨_, hans, rfl⟩ hstop

theorem go_succ {s : σ} {outcome : Outcome}
    (h : (search.step e (clock search.stats.steps) s).answer = .ok outcome)
    (hgo : outcome.isTerminal = false) (n : Nat) :
    let reply := search.step e (clock search.stats.steps) s
    let rest := run.go e clock n reply.search reply.engine
    run.go e clock (n + 1) search s = (outcome :: rest.1, rest.2.after reply.journal) := by
  intro reply rest
  rw [run.go]
  cases outcome with
  | ended ending => exact absurd hgo (by simp [Outcome.isTerminal])
  | progressed | repeated => simp only [h]; rfl

/-- **A run is a loop that nothing bounds**, as long as its recursion may use up the budget. The
loop takes at most one round more than there are steps left. -/
theorem Stepped.rounds_go (h : Stepped e config lhs rhs search) (clock : Nat → Nat) {n : Nat}
    (hn : search.stepsLeft ≤ n) (s : σ) :
    ∃ k ≤ search.stepsLeft + 1, Rounds e clock search s k (run.go e clock n search s) := by
  induction n generalizing search s with
  | zero =>
    refine ⟨1, Nat.le_add_left 1 _, rounds_of_stopped ?_ 0⟩
    rintro ⟨outcome, hans, hgo⟩
    -- nothing is left to spend, and a step that went on would have spent something
    have hspent := h.stepsLeft_step hans hgo
    omega
  | succ n ih =>
    by_cases hgoes : ∃ outcome : Outcome,
        (search.step e (clock search.stats.steps) s).answer = .ok outcome ∧
        outcome.isTerminal = false
    · obtain ⟨outcome, hans, hgo⟩ := hgoes
      have hspent := h.stepsLeft_step hans hgo
      obtain ⟨k, hk, hrounds⟩ := ih (h.step (clock search.stats.steps) s) (by omega)
        (search.step e (clock search.stats.steps) s).engine
      refine ⟨k + 1, by omega, ?_⟩
      rw [go_succ hans hgo]
      exact .next hans hgo hrounds
    · exact ⟨1, Nat.le_add_left 1 _, rounds_of_stopped hgoes (n + 1)⟩

theorem Stepped.rounds_run (h : Stepped e config lhs rhs search) (clock : Nat → Nat) (s : σ) :
    ∃ k ≤ search.stepsLeft + 1, Rounds e clock search s k (search.run e clock s) :=
  h.rounds_go clock (Nat.le_refl _) s

/-- The loop ends in one way only. -/
theorem Rounds.unique {s : σ} {k l : Nat} {r t : List Outcome × Reply σ α τ π Ending}
    (hr : Rounds e clock search s k r) (ht : Rounds e clock search s l t) : k = l ∧ r = t := by
  induction hr generalizing l t with
  | fault h =>
    cases ht with
    | fault h' =>
      obtain rfl := Except.error.inj (h.symm.trans h')
      exact ⟨rfl, rfl⟩
    | ended h' | next h' _ _ => exact absurd (h.symm.trans h') (by simp)
  | ended h =>
    cases ht with
    | fault h' => exact absurd (h.symm.trans h') (by simp)
    | ended h' =>
      obtain rfl := Outcome.ended.inj (Except.ok.inj (h.symm.trans h'))
      exact ⟨rfl, rfl⟩
    | next h' hgo _ =>
      obtain rfl := Except.ok.inj (h.symm.trans h')
      exact absurd hgo (by simp [Outcome.isTerminal])
  | next h hgo hrest ih =>
    cases ht with
    | fault h' => exact absurd (h.symm.trans h') (by simp)
    | ended h' =>
      obtain rfl := Except.ok.inj (h.symm.trans h')
      exact absurd hgo (by simp [Outcome.isTerminal])
    | next h' _ hrest' =>
      obtain rfl := Except.ok.inj (h.symm.trans h')
      obtain ⟨rfl, hsame⟩ := ih hrest'
      obtain ⟨rfl, rfl⟩ := Prod.mk.inj hsame
      exact ⟨rfl, rfl⟩

theorem Rounds.exists_step {s : σ} {k : Nat} {r : List Outcome × Reply σ α τ π Ending}
    (hr : Rounds e clock search s k r) (h : Stepped e config lhs rhs search) :
    ∃ search' elapsed t, Stepped e config lhs rhs search' ∧
      (search'.step e elapsed t).answer = r.2.answer.map Outcome.ended ∧
      (search'.step e elapsed t).search = r.2.search := by
  induction hr with
  | fault hans => exact ⟨_, _, _, h, hans, rfl⟩
  | ended hans => exact ⟨_, _, _, h, hans, rfl⟩
  | next _ _ _ ih => exact ih (h.step _ _)

end Search

/-! ## Whole searches -/

namespace Exploration

variable {e : Engine σ α τ π} {config : Config α} {lhs rhs : Term α}

theorem solve_eq_of_run (clock : Nat → Nat) (s : σ) {ending : Ending}
    (h : ((Search.start config lhs rhs).1.run e clock s).2.answer = .ok ending) :
    let reply := Search.solve e clock config lhs rhs s
    let last := ((Search.start config lhs rhs).1.run e clock s).2.search.conclude e ending
      ((Search.start config lhs rhs).1.run e clock s).2.engine
    reply.answer = last.answer ∧ reply.search = last.search ∧ reply.engine = last.engine := by
  intro reply last
  simp only [reply, Search.solve, h]
  rcases hlast : last.answer with fault | result <;> simp [last, Reply.after, hlast]

theorem answer_solve (clock : Nat → Nat) (s : σ) :
    (Search.solve e clock config lhs rhs s).answer
      = (((Search.start config lhs rhs).1.run e clock s).2.answer).bind fun ending ↦
        (((Search.start config lhs rhs).1.run e clock s).2.search.conclude e ending
          ((Search.start config lhs rhs).1.run e clock s).2.engine).answer := by
  rcases hlast : ((Search.start config lhs rhs).1.run e clock s).2.answer with fault | ending
  · unfold Search.solve
    simp only [hlast]
    rfl
  · exact (solve_eq_of_run clock s hlast).1

theorem solve_eq_of_rounds {clock : Nat → Nat} {s : σ} {k : Nat}
    {r : List Outcome × Reply σ α τ π Ending}
    (hr : Search.Rounds e clock (Search.start config lhs rhs).1 s k r) {ending : Ending}
    (hans : r.2.answer = .ok ending) :
    let reply := Search.solve e clock config lhs rhs s
    let last := r.2.search.conclude e ending r.2.engine
    reply.answer = last.answer ∧ reply.search = last.search ∧ reply.engine = last.engine := by
  intro reply last
  obtain ⟨l, -, hrun⟩ := (Search.Stepped.start (e := e)).rounds_run clock s
  obtain ⟨-, rfl⟩ := hr.unique hrun
  exact solve_eq_of_run clock s hans

theorem exists_rounds_of_solve {clock : Nat → Nat} {s : σ} {result : Result π}
    (h : (Search.solve e clock config lhs rhs s).answer = .ok result) : ∃ k r ending,
    Search.Rounds e clock (Search.start config lhs rhs).1 s k r ∧ r.2.answer = .ok ending := by
  obtain ⟨k, -, hrun⟩ := (Search.Stepped.start (e := e)).rounds_run clock s
  rcases hlast : ((Search.start config lhs rhs).1.run e clock s).2.answer with fault | ending
  · rw [answer_solve, hlast] at h
    exact absurd h (by simp [Except.bind])
  · exact ⟨k, _, ending, hrun, hlast⟩

theorem exists_search_conclude (x : Exploration α τ π) (focus : Option Nat) (ending : Ending)
    (s : σ) :
    ∃ edges, ((Search.exploring x focus).conclude e ending s).search
      = .exploring { x with edges } focus := by
  cases ending with
  | met m =>
    rw [Search.conclude, Search.prove]
    rcases x.buildProof e m (x.edges, s) with ⟨fault | ⟨proof, left, right⟩, edges, t⟩
    · exact ⟨edges, rfl⟩
    · exact ⟨edges, rfl⟩
  | aborted => exact ⟨x.edges, rfl⟩
  | exhausted => exact ⟨x.edges, rfl⟩

theorem accounts_run (hne : config.key lhs ≠ config.key rhs) (clock : Nat → Nat) (s : σ) :
    Accounts e config lhs rhs ((Search.start config lhs rhs).1.run e clock s).2.search
      (((Search.start config lhs rhs).1.run e clock s).2.answer.map Outcome.ended) := by
  have hstart : Search.Stepped e config lhs rhs (Search.start config lhs rhs).1 := .start
  obtain ⟨k, -, hrounds⟩ := hstart.rounds_run clock s
  obtain ⟨before, elapsed, t, hbefore, hanswer, hsearch⟩ := hrounds.exists_step hstart
  obtain ⟨x, focus, rfl, hx⟩ := hbefore.exists_reached hne
  rw [← hanswer, ← hsearch]
  exact hx.step hne elapsed t

/-- How a search over two different keys answers, and what it is then: both follow from what it was
when its run ended. -/
theorem exists_reached_of_solve (hne : config.key lhs ≠ config.key rhs) (clock : Nat → Nat)
    (s : σ) :
    ∃ y g t, ∃ answer : Except Fault Ending, Reached e config lhs rhs y g ∧
      Fits e y g (answer.map Outcome.ended) ∧
      (Search.solve e clock config lhs rhs s).answer = (answer.bind fun ending ↦
        ((Search.exploring y g).conclude e ending t).answer) ∧
      ∀ ending, answer = .ok ending → (Search.solve e clock config lhs rhs s).search
        = ((Search.exploring y g).conclude e ending t).search := by
  obtain ⟨y, g, hsearch, hreach, hfit⟩ := accounts_run (e := e) hne clock s
  refine ⟨y, g, ((Search.start config lhs rhs).1.run e clock s).2.engine, _, hreach, hfit, ?_, ?_⟩
  · rw [answer_solve, hsearch]
  · intro ending hending
    rw [(solve_eq_of_run clock s hending).2.1, hsearch]

end Exploration

end Joinability
