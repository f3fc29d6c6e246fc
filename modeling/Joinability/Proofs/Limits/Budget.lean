import Joinability.Proofs.Limits.Returns
import Joinability.Proofs.Search.Sticky

/-!
# Searches within a budget

An engine may report reducts for ever: its cursor may stand still, or each reduct may be a new term.
What ends a search all the same is its budget, which every step that asks the engine spends. So a
search ends after at most one round more than its budget has steps, and the number of reducts it has
asked for is the number of steps it has counted: **`Search.solve_within_budget`**.
-/

namespace Joinability

variable {σ α τ π : Type}

namespace Search

variable {e : Engine σ α τ π} {config : Config α} {lhs rhs : Term α} {search : Search α τ π}
  {clock : Nat → Nat}

/-- Without a time limit, a search that is aborted has spent all its steps. -/
theorem Stepped.steps_eq_of_aborted (htimeout : config.timeout = none)
    (h : Stepped e config lhs rhs search) {elapsed : Nat} {s : σ}
    (hans : (search.step e elapsed s).answer = .ok (.ended .aborted)) :
    (search.step e elapsed s).search.stats.steps = config.maxSteps := by
  have hends := h.endsFrom hans
  have hstep := h.step elapsed s
  have hle := hstep.steps_le
  generalize (search.step e elapsed s).search = last at hends hstep hle ⊢
  cases hends with
  | @spent x focus hmeet hspent =>
    rw [Exploration.isSpent_iff, hstep.reached.2.config_eq, Config.isOverdue, htimeout] at hspent
    exact Nat.le_antisymm hle (hspent.resolve_right (by simp))

end Search

/-! ## What is asked of the engine -/

section Counted

variable {e : Engine σ α τ π} {config : Config α} {lhs rhs : Term α} {search : Search α τ π}
  {clock : Nat → Nat} {s : σ × Nat}

theorem Edges.Forces.calls_eq {ids : List Nat} {s t : Edges τ π × σ × Nat}
    (h : Forces e.counted.prove ids s t) : t.2.2 = s.2.2 := by
  induction h with
  | nil s => rfl
  | @snoc ids id s t u p _ hforce ih =>
    obtain ⟨arc, -, ⟨-, -, hsame⟩ | ⟨recipe, -, hprove, -⟩⟩ := force_eq_ok_iff.mp hforce
    · rw [hsame, ih]
    · rw [← ih, ← (Prod.mk.inj hprove).2]

namespace Search

/-- A step asks the engine as often as it counts a step. -/
theorem Stepped.calls_step (h : Stepped e.counted config lhs rhs search) (elapsed : Nat) :
    (search.step e.counted elapsed s).engine.2 + search.stats.steps
      = s.2 + (search.step e.counted elapsed s).search.stats.steps := by
  rcases h.ends_or_expands elapsed s with
    ⟨ending, -, hengine, hstats⟩ | ⟨x, v, entries, hstep, -, hv, hx, -⟩
  · rw [hengine, hstats]
  · have hsteps := Exploration.steps_expand (e := e.counted) hv s
    have hengine : (x.expand e.counted v.id s).engine.2 = s.2 + 1 := by
      rw [Exploration.engine_expand_eq hv]
      rfl
    rw [hstep, ← hx]
    show (x.expand e.counted v.id s).engine.2 + _
      = _ + (x.expand e.counted v.id s).search.stats.steps
    omega

theorem Rounds.calls {k : Nat} {r : List Outcome × Reply (σ × Nat) α τ π Ending}
    (hr : Rounds e.counted clock search s k r) (h : Stepped e.counted config lhs rhs search) :
    r.2.engine.2 + search.stats.steps = s.2 + r.2.search.stats.steps := by
  induction hr with
  | fault _ => exact h.calls_step _
  | ended _ => exact h.calls_step _
  | @next search s _ _ _ last _ _ _ ih =>
    have hfirst := h.calls_step (s := s) (clock search.stats.steps)
    have hrest := ih (h.step (clock search.stats.steps) s)
    simp only [Reply.after] at hrest ⊢
    omega

/-- A result has the statistics of the search that it concludes, and concluding asks for no
reducts. -/
theorem stats_of_conclude {ending : Ending} {result : Result π}
    (h : (search.conclude e.counted ending s).answer = .ok result) :
    result.stats = search.stats ∧ (search.conclude e.counted ending s).engine.2 = s.2 ∧
      (result.status = .abort → ending = .aborted) := by
  cases ending with
  | met m =>
    rw [conclude] at h ⊢
    cases search with
    | idle => exact absurd h (by simp [prove])
    | agreed lhs =>
      rw [prove] at h ⊢
      by_cases hm : m = unissued
      · rw [if_pos hm] at h ⊢
        cases hrefl : e.counted.reflexivity lhs with
        | error fault =>
          rw [hrefl] at h
          exact absurd h (by simp [Except.map])
        | ok p =>
          rw [hrefl] at h
          obtain rfl := Except.ok.inj h
          exact ⟨rfl, rfl, by simp [Result.status]⟩
      · rw [if_neg hm] at h
        exact absurd h (by simp)
    | exploring x focus =>
      obtain ⟨p, left, right, edges, t, hbuild, rfl, -, hengine⟩ := exists_buildProof_of_prove h
      obtain ⟨ids, hforces, -⟩ := Exploration.forces_of_buildProof hbuild
      exact ⟨rfl, by rw [hengine, hforces.calls_eq], by simp [Result.status]⟩
  | aborted =>
    obtain rfl := Except.ok.inj h
    exact ⟨rfl, rfl, fun _ ↦ rfl⟩
  | exhausted =>
    obtain rfl := Except.ok.inj h
    exact ⟨rfl, rfl, by simp [Result.status]⟩

/-- **A search keeps within its budget**, whatever the engine. Without a time limit its loop ends
after at most one round more than the budget has steps, and a step that does not end the search
counts one step. The engine is asked for a reduct at most as often as the budget allows, and exactly
as often as the result counts steps. Only a search that has spent its budget is aborted. If the
calls of the engine return, there is a result. -/
theorem solve_within_budget (e : Engine σ α τ π) (clock : Nat → Nat) (config : Config α)
    (htimeout : config.timeout = none) (lhs rhs : Term α) (s : σ) :
    let first : Search α τ π := (start config lhs rhs).1
    let run := first.run e.counted clock (s, 0)
    let reply := solve e.counted clock config lhs rhs (s, 0)
    (∃ k ≤ config.maxSteps + 1, Rounds e.counted clock first (s, 0) k run) ∧
      run.2.engine.2 ≤ config.maxSteps ∧
      (e.Returns → ∃ result, reply.answer = .ok result) ∧
      (∀ result, reply.answer = .ok result → reply.engine.2 = result.stats.steps ∧
        result.stats.steps ≤ config.maxSteps ∧
        (result.status = .abort → result.stats.steps = config.maxSteps)) ∧
      ∀ search : Search α τ π, Stepped e config lhs rhs search → ∀ elapsed t outcome,
        (search.step e elapsed t).answer = .ok outcome → outcome.isTerminal = false →
        (search.step e elapsed t).search.stats.steps = search.stats.steps + 1 := by
  intro first run reply
  have hfirst : Stepped e.counted config lhs rhs first := .start
  have hfresh : first.stats.steps = 0 := steps_start config lhs rhs
  obtain ⟨k, hk, hrounds⟩ := hfirst.rounds_run clock (s, 0)
  obtain ⟨before, elapsed, t, hbefore, hanswer, hsearch⟩ := hrounds.exists_step hfirst
  have hcalls : run.2.engine.2 = run.2.search.stats.steps := by
    have hbalance := hrounds.calls hfirst
    rw [hfresh, Nat.add_zero, Nat.zero_add] at hbalance
    exact hbalance
  have hsteps : run.2.search.stats.steps ≤ config.maxSteps := by
    rw [← hsearch]
    exact (hbefore.step elapsed t).steps_le
  refine ⟨⟨k, Nat.le_trans hk (Nat.succ_le_succ hfirst.stepsLeft_le), hrounds⟩, hcalls ▸ hsteps,
    fun he ↦ he.counted.exists_result clock config lhs rhs (s, 0), ?_,
    fun search hsearch elapsed t outcome hans hgo ↦ hsearch.steps_step hans hgo⟩
  intro result hresult
  rcases hlast : run.2.answer with fault | ending
  · rw [show reply.answer = _ from Exploration.answer_solve clock (s, 0), hlast] at hresult
    exact absurd hresult (by simp [Except.bind])
  · obtain ⟨hconclude, -, hleft⟩ := Exploration.solve_eq_of_run clock (s, 0) hlast
    obtain ⟨hstats, hengine, habort⟩ := stats_of_conclude (hconclude.symm.trans hresult)
    rw [show reply.engine = _ from hleft, hengine, hstats]
    refine ⟨hcalls, hsteps, ?_⟩
    intro hstatus
    rw [hlast, habort hstatus] at hanswer
    have hspent := hbefore.steps_eq_of_aborted htimeout hanswer
    rwa [hsearch] at hspent

/-- The engine that turns every term into itself and never gets any further. Its proofs say
nothing. -/
def standstill : Engine Unit Payload Unit Unit where
  tryNext v _ s := (.ok (some
    { term := v.term, next := 0, recipe := some (), use := { name := utf8 "stay", index := 0 } }),
      s)
  prove _ s := (.ok (), s)
  reflexivity _ := .ok ()
  symmetry _ := .ok ()
  transitivity _ _ := .ok ()

theorem standstill_returns : standstill.Returns where
  tryNext _ _ _ := ⟨_, rfl⟩
  recipe h := ⟨(), by rw [← Option.some.inj (Except.ok.inj h)]⟩
  prove _ _ := ⟨(), rfl⟩
  reflexivity _ := ⟨(), rfl⟩
  symmetry _ := ⟨(), rfl⟩
  transitivity _ _ := ⟨(), rfl⟩

/-- A search that stands still is aborted when its three steps are spent, after four rounds at
most. -/
theorem solve_within_budget_standstill :
    let config : Config Payload := { maxSteps := 3 }
    let first : Search Payload Unit Unit :=
      (start config (.ofText (utf8 "a")) (.ofText (utf8 "b"))).1
    let reply := solve standstill.counted (fun _ ↦ 0) config (.ofText (utf8 "a"))
      (.ofText (utf8 "b")) ((), 0)
    (∃ k ≤ 4, Rounds standstill.counted (fun _ ↦ 0) first ((), 0) k
      (first.run standstill.counted (fun _ ↦ 0) ((), 0))) ∧
    ∃ result, reply.answer = .ok result ∧ result.status = .abort ∧ result.stats.steps = 3 ∧
      reply.engine.2 = 3 := by
  intro config first reply
  obtain ⟨hrounds, -, hreturns, hresult, -⟩ := solve_within_budget standstill (fun _ ↦ 0) config rfl
    (.ofText (utf8 "a")) (.ofText (utf8 "b")) ()
  obtain ⟨result, hanswer⟩ := hreturns standstill_returns
  obtain ⟨hcalls, -, habort⟩ := hresult result hanswer
  have hstatus : reply.answer.toOption.map Result.status = some .abort := by decide +kernel
  rw [show reply.answer = _ from hanswer] at hstatus
  have hstatus := Option.some.inj hstatus
  exact ⟨hrounds, result, hanswer, hstatus, habort hstatus, hcalls.trans (habort hstatus)⟩

end Search

end Counted

end Joinability
