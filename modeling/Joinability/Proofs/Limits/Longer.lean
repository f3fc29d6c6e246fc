import Joinability.Engine.Rules
import Joinability.Proofs.Exhaustion.Kept
import Joinability.Proofs.Limits.Shift
import Joinability.Proofs.Search.Run

/-!
# Greater limits

Limits cut searches short, and do nothing else. A search that ends without being aborted ends in the
same way with a greater budget. Level by level it also does so under a greater depth bound, unless
it was the bound that left nothing to expand. **`Search.solve_longer`** says this of all that a
search returns and all that it has found.

The two searches run in step with each other: one is the shift of the other, all the way to the end
(`Search.Rounds.shift_limits`). Only one step of the way has to look at the depth bound, namely the
one at which the frontier has nothing to hand out.

Without a time limit the clock has no say, so the two searches may also take different times.
-/

namespace Joinability

variable {σ α τ π : Type}

/-- Another budget of steps, and another depth bound for a frontier that goes level by level. -/
def Shift.limits (n d : Nat) (hn : n < UInt64.size) : Shift α where
  config c := { c with maxDepth := d, maxSteps := n, maxSteps_lt := hn }
  frontier := Frontier.deepen d
  steps := 0
  key_config _ := rfl
  frontier_enqueue f _ _ _ := by cases f <;> rfl

namespace Search

/-- Whether vertices were left out because of the depth bound. -/
def isCut (search : Search α τ π) : Bool := (search.graph?.map (·.frontier.isCut)).getD false

/-- All that a search has found; neither its limits nor what waits. -/
def findings (search : Search α τ π) :
    Option (Lexicon × Vertices α × Edges τ π × Stats × Option Nat) :=
  search.graph?.map fun x ↦ (x.lexicon, x.vertices, x.edges, x.stats, x.meeting)

end Search

variable {e : Engine σ α τ π} {config : Config α} {lhs rhs : Term α} {clock clock' : Nat → Nat}
  {n d : Nat} {hn : n < UInt64.size}

namespace Exploration

variable {x : Exploration α τ π} {elapsed elapsed' : Nat}

theorem ofConfig_shift_limits (hd : config.maxDepth = d ∨ config.strategy = .breadthFirst) :
    (ofConfig config : Exploration α τ π).shift (.limits n d hn)
      = ofConfig { config with maxDepth := d, maxSteps := n, maxSteps_lt := hn } := by
  rw [ofConfig, ofConfig, ← Frontier.deepen_ofStrategy hd]
  rfl

theorem stats_shift_limits (x : Exploration α τ π) :
    (x.shift (.limits n d hn)).stats = x.stats := by
  show { x.stats with steps := 0 + x.stats.steps } = x.stats
  rw [Nat.zero_add]

theorem isSpent_shift_limits (hsteps : x.config.maxSteps ≤ n) (htimeout : x.config.timeout = none)
    (h : x.isSpent elapsed = false) : (x.shift (.limits n d hn)).isSpent elapsed' = false := by
  rw [isSpent, Bool.or_eq_false_iff, decide_eq_false_iff_not] at h ⊢
  have htimeout' : (x.shift (.limits n d hn)).config.timeout = none := htimeout
  refine ⟨?_, by rw [htimeout']⟩
  rw [stats_shift_limits]
  exact Nat.not_le_of_lt (Nat.lt_of_lt_of_le (Nat.lt_of_not_le h.1) hsteps)

end Exploration

namespace Search

variable {search : Search α τ π} {s : σ} {elapsed elapsed' : Nat}

theorem stats_shift_limits (search : Search α τ π) :
    (search.shift (.limits n d hn)).stats = search.stats := by
  cases search with
  | exploring x focus => exact Exploration.stats_shift_limits x
  | idle | agreed _ => rfl

theorem findings_shift_limits (search : Search α τ π) :
    (search.shift (.limits n d hn)).findings = search.findings := by
  cases search with
  | exploring x focus =>
    show some (_, _, _, (x.shift (.limits n d hn)).stats, _) = _
    rw [Exploration.stats_shift_limits]
    rfl
  | idle | agreed _ => rfl

theorem start_shift_limits (hd : config.maxDepth = d ∨ config.strategy = .breadthFirst) :
    (start { config with maxDepth := d, maxSteps := n, maxSteps_lt := hn } lhs rhs :
        Search α τ π × List (Entry α)).1
      = (start config lhs rhs).1.shift (.limits n d hn) := by
  by_cases hkey : config.key lhs = config.key rhs
  · rw [start, start, if_pos hkey, if_pos hkey]
    rfl
  · rw [start, start, if_neg hkey, if_neg hkey, ← Exploration.ofConfig_shift_limits hd]
    exact congrArg (exploring · none) (Exploration.createRoots_shift _ _ _ _)

/-- **A step under greater limits does the same**, unless it aborts the search or finds the frontier
cut. -/
theorem Stepped.step_shift_limits (h : Stepped e config lhs rhs search) (hn : n < UInt64.size)
    (elapsed' : Nat) (htimeout : config.timeout = none)
    (hsteps : config.maxSteps ≤ n) (hd : config.maxDepth ≤ d) {outcome : Outcome}
    (hans : (search.step e elapsed s).answer = .ok outcome) (habort : outcome ≠ .ended .aborted)
    (hcut : outcome = .ended .exhausted → config.maxDepth = d ∨
      (search.step e elapsed s).search.isCut = false) :
    let reply := search.step e elapsed s
    let reply' := (search.shift (.limits n d hn)).step e elapsed' s
    reply'.answer = .ok outcome ∧ reply'.search = reply.search.shift (.limits n d hn) ∧
      reply'.engine = reply.engine := by
  intro reply reply'
  rcases h.agreed_or_reached with ⟨-, rfl⟩ | ⟨hkey, x, focus, rfl, hx⟩
  · exact ⟨hans, rfl, rfl⟩
  · have hconfig := hx.config_eq
    rcases (hx.orderly hkey).halts_or_asks elapsed with
      ⟨ending, y, entries, hhalts⟩ | ⟨y, v, entries, hasks⟩
    · rw [hhalts.step_eq] at hans hcut
      obtain rfl := Except.ok.inj hans
      obtain ⟨later, hlater⟩ : ∃ later, (x.shift (.limits n d hn)).Halts focus elapsed' ending
          (y.shift (.limits n d hn)) later := by
        apply hhalts.exists_shift elapsed' (fun hending ↦ habort (by rw [hending]))
        · exact fun _ ↦ Exploration.isSpent_shift_limits (hconfig ▸ hsteps) (hconfig ▸ htimeout)
        · intro hapart hending hnext
          refine Frontier.next_deepen_none hnext ?_
          rw [(hx.settings_frontier hapart).2]
          exact (hcut (by rw [hending])).symm
      have hreply : reply = _ := hhalts.step_eq e s
      have hreply' : reply' = _ := hlater.step_eq e s
      rw [hreply, hreply']
      exact ⟨rfl, rfl, rfl⟩
    · obtain ⟨later, hlater⟩ : ∃ later, (x.shift (.limits n d hn)).Asks focus elapsed'
          (y.shift (.limits n d hn)) v later := by
        apply hasks.exists_shift elapsed'
        · exact fun _ ↦ Exploration.isSpent_shift_limits (hconfig ▸ hsteps) (hconfig ▸ htimeout)
        · intro hapart hnext
          refine Frontier.next_deepen hnext ?_
          rw [(hx.settings_frontier hapart).2]
          exact hd
      obtain ⟨hanswer, hsearch⟩ := hasks.step_shift hlater e e s s rfl
      refine ⟨hanswer.trans hans, hsearch, ?_⟩
      have hreply : reply = _ := hasks.step_eq e s
      have hreply' : reply' = _ := hlater.step_eq e s
      rw [hreply, hreply']
      exact (Exploration.engine_expand_eq hlater.getElem? s).trans
        (Exploration.engine_expand_eq hasks.getElem? s).symm

/-- **A run under greater limits ends in the same way**, unless it is aborted or ends for its depth
bound. -/
theorem Rounds.shift_limits {k : Nat} {r : List Outcome × Reply σ α τ π Ending}
    (hr : Rounds e clock search s k r) (h : Stepped e config lhs rhs search) (hn : n < UInt64.size)
    (clock' : Nat → Nat) (htimeout : config.timeout = none) (hsteps : config.maxSteps ≤ n)
    (hd : config.maxDepth ≤ d) {ending : Ending} (hans : r.2.answer = .ok ending)
    (habort : ending ≠ .aborted)
    (hcut : ending = .exhausted → config.maxDepth = d ∨ r.2.search.isCut = false) :
    ∃ r', Rounds e clock' (search.shift (.limits n d hn)) s k r' ∧ r'.2.answer = .ok ending ∧
      r'.2.search = r.2.search.shift (.limits n d hn) ∧ r'.2.engine = r.2.engine := by
  induction hr with
  | fault _ => exact absurd hans (by simp)
  | @ended search s ending' hstep =>
    obtain rfl := Except.ok.inj hans
    obtain ⟨hanswer, hsearch, hengine⟩ := h.step_shift_limits hn
      (clock' (search.shift (.limits n d hn)).stats.steps) htimeout hsteps hd hstep
      (fun hended ↦ habort (Outcome.ended.inj hended))
      (fun hended ↦ hcut (Outcome.ended.inj hended))
    exact ⟨_, .ended hanswer, rfl, hsearch, hengine⟩
  | @next search s outcome k outcomes last hstep hgo hrest ih =>
    obtain ⟨hanswer, hsearch, hengine⟩ := h.step_shift_limits hn
      (clock' (search.shift (.limits n d hn)).stats.steps) htimeout hsteps hd hstep
      (fun hended ↦ absurd hgo (by rw [hended]; simp [Outcome.isTerminal]))
      (fun hended ↦ absurd hgo (by rw [hended]; simp [Outcome.isTerminal]))
    obtain ⟨⟨outcomes', last'⟩, hrounds, hans', hsearch', hengine'⟩ := ih (h.step _ s) hans hcut
    rw [← hsearch, ← hengine] at hrounds
    exact ⟨_, .next hanswer hgo hrounds, hans', hsearch', hengine'⟩

/-- Concluding depends on what a search has found, and not on its limits. -/
theorem conclude_shift_limits (hn : n < UInt64.size) (e : Engine σ α τ π) (search : Search α τ π)
    (ending : Ending) (s : σ) :
    let reply := search.conclude e ending s
    let reply' := (search.shift (.limits n d hn)).conclude e ending s
    reply'.answer = reply.answer ∧ reply'.search = reply.search.shift (.limits n d hn) ∧
      reply'.engine = reply.engine := by
  intro reply reply'
  have hstats : (search.shift (.limits n d hn)).stats = search.stats := stats_shift_limits search
  cases ending with
  | met m =>
    cases search with
    | idle => exact ⟨rfl, rfl, rfl⟩
    | agreed t =>
      simp only [reply, reply', shift, conclude, prove]
      split <;> simp
    | exploring x focus =>
      have hstats : (x.shift (.limits n d hn)).stats = x.stats := hstats
      rcases hbuild : x.buildProof e m (x.edges, s) with ⟨answer, edges, t⟩
      have hbuild' : (x.shift (.limits n d hn)).buildProof e m
          ((x.shift (.limits n d hn)).edges, s) = (answer, edges, t) := hbuild
      simp only [reply, reply', shift, conclude, prove, hbuild, hbuild']
      rcases answer with fault | ⟨p, left, right⟩
      · exact ⟨rfl, rfl, rfl⟩
      · exact ⟨by rw [hstats], rfl, rfl⟩
  | aborted => exact ⟨by simp only [reply, reply', conclude, hstats], rfl, rfl⟩
  | exhausted => exact ⟨by simp only [reply, reply', conclude, hstats], rfl, rfl⟩

theorem solve_shift_limits (hn : n < UInt64.size) (htimeout : config.timeout = none)
    (hsteps : config.maxSteps ≤ n) (hd : config.maxDepth ≤ d)
    (hlevels : config.maxDepth = d ∨ config.strategy = .breadthFirst) {s : σ} {result : Result π}
    (h : (solve e clock config lhs rhs s).answer = .ok result) (habort : result.status ≠ .abort)
    (hcut : config.maxDepth = d ∨ result.status = .success ∨
      (solve e clock config lhs rhs s).search.isCut = false) :
    let reply := solve e clock config lhs rhs s
    let reply' := solve e clock' { config with maxDepth := d, maxSteps := n, maxSteps_lt := hn }
      lhs rhs s
    reply'.answer = reply.answer ∧ reply'.search.findings = reply.search.findings ∧
      reply'.engine = reply.engine := by
  intro reply reply'
  obtain ⟨k, r, ending, hrounds, hlast⟩ := Exploration.exists_rounds_of_solve h
  obtain ⟨hanswer, hsearch, hengine⟩ := Exploration.solve_eq_of_rounds hrounds hlast
  have hresult : (r.2.search.conclude e ending r.2.engine).answer = .ok result :=
    hanswer.symm.trans h
  have hnotaborted : ending ≠ .aborted := by
    rintro rfl
    obtain rfl := Except.ok.inj hresult
    exact habort rfl
  have hnotcut : ending = .exhausted → config.maxDepth = d ∨ r.2.search.isCut = false := by
    rintro rfl
    obtain rfl := Except.ok.inj hresult
    rw [hsearch] at hcut
    exact hcut.imp_right fun hcut ↦ hcut.resolve_left (by simp [Result.status])
  obtain ⟨r', hrounds', hlast', hsearch', hengine'⟩ := hrounds.shift_limits .start hn clock'
    htimeout hsteps hd hlast hnotaborted hnotcut
  rw [← start_shift_limits hlevels] at hrounds'
  obtain ⟨hanswer', hfound', hleft'⟩ := Exploration.solve_eq_of_rounds hrounds' hlast'
  rw [hsearch', hengine'] at hanswer' hfound' hleft'
  obtain ⟨hanswers, hsearches, hengines⟩ :=
    conclude_shift_limits (d := d) hn e r.2.search ending r.2.engine
  refine ⟨?_, ?_, ?_⟩
  · exact hanswer'.trans (hanswers.trans hanswer.symm)
  · rw [show reply'.search = _ from hfound', show reply.search = _ from hsearch, hsearches,
      findings_shift_limits]
  · exact hleft'.trans (hengines.trans hengine.symm)

/-- **Limits only cut searches short.** When a search without a time limit ends and is not aborted,
it ends in the same way with any greater budget: with the same answer, the same findings and the
same state of the engine. A breadth-first search does so under any greater depth bound as well, if
it was successful or was not cut. -/
theorem solve_longer (e : Engine σ α τ π) (clock clock' : Nat → Nat) (config : Config α)
    (htimeout : config.timeout = none) (lhs rhs : Term α) (s : σ) {result : Result π}
    (h : (solve e clock config lhs rhs s).answer = .ok result) (habort : result.status ≠ .abort) :
    let reply := solve e clock config lhs rhs s
    (∀ n hn, config.maxSteps ≤ n →
      let longer := solve e clock' { config with maxSteps := n, maxSteps_lt := hn } lhs rhs s
      longer.answer = .ok result ∧ longer.search.findings = reply.search.findings ∧
        longer.engine = reply.engine) ∧
    (config.strategy = .breadthFirst → result.status = .success ∨ reply.search.isCut = false →
      ∀ d, config.maxDepth ≤ d →
      let deeper := solve e clock' { config with maxDepth := d } lhs rhs s
      deeper.answer = .ok result ∧ deeper.search.findings = reply.search.findings ∧
        deeper.engine = reply.engine) := by
  intro reply
  constructor
  · intro n hn hsteps longer
    rw [← h]
    exact solve_shift_limits hn htimeout hsteps (Nat.le_refl _) (.inl rfl) h habort (.inl rfl)
  · intro hlevels hcut d hd deeper
    rw [← h]
    exact solve_shift_limits config.maxSteps_lt htimeout (Nat.le_refl _) hd (.inr hlevels)
      h habort (.inr hcut)

/-- From `a` only `b` can be reached and from `c` nothing. A search finds that out within five steps
and under the bound one, and finds the same with twice the budget and under the bound seven. -/
theorem solve_longer_unjoined :
    let e := Engine.ofRules
        [{ name := utf8 "r", lhs := utf8 "a", rhs := utf8 "b", symmetric := false }]
    let search (config : Config Payload) :=
      solve e (fun _ ↦ 0) config (.ofText (utf8 "a")) (.ofText (utf8 "c")) {}
    ∃ result : Result Evidence, result.status = .failure ∧
      (search { maxDepth := 1, maxSteps := 5 }).answer = .ok result ∧
      (search { maxDepth := 1, maxSteps := 10 }).answer = .ok result ∧
      (search { maxDepth := 7, maxSteps := 5 }).answer = .ok result := by
  intro e search
  let config : Config Payload := { maxDepth := 1, maxSteps := 5 }
  have hstatus : (search config).answer.toOption.map Result.status = some .failure := by
    decide +kernel
  have hcut : (search config).search.isCut = false := by decide +kernel
  rcases hanswer : (search config).answer with fault | result
  · rw [hanswer] at hstatus
    exact absurd hstatus (by simp [Except.toOption])
  · rw [hanswer] at hstatus
    have hfailure : result.status = .failure := Option.some.inj hstatus
    obtain ⟨hlonger, hdeeper⟩ := solve_longer e (fun _ ↦ 0) (fun _ ↦ 0) config rfl _ _ {} hanswer
      (by rw [hfailure]; decide)
    exact ⟨result, hfailure, rfl, (hlonger 10 (by decide) (by decide)).1,
      (hdeeper rfl (.inr hcut) 7 (by decide)).1⟩

end Search

end Joinability
