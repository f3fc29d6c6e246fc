import Joinability.Engine.Rules
import Joinability.Proofs.Search.Step

/-!
# After the end of a search

Nothing in a search says that it has ended: a later step looks for a cause to end and finds the same
one again. `Search.EndsFrom` names the causes. A step that ends a search leaves one of them behind,
for every engine, also when the engine has failed before; and a step that comes upon one changes
neither the search nor the state of the engine, so the cause stays.

What the later steps answer is settled by the order in which the causes are looked for. A time limit
that passes later is found before an empty frontier, so a search that was exhausted turns into one
that was aborted. **`Search.replies_after_end`** says that this is all that can still change.
-/

namespace Joinability

variable {σ α τ π : Type}

/-! ## Causes to end -/

/-- Whether the time limit is over after `elapsed` milliseconds. -/
def Config.isOverdue (config : Config α) (elapsed : Nat) : Bool :=
  match config.timeout with
  | none => false
  | some limit => nanoseconds limit ≤ elapsed * 1000000

theorem Config.isOverdue_mono {config : Config α} {elapsed later : Nat} (hle : elapsed ≤ later)
    (h : config.isOverdue elapsed = true) : config.isOverdue later = true := by
  unfold isOverdue at h ⊢
  cases htimeout : config.timeout with
  | none => simp [htimeout] at h
  | some limit =>
    simp only [htimeout, decide_eq_true_eq] at h ⊢
    have hlate : (elapsed : Int) * 1000000 ≤ later * 1000000 :=
      Int.mul_le_mul_of_nonneg_right (Int.ofNat_le.mpr hle) (by decide)
    exact Int.le_trans h hlate

namespace Exploration

variable {x : Exploration α τ π}

theorem isSpent_iff {elapsed : Nat} : x.isSpent elapsed = true ↔
    x.config.maxSteps ≤ x.stats.steps ∨ x.config.isOverdue elapsed = true := by
  rw [isSpent, Bool.or_eq_true, decide_eq_true_eq]
  rfl

theorem isSpent_mono {elapsed later : Nat} (hle : elapsed ≤ later)
    (h : x.isSpent elapsed = true) : x.isSpent later = true := by
  rw [isSpent_iff] at h ⊢
  exact h.imp_right (Config.isOverdue_mono hle)

theorem next_of_frontier (h : x.frontier.next = (none, x.frontier)) : x.next = (none, x, []) := by
  rw [next, h]
  simp

end Exploration

namespace Search

/-- `EndsFrom config elapsed search ending`: from `elapsed` milliseconds on there is a cause for the
search to end, and `ending` is what it is called as long as no other cause joins it. -/
inductive EndsFrom (config : Config α) (elapsed : Nat) : Search α τ π → Ending → Prop
  /-- The sides agree from the start. -/
  | agreed (lhs : Term α) : EndsFrom config elapsed (.agreed lhs) (.met unissued)
  /-- The sides have met. -/
  | met {x : Exploration α τ π} {m : Nat} (focus : Option Nat) (h : x.meeting = some m) :
      EndsFrom config elapsed (.exploring x focus) (.met m)
  /-- The budget is spent. -/
  | spent {x : Exploration α τ π} (focus : Option Nat) (hmeet : x.meeting = none)
      (h : x.isSpent elapsed = true) : EndsFrom config elapsed (.exploring x focus) .aborted
  /-- The frontier is empty, and there are steps left with which to ask it. -/
  | dry {x : Exploration α τ π} (hx : x.IsOpen) (hconfig : x.config = config)
      (h : x.frontier.next = (none, x.frontier)) :
      EndsFrom config elapsed (.exploring x none) .exhausted

variable {e : Engine σ α τ π} {config : Config α} {lhs rhs : Term α} {search : Search α τ π}
  {elapsed later : Nat} {ending : Ending}

/-- **A step that comes upon a cause to end changes nothing.** -/
theorem EndsFrom.step (h : EndsFrom config elapsed search ending) (hle : elapsed ≤ later) (s : σ) :
    (search.step e later s).search = search ∧ (search.step e later s).engine = s ∧
      (search.step e later s).answer = .ok (.ended
        (if ending = .exhausted ∧ config.isOverdue later = true then .aborted else ending)) := by
  cases h with
  | agreed lhs => exact ⟨rfl, rfl, rfl⟩
  | met focus h =>
    rw [(Exploration.Halts.met h).step_eq]
    exact ⟨rfl, rfl, rfl⟩
  | spent focus hmeet h =>
    rw [(Exploration.Halts.spent hmeet (Exploration.isSpent_mono hle h)).step_eq]
    exact ⟨rfl, rfl, rfl⟩
  | @dry x hx hconfig h =>
    have hsteps : ¬x.config.maxSteps ≤ x.stats.steps := Nat.not_le_of_lt hx.steps
    by_cases hover : config.isOverdue later = true
    · have hspent : x.isSpent later = true := by
        rw [Exploration.isSpent_iff, hconfig]
        exact Or.inr hover
      rw [(Exploration.Halts.spent hx.meeting hspent).step_eq, if_pos ⟨rfl, hover⟩]
      exact ⟨rfl, rfl, rfl⟩
    · have hspent : x.isSpent later = false := by
        rw [← Bool.not_eq_true, Exploration.isSpent_iff, hconfig]
        exact fun hspent ↦ hspent.elim (hconfig ▸ hsteps) hover
      have hdry := Exploration.next_of_frontier h
      rw [(Exploration.Halts.dry hx.meeting hspent rfl hdry).step_eq,
        if_neg fun hlate ↦ hover hlate.2]
      exact ⟨rfl, rfl, rfl⟩

end Search

/-! ## Steps that end a search -/

namespace Exploration

variable {e : Engine σ α τ π} {x : Exploration α τ π}

theorem Reached.endsFrom {config : Config α} {lhs rhs : Term α} {focus : Option Nat}
    (hne : config.key lhs ≠ config.key rhs) (h : Reached e config lhs rhs x focus) {elapsed : Nat}
    {s : σ} {ending : Ending}
    (hans : ((Search.exploring x focus).step e elapsed s).answer = .ok (.ended ending)) :
    Search.EndsFrom config elapsed ((Search.exploring x focus).step e elapsed s).search ending := by
  rcases (h.orderly hne).halts_or_asks elapsed with
    ⟨ending', y, entries, hhalts⟩ | ⟨y, v, entries, hasks⟩
  · rw [hhalts.step_eq] at hans ⊢
    obtain rfl := Outcome.ended.inj (Except.ok.inj hans)
    obtain ⟨hy, -⟩ := h.halts hhalts
    cases hhalts with
    | met hmeet => exact .met focus hmeet
    | spent hmeet hspent => exact .spent focus hmeet hspent
    | dry hmeet hspent hfocus hnext =>
      subst hfocus
      have hopen := isOpen_of_not_spent hmeet hspent
      obtain ⟨hfrontier, hyx⟩ := next_eq hnext
      refine .dry ?_ hy.config_eq (Frontier.next_of_next_none hfrontier)
      rw [hyx]
      exact ⟨hopen.meeting, hopen.steps⟩
  · -- a vertex that is expanded ends the search at a meeting edge, which is marked then
    obtain ⟨z, g, hz, -, hfits⟩ := h.step hne elapsed s
    rw [hans] at hfits
    rw [hz]
    rw [hasks.step_eq] at hans
    obtain ⟨m, rfl⟩ := exists_met_of_expand hasks.getElem? hans
    exact .met g hfits

end Exploration

namespace Search

variable {e : Engine σ α τ π} {config : Config α} {lhs rhs : Term α} {search : Search α τ π}

/-- **A step that ends a search leaves a cause to end behind.** -/
theorem Stepped.endsFrom (h : Stepped e config lhs rhs search) {elapsed : Nat} {s : σ}
    {ending : Ending} (hans : (search.step e elapsed s).answer = .ok (.ended ending)) :
    EndsFrom config elapsed (search.step e elapsed s).search ending := by
  rcases h.agreed_or_reached with ⟨-, rfl⟩ | ⟨hkey, x, focus, rfl, hx⟩
  · cases hans
    exact .agreed lhs
  · exact hx.endsFrom hkey hans

/-! ## Sequences of steps -/

/-- The replies to steps that are taken one after the other, when the given times have passed. -/
def replies (e : Engine σ α τ π) : List Nat → Search α τ π → σ → List (Reply σ α τ π Outcome)
  | [], _, _ => []
  | elapsed :: times, search, s =>
    let reply := search.step e elapsed s
    reply :: replies e times reply.search reply.engine

/-- From a cause to end on, every step finds the search and the engine as they were. -/
theorem EndsFrom.replies {elapsed : Nat} {ending : Ending}
    (h : EndsFrom config elapsed search ending) {times : List Nat}
    (htimes : ∀ t ∈ times, elapsed ≤ t) {s : σ} {j later : Nat} {reply : Reply σ α τ π Outcome}
    (hlater : times[j]? = some later) (hreply : (replies e times search s)[j]? = some reply) :
    reply.search = search ∧ reply.engine = s ∧ reply.answer = .ok (.ended
      (if ending = .exhausted ∧ config.isOverdue later = true then .aborted else ending)) := by
  induction times generalizing j with
  | nil => exact absurd hlater (by simp)
  | cons t times ih =>
    obtain ⟨hsearch, hengine, hanswer⟩ := h.step (e := e) (htimes t List.mem_cons_self) s
    cases j with
    | zero =>
      obtain rfl := Option.some.inj hlater
      obtain rfl := Option.some.inj hreply
      exact ⟨hsearch, hengine, hanswer⟩
    | succ j =>
      rw [Search.replies, List.getElem?_cons_succ, hsearch, hengine] at hreply
      exact ih (fun u hu ↦ htimes u (List.mem_cons_of_mem t hu)) hlater hreply

theorem Stepped.replies_ended (h : Stepped e config lhs rhs search) {times : List Nat}
    (htimes : times.Pairwise (· ≤ ·)) {s : σ} {i j later : Nat} (hij : i < j)
    {first reply : Reply σ α τ π Outcome} {ending : Ending}
    (hfirst : (replies e times search s)[i]? = some first)
    (hans : first.answer = .ok (.ended ending)) (hlater : times[j]? = some later)
    (hreply : (replies e times search s)[j]? = some reply) :
    reply.search = first.search ∧ reply.engine = first.engine ∧ reply.answer = .ok (.ended
      (if ending = .exhausted ∧ config.isOverdue later = true then .aborted else ending)) := by
  induction times generalizing search s i j with
  | nil => exact absurd hlater (by simp)
  | cons t times ih =>
    obtain ⟨j, rfl⟩ := Nat.exists_eq_add_one_of_ne_zero (Nat.ne_zero_of_lt hij)
    rw [List.pairwise_cons] at htimes
    rw [replies, List.getElem?_cons_succ] at hreply
    cases i with
    | zero =>
      obtain rfl := Option.some.inj hfirst
      exact (h.endsFrom hans).replies htimes.1 hlater hreply
    | succ i =>
      exact ih (h.step t s) htimes.2 (Nat.lt_of_succ_lt_succ hij) hfirst hlater hreply

/-- **After the end of a search** over any terms, with any settings and any engine, whose steps find
times that do not decrease: every later step leaves the search as it was and does not ask the
engine, which counts how often it is asked. It answers the same ending, unless the search was
exhausted and the time limit has passed in the meantime. -/
theorem replies_after_end (e : Engine σ α τ π) (config : Config α) (lhs rhs : Term α) (s : σ × Nat)
    {times : List Nat} (htimes : times.Pairwise (· ≤ ·)) {i j later : Nat} (hij : i < j)
    {first reply : Reply (σ × Nat) α τ π Outcome} {ending : Ending}
    (hfirst : (replies e.counted times (start config lhs rhs).1 s)[i]? = some first)
    (hans : first.answer = .ok (.ended ending)) (hlater : times[j]? = some later)
    (hreply : (replies e.counted times (start config lhs rhs).1 s)[j]? = some reply) :
    reply.search = first.search ∧ reply.engine = first.engine ∧ reply.answer = .ok (.ended
      (if ending = .exhausted ∧ config.isOverdue later = true then .aborted else ending)) :=
  Stepped.start.replies_ended htimes hij hfirst hans hlater hreply

/-- A search without rules is exhausted in its third step. It says so again while its time limit
lasts, and not once the limit has passed. -/
theorem replies_after_end_timeout :
    let config : Config Payload := { timeout := some 200 }
    let rs := replies (Engine.ofRules []).counted [0, 0, 0, 100, 300]
      (start config (.ofText (utf8 "a")) (.ofText (utf8 "b"))).1 ({}, 0)
    ∃ first second third, rs[2]? = some first ∧ rs[3]? = some second ∧ rs[4]? = some third ∧
      first.answer = .ok (.ended .exhausted) ∧
      (second.search = first.search ∧ second.engine = first.engine ∧
        second.answer = .ok (.ended .exhausted)) ∧
      (third.search = first.search ∧ third.engine = first.engine ∧
        third.answer = .ok (.ended .aborted)) := by
  intro config rs
  have hans : (rs[2]?.map (·.answer)) = some (.ok (.ended .exhausted)) := by decide +kernel
  have htimes : [0, 0, 0, 100, 300].Pairwise (· ≤ ·) := by decide
  obtain ⟨first, hfirst⟩ : ∃ first, rs[2]? = some first := ⟨_, rfl⟩
  obtain ⟨second, hsecond⟩ : ∃ second, rs[3]? = some second := ⟨_, rfl⟩
  obtain ⟨third, hthird⟩ : ∃ third, rs[4]? = some third := ⟨_, rfl⟩
  rw [hfirst] at hans
  have hended : first.answer = .ok (.ended .exhausted) := Option.some.inj hans
  have hafter := replies_after_end (.ofRules []) config _ _ ({}, 0) htimes (by decide) hfirst hended
    (show _ = some 100 from rfl) hsecond
  have hlate := replies_after_end (.ofRules []) config _ _ ({}, 0) htimes (by decide) hfirst hended
    (show _ = some 300 from rfl) hthird
  rw [if_neg (by decide)] at hafter
  rw [if_pos (by decide)] at hlate
  exact ⟨first, second, third, hfirst, hsecond, hthird, hended, hafter, hlate⟩

/-- The fourth step of this search does not repeat the ending of the third. -/
theorem replies_exhausted_then_aborted :
    (replies (Engine.ofRules []).counted [0, 0, 0, 300]
      (start { timeout := some 200 } (.ofText (utf8 "a")) (.ofText (utf8 "b"))).1 ({}, 0)).map
      (·.answer) = [.ok .progressed, .ok .progressed, .ok (.ended .exhausted),
        .ok (.ended .aborted)] := by
  decide +kernel

end Search

end Joinability
