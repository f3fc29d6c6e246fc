import Joinability.Proofs.Limits.Shift
import Joinability.Proofs.Search.Record
import Joinability.Proofs.Search.Sticky

/-!
# Steps that are tried again

An engine may fail now and then, and its faults pass through the search. The caller can take the
step again. Nothing is lost that way: **`Search.replies_retried`** compares the steps with those for
an engine that answers the same and never fails, and finds that the search only counts more steps.

## What a fault leaves behind

A fault does leave a trace besides the step that it costs. The vertex has been taken from the
frontier when the engine fails, and stays in focus. The next step finds it there, while the search
without faults has yet to take it. `Search.Lags` is what relates the two searches in between, and
each step that succeeds brings them together again (`Search.Lags.step`).
-/

namespace Joinability

variable {σ ρ α τ π : Type}

/-- Whatever the state, the engine answers as the function says. -/
def Engine.Answers (e : Engine σ α τ π) (f : Vertex α → Nat → Option (Reduct α τ)) : Prop :=
  ∀ v cursor s, (e.tryNext v cursor s).1 = .ok (f v cursor)

/-- Whatever the state, the engine answers as the function says or fails. -/
def Engine.AnswersOrFails (e : Engine σ α τ π) (f : Vertex α → Nat → Option (Reduct α τ)) : Prop :=
  ∀ v cursor s, (e.tryNext v cursor s).1 = .ok (f v cursor) ∨
    ∃ fault, (e.tryNext v cursor s).1 = .error fault

/-- A number of further steps. -/
def Shift.delay (k : Nat) : Shift α where
  config := id
  frontier := id
  steps := k
  key_config _ := rfl
  frontier_enqueue _ _ _ _ := rfl

/-! ## Faults -/

namespace Exploration

variable {e : Engine σ α τ π} {x y : Exploration α τ π} {v : Vertex α} {focus : Option Nat}
  {elapsed later : Nat} {entries : List (Entry α)}

theorem expand_eq_error_iff (hv : x.vertices.items[v.id]? = some v) (s : σ) {fault : Fault} :
    (x.expand e v.id s).answer = .error fault ↔ (e.tryNext v v.cursor s).1 = .error fault := by
  rw [expand_eq hv]
  rcases e.tryNext v v.cursor s with ⟨_ | _ | r, t⟩ <;> simp

theorem search_expand_of_error (hv : x.vertices.items[v.id]? = some v) {s : σ} {fault : Fault}
    (h : (e.tryNext v v.cursor s).1 = .error fault) :
    (x.expand e v.id s).search = .exploring x.spend (some v.id) := by
  rw [expand_eq hv]
  rcases htry : e.tryNext v v.cursor s with ⟨answer, t⟩
  rw [htry] at h
  obtain rfl : answer = .error fault := h
  rfl

theorem spend_shift_delay (x : Exploration α τ π) (k : Nat) :
    (x.shift (.delay k)).spend = x.shift (.delay (k + 1)) := by
  show { x.shift (.delay k) with stats := { x.stats with steps := k + x.stats.steps + 1 } } =
    { x.shift (.delay k) with stats := { x.stats with steps := k + 1 + x.stats.steps } }
  rw [Nat.add_right_comm]

theorem isSpent_of_shift_delay {k : Nat} (later : Nat) (htimeout : x.config.timeout = none)
    (h : (x.shift (.delay k)).isSpent elapsed = false) : x.isSpent later = false := by
  rw [isSpent, Bool.or_eq_false_iff, decide_eq_false_iff_not] at h ⊢
  refine ⟨fun hspent ↦ h.1 (Nat.le_trans hspent (Nat.le_add_left _ k)), by rw [htimeout]⟩

/-- Whether a step asks the engine does not depend on when it is taken, as long as the budget
lasts. -/
theorem Asks.of_isSpent (h : x.Asks focus elapsed y v entries) (hspent : x.isSpent later = false) :
    x.Asks focus later y v entries := by
  cases h with
  | kept hmeet _ hfocus hv => exact .kept hmeet hspent hfocus hv
  | taken hmeet _ hfocus hnext hv hvis => exact .taken hmeet hspent hfocus hnext hv hvis

theorem Asks.isSpent_eq (h : x.Asks focus elapsed y v entries) (later : Nat) :
    y.isSpent later = x.isSpent later := by
  cases h with
  | kept _ _ _ _ => rfl
  | taken _ _ _ hnext _ _ =>
    rw [(next_eq hnext).2]
    rfl

theorem isSpent_of_ne_aborted (hmeet : x.meeting = none) {s : σ}
    (h : ((Search.exploring x focus).step e elapsed s).answer ≠ .ok (.ended .aborted)) :
    x.isSpent elapsed = false := by
  rw [← Bool.not_eq_true]
  intro hspent
  rw [(Halts.spent hmeet hspent).step_eq] at h
  exact h rfl

end Exploration

namespace Search

variable {e : Engine σ α τ π} {e' : Engine ρ α τ π} {f : Vertex α → Nat → Option (Reduct α τ)}
  {config : Config α} {lhs rhs : Term α} {search steady failing : Search α τ π} {k : Nat}
  {elapsed elapsed' : Nat} {s : σ} {s' : ρ}

/-- **A step fails when the engine does**, and with the same fault. -/
theorem Stepped.step_eq_error_iff (h : Stepped e config lhs rhs search) (elapsed : Nat) (s : σ)
    {fault : Fault} : let reply := search.step e.recorded elapsed (s, [])
    reply.answer = .error fault ↔ ∃ call, reply.engine.2 = [call] ∧ call.answer = .error fault := by
  intro reply
  rcases h.agreed_or_reached with ⟨-, rfl⟩ | ⟨hkey, x, focus, rfl, hx⟩
  · show (Except.ok _ : Except Fault Outcome) = .error fault ↔
      ∃ call, ([] : List (Call α τ)) = [call] ∧ call.answer = .error fault
    simp
  · rcases (hx.orderly hkey).halts_or_asks elapsed with
      ⟨ending, y, entries, hhalts⟩ | ⟨y, v, entries, hasks⟩
    · have hreply : reply = _ := hhalts.step_eq e.recorded (s, [])
      rw [hreply]
      simp
    · have hreply : reply = _ := hasks.step_eq e.recorded (s, [])
      have hrecord := Exploration.engine_expand_recorded (e := e) hasks.getElem? (s, [])
      rw [hreply]
      show (y.expand e.recorded v.id (s, [])).answer = _ ↔
        ∃ call, (y.expand e.recorded v.id (s, [])).engine.2 = [call] ∧ _
      rw [Exploration.expand_eq_error_iff hasks.getElem?, hrecord]
      simp [Engine.recorded]

/-! ## Searches that lag behind -/

/-- `Lags k steady failing`: the second search is the first one with `k` steps more, but it may have
taken from the frontier what the first one will take in its next step. -/
inductive Lags (k : Nat) : Search α τ π → Search α τ π → Prop
  /-- The searches only differ in the number of steps. -/
  | level (search : Search α τ π) : Lags k search (search.shift (.delay k))
  /-- The second search has the vertex in focus for which the first one will ask. -/
  | ahead {x y : Exploration α τ π} {focus : Option Nat} {elapsed : Nat} {v : Vertex α}
      {entries : List (Entry α)} (h : x.Asks focus elapsed y v entries) :
      Lags k (.exploring x focus) (.exploring (y.shift (.delay k)) (some v.id))

/-- What a step of the second search comes to: it fails and lags one step more, or it does what a
step of the first one does. -/
def Resumes (k : Nat) (steady : Search α τ π) (failing : Reply σ α τ π Outcome)
    (reply : Reply ρ α τ π Outcome) : Prop :=
  (∃ fault, failing.answer = .error fault ∧ Lags (k + 1) steady failing.search) ∨
    ∃ outcome, failing.answer = .ok outcome ∧ reply.answer = .ok outcome ∧
      failing.search = reply.search.shift (.delay k)

theorem resumes_of_asks (he : e.AnswersOrFails f) (he' : e'.Answers f)
    {x y z : Exploration α τ π} {focus focus' : Option Nat} {v : Vertex α}
    {entries later : List (Entry α)} (h : x.Asks focus elapsed' y v entries)
    (hz : z.Asks focus' elapsed (y.shift (.delay k)) v later) :
    Resumes k (.exploring x focus) ((exploring z focus').step e elapsed s)
      ((exploring x focus).step e' elapsed' s') := by
  rcases he v v.cursor s with htry | ⟨fault, htry⟩
  · have hsteady := he' v v.cursor s'
    obtain ⟨hanswer, hsearch⟩ := h.step_shift hz e' e s' s (htry.trans hsteady.symm)
    rcases hans : ((exploring z focus').step e elapsed s).answer with fault | outcome
    · rw [hz.step_eq] at hans
      have hfail := (Exploration.expand_eq_error_iff hz.getElem? s).mp hans
      exact absurd (htry.symm.trans hfail) (by simp)
    · exact Or.inr ⟨outcome, hans, hanswer.symm.trans hans, hsearch⟩
  · refine Or.inl ⟨fault, ?_, ?_⟩
    · rw [hz.step_eq]
      exact (Exploration.expand_eq_error_iff hz.getElem? s).mpr htry
    · rw [hz.step_eq]
      show Lags (k + 1) _ ((y.shift (.delay k)).expand e v.id s).search
      rw [Exploration.search_expand_of_error hz.getElem? htry, Exploration.spend_shift_delay]
      exact .ahead h

/-- **A step that fails can be taken again.** -/
theorem Lags.step (he : e.AnswersOrFails f) (he' : e'.Answers f) (htimeout : config.timeout = none)
    (h : Stepped e' config lhs rhs steady) (hlags : Lags k steady failing)
    (hspent : (failing.step e elapsed s).answer ≠ .ok (.ended .aborted)) :
    Resumes k steady (failing.step e elapsed s) (steady.step e' elapsed' s') := by
  rcases h.agreed_or_reached with ⟨-, rfl⟩ | ⟨hkey, x, focus, rfl, hx⟩
  · cases hlags
    exact Or.inr ⟨_, rfl, rfl, rfl⟩
  · have hunlimited : x.config.timeout = none := hx.config_eq ▸ htimeout
    cases hlags with
    | level =>
      have hopen (hmeet : x.meeting = none) : (x.shift (.delay k)).isSpent elapsed = false :=
        Exploration.isSpent_of_ne_aborted (x := x.shift (.delay k)) hmeet hspent
      rcases (hx.orderly hkey).halts_or_asks elapsed' with
        ⟨ending, y, entries, hhalts⟩ | ⟨y, v, entries, hasks⟩
      · have hending : ending ≠ .aborted := by
          rintro rfl
          cases hhalts with
          | spent hmeet hover =>
            have hleft := Exploration.isSpent_of_shift_delay elapsed' hunlimited (hopen hmeet)
            exact absurd (hover.symm.trans hleft) (by simp)
        obtain ⟨later, hlater⟩ := hhalts.exists_shift (S := .delay k) elapsed hending
          (fun hmeet _ ↦ hopen hmeet) (fun _ _ ↦ id)
        have hreply := hlater.step_eq e s
        have hreply' := hhalts.step_eq e' s'
        refine Or.inr ⟨.ended ending, ?_, ?_, ?_⟩
        · exact congrArg Reply.answer hreply
        · exact congrArg Reply.answer hreply'
        · rw [hreply']
          exact congrArg Reply.search hreply
      · obtain ⟨later, hlater⟩ := hasks.exists_shift (S := .delay k) elapsed
          (fun hmeet _ ↦ hopen hmeet) (fun _ ↦ id)
        exact resumes_of_asks he he' hasks hlater
    | @ahead _ y _ _ v entries hasks =>
      have hmeet : y.meeting = none := hasks.isOpen.meeting
      have htimeout' : y.config.timeout = none := (hx.asks hasks).1.config_eq ▸ htimeout
      have hopen := Exploration.isSpent_of_ne_aborted (x := y.shift (.delay k)) hmeet hspent
      have hleft : x.isSpent elapsed' = false :=
        hasks.isSpent_eq elapsed' ▸ Exploration.isSpent_of_shift_delay elapsed' htimeout' hopen
      exact resumes_of_asks he he' (hasks.of_isSpent hleft)
        (.kept hmeet hopen rfl hasks.getElem?)

theorem shift_delay_zero (search : Search α τ π) : search.shift (.delay 0) = search := by
  cases search with
  | exploring x focus =>
    show exploring { x with stats := { x.stats with steps := 0 + x.stats.steps } } focus = _
    rw [Nat.zero_add]
  | idle | agreed _ => rfl

/-! ## Sequences of steps -/

/-- The replies that are no faults, each with the number of faults before it, which is `k` at
first. -/
def settled (k : Nat) : List (Reply σ α τ π Outcome) → List (Reply σ α τ π Outcome × Nat)
  | [] => []
  | reply :: replies =>
    match reply.answer with
    | .error _ => settled (k + 1) replies
    | .ok _ => (reply, k) :: settled k replies

/-- The number of replies that are faults. -/
def faultCount (replies : List (Reply σ α τ π Outcome)) : Nat :=
  replies.countP (!·.answer.isOk)

/-- The search that replies leave behind. -/
def leftBy (search : Search α τ π) : List (Reply σ α τ π Outcome) → Search α τ π
  | [] => search
  | reply :: replies => leftBy reply.search replies

theorem settled_of_error {reply : Reply σ α τ π Outcome} {fault : Fault}
    (h : reply.answer = .error fault) (k : Nat) (replies : List (Reply σ α τ π Outcome)) :
    settled k (reply :: replies) = settled (k + 1) replies := by
  rw [settled]
  simp only [h]

theorem settled_of_ok {reply : Reply σ α τ π Outcome} {outcome : Outcome}
    (h : reply.answer = .ok outcome) (k : Nat) (replies : List (Reply σ α τ π Outcome)) :
    settled k (reply :: replies) = (reply, k) :: settled k replies := by
  rw [settled]
  simp only [h]

theorem faultCount_of_error {reply : Reply σ α τ π Outcome} {fault : Fault}
    (h : reply.answer = .error fault) (replies : List (Reply σ α τ π Outcome)) :
    faultCount (reply :: replies) = faultCount replies + 1 :=
  List.countP_cons_of_pos (by rw [h]; rfl)

theorem faultCount_of_ok {reply : Reply σ α τ π Outcome} {outcome : Outcome}
    (h : reply.answer = .ok outcome) (replies : List (Reply σ α τ π Outcome)) :
    faultCount (reply :: replies) = faultCount replies :=
  List.countP_cons_of_neg (by rw [h]; exact Bool.false_ne_true)

/-- The replies that are no faults are those of the steady search, one by one, and the two searches
keep together to the end. -/
theorem Lags.replies (he : e.AnswersOrFails f) (he' : e'.Answers f)
    (htimeout : config.timeout = none) (s' : ρ) (h : Stepped e' config lhs rhs steady)
    (hlags : Lags k steady failing) {times times' : List Nat}
    (hlength : times'.length = (settled k (replies e times failing s)).length)
    (hbudget : ∀ reply ∈ replies e times failing s, reply.answer ≠ .ok (.ended .aborted)) :
    List.Forall₂ (fun p reply ↦ p.1.answer = reply.answer ∧
        p.1.search = reply.search.shift (.delay p.2))
      (settled k (replies e times failing s)) (replies e' times' steady s') ∧
    Lags (k + faultCount (replies e times failing s)) (leftBy steady (replies e' times' steady s'))
      (leftBy failing (replies e times failing s)) := by
  induction times generalizing k steady failing s s' times' with
  | nil =>
    obtain rfl := List.length_eq_zero_iff.mp hlength
    exact ⟨.nil, hlags⟩
  | cons elapsed times ih =>
    rw [Search.replies] at hlength hbudget ⊢
    set reply := failing.step e elapsed s with hreply
    have hfirst := hbudget reply List.mem_cons_self
    have hrest : ∀ later ∈ Search.replies e times reply.search reply.engine,
        later.answer ≠ .ok (.ended .aborted) :=
      fun later hlater ↦ hbudget later (List.mem_cons_of_mem _ hlater)
    have hstep (elapsed' : Nat) :
        Resumes k steady reply (steady.step e' elapsed' s') :=
      hlags.step he he' htimeout h hfirst
    rcases hans : reply.answer with fault | outcome
    · rw [settled_of_error hans] at hlength ⊢
      rcases hstep 0 with ⟨-, -, hlags'⟩ | ⟨outcome, hok, -⟩
      · obtain ⟨hall, hlast⟩ := ih s' h hlags' hlength hrest
        refine ⟨hall, ?_⟩
        rw [faultCount_of_error hans, Nat.add_comm _ 1, ← Nat.add_assoc]
        exact hlast
      · exact absurd (hans.symm.trans hok) (by simp)
    · rw [settled_of_ok hans] at hlength ⊢
      obtain ⟨elapsed', times', rfl⟩ : ∃ t ts, times' = t :: ts :=
        List.exists_cons_of_length_eq_add_one hlength
      rcases hstep elapsed' with ⟨fault, hfault, -⟩ | ⟨outcome', hok, hok', hsearch⟩
      · exact absurd (hans.symm.trans hfault) (by simp)
      · have hlags' : Lags k (steady.step e' elapsed' s').search reply.search :=
          hsearch ▸ .level _
        obtain ⟨hall, hlast⟩ := ih (steady.step e' elapsed' s').engine
          (h.step elapsed' s') hlags' (Nat.succ.inj hlength) hrest
        rw [faultCount_of_ok hans]
        exact ⟨.cons ⟨hok.trans hok'.symm, hsearch⟩ hall, hlast⟩

/-- **Nothing is lost by trying a step again.** Compare the steps of a search without a time limit,
with an engine that may fail in any of its calls, with those for an engine that answers the same and
never fails. As long as the budget lasts: a step fails exactly when the engine does, and with the
same fault. The replies that are no faults are those of the search without faults, one by one, and
leave the same search behind except for the number of steps, which is greater by the number of
faults so far. And after the last step, be it a fault or not, the search is at most ahead by a
vertex that it has taken from the frontier. -/
theorem replies_retried {f : Vertex α → Nat → Option (Reduct α τ)} (e : Engine σ α τ π)
    (he : e.AnswersOrFails f) (e' : Engine ρ α τ π) (he' : e'.Answers f) (config : Config α)
    (htimeout : config.timeout = none) (lhs rhs : Term α) (s : σ) (s' : ρ) {times times' : List Nat}
    (hlength : times'.length = (settled 0 (replies e times (start config lhs rhs).1 s)).length)
    (hbudget : ∀ reply ∈ replies e times (start config lhs rhs).1 s,
      reply.answer ≠ .ok (.ended .aborted)) :
    let failing := replies e times (start config lhs rhs).1 s
    let steady := replies e' times' (start config lhs rhs).1 s'
    (∀ search, Stepped e config lhs rhs search → ∀ elapsed t fault,
      let reply := search.step e.recorded elapsed (t, [])
      reply.answer = .error fault ↔
        ∃ call, reply.engine.2 = [call] ∧ call.answer = .error fault) ∧
    List.Forall₂ (fun p reply ↦ p.1.answer = reply.answer ∧
        p.1.search = reply.search.shift (.delay p.2)) (settled 0 failing) steady ∧
    Lags (faultCount failing) (leftBy (start config lhs rhs).1 steady)
      (leftBy (start config lhs rhs).1 failing) := by
  intro failing steady
  have hlags : Lags 0 (start config lhs rhs : Search α τ π × List (Entry α)).1
      (start config lhs rhs).1 := by
    have hlevel := Lags.level (k := 0) (start config lhs rhs : Search α τ π × List (Entry α)).1
    rwa [shift_delay_zero] at hlevel
  obtain ⟨hall, hlast⟩ := hlags.replies he he' htimeout s' .start hlength hbudget
  rw [Nat.zero_add] at hlast
  exact ⟨fun search hsearch elapsed t fault ↦ hsearch.step_eq_error_iff elapsed t, hall, hlast⟩

/-- By one rule `a` turns into `b`, and nothing else turns into anything. -/
def single (v : Vertex Payload) (cursor : Nat) : Option (Reduct Payload Unit) :=
  if v.pretty = utf8 "a" ∧ cursor = 0 then
    some { term := .ofText (utf8 "b"), next := 1, recipe := some ()
           use := { name := utf8 "r", index := 0 } }
  else none

/-- The engine that answers by this rule. -/
def singleSteady : Engine Unit Payload Unit Unit where
  tryNext v cursor s := (.ok (single v cursor), s)
  prove _ s := (.ok (), s)
  reflexivity _ := .ok ()
  symmetry _ := .ok ()
  transitivity _ _ := .ok ()

/-- The engine that does so in every second call, and fails in the others. -/
def singleShaky : Engine Bool Payload Unit Unit where
  tryNext v cursor failed :=
    if failed then (.ok (single v cursor), false) else (.error (.engineFailed (utf8 "busy")), true)
  prove _ s := (.ok (), s)
  reflexivity _ := .ok ()
  symmetry _ := .ok ()
  transitivity _ _ := .ok ()

theorem singleShaky_answersOrFails : singleShaky.AnswersOrFails single := by
  intro v cursor failed
  cases failed with
  | false => exact Or.inr ⟨_, rfl⟩
  | true => exact Or.inl rfl

/-- With every second call failing, a search that is exhausted in its fifth step is so in its
ninth. -/
theorem replies_retried_single :
    let first : Search Payload Unit Unit := (start {} (.ofText (utf8 "a")) (.ofText (utf8 "c"))).1
    let failing := replies singleShaky (List.replicate 9 0) first false
    let steady := replies singleSteady (List.replicate 5 0) first ()
    faultCount failing = 4 ∧
      failing.getLast?.map (·.answer) = some (.ok (.ended .exhausted)) ∧
      List.Forall₂ (fun p reply ↦ p.1.answer = reply.answer ∧
        p.1.search = reply.search.shift (.delay p.2)) (settled 0 failing) steady ∧
      Lags 4 (leftBy first steady) (leftBy first failing) := by
  intro first failing steady
  have hanswers : failing.map (·.answer) =
      [.error (.engineFailed (utf8 "busy")), .ok .progressed,
        .error (.engineFailed (utf8 "busy")), .ok .progressed,
        .error (.engineFailed (utf8 "busy")), .ok .progressed,
        .error (.engineFailed (utf8 "busy")), .ok .progressed, .ok (.ended .exhausted)] := by
    decide +kernel
  have hcount : faultCount failing = 4 := by decide +kernel
  have hlength : (List.replicate 5 0).length = (settled 0 failing).length := by decide +kernel
  have hbudget : ∀ reply ∈ failing, reply.answer ≠ .ok (.ended .aborted) := by
    intro reply hreply habort
    have hmem : reply.answer ∈ failing.map (·.answer) := List.mem_map_of_mem hreply
    rw [hanswers, habort] at hmem
    exact absurd hmem (by decide)
  have hlast : failing.getLast?.map (·.answer) = some (.ok (.ended .exhausted)) := by
    rw [← List.getLast?_map, hanswers]
    rfl
  obtain ⟨-, hall, hlags⟩ := replies_retried singleShaky singleShaky_answersOrFails
    singleSteady (fun _ _ _ ↦ rfl) {} rfl (.ofText (utf8 "a")) (.ofText (utf8 "c")) false
      () hlength hbudget
  rw [show faultCount _ = 4 from hcount] at hlags
  exact ⟨hcount, hlast, hall, hlags⟩

end Search

end Joinability
