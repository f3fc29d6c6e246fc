import Joinability.Proofs.Search.Soundness

/-!
# How a search with rules is concluded

A search with rules asks its engine for reducts only until its run has ended, and that leaves the
engine as it was. So what comes of the search is what comes of concluding the exploration that its
run ended with, and the engine starts on the proof in the state in which the search began:
**`Exploration.solve_eq_conclude`**.
-/

namespace Joinability

variable {σ α τ π : Type}

/-! ## Engines that are left as they were -/

namespace Exploration

variable {e : Engine σ α τ π} {x : Exploration α τ π} {s : σ}

theorem engine_expand (he : ∀ v cursor s, (e.tryNext v cursor s).2 = s) (v : Nat) :
    (x.expand e v s).engine = s := by
  unfold expand
  dsimp only
  split
  · rfl
  · next v _ =>
    have hsame := he v v.cursor s
    split
    · next htry => rwa [htry] at hsame
    · next htry => rwa [htry] at hsame
    · next htry => rwa [htry] at hsame

end Exploration

namespace Search

variable {e : Engine σ α τ π}

theorem engine_step (he : ∀ v cursor s, (e.tryNext v cursor s).2 = s) (elapsed : Nat)
    (search : Search α τ π) (s : σ) : (search.step e elapsed s).engine = s := by
  unfold step
  split
  · rfl
  · rfl
  · split
    · rfl
    · split
      · rfl
      · split
        · exact Exploration.engine_expand he _
        · split
          · rfl
          · rfl
          · exact Exploration.engine_expand he _

/-- A run only asks for reducts. -/
theorem engine_run (he : ∀ v cursor s, (e.tryNext v cursor s).2 = s) (clock : Nat → Nat) (n : Nat)
    (search : Search α τ π) (s : σ) : (run.go e clock n search s).2.engine = s := by
  have hstep := engine_step he (clock search.stats.steps) search s
  induction n generalizing search s with
  | zero =>
    rw [run.go]
    dsimp only
    split
    · exact hstep
    · exact hstep
    · exact hstep
  | succ n ih =>
    rw [run.go]
    dsimp only
    split
    · exact hstep
    · exact hstep
    · exact (ih _ _ (engine_step he _ _ _)).trans hstep

end Search

/-! ## Searches with rules -/

/-- A search with rules over two different texts concludes what its run ended with, and the engine
has not changed by then. -/
theorem Exploration.solve_eq_conclude (rules : List Rule) {config : Config Payload} {lhs rhs : Text}
    (hkey : config.key = Term.pretty) (hne : lhs ≠ rhs) (clock : Nat → Nat) (tally : Tally) :
    let reply := Search.solve (.ofRules rules) clock config (.ofText lhs) (.ofText rhs) tally
    ∃ y g ending, Reached (.ofRules rules) config (.ofText lhs) (.ofText rhs) y g ∧
      Fits (.ofRules rules) y g (.ok (.ended ending)) ∧
      let last := (Search.exploring y g).conclude (.ofRules rules) ending tally
      reply.answer = last.answer ∧ reply.search = last.search ∧ reply.engine = last.engine := by
  intro reply
  have hkeyne := Config.key_ofText_ne hkey hne
  let first : Search Payload Recipe Evidence := (Search.start config (.ofText lhs) (.ofText rhs)).1
  let last := (first.run (.ofRules rules) clock tally).2
  obtain ⟨y, g, hsearch, hreach, hfit⟩ : Accounts (.ofRules rules) config (.ofText lhs)
      (.ofText rhs) last.search (last.answer.map Outcome.ended) := accounts_run hkeyne clock tally
  have hengine : last.engine = tally :=
    Search.engine_run (fun _ _ _ ↦ rfl) clock first.stepsLeft first tally
  rcases hanswer : last.answer with fault | ending
  · rw [hanswer] at hfit
    exact absurd hfit (hreach.answer_ne_error hkeyne)
  · rw [hanswer] at hfit
    refine ⟨y, g, ending, hreach, hfit, ?_⟩
    rw [← hsearch, ← hengine]
    exact solve_eq_of_run clock tally hanswer

end Joinability
