import Joinability.Proofs.BreadthFirst.Crossing

/-!
# What a breadth-first search decides

A breadth-first search that is not cut short decides whether the goal texts can be joined within one
step more than its depth bound: the vertices down to the bound are expanded, so the texts that it
sees lie one level deeper.

With symmetric rules this is a question of the distance between the goal texts, and the two sides
share the way between them as evenly as they can. The left side goes first on every level, so the
odd step is its own.
-/

namespace Joinability

variable {rules : List Rule} {lhs rhs : Text} {config : Config Payload}

namespace Exploration

variable {x : Exploration Payload Recipe Evidence} {focus : Option Nat}

theorem Crosses.joinableWithin {u w : Vertex Payload} {c maxDepth k : Nat} {q : BreadthFirst}
    (h : Crosses rules x u w c) (hs : Surveyed rules lhs rhs x (some u.id) maxDepth k q) :
    JoinableWithin rules (maxDepth + 1) lhs rhs := by
  obtain ⟨hu, hw⟩ := h.derives hs
  have hdepth := hs.depth_le h.source
  have htarget : w.depth ≤ maxDepth + 1 := by
    have hle := h.depth_le hs
    have hroot := u.side.root_add_root_opposite
    omega
  rw [h.side_eq] at hw
  exact joinableWithin_of_sides (Nat.succ_le_succ hdepth) htarget hu hw

theorem Surveyed.not_joinableWithin {maxDepth k : Nat} {q : BreadthFirst}
    (h : Surveyed rules lhs rhs x none maxDepth k q) (hall : x.VisitedBelow (2 * maxDepth + 2)) :
    ¬JoinableWithin rules (maxDepth + 1) lhs rhs := by
  rintro ⟨t, hl, hr⟩
  obtain ⟨m, hm, hl⟩ := distance_le_iff.mp hl
  obtain ⟨n, hn, hr⟩ := distance_le_iff.mp hr
  exact h.not_derives_both hall hl hr (by omega) (by omega)

/-- A result that is not an abortion says whether the goal texts can be joined. -/
theorem Reached.reports_iff_joinableWithin (hkey : config.key = Term.pretty) (hne : lhs ≠ rhs)
    (hbfs : config.strategy = .breadthFirst)
    (h : Reached (.ofRules rules) config (.ofText lhs) (.ofText rhs) x focus)
    {result : Result Evidence} (hreports : Reports rules x focus lhs rhs result)
    (hended : result.status ≠ .abort) :
    (result.status = .success ↔ JoinableWithin rules (config.maxDepth + 1) lhs rhs) ∧
      (result.status = .failure ↔ ¬JoinableWithin rules (config.maxDepth + 1) lhs rhs) := by
  rcases result with ⟨p, units, stats⟩ | stats | stats
  · obtain ⟨y, k, q, u, w, c, left, right, -, -, hs, hc, -⟩ :=
      h.exists_crosses hkey hne hbfs hreports
    have hjoin := hc.joinableWithin hs
    exact ⟨iff_of_true rfl hjoin, iff_of_false (by simp [Result.status]) (not_not_intro hjoin)⟩
  · obtain ⟨hapart, rfl, y, entries, hnext⟩ := hreports
    obtain ⟨k, q, hs⟩ := h.surveyed hkey hne hbfs hapart
    have hjoin := hs.not_joinableWithin (hs.visitedBelow_of_next_none hnext)
    exact ⟨iff_of_false (by simp [Result.status]) hjoin, iff_of_true rfl hjoin⟩
  · exact absurd rfl hended

end Exploration

namespace Search

/-- **Breadth-first search decides bounded joinability.** Unless it is cut short, a breadth-first
search with rules succeeds if some text can be derived from each goal text in at most one step more
than the depth bound, and fails otherwise. -/
theorem solve_decides_joinable (rules : List Rule) (clock : Nat → Nat) (config : Config Payload)
    (hkey : config.key = Term.pretty) (hbfs : config.strategy = .breadthFirst) (lhs rhs : Text)
    (tally : Tally) :
    ∃ result, (solve (.ofRules rules) clock config (.ofText lhs) (.ofText rhs) tally).answer
        = .ok result ∧
      (result.status ≠ .abort →
        (result.status = .success ↔ JoinableWithin rules (config.maxDepth + 1) lhs rhs) ∧
        (result.status = .failure ↔ ¬JoinableWithin rules (config.maxDepth + 1) lhs rhs)) := by
  by_cases hne : lhs = rhs
  · subst hne
    have hjoin := joinableWithin_self rules (config.maxDepth + 1) lhs
    exact ⟨_, solve_self rules clock config lhs tally, fun _ ↦ ⟨iff_of_true rfl hjoin,
      iff_of_false (by simp [Result.status]) (not_not_intro hjoin)⟩⟩
  · obtain ⟨y, g, result, hy, hanswer, hreports⟩ :=
      Exploration.exists_result rules hkey hne clock tally
    exact ⟨result, hanswer, hy.reports_iff_joinableWithin hkey hne hbfs hreports⟩

theorem solve_decides_joinable_bound :
    let rules : List Rule := [
      { name := utf8 "r1", lhs := utf8 "a", rhs := utf8 "b", symmetric := false },
      { name := utf8 "r2", lhs := utf8 "b", rhs := utf8 "c", symmetric := false }]
    JoinableWithin rules 2 (utf8 "a") (utf8 "c") ∧
      ¬JoinableWithin rules 1 (utf8 "a") (utf8 "c") := by
  intro rules
  obtain ⟨deep, hdeep, hdecides⟩ := solve_decides_joinable rules (fun _ ↦ 0) { maxDepth := 1 } rfl
    rfl (utf8 "a") (utf8 "c") {}
  obtain ⟨flat, hflat, hdecides'⟩ := solve_decides_joinable rules (fun _ ↦ 0) { maxDepth := 0 } rfl
    rfl (utf8 "a") (utf8 "c") {}
  have hsuccess : ((solve (.ofRules rules) (fun _ ↦ 0) { maxDepth := 1 } (.ofText (utf8 "a"))
      (.ofText (utf8 "c")) {}).answer.toOption.map Result.status) = some .success := by
    decide +kernel
  have hfailure : ((solve (.ofRules rules) (fun _ ↦ 0) { maxDepth := 0 } (.ofText (utf8 "a"))
      (.ofText (utf8 "c")) {}).answer.toOption.map Result.status) = some .failure := by
    decide +kernel
  rw [hdeep] at hsuccess
  rw [hflat] at hfailure
  have hstatus : deep.status = .success := Option.some.inj hsuccess
  have hstatus' : flat.status = .failure := Option.some.inj hfailure
  exact ⟨(hdecides (by rw [hstatus]; decide)).1.mp hstatus,
    (hdecides' (by rw [hstatus']; decide)).2.mp hstatus'⟩

/-- **With symmetric rules the sides meet half way.** Unless it is cut short, a breadth-first search
over two different texts succeeds if their distance is at most twice the depth bound and two more,
and then the left unit has half of the steps, rounded up, and the right unit the other half. -/
theorem solve_balanced (rules : List Rule) (hsym : ∀ r ∈ rules, r.symmetric = true)
    (clock : Nat → Nat) (config : Config Payload) (hkey : config.key = Term.pretty)
    (hbfs : config.strategy = .breadthFirst) (lhs rhs : Text) (hne : lhs ≠ rhs) (tally : Tally) :
    ∃ result, (solve (.ofRules rules) clock config (.ofText lhs) (.ofText rhs) tally).answer
        = .ok result ∧
      (result.status ≠ .abort →
        (result.status = .success
          ↔ (rewriteGraph rules).edist lhs rhs ≤ (2 * config.maxDepth + 2 : ℕ))) ∧
      (result.status = .success → ∃ (d : ℕ) (left right : ProofUnit Evidence),
        (rewriteGraph rules).edist lhs rhs = d ∧ result.units = [left, right] ∧
        left.side = .left ∧ right.side = .right ∧
        left.steps.length = (d + 1) / 2 ∧ right.steps.length = d / 2) := by
  obtain ⟨y, g, result, hy, hanswer, hreports⟩ :=
    Exploration.exists_result rules hkey hne clock tally
  refine ⟨result, hanswer, ?_, ?_⟩
  · intro hended
    have hbound : 2 * config.maxDepth + 2 = 2 * (config.maxDepth + 1) := rfl
    rw [edist_rewriteGraph hsym, hbound, ← joinableWithin_iff_distance_le hsym]
    exact (hy.reports_iff_joinableWithin hkey hne hbfs hreports hended).1
  · intro hsuccess
    rcases result with ⟨p, units, stats⟩ | _ | _
    · obtain ⟨x, k, q, u, w, c, left, right, -, -, hs, hc, hunits, hleft, hright, hsource,
        htarget⟩ := hy.exists_crosses hkey hne hbfs hreports
      obtain ⟨hdistance, -⟩ := hc.distance_eq hsym hs
      exact ⟨u.rank + 1, left, right, (edist_rewriteGraph hsym lhs rhs).trans hdistance, hunits,
        hleft, hright, hc.halves hsym hs hsource htarget⟩
    · exact absurd hsuccess (by simp [Result.status])
    · exact absurd hsuccess (by simp [Result.status])

theorem solve_balanced_odd :
    let rules : List Rule := [{ name := utf8 "swap", lhs := utf8 "ab", rhs := utf8 "ba" }]
    ∃ result left right, (solve (.ofRules rules) (fun _ ↦ 0) {} (.ofText (utf8 "bbba"))
        (.ofText (utf8 "abbb")) {}).answer = .ok result ∧ result.status = .success ∧
      result.units = [left, right] ∧ left.steps.length = 2 ∧ right.steps.length = 1 ∧
      (rewriteGraph rules).edist (utf8 "bbba") (utf8 "abbb") = (3 : ℕ) := by
  intro rules
  obtain ⟨result, hanswer, -, hbalanced⟩ := solve_balanced rules (by decide) (fun _ ↦ 0) {} rfl rfl
    (utf8 "bbba") (utf8 "abbb") (by decide) {}
  have hrun : (solve (.ofRules rules) (fun _ ↦ 0) {} (.ofText (utf8 "bbba"))
      (.ofText (utf8 "abbb")) {}).answer.toOption.map
        (fun r ↦ (r.status, r.units.map fun u ↦ u.steps.length)) = some (.success, [2, 1]) := by
    decide +kernel
  rw [hanswer] at hrun
  obtain ⟨hsuccess, hlengths⟩ := Prod.mk.inj (Option.some.inj hrun)
  obtain ⟨d, left, right, hd, hunits, -, -, hleft, hright⟩ := hbalanced hsuccess
  rw [hunits] at hlengths
  obtain ⟨hl, hr⟩ : left.steps.length = 2 ∧ right.steps.length = 1 := by simpa using hlengths
  refine ⟨result, left, right, hanswer, hsuccess, hunits, hl, hr, ?_⟩
  have hthree : d = 3 := by omega
  rw [hd, hthree]

end Search

end Joinability
