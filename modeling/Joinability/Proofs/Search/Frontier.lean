import Mathlib.Data.List.Perm.Subperm
import Joinability.Frontier.Basic

/-!
# What frontiers do

A search uses its frontier in two ways: it asks for a vertex, and it adds one. This module says what
the two frontiers make of each, so that proofs about searches need not look into them.

Being asked in vain is where the two differ most. A best-first frontier then has nothing that waits
and stays as it was. A breadth-first one closes, and gives up a whole level if the depth bound is
reached (`BreadthFirst.next_eq_none_cases`).
-/

namespace Joinability

/-! ## Level by level -/

namespace BreadthFirst

variable {q r : BreadthFirst} {v d : Nat}

theorem promote_eq_some (h : q.promote = (some v, r)) :
    ∃ vs, q.arrivals.reverse = v :: vs ∧ r = { q with current := vs, arrivals := [] } := by
  unfold promote at h
  rcases hrev : q.arrivals.reverse with _ | ⟨w, ws⟩
  · simp only [hrev] at h
    exact absurd (Prod.mk.inj h).1 (by simp)
  · simp only [hrev] at h
    obtain ⟨hw, hr⟩ := Prod.mk.inj h
    exact ⟨ws, by rw [Option.some.inj hw], hr.symm⟩

theorem promote_eq_none (h : q.promote = (none, r)) : q.arrivals = [] ∧ r = q := by
  unfold promote at h
  rcases hrev : q.arrivals.reverse with _ | ⟨w, ws⟩
  · simp only [hrev] at h
    exact ⟨List.reverse_eq_nil_iff.mp hrev, (Prod.mk.inj h).2.symm⟩
  · simp only [hrev] at h
    exact absurd (Prod.mk.inj h).1 (by simp)

/-- A vertex is handed out of the current level, or is the first of the arrivals. -/
theorem next_eq_some_cases (h : q.next = (some v, r)) :
    (∃ vs, q.current = v :: vs ∧ r = { q with current := vs }) ∨
    (q.current = [] ∧ ∃ vs, q.arrivals.reverse = v :: vs ∧
      ((q.levels = .closed ∧ r = { q with current := vs, arrivals := [] }) ∨
       (q.levels = .counted ∧ q.depth < q.maxDepth ∧
         r = { q with depth := q.depth + 1, current := vs, arrivals := [] }) ∨
       (q.levels = .waiting ∧
         r = { q with levels := .counted, current := vs, arrivals := [] }))) := by
  unfold next at h
  split at h
  · next vs hc =>
    obtain ⟨hw, hr⟩ := Prod.mk.inj h
    obtain rfl := Option.some.inj hw
    exact Or.inl ⟨_, hc, hr.symm⟩
  · next hc hl =>
    obtain ⟨vs, hrev, hr⟩ := promote_eq_some h
    exact Or.inr ⟨hc, vs, hrev, Or.inl ⟨hl, hr⟩⟩
  · next hc hl =>
    split at h
    · exact absurd (Prod.mk.inj h).1 (by simp)
    · split at h
      · exact absurd (Prod.mk.inj h).1 (by simp)
      · next hdepth =>
        obtain ⟨vs, hrev, hr⟩ := promote_eq_some h
        exact Or.inr ⟨hc, vs, hrev, Or.inr (Or.inl ⟨hl, Nat.lt_of_not_le hdepth, hr⟩)⟩
  · next hc hl =>
    split at h
    · exact absurd (Prod.mk.inj h).1 (by simp)
    · obtain ⟨vs, hrev, hr⟩ := promote_eq_some h
      exact Or.inr ⟨hc, vs, hrev, Or.inr (Or.inr ⟨hl, hr⟩)⟩

/-- When nothing is handed out, the level is used up and the frontier closes: either nothing has
arrived, or the depth bound has been reached and what has arrived is given up. -/
theorem next_eq_none_cases (h : q.next = (none, r)) :
    q.current = [] ∧ ((q.arrivals = [] ∧ r = { q with levels := .closed }) ∨
      (q.arrivals ≠ [] ∧ q.levels = .counted ∧ q.maxDepth ≤ q.depth ∧
        r = { q with levels := .closed, arrivals := [], cut := true })) := by
  unfold next at h
  split at h
  · exact absurd (Prod.mk.inj h).1 (by simp)
  · next hc hl =>
    obtain ⟨harr, rfl⟩ := promote_eq_none h
    exact ⟨hc, Or.inl ⟨harr, by rw [← hl]⟩⟩
  · next hc hl =>
    split at h
    · next harr => exact ⟨hc, Or.inl ⟨List.isEmpty_iff.mp harr, (Prod.mk.inj h).2.symm⟩⟩
    · next harr =>
      rw [List.isEmpty_iff] at harr
      split at h
      · next hdepth => exact ⟨hc, Or.inr ⟨harr, hl, hdepth, (Prod.mk.inj h).2.symm⟩⟩
      · exact absurd (promote_eq_none h).1 harr
  · next hc hl =>
    split at h
    · next harr => exact ⟨hc, Or.inl ⟨List.isEmpty_iff.mp harr, (Prod.mk.inj h).2.symm⟩⟩
    · next harr => exact absurd (List.isEmpty_iff.mpr (promote_eq_none h).1) harr

theorem closed_of_next_none (h : q.next = (none, r)) :
    r.current = [] ∧ r.arrivals = [] ∧ r.levels = .closed ∧ r.maxDepth = q.maxDepth := by
  obtain ⟨hc, ⟨harr, rfl⟩ | ⟨-, -, -, rfl⟩⟩ := next_eq_none_cases h
  · exact ⟨hc, harr, rfl, rfl⟩
  · exact ⟨hc, rfl, rfl, rfl⟩

theorem next_of_next_none (h : q.next = (none, r)) : r.next = (none, r) := by
  obtain ⟨hcurrent, harrivals, hlevels, -⟩ := closed_of_next_none h
  simp [next, promote, hcurrent, harrivals, hlevels]

theorem cut_of_next_none (h : q.next = (none, r)) : q.toList = [] ∨ r.cut = true := by
  obtain ⟨hc, ⟨harr, -⟩ | ⟨-, -, -, rfl⟩⟩ := next_eq_none_cases h
  · exact Or.inl (by rw [toList, hc, harr]; rfl)
  · exact Or.inr rfl

theorem settings_of_next {v : Option Nat} (h : q.next = (v, r)) :
    r.maxDepth = q.maxDepth ∧ (q.cut = true → r.cut = true) := by
  unfold next promote at h
  grind

/-! ### Under a greater bound -/

theorem next_deepen (h : q.next = (some v, r)) (hd : q.maxDepth ≤ d) :
    { q with maxDepth := d }.next = (some v, { r with maxDepth := d }) := by
  rcases next_eq_some_cases h with ⟨vs, hvs, rfl⟩ | ⟨hc, vs, hrev, hcase⟩
  · simp only [next, hvs]
  · have harrivals : q.arrivals.isEmpty = false := by
      rw [← List.isEmpty_reverse, hrev, List.isEmpty_cons]
    rcases hcase with ⟨hq, rfl⟩ | ⟨hq, hdepth, rfl⟩ | ⟨hq, rfl⟩
    · simp only [next, promote, hc, hq, hrev]
    · have hdeep : ¬d ≤ q.depth := Nat.not_le_of_lt (Nat.lt_of_lt_of_le hdepth hd)
      simp only [next, promote, hc, hq, hrev, harrivals, hdeep, Bool.false_eq_true, if_false]
    · simp only [next, promote, hc, hq, hrev, harrivals, Bool.false_eq_true, if_false]

theorem next_deepen_none (h : q.next = (none, r)) (hcut : r.cut = false) :
    { q with maxDepth := d }.next = (none, { r with maxDepth := d }) := by
  obtain ⟨hc, ⟨harr, rfl⟩ | ⟨-, -, -, rfl⟩⟩ := next_eq_none_cases h
  · cases q.levels <;> simp [next, promote, hc, harr]
  · exact absurd hcut (by simp)

end BreadthFirst

/-! ## By score -/

namespace BestFirst

variable {κ : Type} {q r : BestFirst κ}

theorem settings_of_next {v : Option Nat} (h : q.next = (v, r)) :
    r.maxDepth = q.maxDepth ∧ r.cut = q.cut := by
  unfold next at h
  grind

theorem toList_eq_nil_of_next_none (h : q.next = (none, r)) : q.toList = [] := by
  unfold next at h
  grind [toList]

theorem next_of_next_none (h : q.next = (none, r)) : r.next = (none, r) := by
  unfold next at h
  split at h
  · next hwaiting =>
    obtain ⟨-, rfl⟩ := Prod.mk.inj h
    rw [next, hwaiting]
  · simp at h

theorem mem_toList_enqueue [LT κ] [DecidableLT κ] (q : BestFirst κ) (score : Unit → κ)
    (v d : Nat) {i : Nat} :
    i ∈ (q.enqueue score v d).toList ↔ i ∈ q.toList ∨ (i = v ∧ d ≤ q.maxDepth) := by
  rw [enqueue]
  by_cases hd : q.maxDepth < d
  · rw [if_pos hd]
    exact (or_iff_left fun h ↦ absurd h.2 (Nat.not_le_of_lt hd)).symm
  · have hperm := (place_perm { score := score (), vertex := v, depth := d } q.waiting).map
      fun s ↦ s.vertex
    rw [if_neg hd, and_iff_left (Nat.le_of_not_lt hd), or_comm, ← List.mem_cons]
    exact hperm.mem_iff

/-- An arrival takes its place in any order in which it follows the entries whose score is not
higher than its own, and precedes the others. The entries may be those of a list that knows more of
them, such as their age. -/
theorem exists_place [LT κ] [DecidableLT κ] {γ : Type} (f : γ → Scored κ) {R : γ → γ → Prop}
    (htrans : ∀ {a b c : γ}, R a b → R b c → R a c) {c : γ} {w : List γ} (hw : w.Pairwise R)
    (hlt : ∀ b ∈ w, (f c).score < (f b).score → R c b)
    (hle : ∀ b ∈ w, ¬(f c).score < (f b).score → R b c) :
    ∃ w' : List γ, w'.map f = place (f c) (w.map f) ∧ w'.Perm (c :: w) ∧ w'.Pairwise R := by
  induction w with
  | nil => exact ⟨[c], rfl, List.Perm.refl _, List.pairwise_singleton _ _⟩
  | cons b w ih =>
    obtain ⟨hb, hw'⟩ := List.pairwise_cons.mp hw
    rw [List.map_cons, place]
    split
    · next h =>
      have hcb : R c b := hlt b List.mem_cons_self h
      refine ⟨c :: b :: w, rfl, List.Perm.refl _, List.pairwise_cons.mpr ⟨?_, hw⟩⟩
      intro a ha
      rcases List.mem_cons.mp ha with rfl | ha
      · exact hcb
      · exact htrans hcb (hb a ha)
    · next h =>
      obtain ⟨w', hmap, hperm, hsorted⟩ := ih hw' (fun a ha ↦ hlt a (List.mem_cons_of_mem b ha))
        fun a ha ↦ hle a (List.mem_cons_of_mem b ha)
      refine ⟨b :: w', by rw [List.map_cons, hmap],
        (hperm.cons b).trans (List.Perm.swap c b w), List.pairwise_cons.mpr ⟨?_, hsorted⟩⟩
      intro a ha
      rcases List.mem_cons.mp (hperm.mem_iff.mp ha) with rfl | ha
      · exact hle b List.mem_cons_self h
      · exact hb a ha

end BestFirst

/-! ## Both -/

namespace Frontier

variable {κ : Type} {f g : Frontier κ} {i : Nat}

/-- The greatest depth that is handed out. -/
def maxDepth : Frontier κ → Nat
  | breadthFirst q => q.maxDepth
  | bestFirst q => q.maxDepth

theorem exists_next_breadthFirst {q : BreadthFirst} {v : Option Nat}
    (h : (Frontier.breadthFirst q).next = (v, f)) : ∃ r, q.next = (v, r) ∧ f = .breadthFirst r := by
  rcases hq : q.next with ⟨w, r⟩
  rw [Frontier.next, hq] at h
  obtain ⟨hw, hf⟩ := Prod.mk.inj h
  exact ⟨r, by rw [← hw]; rfl, hf.symm⟩

theorem exists_next_bestFirst {q : BestFirst κ} {v : Option Nat}
    (h : (Frontier.bestFirst q).next = (v, f)) : ∃ r, q.next = (v, r) ∧ f = .bestFirst r := by
  rcases hq : q.next with ⟨w, r⟩
  rw [Frontier.next, hq] at h
  obtain ⟨hw, hf⟩ := Prod.mk.inj h
  exact ⟨r, by rw [← hw]; rfl, hf.symm⟩

theorem settings_of_next {v : Option Nat} (h : f.next = (v, g)) :
    g.strategy = f.strategy ∧ g.maxDepth = f.maxDepth ∧ (f.isCut = true → g.isCut = true) := by
  cases f with
  | breadthFirst q =>
    obtain ⟨r, hq, rfl⟩ := exists_next_breadthFirst h
    obtain ⟨hmax, hcut⟩ := BreadthFirst.settings_of_next hq
    exact ⟨rfl, hmax, hcut⟩
  | bestFirst q =>
    obtain ⟨r, hq, rfl⟩ := exists_next_bestFirst h
    obtain ⟨hmax, hcut⟩ := BestFirst.settings_of_next hq
    exact ⟨rfl, hmax, fun h ↦ hcut.trans h⟩

/-! ### Nothing to hand out -/

theorem toList_of_next_none (h : f.next = (none, g)) : g.toList = [] := by
  cases f with
  | breadthFirst q =>
    obtain ⟨r, hq, rfl⟩ := exists_next_breadthFirst h
    exact BreadthFirst.toList_of_next_none hq
  | bestFirst q =>
    obtain ⟨r, hq, rfl⟩ := exists_next_bestFirst h
    exact BestFirst.toList_of_next_none hq

theorem next_of_next_none (h : f.next = (none, g)) : g.next = (none, g) := by
  cases f with
  | breadthFirst q =>
    obtain ⟨r, hq, rfl⟩ := exists_next_breadthFirst h
    rw [next, BreadthFirst.next_of_next_none hq]
    rfl
  | bestFirst q =>
    obtain ⟨r, hq, rfl⟩ := exists_next_bestFirst h
    rw [next, BestFirst.next_of_next_none hq]
    rfl

/-- Only a frontier that is cut hands out nothing although vertices wait. -/
theorem isCut_of_next_none (h : f.next = (none, g)) (hi : i ∈ f.toList) : g.isCut = true := by
  cases f with
  | breadthFirst q =>
    obtain ⟨r, hq, rfl⟩ := exists_next_breadthFirst h
    exact (BreadthFirst.cut_of_next_none hq).resolve_left (List.ne_nil_of_mem hi)
  | bestFirst q =>
    obtain ⟨r, hq, -⟩ := exists_next_bestFirst h
    exact absurd (BestFirst.toList_eq_nil_of_next_none hq) (List.ne_nil_of_mem hi)

/-- A best-first frontier hands out whatever waits. -/
theorem notMem_toList_of_next_none (hs : f.strategy = .bestFirst) (h : f.next = (none, g)) :
    i ∉ f.toList := by
  cases f with
  | breadthFirst q => exact absurd hs (by simp [strategy])
  | bestFirst q =>
    obtain ⟨r, hq, -⟩ := exists_next_bestFirst h
    rw [toList, BestFirst.toList_eq_nil_of_next_none hq]
    exact List.not_mem_nil

/-! ### Arrivals -/

section Enqueue

variable [LT κ] [DecidableLT κ] (f : Frontier κ) (score : Unit → κ) (v d : Nat)

/-- An arrival joins those that wait, or is turned away. -/
theorem toList_enqueue_subperm : (f.enqueue score v d).toList.Subperm (v :: f.toList) := by
  cases f with
  | breadthFirst q =>
    rw [enqueue, toList, BreadthFirst.toList_enqueue]
    exact (List.perm_append_singleton v q.toList).subperm
  | bestFirst q =>
    rw [enqueue, toList, BestFirst.enqueue]
    by_cases hd : q.maxDepth < d
    · rw [if_pos hd]
      exact List.Subperm.cons_self
    · rw [if_neg hd]
      exact ((BestFirst.place_perm _ q.waiting).map _).subperm

theorem settings_enqueue : (f.enqueue score v d).strategy = f.strategy ∧
    (f.enqueue score v d).maxDepth = f.maxDepth ∧
    (f.isCut = true → (f.enqueue score v d).isCut = true) := by
  cases f with
  | breadthFirst q => exact ⟨rfl, rfl, id⟩
  | bestFirst q =>
    rw [enqueue, BestFirst.enqueue]
    by_cases hd : q.maxDepth < d
    · rw [if_pos hd]
      exact ⟨rfl, rfl, fun _ ↦ rfl⟩
    · rw [if_neg hd]
      exact ⟨rfl, rfl, id⟩

theorem mem_toList_enqueue_of_mem (hi : i ∈ f.toList) : i ∈ (f.enqueue score v d).toList := by
  cases f with
  | breadthFirst q =>
    rw [enqueue, toList, BreadthFirst.toList_enqueue]
    exact List.mem_append_left _ hi
  | bestFirst q => exact (BestFirst.mem_toList_enqueue q score v d).mpr (Or.inl hi)

theorem mem_toList_of_enqueue (hs : f.strategy = .bestFirst)
    (hi : i ∈ (f.enqueue score v d).toList) : i ∈ f.toList ∨ (i = v ∧ d ≤ f.maxDepth) := by
  cases f with
  | breadthFirst q => exact absurd hs (by simp [strategy])
  | bestFirst q => exact (BestFirst.mem_toList_enqueue q score v d).mp hi

/-- An arrival joins those that wait, or lies too deep. -/
theorem mem_toList_enqueue_self_or : v ∈ (f.enqueue score v d).toList ∨
    ((f.enqueue score v d).isCut = true ∧ f.maxDepth < d) := by
  cases f with
  | breadthFirst q =>
    rw [enqueue, toList, BreadthFirst.toList_enqueue]
    exact Or.inl (List.mem_append_right _ List.mem_cons_self)
  | bestFirst q =>
    rcases Nat.lt_or_ge q.maxDepth d with hd | hd
    · refine Or.inr ⟨?_, hd⟩
      rw [enqueue, BestFirst.enqueue, if_pos hd]
      rfl
    · exact Or.inl ((BestFirst.mem_toList_enqueue q score v d).mpr (Or.inr ⟨rfl, hd⟩))

end Enqueue

/-! ### Under a greater bound -/

/-- The frontier with another depth bound. Only a breadth-first one takes it over, since a
best-first one has turned vertices away by its bound already. -/
def deepen (d : Nat) : Frontier κ → Frontier κ
  | breadthFirst q => .breadthFirst { q with maxDepth := d }
  | bestFirst q => .bestFirst q

theorem deepen_ofStrategy {s : Strategy} {m d : Nat} (h : m = d ∨ s = .breadthFirst) :
    (Frontier.ofStrategy s m : Frontier κ).deepen d = .ofStrategy s d := by
  rcases h with rfl | rfl
  · cases s <;> rfl
  · rfl

theorem next_deepen {d v : Nat} (h : f.next = (some v, g)) (hd : f.maxDepth ≤ d) :
    (f.deepen d).next = (some v, g.deepen d) := by
  cases f with
  | breadthFirst q =>
    obtain ⟨r, hq, rfl⟩ := exists_next_breadthFirst h
    rw [deepen, next, BreadthFirst.next_deepen hq hd]
    rfl
  | bestFirst q =>
    obtain ⟨r, -, rfl⟩ := exists_next_bestFirst h
    exact h

/-- Asked in vain under one bound, a frontier is asked in vain under another, unless it was cut. -/
theorem next_deepen_none {d : Nat} (h : f.next = (none, g))
    (hd : g.isCut = false ∨ f.maxDepth = d) : (f.deepen d).next = (none, g.deepen d) := by
  cases f with
  | breadthFirst q =>
    obtain ⟨r, hq, rfl⟩ := exists_next_breadthFirst h
    rcases hd with hcut | rfl
    · rw [deepen, next, BreadthFirst.next_deepen_none hq hcut]
      rfl
    · have hmax : q.maxDepth = r.maxDepth := (BreadthFirst.settings_of_next hq).1.symm
      show (Frontier.breadthFirst q).next = (none, .breadthFirst { r with maxDepth := q.maxDepth })
      rw [h, hmax]
  | bestFirst q =>
    obtain ⟨r, -, rfl⟩ := exists_next_bestFirst h
    exact h

end Frontier

end Joinability
