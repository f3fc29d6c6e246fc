import Joinability.Proofs.BreadthFirst.Level
import Joinability.Proofs.Search.Soundness
import Joinability.Proofs.Search.Tried

/-!
# What a breadth-first search with rules has surveyed

Level by level, and losing no target on the way, a breadth-first search surveys balls: when
everything below a rank has been visited, the vertices that are there include every text close
enough to a root (`Surveyed.exists_of_derives`). The texts of the vertices are different from each
other, so no text is close to both roots.

A search ends for want of vertices when everything down to its depth bound has been visited. It ends
with a meeting when the vertex in focus has a target on the other side (`Crosses`), and everything
of smaller rank was visited before.
-/

namespace Joinability

variable {rules : List Rule} {lhs rhs : Text}

/-- The second vertex lies at most one level below the first. -/
def Vertex.NearlyAbove {α : Type} (v w : Vertex α) : Prop := w.depth ≤ v.depth + 1

namespace Exploration

variable {x y : Exploration Payload Recipe Evidence} {focus : Option Nat} {maxDepth k r : Nat}

/-- Both sides of a breadth-first search with rules, as long as they are apart. -/
structure Surveyed (rules : List Rule) (lhs rhs : Text) (x : Exploration Payload Recipe Evidence)
    (focus : Option Nat) (maxDepth k : Nat) (q : BreadthFirst) : Prop where
  orderly : x.Orderly focus
  labelled : x.skeleton.Labelled rules
  key : x.config.key = Term.pretty
  root (s : Side) : ∃ v, x.skeleton.vertices[s.root]? = some v ∧ v.pretty = s.pick lhs rhs
  levelled : x.Levelled focus maxDepth k q
  tried : x.skeleton.Tried rules Vertex.NearlyAbove x.progress

/-- All vertices of a smaller rank have been visited. -/
def VisitedBelow (x : Exploration Payload Recipe Evidence) (r : Nat) : Prop :=
  ∀ (i : Nat) (v : Vertex Payload), x.skeleton.vertices[i]? = some v → v.rank < r →
    ∃ c, x.progress i = some (true, c)

/-! ## Along a search -/

/-- A child lies one level below its parent, and nothing lies deeper than that while the parent is
in focus. -/
theorem Levelled.nearlyAbove_child {p : Vertex Payload} (t : Term Payload) (tokens : List Nat) :
    p.NearlyAbove (x.skeleton.child p t tokens) := Nat.mod_le _ _

theorem Levelled.rank_le_of_focus {q : BreadthFirst} (h : x.Levelled focus maxDepth k q)
    {v w : Vertex Payload} {i : Nat} (hf : focus = some v.id)
    (hv : x.skeleton.vertices[v.id]? = some v) (hw : x.skeleton.vertices[i]? = some w) :
    w.rank ≤ v.rank + 2 := by
  have hk : k - 1 = v.id := by
    have := h.inFocus hf
    omega
  exact h.ranked.span hw (hk ▸ hv)

theorem Reached.tried_nearlyAbove {config : Config Payload} (hkey : config.key = Term.pretty)
    (hne : lhs ≠ rhs) (hbfs : config.strategy = .breadthFirst)
    (h : Reached (.ofRules rules) config (.ofText lhs) (.ofText rhs) x focus)
    (hapart : x.meeting = none) : x.skeleton.Tried rules Vertex.NearlyAbove x.progress := by
  have hkeyne := Config.key_ofText_ne hkey hne
  induction h with
  | start => exact tried_rooted config (.ofText lhs) (.ofText rhs)
  | move h hm ih =>
    have hopen := hm.isOpen.meeting
    obtain ⟨k, q, hq⟩ := h.levelled hkeyne hbfs hopen
    refine (hm.effect hapart).tried (h.orderly hkeyne) (h.labelled hkeyne)
      (h.config_eq ▸ hkey) (ih hopen) (fun v t tokens _ _ ↦ Levelled.nearlyAbove_child t tokens)
      ?_
    intro v w i hf hv hw hside
    have hrank := hq.rank_le_of_focus hf hv hw
    rw [Vertex.rank, Vertex.rank, hside] at hrank
    rw [Vertex.NearlyAbove]
    omega

/-- **A breadth-first search with rules surveys what it visits.** -/
theorem Reached.surveyed {config : Config Payload} (hkey : config.key = Term.pretty)
    (hne : lhs ≠ rhs) (hbfs : config.strategy = .breadthFirst)
    (h : Reached (.ofRules rules) config (.ofText lhs) (.ofText rhs) x focus)
    (hapart : x.meeting = none) :
    ∃ k q, x.Surveyed rules lhs rhs focus config.maxDepth k q := by
  have hkeyne := Config.key_ofText_ne hkey hne
  obtain ⟨k, q, hq⟩ := h.levelled hkeyne hbfs hapart
  exact ⟨k, q, h.orderly hkeyne, h.labelled hkeyne, h.config_eq ▸ hkey, h.exists_root_pretty, hq,
    h.tried_nearlyAbove hkey hne hbfs hapart⟩

namespace Surveyed

variable {q : BreadthFirst}

theorem grown (h : Surveyed rules lhs rhs x focus maxDepth k q) : x.Grown rules lhs rhs focus :=
  ⟨h.orderly, h.labelled, h.key, h.root⟩

/-! ## Balls -/

/-- When everything of a smaller rank than `r` has been visited, every text that is close enough to
a root is the text of a vertex on its side, at most as deep as the text is far. -/
theorem exists_of_derives (h : Surveyed rules lhs rhs x focus maxDepth k q)
    (hr : x.VisitedBelow r) {s : Side} {n : Nat} {t : Text}
    (ht : Derives rules n (s.pick lhs rhs) t) (hn : 2 * n + s.root < r + 2) :
    ∃ (i : Nat) (v : Vertex Payload), x.skeleton.vertices[i]? = some v ∧ v.side = s ∧
      v.pretty = t ∧ v.depth ≤ n := by
  induction n generalizing t with
  | zero =>
    obtain ⟨v, hv, hside, hpretty, hdepth⟩ := h.grown.exists_root s
    exact ⟨s.root, v, hv, hside, hpretty.trans (derives_zero.mp ht), Nat.le_of_eq hdepth⟩
  | succ n ih =>
    obtain ⟨u, hu, hstep⟩ := ht
    obtain ⟨i, v, hv, hside, rfl, hdepth⟩ := ih hu (by omega)
    -- the last text but one has a vertex that was visited, so its targets have vertices too
    have hrank : v.rank < r := by
      rw [Vertex.rank, hside]
      omega
    obtain ⟨c, hc⟩ := hr i v hv hrank
    obtain ⟨j, w, hw, hwside, rfl, hnear⟩ := h.tried.exists_of_visited hv hc hstep
    exact ⟨j, w, hw, hwside.trans hside, rfl, Nat.le_trans hnear (Nat.add_le_add_right hdepth 1)⟩

theorem not_derives (h : Surveyed rules lhs rhs x focus maxDepth k q) (hr : x.VisitedBelow r)
    {s : Side} {m n : Nat} {t : Text} (hs : Derives rules m (s.pick lhs rhs) t)
    (ho : Derives rules n (s.opposite.pick lhs rhs) t) (hm : 2 * m + s.root < r + 2)
    (hn : 2 * n + s.opposite.root < r + 2) : False := by
  obtain ⟨i, v, hv, hvside, hvt, -⟩ := h.exists_of_derives hr hs hm
  obtain ⟨j, w, hw, hwside, hwt, -⟩ := h.exists_of_derives hr ho hn
  obtain rfl := h.grown.eq_of_pretty_eq hv hw (hvt.trans hwt.symm)
  have hboth : s = s.opposite := hvside.symm.trans hwside
  cases s <;> exact absurd hboth (by decide)

theorem not_derives_both (h : Surveyed rules lhs rhs x focus maxDepth k q)
    (hr : x.VisitedBelow r) {m n : Nat} {t : Text} (hl : Derives rules m lhs t)
    (hrhs : Derives rules n rhs t) (hm : 2 * m < r + 2) (hn : 2 * n + 1 < r + 2) : False :=
  h.not_derives (s := .left) hr hl hrhs hm hn

/-! ## Visited vertices -/

theorem visited_of_lt {v w : Vertex Payload} {i : Nat}
    (h : Surveyed rules lhs rhs x (some v.id) maxDepth k q)
    (hw : x.skeleton.vertices[i]? = some w) (hi : i < v.id) :
    ∃ c, x.progress i = some (true, c) := by
  have hk := h.levelled.inFocus rfl
  obtain ⟨b, c, hc⟩ := exists_progress hw
  rcases h.levelled.handed.visited hc (by omega) with rfl | hf
  · exact ⟨c, hc⟩
  · exact absurd (Option.some.inj hf) (Nat.ne_of_gt hi)

theorem visitedBelow_focus {v : Vertex Payload}
    (h : Surveyed rules lhs rhs x (some v.id) maxDepth k q)
    (hv : x.skeleton.vertices[v.id]? = some v) : x.VisitedBelow v.rank := by
  intro i w hw hlt
  refine h.visited_of_lt hw (Nat.lt_of_not_le ?_)
  intro hle
  exact absurd hlt (Nat.not_lt.mpr (h.levelled.ranked.mono hv hw hle))

theorem depth_le {v : Vertex Payload} (h : Surveyed rules lhs rhs x (some v.id) maxDepth k q)
    (hv : x.skeleton.vertices[v.id]? = some v) : v.depth ≤ maxDepth := h.levelled.depth_le hv

/-- When the queue has nothing to hand out, everything within the depth bound has been visited. -/
theorem visitedBelow_of_next_none (h : Surveyed rules lhs rhs x none maxDepth k q)
    {entries : List (Entry Payload)} (hnext : y.next = (none, x, entries)) :
    x.VisitedBelow (2 * maxDepth + 2) := by
  obtain ⟨hfront, -⟩ := next_eq hnext
  have hclosed : q.levels = .closed := by
    rcases hy : y.frontier with p | p
    · rw [hy] at hfront
      obtain ⟨r, hp, hr⟩ := Frontier.exists_next_breadthFirst hfront
      rw [h.levelled.frontier] at hr
      obtain ⟨-, -, hclosed, -⟩ := BreadthFirst.closed_of_next_none hp
      rwa [Frontier.breadthFirst.inj hr]
    · rw [hy, h.levelled.frontier] at hfront
      exact absurd (Prod.mk.inj hfront).2 (by simp)
  intro i v hv hrank
  obtain ⟨b, c, hc⟩ := exists_progress hv
  rcases h.levelled.queued with ⟨hq, -⟩ | ⟨m, hm⟩ | ⟨-, -, -, -, hdeep⟩
  · rw [hq] at hclosed
    exact absurd hclosed (by simp)
  · rw [hm.levels] at hclosed
    exact absurd hclosed (by simp)
  · -- only what lies too deep was not handed out
    have hi : i < k := by
      by_contra hle
      have hdepth := hdeep i v hv (Nat.le_of_not_lt hle)
      rw [h.levelled.maxDepth] at hdepth
      rw [Vertex.rank] at hrank
      omega
    obtain rfl := (h.levelled.handed.visited hc hi).resolve_right (by simp)
    exact ⟨c, hc⟩

end Surveyed

end Exploration

end Joinability
