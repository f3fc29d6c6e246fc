import Joinability.Proofs.Search.Skeleton

/-!
# The two trees

`Skeleton.IsForest` says that the two roots stand at their ids, that every other vertex hangs by its
parent edge below an older vertex of the same side and one level higher, and that the canonical keys
find exactly the vertices. It holds when the roots have been created, and neither a child nor the
edge at which the sides meet can break it.

## Depths and machine words

Depths are counted in 64 bits, so a child of a vertex at the greatest depth would stand at depth
zero. A search never comes there: no vertex lies deeper than there are edges, and there are no more
edges than steps, of which the budget admits fewer than `2 ^ 64`.
-/

namespace Joinability

variable {α τ π : Type}

theorem getElem?_push_of_eq_some {β : Type} {a : Array β} {i : Nat} {b c : β}
    (h : a[i]? = some b) : (a.push c)[i]? = some b := by
  rw [Array.getElem?_push, if_neg (Nat.ne_of_lt (Array.getElem?_eq_some_iff.mp h).1), h]

theorem of_getElem?_push {β : Type} {a : Array β} {i : Nat} {b c : β}
    (h : (a.push c)[i]? = some b) : (i = a.size ∧ b = c) ∨ a[i]? = some b := by
  rw [Array.getElem?_push] at h
  by_cases hi : i = a.size
  · rw [if_pos hi] at h
    exact Or.inl ⟨hi, (Option.some.inj h).symm⟩
  · rw [if_neg hi] at h
    exact Or.inr h

theorem Side.exists_root_eq {i : Nat} (h : i < 2) : ∃ s : Side, i = s.root := by
  match i, h with
  | 0, _ => exact ⟨.left, rfl⟩
  | 1, _ => exact ⟨.right, rfl⟩

theorem Side.root_add_root_opposite (s : Side) : s.root + s.opposite.root = 1 := by cases s <;> rfl

namespace Skeleton

/-- The vertex `v` hangs by the edge `e` below the vertex `p`. -/
structure Hangs (k : Skeleton α τ π) (e : Edge τ π) (p v : Vertex α) : Prop where
  edge : k.edges[e.id]? = some e
  parent : k.vertices[p.id]? = some p
  source : e.source = p.id
  target : e.target = v.id
  parentEdge : v.parentEdge = some e.id
  notRoot : v.isRoot = false
  older : p.id < v.id
  side : p.side = v.side
  depth : v.depth = p.depth + 1

/-- Two trees, with the roots at their ids, and keys that find exactly the vertices. -/
structure IsForest (k : Skeleton α τ π) : Prop where
  id_eq {i : Nat} {v : Vertex α} : k.vertices[i]? = some v → v.id = i
  edge_id_eq {j : Nat} {e : Edge τ π} : k.edges[j]? = some e → e.id = j
  root (s : Side) : ∃ v, k.vertices[s.root]? = some v ∧ v.isRoot = true ∧ v.side = s ∧ v.depth = 0
  hangs {i : Nat} {v : Vertex α} : k.vertices[i]? = some v → 2 ≤ i → ∃ e p, k.Hangs e p v
  find_iff {t : Text} {i : Nat} :
    k.find t = some i ↔ ∃ v, k.vertices[i]? = some v ∧ k.key v.term = t
  apart {m : Nat} : k.meeting = some m → ∃ e u w, k.edges[m]? = some e ∧
    k.vertices[e.source]? = some u ∧ k.vertices[e.target]? = some w ∧ w.side ≠ u.side
  depth_le {i : Nat} {v : Vertex α} : k.vertices[i]? = some v → v.depth ≤ k.edges.size

/-- The vertices and edges of `k` are still there in `l`. -/
structure Extends (l k : Skeleton α τ π) : Prop where
  vertex {i : Nat} {v : Vertex α} : k.vertices[i]? = some v → l.vertices[i]? = some v
  edge {j : Nat} {e : Edge τ π} : k.edges[j]? = some e → l.edges[j]? = some e

theorem Extends.refl (k : Skeleton α τ π) : k.Extends k := ⟨id, id⟩

theorem Extends.trans {k l m : Skeleton α τ π} (hm : m.Extends l) (hl : l.Extends k) :
    m.Extends k :=
  ⟨fun h ↦ hm.vertex (hl.vertex h), fun h ↦ hm.edge (hl.edge h)⟩

theorem Hangs.mono {k l : Skeleton α τ π} (hl : l.Extends k) {e : Edge τ π} {p v : Vertex α}
    (h : k.Hangs e p v) : l.Hangs e p v :=
  { h with edge := hl.edge h.edge, parent := hl.vertex h.parent }

theorem extends_withChild (k : Skeleton α τ π) (p : Vertex α) (t : Term α) (tokens : List Nat)
    (use : RuleUse) (recipe : Option τ) : (k.withChild p t tokens use recipe).Extends k where
  vertex := getElem?_push_of_eq_some
  edge := getElem?_push_of_eq_some

theorem extends_withMeeting (k : Skeleton α τ π) (source target : Nat) (use : RuleUse)
    (recipe : Option τ) : (k.withMeeting source target use recipe).Extends k where
  vertex := id
  edge := getElem?_push_of_eq_some

namespace IsForest

variable {k : Skeleton α τ π}

theorem meeting_ne_of_hangs (h : k.IsForest) {e : Edge τ π} {p v : Vertex α} (hp : k.Hangs e p v)
    (hv : k.vertices[v.id]? = some v) : k.meeting ≠ some e.id := by
  intro hm
  obtain ⟨e', u, w, he', hu, hw, hside⟩ := h.apart hm
  obtain rfl := Option.some.inj (hp.edge.symm.trans he')
  rw [hp.source, hp.parent] at hu
  rw [hp.target, hv] at hw
  obtain rfl := Option.some.inj hu
  obtain rfl := Option.some.inj hw
  exact hside hp.side.symm

theorem eq_of_key_eq (h : k.IsForest) {i j : Nat} {v w : Vertex α} (hv : k.vertices[i]? = some v)
    (hw : k.vertices[j]? = some w) (hkey : k.key v.term = k.key w.term) : i = j := by
  have hi := h.find_iff.mpr ⟨v, hv, hkey⟩
  have hj := h.find_iff.mpr ⟨w, hw, rfl⟩
  exact Option.some.inj (hi.symm.trans hj)

/-- The key of the child finds the child, and all others find what they found before. -/
theorem find_withChild_iff (h : k.IsForest) (p : Vertex α) {t : Term α}
    (hnew : k.find (k.key t) = none) (tokens : List Nat) (use : RuleUse) (recipe : Option τ)
    {key : Text} {i : Nat} : (k.withChild p t tokens use recipe).find key = some i ↔
      ∃ v, (k.withChild p t tokens use recipe).vertices[i]? = some v ∧ k.key v.term = key := by
  have hfind : (k.withChild p t tokens use recipe).find
      = Function.update k.find (k.key t) (some k.vertices.size) := rfl
  rw [hfind]
  by_cases hk : key = k.key t
  · subst hk
    rw [Function.update_self]
    constructor
    · intro hi
      obtain rfl := Option.some.inj hi
      exact ⟨_, Array.getElem?_push_size, rfl⟩
    · rintro ⟨v, hv, hkey⟩
      rcases of_getElem?_push hv with ⟨rfl, -⟩ | hv
      · rfl
      · rw [h.find_iff.mpr ⟨v, hv, hkey⟩] at hnew
        exact absurd hnew (by simp)
  · rw [Function.update_of_ne hk, h.find_iff]
    constructor
    · rintro ⟨v, hv, hkey⟩
      exact ⟨v, (extends_withChild k p t tokens use recipe).vertex hv, hkey⟩
    · rintro ⟨v, hv, hkey⟩
      rcases of_getElem?_push hv with ⟨-, rfl⟩ | hv
      · exact absurd hkey.symm hk
      · exact ⟨v, hv, hkey⟩

theorem withChild (h : k.IsForest) {p : Vertex α} (hp : k.vertices[p.id]? = some p)
    {t : Term α} (hnew : k.find (k.key t) = none) (hdepth : p.depth + 1 < UInt64.size)
    (tokens : List Nat) (use : RuleUse) (recipe : Option τ) :
    (k.withChild p t tokens use recipe).IsForest := by
  have hext := extends_withChild k p t tokens use recipe
  have hlt : p.id < k.vertices.size := (Array.getElem?_eq_some_iff.mp hp).1
  have hbelow : (k.child p t tokens).depth = p.depth + 1 := Nat.mod_eq_of_lt hdepth
  refine ⟨?_, ?_, ?_, ?_, ?_, ?_, ?_⟩
  · intro i v hv
    rcases of_getElem?_push hv with ⟨rfl, rfl⟩ | hv
    · rfl
    · exact h.id_eq hv
  · intro j e he
    rcases of_getElem?_push he with ⟨rfl, rfl⟩ | he
    · rfl
    · exact h.edge_id_eq he
  · intro s
    obtain ⟨v, hv, hrest⟩ := h.root s
    exact ⟨v, hext.vertex hv, hrest⟩
  · intro i v hv hi
    rcases of_getElem?_push hv with ⟨rfl, rfl⟩ | hv
    · exact ⟨k.arc p.id k.vertices.size use recipe, p, Array.getElem?_push_size, hext.vertex hp,
        rfl, rfl, rfl, rfl, hlt, rfl, hbelow⟩
    · obtain ⟨e, q, hq⟩ := h.hangs hv hi
      exact ⟨e, q, hq.mono hext⟩
  · exact h.find_withChild_iff p hnew tokens use recipe
  · intro m hm
    obtain ⟨e, u, w, he, hu, hw, hne⟩ := h.apart hm
    exact ⟨e, u, w, hext.edge he, hext.vertex hu, hext.vertex hw, hne⟩
  · intro i v hv
    rw [Skeleton.withChild, Array.size_push]
    rcases of_getElem?_push hv with ⟨-, rfl⟩ | hv
    · rw [hbelow]
      exact Nat.succ_le_succ (h.depth_le hp)
    · exact Nat.le_succ_of_le (h.depth_le hv)

theorem withMeeting (h : k.IsForest) {u w : Vertex α} (hu : k.vertices[u.id]? = some u)
    (hw : k.vertices[w.id]? = some w) (hne : w.side ≠ u.side) (use : RuleUse) (recipe : Option τ) :
    (k.withMeeting u.id w.id use recipe).IsForest := by
  have hext := extends_withMeeting k u.id w.id use recipe
  refine ⟨h.id_eq, ?_, h.root, ?_, h.find_iff, ?_, ?_⟩
  · intro j e he
    rcases of_getElem?_push he with ⟨rfl, rfl⟩ | he
    · rfl
    · exact h.edge_id_eq he
  · intro i v hv hi
    obtain ⟨e, q, hq⟩ := h.hangs hv hi
    exact ⟨e, q, hq.mono hext⟩
  · intro m hm
    obtain rfl := Option.some.inj hm
    exact ⟨_, u, w, Array.getElem?_push_size, hu, hw, hne⟩
  · intro i v hv
    rw [Skeleton.withMeeting, Array.size_push]
    exact Nat.le_succ_of_le (h.depth_le hv)

end IsForest

end Skeleton

/-! ## The roots -/

/-- The one of two values that belongs to a side. -/
def Side.pick {β : Type} (s : Side) (l r : β) : β :=
  match s with
  | .left => l
  | .right => r

@[simp] theorem Side.pick_pick {β : Type} (s : Side) (a b : β) :
    s.pick (s.pick a b) (s.pick b a) = a := by
  cases s <;> rfl

@[simp] theorem Side.pick_opposite_pick {β : Type} (s : Side) (a b : β) :
    s.opposite.pick (s.pick a b) (s.pick b a) = b := by
  cases s <;> rfl

theorem Side.of_pick {β : Type} {P : β → Prop} {s : Side} {l r : β} (hs : P (s.pick l r))
    (ho : P (s.opposite.pick l r)) : P l ∧ P r := by
  cases s with
  | left => exact ⟨hs, ho⟩
  | right => exact ⟨ho, hs⟩

/-- The vertex is the root of a side with the term `t`, as it was created. -/
structure Vertex.IsRootOf (v : Vertex α) (s : Side) (t : Term α) : Prop where
  asBorn : v.asBorn = v
  id : v.id = s.root
  term : v.term = t
  isRoot : v.isRoot = true
  side : v.side = s
  depth : v.depth = 0

namespace Exploration

/-- The exploration in which nothing but the two roots has been found. -/
def rooted (config : Config α) (lhs rhs : Term α) : Exploration α τ π :=
  ((ofConfig config).createRoots lhs rhs).2.2

variable {config : Config α} {lhs rhs : Term α}

theorem items_rooted (config : Config α) (lhs rhs : Term α) : ∃ left right : Vertex α,
    (rooted config lhs rhs : Exploration α τ π).vertices.items = #[left, right] ∧
    left.IsRootOf .left lhs ∧ right.IsRootOf .right rhs :=
  ⟨_, _, rfl, ⟨rfl, rfl, rfl, rfl, rfl, rfl⟩, ⟨rfl, rfl, rfl, rfl, rfl, rfl⟩⟩

theorem exists_root (config : Config α) (lhs rhs : Term α) (s : Side) : ∃ v,
    (rooted config lhs rhs : Exploration α τ π).vertices.items[s.root]? = some v ∧
    v.IsRootOf s (s.pick lhs rhs) := by
  obtain ⟨left, right, hitems, hl, hr⟩ := items_rooted (τ := τ) (π := π) config lhs rhs
  rw [hitems]
  cases s with
  | left => exact ⟨left, rfl, hl⟩
  | right => exact ⟨right, rfl, hr⟩

theorem isRootOf_of_getElem?_rooted {i : Nat} {v : Vertex α}
    (h : (rooted config lhs rhs : Exploration α τ π).vertices.items[i]? = some v) :
    ∃ s : Side, i = s.root ∧ v.IsRootOf s (s.pick lhs rhs) := by
  obtain ⟨left, right, hitems, hl, hr⟩ := items_rooted (τ := τ) (π := π) config lhs rhs
  rw [hitems] at h
  match i, h with
  | 0, h => exact ⟨.left, rfl, Option.some.inj h ▸ hl⟩
  | 1, h => exact ⟨.right, rfl, Option.some.inj h ▸ hr⟩
  | i + 2, h => exact absurd h (by simp)

theorem isRootOf_of_skeleton_rooted {i : Nat} {v : Vertex α}
    (h : (rooted config lhs rhs : Exploration α τ π).skeleton.vertices[i]? = some v) :
    ∃ s : Side, i = s.root ∧ v.IsRootOf s (s.pick lhs rhs) := by
  obtain ⟨u, hu, rfl⟩ := exists_of_getElem?_skeleton h
  obtain ⟨s, hi, hroot⟩ := isRootOf_of_getElem?_rooted hu
  exact ⟨s, hi, hroot.asBorn.symm ▸ hroot⟩

theorem edges_rooted (config : Config α) (lhs rhs : Term α) :
    (rooted config lhs rhs : Exploration α τ π).skeleton.edges = #[] := rfl

theorem find?_rooted_iff (hne : config.key lhs ≠ config.key rhs) {t : Text} {i : Nat} :
    (rooted config lhs rhs : Exploration α τ π).vertices.find? t = some i ↔
      ∃ s : Side, i = s.root ∧ config.key (s.pick lhs rhs) = t := by
  have hempty : (ofConfig config : Exploration α τ π).vertices.find? = fun _ ↦ none :=
    funext fun t ↦ Std.TreeMap.getElem?_emptyc
  have hleft :
      ((ofConfig config).addVertex lhs .left true 0 : _ × Exploration α τ π).2.vertices.find?
      = Function.update (fun _ ↦ none) (config.key lhs) (some 0) := by
    rw [find?_addVertex (congrFun hempty _), hempty]
    rfl
  have hnone : ((ofConfig config).addVertex lhs .left true 0 : _ × Exploration α τ π).2.findId? rhs
      = none := by
    rw [findId?, hleft]
    exact Function.update_of_ne hne.symm _ _
  have hright : (rooted config lhs rhs : Exploration α τ π).vertices.find?
      = Function.update (Function.update (fun _ ↦ none) (config.key lhs) (some 0))
          (config.key rhs) (some 1) := by
    rw [← hleft]
    exact find?_addVertex hnone .right true 0
  rw [hright]
  constructor
  · intro h
    by_cases htr : t = config.key rhs
    · rw [htr, Function.update_self] at h
      exact ⟨.right, (Option.some.inj h).symm, htr.symm⟩
    · rw [Function.update_of_ne htr] at h
      by_cases htl : t = config.key lhs
      · rw [htl, Function.update_self] at h
        exact ⟨.left, (Option.some.inj h).symm, htl.symm⟩
      · rw [Function.update_of_ne htl] at h
        exact absurd h (by simp)
  · rintro ⟨s | s, rfl, rfl⟩
    · exact (Function.update_of_ne hne _ _).trans (Function.update_self _ _ _)
    · exact Function.update_self _ _ _

theorem isForest_rooted (hne : config.key lhs ≠ config.key rhs) :
    (rooted config lhs rhs : Exploration α τ π).skeleton.IsForest := by
  refine ⟨?_, ?_, ?_, ?_, ?_, ?_, ?_⟩
  · intro i v hv
    obtain ⟨s, rfl, hroot⟩ := isRootOf_of_skeleton_rooted hv
    exact hroot.id
  · intro j e he
    rw [edges_rooted] at he
    exact absurd he (by simp)
  · intro s
    obtain ⟨v, hv, hroot⟩ := exists_root (τ := τ) (π := π) config lhs rhs s
    exact ⟨v.asBorn, getElem?_skeleton_of hv, hroot.isRoot, hroot.side, hroot.depth⟩
  · intro i v hv hi
    obtain ⟨s, rfl, -⟩ := isRootOf_of_skeleton_rooted hv
    cases s <;> exact absurd hi (by decide)
  · intro t i
    refine (find?_rooted_iff hne).trans ⟨?_, ?_⟩
    · rintro ⟨s, rfl, rfl⟩
      obtain ⟨v, hv, hroot⟩ := exists_root (τ := τ) (π := π) config lhs rhs s
      exact ⟨v.asBorn, getElem?_skeleton_of hv, by rw [Vertex.term_asBorn, hroot.term]; rfl⟩
    · rintro ⟨v, hv, hkey⟩
      obtain ⟨s, hi, hroot⟩ := isRootOf_of_skeleton_rooted hv
      exact ⟨s, hi, by rw [← hkey, hroot.term]; rfl⟩
  · intro m hm
    exact absurd hm (by simp [skeleton, rooted, createRoots, ofConfig, addVertex, enqueue])
  · intro i v hv
    obtain ⟨s, rfl, hroot⟩ := isRootOf_of_skeleton_rooted hv
    rw [hroot.depth]
    exact Nat.zero_le _

end Exploration

end Joinability
