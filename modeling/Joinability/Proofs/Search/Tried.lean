import Joinability.Proofs.Search.ByRules
import Joinability.Proofs.Search.Progress

/-!
# What has been tried is there

The cursor of a vertex counts the targets of its text that have been tried. While the sides are
apart, every target that was tried is the text of a vertex of the same side, and all targets of a
visited vertex have been tried. So nothing is lost on the way, in either order of expansion.

How the vertex of a target lies to the vertex from which it was tried depends on the order of
expansion. `Tried` therefore carries a relation between the two, which the order has to provide.
-/

namespace Joinability

variable {rules : List Rule}

namespace Skeleton

/-- The targets of every vertex below its cursor are texts of vertices of its side, to which it is
related by `near`, and a visited vertex has no others. The function `p` gives the progress with each
vertex. -/
structure Tried (rules : List Rule) (near : Vertex Payload → Vertex Payload → Prop)
    (k : Skeleton Payload Recipe Evidence) (p : Nat → Option (Bool × Nat)) : Prop where
  target {i j c : Nat} {b : Bool} {v : Vertex Payload} {t : Text} :
    k.vertices[i]? = some v → p i = some (b, c) → j < c → (targets rules v.pretty)[j]? = some t →
    ∃ (i' : Nat) (w : Vertex Payload), k.vertices[i']? = some w ∧ w.side = v.side ∧
      w.pretty = t ∧ near v w
  all {i c : Nat} {v : Vertex Payload} : k.vertices[i]? = some v → p i = some (true, c) →
    (targets rules v.pretty).length ≤ c

namespace Tried

variable {near : Vertex Payload → Vertex Payload → Prop} {k : Skeleton Payload Recipe Evidence}
  {p : Nat → Option (Bool × Nat)}

theorem exists_of_visited (h : k.Tried rules near p) {i c : Nat} {v : Vertex Payload}
    (hv : k.vertices[i]? = some v) (hp : p i = some (true, c)) {t : Text}
    (ht : Rewrites rules v.pretty t) : ∃ (i' : Nat) (w : Vertex Payload),
      k.vertices[i']? = some w ∧ w.side = v.side ∧ w.pretty = t ∧ near v w := by
  obtain ⟨j, hj⟩ := List.getElem?_of_mem (mem_targets_iff.mpr ht)
  have hlt : j < (targets rules v.pretty).length := (List.getElem?_eq_some_iff.mp hj).1
  exact h.target hv hp (Nat.lt_of_lt_of_le hlt (h.all hv hp)) hj

/-- A new vertex has not been tried. -/
theorem withChild (h : k.Tried rules near p) (v : Vertex Payload) (t : Term Payload)
    (tokens : List Nat) (use : RuleUse) (recipe : Option Recipe) :
    (k.withChild v t tokens use recipe).Tried rules near
      (Function.update p k.vertices.size (some (false, 0))) := by
  have hext := extends_withChild k v t tokens use recipe
  constructor
  · intro i j c b u t hu hp hj ht
    by_cases hi : i = k.vertices.size
    · rw [hi, Function.update_self] at hp
      obtain ⟨-, rfl⟩ := Prod.mk.inj (Option.some.inj hp)
      exact absurd hj (Nat.not_lt_zero j)
    · rw [Function.update_of_ne hi] at hp
      have hu := (of_getElem?_push hu).resolve_left fun hnew ↦ hi hnew.1
      obtain ⟨i', w, hw, hrest⟩ := h.target hu hp hj ht
      exact ⟨i', w, hext.vertex hw, hrest⟩
  · intro i c u hu hp
    by_cases hi : i = k.vertices.size
    · rw [hi, Function.update_self] at hp
      exact absurd (Prod.mk.inj (Option.some.inj hp)).1 (by simp)
    · rw [Function.update_of_ne hi] at hp
      exact h.all ((of_getElem?_push hu).resolve_left fun hnew ↦ hi hnew.1) hp

/-- The cursor moves past a target that is the text of a vertex. -/
theorem advance (h : k.Tried rules near p) {i c : Nat} {v : Vertex Payload}
    (hv : k.vertices[i]? = some v) {b : Bool} (hp : p i = some (b, c)) {t : Text}
    (ht : (targets rules v.pretty)[c]? = some t) {i' : Nat} {w : Vertex Payload}
    (hw : k.vertices[i']? = some w) (hside : w.side = v.side) (hpretty : w.pretty = t)
    (hnear : near v w) : k.Tried rules near (Function.update p i (some (false, c + 1))) := by
  constructor
  · intro i₁ j c₁ b₁ u t₁ hu hp₁ hj ht₁
    by_cases hi : i₁ = i
    · subst hi
      obtain rfl := Option.some.inj (hv.symm.trans hu)
      rw [Function.update_self] at hp₁
      obtain ⟨-, rfl⟩ := Prod.mk.inj (Option.some.inj hp₁)
      -- below the new cursor lie the targets below the old one, and the one at it
      rcases Nat.lt_succ_iff_lt_or_eq.mp hj with hj | rfl
      · exact h.target hv hp hj ht₁
      · obtain rfl := Option.some.inj (ht.symm.trans ht₁)
        exact ⟨i', w, hw, hside, hpretty, hnear⟩
    · rw [Function.update_of_ne hi] at hp₁
      exact h.target hu hp₁ hj ht₁
  · intro i₁ c₁ u hu hp₁
    by_cases hi : i₁ = i
    · rw [hi, Function.update_self] at hp₁
      exact absurd (Prod.mk.inj (Option.some.inj hp₁)).1 (by simp)
    · rw [Function.update_of_ne hi] at hp₁
      exact h.all hu hp₁

/-- A vertex without a further target becomes visited. -/
theorem close (h : k.Tried rules near p) {i c : Nat} {v : Vertex Payload}
    (hv : k.vertices[i]? = some v) {b : Bool} (hp : p i = some (b, c))
    (hall : (targets rules v.pretty).length ≤ c) :
    k.Tried rules near (Function.update p i (some (true, c))) := by
  constructor
  · intro i₁ j c₁ b₁ u t hu hp₁ hj ht
    by_cases hi : i₁ = i
    · subst hi
      rw [Function.update_self] at hp₁
      obtain ⟨-, rfl⟩ := Prod.mk.inj (Option.some.inj hp₁)
      exact h.target hu hp hj ht
    · rw [Function.update_of_ne hi] at hp₁
      exact h.target hu hp₁ hj ht
  · intro i₁ c₁ u hu hp₁
    by_cases hi : i₁ = i
    · subst hi
      obtain rfl := Option.some.inj (hv.symm.trans hu)
      rw [Function.update_self] at hp₁
      obtain ⟨-, rfl⟩ := Prod.mk.inj (Option.some.inj hp₁)
      exact hall
    · rw [Function.update_of_ne hi] at hp₁
      exact h.all hu hp₁

end Tried

end Skeleton

/-! ## Along a search -/

namespace Exploration

variable {near : Vertex Payload → Vertex Payload → Prop}
  {x y : Exploration Payload Recipe Evidence} {f g : Option Nat}

theorem tried_rooted (config : Config Payload) (lhs rhs : Term Payload) :
    (rooted config lhs rhs).skeleton.Tried rules near
      (rooted config lhs rhs : Exploration Payload Recipe Evidence).progress := by
  constructor
  · intro i j c b v t _ hp hj _
    rw [(progress_rooted hp).2] at hj
    exact absurd hj (Nat.not_lt_zero _)
  · intro i c v _ hp
    exact absurd (progress_rooted hp).1 (by simp)

theorem getElem?_targets {t : Text} {c : Nat} {s : Site} (hs : (sites rules t)[c]? = some s) :
    (targets rules t)[c]? = some (s.result t) := by
  rw [targets, List.getElem?_map, hs, Option.map_some]

/-- **Every move that leaves the sides apart loses nothing**, when the order of expansion relates
the vertex in focus to its children and to what was there before. -/
theorem Effect.tried (hm : Effect (.ofRules rules) x f y g) (hx : x.Orderly f)
    (hl : x.skeleton.Labelled rules) (hkey : x.config.key = Term.pretty)
    (h : x.skeleton.Tried rules near x.progress)
    (hchild : ∀ (v : Vertex Payload) (t : Term Payload) (tokens : List Nat), f = some v.id →
      x.skeleton.vertices[v.id]? = some v → near v (x.skeleton.child v t tokens))
    (hknown : ∀ (v w : Vertex Payload) (i : Nat), f = some v.id →
      x.skeleton.vertices[v.id]? = some v →
      x.skeleton.vertices[i]? = some w → w.side = v.side → near v w) :
    y.skeleton.Tried rules near y.progress := by
  cases hm with
  | take hskel hprog _ => rwa [hskel, hprog]
  | dry hskel hprog _ => rwa [hskel, hprog]
  | fail hskel hprog _ => rwa [hskel, hprog]
  | @close _ v tally hskel hfront hv htry hprog =>
    rw [hskel, hprog]
    refine h.close (getElem?_skeleton_of hv) (progress_of hv) ?_
    rw [targets, List.length_map]
    exact (Engine.tryNext_ofRules_eq_none_iff (term_eq_ofText hl hv)).mp htry
  | @grow _ v tally r tokens score hv htry hnew hskel hprog hfront =>
    obtain ⟨s, hs, rfl⟩ := (Engine.tryNext_ofRules_eq_some_iff (term_eq_ofText hl hv)).mp htry
    obtain ⟨u, hu, hvis⟩ := hx.unvisited v.id List.mem_cons_self
    obtain rfl := Option.some.inj (hv.symm.trans hu)
    have hvskel : x.skeleton.vertices[v.id]? = some v.asBorn := getElem?_skeleton_of hv
    -- the child is there before the cursor moves past its text
    have hne : v.id ≠ x.vertices.size := Nat.ne_of_lt (Array.getElem?_eq_some_iff.mp hv).1
    rw [hskel, hprog, hvis, Function.update_comm hne, ← size_vertices_skeleton]
    rw [← size_vertices_skeleton] at hne
    have hgrown := h.withChild v.asBorn (.ofText (s.result v.pretty)) tokens s.use
      (some (.byRule v.pretty (s.result v.pretty) s.use))
    have hp := (Function.update_of_ne hne (some (false, 0)) x.progress).trans (progress_of hv)
    exact hgrown.advance (v := v.asBorn)
      ((Skeleton.extends_withChild _ _ _ _ _ _).vertex hvskel) hp (getElem?_targets hs)
      Array.getElem?_push_size rfl rfl (hchild v.asBorn _ tokens rfl hvskel)
  | @discard _ v w tally r hv htry hfind hw hside hskel hprog hfront =>
    obtain ⟨s, hs, rfl⟩ := (Engine.tryNext_ofRules_eq_some_iff (term_eq_ofText hl hv)).mp htry
    obtain ⟨u, hu, hvis⟩ := hx.unvisited v.id List.mem_cons_self
    obtain rfl := Option.some.inj (hv.symm.trans hu)
    have hpretty := pretty_eq_of_findId? hx.forest hkey hfind hw
    have hw' : x.skeleton.vertices[w.id]? = some w.asBorn := getElem?_skeleton_of hw
    have hvskel : x.skeleton.vertices[v.id]? = some v.asBorn := getElem?_skeleton_of hv
    rw [hskel, hprog, hvis]
    exact h.advance (v := v.asBorn) hvskel (progress_of hv) (getElem?_targets hs) hw' hside hpretty
      (hknown v.asBorn _ _ rfl hvskel hw' hside)

end Exploration

end Joinability
