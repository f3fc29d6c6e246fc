import Joinability.Proofs.Search.Assembly
import Joinability.Proofs.Search.Building
import Joinability.Proofs.Search.Run

/-!
# Engines whose calls return

An engine may fail in each of its calls, and a search fails with it. `Engine.Returns` describes the
engines that never do, and that report no reduct without a recipe for its proof. With such an engine
every search has a result: **`Engine.Returns.exists_result`**. Only the last part of a search needs
an argument for that. The proof over the meeting edge is put together from the proofs of edges, and
the invariant `Justifies` of the table of edges is that none of them is without a proof or a recipe.

Nothing is said of what the proofs prove, so this covers engines whose combinators accept
everything.
-/

namespace Joinability

variable {σ α τ π : Type}

/-- Every call of the engine returns, and every reduct comes with a recipe. -/
structure Engine.Returns (e : Engine σ α τ π) : Prop where
  tryNext (v : Vertex α) (cursor : Nat) (s : σ) : ∃ r?, (e.tryNext v cursor s).1 = .ok r?
  recipe {v : Vertex α} {cursor : Nat} {s : σ} {r : Reduct α τ}
    (h : (e.tryNext v cursor s).1 = .ok (some r)) : ∃ recipe, r.recipe = some recipe
  prove (recipe : τ) (s : σ) : ∃ p, (e.prove recipe s).1 = .ok p
  reflexivity (t : Term α) : ∃ p, e.reflexivity t = .ok p
  symmetry (p : π) : ∃ q, e.symmetry p = .ok q
  transitivity (p q : π) : ∃ r, e.transitivity p q = .ok r

/-- The combinators of the engine never fail. -/
structure Engine.Combines (e : Engine σ α τ π) : Prop where
  reflexivity (t : Term α) : ∃ p, e.reflexivity t = .ok p
  symmetry (p : π) : ∃ q, e.symmetry p = .ok q
  transitivity (p q : π) : ∃ r, e.transitivity p q = .ok r

theorem Engine.Returns.combines {e : Engine σ α τ π} (he : e.Returns) : e.Combines :=
  ⟨he.reflexivity, he.symmetry, he.transitivity⟩

theorem Engine.Returns.counted {e : Engine σ α τ π} (he : e.Returns) : e.counted.Returns where
  tryNext v cursor s := he.tryNext v cursor s.1
  recipe h := he.recipe h
  prove recipe s := he.prove recipe s.1
  reflexivity := he.reflexivity
  symmetry := he.symmetry
  transitivity := he.transitivity

/-! ## Edges with a proof or a recipe -/

namespace Skeleton

/-- No edge is without a proof or a recipe. -/
def Justified (k : Skeleton α τ π) : Prop :=
  ∀ ⦃j : Nat⦄ ⦃arc : Edge τ π⦄, k.edges[j]? = some arc → arc.proof ≠ .absent

/-- The edges of a table are those of a skeleton, none of them without a proof or a recipe. -/
def Justifies (k : Skeleton α τ π) (s : Edges τ π × σ) : Prop :=
  ∀ ⦃j : Nat⦄ ⦃arc : Edge τ π⦄, k.edges[j]? = some arc →
    ∃ arc' : Edge τ π, s.1.items[j]? = some arc' ∧ arc'.toArc = arc.toArc ∧ arc'.proof ≠ .absent

variable {k : Skeleton α τ π} {e : Engine σ α τ π}

theorem Justified.push {l : Skeleton α τ π} (h : k.Justified) {arc : Edge τ π}
    (hl : l.edges = k.edges.push arc) (harc : arc.proof ≠ .absent) : l.Justified := by
  intro j b hb
  rw [hl] at hb
  rcases of_getElem?_push hb with ⟨-, rfl⟩ | hb
  · exact harc
  · exact h hb

theorem Justifies.keepProof {es : Edges τ π} {s : σ} (h : k.Justifies (es, s)) (j : Nat) (p : π)
    (t : σ) : k.Justifies (es.keepProof j p, t) := by
  intro i arc harc
  obtain ⟨arc', harc', hsame, hproof⟩ := h harc
  rw [Edges.getElem?_keepProof]
  by_cases hij : j = i
  · rw [if_pos hij, harc']
    exact ⟨_, rfl, hsame, by simp⟩
  · rw [if_neg hij]
    exact ⟨arc', harc', hsame, hproof⟩

theorem gives_proofOf (he : e.Returns) {arc : Edge τ π} {j : Nat} (harc : k.edges[j]? = some arc) :
    BuildM.Gives k.Justifies (BuildM.proofOf e j) fun _ ↦ True := by
  rintro ⟨es, s⟩ hs
  obtain ⟨arc', harc', -, hproof⟩ := hs harc
  cases hstate : arc'.proof with
  | absent => exact absurd hstate hproof
  | ready p => exact ⟨p, _, Edges.force_of_ready harc' hstate, hs, trivial⟩
  | pending recipe =>
    obtain ⟨p, hp⟩ := he.prove recipe s
    exact ⟨p, _, Edges.force_of_pending harc' hstate (Prod.ext hp rfl), hs.keepProof j p _, trivial⟩

end Skeleton

namespace Exploration

variable {e : Engine σ α τ π} {config : Config α} {lhs rhs : Term α} {x : Exploration α τ π}
  {focus : Option Nat}

theorem Reached.justified (he : e.Returns) (h : Reached e config lhs rhs x focus) :
    x.skeleton.Justified := by
  have hpending {v : Vertex α} {s : σ} {r : Reduct α τ}
      (htry : (e.tryNext v v.cursor s).1 = .ok (some r)) :
      (Deferred.ofRecipe? r.recipe : Deferred τ π) ≠ .absent := by
    obtain ⟨recipe, hrecipe⟩ := he.recipe htry
    rw [hrecipe]
    simp [Deferred.ofRecipe?]
  induction h with
  | start =>
    intro j arc harc
    rw [edges_rooted] at harc
    exact absurd harc (by simp)
  | @move x y _ _ _ hm ih =>
    generalize hy : y.skeleton = k
    have hk := hm.growth
    rw [hy] at hk
    cases hk with
    | none => exact ih
    | child _ htry _ _ => exact ih.push rfl (hpending htry)
    | meeting _ _ htry _ _ _ => exact ih.push rfl (hpending htry)

/-! ## Building the proof -/

/-- The rest of crossing an edge. -/
theorem exists_last (he : e.Combines) {w : Walk π} (arc : Arc) (id : Nat) {next : Nat}
    {u v : Vertex α} (hu : x.skeleton.vertices[w.cursor]? = some u)
    (hv : x.skeleton.vertices[next]? = some v) (crossed : π) :
    ∃ w', w.last e x.vertices arc id next crossed = .ok w' ∧ w'.cursor = next := by
  obtain ⟨u', hgetu, -⟩ := exists_get_of_skeleton hu
  obtain ⟨v', hgetv, -⟩ := exists_get_of_skeleton hv
  rw [Walk.last, hgetu, hgetv]
  cases w.proof with
  | none => exact ⟨_, rfl, rfl⟩
  | some p =>
    obtain ⟨q, hq⟩ := he.transitivity p crossed
    dsimp only
    rw [hq]
    exact ⟨_, rfl, rfl⟩

/-- Crossing an edge from its source to its target. -/
theorem gives_cross_of_returns (he : e.Returns) {w : Walk π} {arc : Edge τ π} {u v : Vertex α}
    (hw : w.cursor = u.id) (harc : x.skeleton.edges[arc.id]? = some arc)
    (hu : x.skeleton.vertices[u.id]? = some u) (hv : x.skeleton.vertices[v.id]? = some v)
    (hsource : arc.source = u.id) (htarget : arc.target = v.id) :
    BuildM.Gives x.skeleton.Justifies (w.cross e x.vertices arc.id) (·.cursor = v.id) := by
  rw [← hw] at hu hsource
  have hother : arc.otherEnd? w.cursor = some v.id := by
    rw [Arc.otherEnd?, if_pos hsource, htarget]
  have hedge : BuildM.Gives x.skeleton.Justifies (BuildM.edge arc.id : BuildM σ τ π (Edge τ π))
      (·.toArc = arc.toArc) := by
    intro s hs
    obtain ⟨arc', harc', hsame, -⟩ := hs harc
    exact ⟨arc', s, BuildM.edge_eq_ok_iff.mpr ⟨harc', rfl⟩, hs, hsame⟩
  rw [Walk.cross_eq]
  apply hedge.bind
  intro arc' hsame
  rw [hsame, hother]
  apply (Skeleton.gives_proofOf he harc).bind
  intro forced _
  obtain ⟨w', hlast, hw'⟩ := exists_last he.combines arc.toArc arc.id hu hv forced
  refine BuildM.gives_ofExcept ?_ hw'
  rw [if_pos hsource]
  exact hlast

/-- A walk over one more edge. -/
theorem gives_walk_snoc_of_returns (he : e.Returns) {start : Walk π} {path : List Nat}
    {arc : Edge τ π} {u v : Vertex α} (hwalk : BuildM.Gives x.skeleton.Justifies
      (path.foldlM (Walk.cross e x.vertices) start) (·.cursor = u.id))
    (harc : x.skeleton.edges[arc.id]? = some arc) (hu : x.skeleton.vertices[u.id]? = some u)
    (hv : x.skeleton.vertices[v.id]? = some v) (hsource : arc.source = u.id)
    (htarget : arc.target = v.id) : BuildM.Gives x.skeleton.Justifies
      ((path ++ [arc.id]).foldlM (Walk.cross e x.vertices) start) (·.cursor = v.id) := by
  rw [List.foldlM_append]
  apply hwalk.bind
  intro w hw
  rw [List.foldlM_cons]
  apply (gives_cross_of_returns he hw harc hu hv hsource htarget).bind
  intro w' hw'
  exact BuildM.gives_pure hw'

theorem gives_walk_of_returns (he : e.Returns) (hx : x.skeleton.IsForest) {v : Vertex α}
    {path : List Nat} (hpath : x.skeleton.Trail v path) :
    BuildM.Gives x.skeleton.Justifies
      (path.foldlM (Walk.cross e x.vertices) { cursor := v.side.root }) (·.cursor = v.id) := by
  induction hpath with
  | @root v hv hroot => exact BuildM.gives_pure ((hx.isRoot_iff hv).mp hroot).symm
  | @child arc p v path _ hv h ih =>
    rw [← h.side]
    exact gives_walk_snoc_of_returns he ih h.edge h.parent hv h.source h.target

/-- The unit of a side, when walking its path ends at a vertex of the graph. -/
theorem gives_unit_of_returns (he : e.Returns) (side : Side) {path : List Nat} {v : Vertex α}
    (hv : x.skeleton.vertices[v.id]? = some v)
    (hwalk : BuildM.Gives x.skeleton.Justifies
      (path.foldlM (Walk.cross e x.vertices) { cursor := side.root }) (·.cursor = v.id)) :
    BuildM.Gives x.skeleton.Justifies (buildUnit e x.vertices side path) fun _ ↦ True := by
  rw [buildUnit]
  apply hwalk.bind
  intro w hw
  cases w.proof with
  | some p => exact BuildM.gives_pure_bind (BuildM.gives_pure trivial)
  | none =>
    obtain ⟨v', hget, -⟩ := exists_get_of_skeleton hv
    obtain ⟨p, hp⟩ := he.reflexivity v'.term
    rw [hw, hget]
    exact BuildM.gives_ofExcept_bind rfl
      (BuildM.gives_ofExcept_bind hp (BuildM.gives_pure trivial))

theorem exists_joinUnits (he : e.Combines) (left right : ProofUnit π) :
    ∃ p, joinUnits e left right = .ok p := by
  obtain ⟨back, hback⟩ := he.symmetry right.proof
  obtain ⟨p, hp⟩ := he.transitivity left.proof back
  rw [joinUnits, hback]
  by_cases hright : right.steps.isEmpty = true
  · exact ⟨_, if_pos hright⟩
  · rw [if_neg hright]
    by_cases hleft : left.steps.isEmpty = true
    · exact ⟨back, if_pos hleft⟩
    · exact ⟨p, (if_neg hleft).trans hp⟩

/-- The proof over the meeting edge can be built. -/
theorem Reached.exists_prove (he : e.Returns) (hne : config.key lhs ≠ config.key rhs)
    (h : Reached e config lhs rhs x focus) {m : Nat} (hm : x.meeting = some m) (s : σ) :
    ∃ result, ((Search.exploring x focus).prove e m s).answer = .ok result := by
  have hforest := (h.orderly hne).forest
  obtain ⟨arc, u, w, harc, hu, hw, hside⟩ := hforest.apart hm
  obtain rfl : arc.id = m := hforest.edge_id_eq harc
  have hidw := hforest.id_eq hw
  have hyields : BuildM.Yields x.skeleton.Justifies (x.buildProof e arc.id)
      fun answer ↦ ∃ r, answer = .ok r := by
    apply yields_buildProof hforest harc hu hw hside (P := fun _ ↦ True) (Q := fun _ ↦ True)
    · intro path hpath
      have hwalk := gives_walk_snoc_of_returns he (gives_walk_of_returns he hforest hpath) harc
        hpath.vertex (hidw ▸ hw) (hforest.id_eq hu).symm hidw.symm
      exact gives_unit_of_returns he u.side (hidw ▸ hw) hwalk
    · intro path hpath
      exact gives_unit_of_returns he w.side hpath.vertex (gives_walk_of_returns he hforest hpath)
    · intro _ _ left right _ _ _ _
      obtain ⟨p, hp⟩ := exists_joinUnits he.combines left right
      rw [hp]
      exact ⟨_, rfl⟩
  have hstart : x.skeleton.Justifies (x.edges, s) :=
    fun _ arc harc ↦ ⟨arc, harc, rfl, h.justified he harc⟩
  obtain ⟨_, ⟨edges, t⟩, hbuild, -, ⟨p, left, right⟩, rfl⟩ := hyields (x.edges, s) hstart
  unfold Search.prove
  simp only [hbuild]
  exact ⟨_, rfl⟩

end Exploration

/-- **A search with an engine whose calls return has a result.** -/
theorem Engine.Returns.exists_result {e : Engine σ α τ π} (he : e.Returns) (clock : Nat → Nat)
    (config : Config α) (lhs rhs : Term α) (s : σ) :
    ∃ result, (Search.solve e clock config lhs rhs s).answer = .ok result := by
  by_cases hkey : config.key lhs = config.key rhs
  · obtain ⟨p, hp⟩ := he.reflexivity lhs
    obtain ⟨hanswer, -, -⟩ := Exploration.solve_of_key_eq (e := e) hkey clock s
    exact ⟨_, by rw [hanswer, hp]; rfl⟩
  · obtain ⟨x, focus, t, answer, hx, hfit, hsolve, -⟩ :=
      Exploration.exists_reached_of_solve (e := e) hkey clock s
    rw [hsolve]
    rcases answer with fault | ending
    · obtain ⟨v, u, -, -, hfault⟩ := hfit
      obtain ⟨r?, hr⟩ := he.tryNext v v.cursor u
      rw [hr] at hfault
      exact absurd hfault (by simp)
    · cases ending with
      | met m => exact hx.exists_prove he hkey hfit t
      | aborted => exact ⟨_, rfl⟩
      | exhausted => exact ⟨_, rfl⟩

end Joinability
