import Mathlib.Data.List.Induction
import Joinability.Proofs.Search.Forcing
import Joinability.Proofs.Search.Trail
import Joinability.Search.Proof

/-!
# What building a proof does

Building the proof of a goal forces the proofs of edges and is pure otherwise, so a proof that could
be built can be read backwards. The steps of its units name the edges that were crossed, and these
are the edges whose proofs were forced: **`Exploration.forces_of_buildProof`**. This holds for every
engine, and for tables of vertices and edges that need not be those of a search.

Crossing an edge is written as one block, in which failures and changes of the table alternate.
`Walk.cross_eq` separates the two: look up the edge, force its proof, and do the rest without
touching the table.
-/

namespace Joinability

variable {σ α τ π : Type}

/-! ## One computation after the other -/

theorem bind_eq_ok_iff {ε β γ : Type} {a : Except ε β} {f : β → Except ε γ} {c : γ} :
    (a >>= f) = .ok c ↔ ∃ b, a = .ok b ∧ f b = .ok c := by
  cases a with
  | error fault => exact iff_of_false (by simp [bind, Except.bind]) (by simp)
  | ok b => simp [bind, Except.bind]

section Run

variable {S ρ ρ' : Type} {m : ExceptT Fault (StateM S) ρ'} {f : ρ' → ExceptT Fault (StateM S) ρ}
  {s t : S}

theorem run_bind_of_ok {a : ρ'} (h : m s = (.ok a, t)) : (m >>= f) s = f a t := by
  have hbind : (m >>= f) s = ExceptT.bindCont f (m s).1 (m s).2 := rfl
  rw [hbind, h]
  rfl

theorem run_bind_of_error {fault : Fault} (h : m s = (.error fault, t)) :
    (m >>= f) s = (.error fault, t) := by
  have hbind : (m >>= f) s = ExceptT.bindCont f (m s).1 (m s).2 := rfl
  rw [hbind, h]
  rfl

end Run

namespace BuildM

variable {ρ ρ' : Type} {s t : Edges τ π × σ}

theorem bind_eq_ok_iff {m : BuildM σ τ π ρ'} {f : ρ' → BuildM σ τ π ρ} {b : ρ} :
    (m >>= f) s = (.ok b, t) ↔ ∃ a u, m s = (.ok a, u) ∧ f a u = (.ok b, t) := by
  have hbind : (m >>= f) s = ExceptT.bindCont f (m s).1 (m s).2 := rfl
  rw [hbind]
  rcases m s with ⟨fault | a, u⟩
  · constructor
    · intro h
      obtain ⟨hanswer, -⟩ := Prod.mk.inj h
      exact absurd hanswer (by simp)
    · rintro ⟨_, _, ⟨⟩, -⟩
  · constructor
    · intro h
      exact ⟨a, u, rfl, h⟩
    · rintro ⟨_, _, ⟨⟩, h⟩
      exact h

theorem pure_eq_ok_iff {a b : ρ} :
    (pure a : BuildM σ τ π ρ) s = (.ok b, t) ↔ a = b ∧ s = t := by
  have hpure : (pure a : BuildM σ τ π ρ) s = (.ok a, s) := rfl
  rw [hpure, Prod.mk.injEq, Except.ok.injEq]

theorem ofExcept_eq_ok_iff {answer : Except Fault ρ} {a : ρ} :
    (ofExcept answer : BuildM σ τ π ρ) s = (.ok a, t) ↔ answer = .ok a ∧ s = t := by
  have hanswer : (ofExcept answer : BuildM σ τ π ρ) s = (answer, s) := rfl
  rw [hanswer, Prod.mk.injEq]

theorem ofExcept_bind_eq_ok_iff {answer : Except Fault ρ'} {f : ρ' → BuildM σ τ π ρ} {b : ρ} :
    (ofExcept answer >>= f) s = (.ok b, t) ↔ ∃ a, answer = .ok a ∧ f a s = (.ok b, t) := by
  rw [bind_eq_ok_iff]
  constructor
  · rintro ⟨a, u, hget, h⟩
    obtain ⟨hanswer, rfl⟩ := ofExcept_eq_ok_iff.mp hget
    exact ⟨a, hanswer, h⟩
  · rintro ⟨a, hanswer, h⟩
    exact ⟨a, s, ofExcept_eq_ok_iff.mpr ⟨hanswer, rfl⟩, h⟩

theorem edge_eq_ok_iff {id : Nat} {e : Edge τ π} :
    (edge id : BuildM σ τ π (Edge τ π)) s = (.ok e, t) ↔ s.1.items[id]? = some e ∧ s = t := by
  have hedge : (edge id : BuildM σ τ π (Edge τ π)) s = (s.1.get id, s) := rfl
  rw [hedge, Prod.mk.injEq, Edges.get_eq_ok_iff]

theorem throw_ne_ok {fault : Fault} {a : ρ} :
    (throw fault : BuildM σ τ π ρ) s ≠ (.ok a, t) := by
  intro h
  obtain ⟨hanswer, -⟩ := Prod.mk.inj h
  exact absurd hanswer (by simp)

end BuildM

/-! ## What the steps of a proof name -/

namespace Walk

/-- The walk after an edge has been crossed to the vertex `next`, when `crossed` is the proof of the
edge in this direction. -/
def last (e : Engine σ α τ π) (vs : Vertices α) (w : Walk π) (arc : Arc) (id next : Nat)
    (crossed : π) :
    Except Fault (Walk π) := do
  let proof ← match w.proof with
    | none => pure crossed
    | some p => e.transitivity p crossed
  let before ← vs.get w.cursor
  let after ← vs.get next
  let step := { edge := id, use := arc.use, before := before.pretty, after := after.pretty }
  return { cursor := next, proof := some proof, steps := w.steps ++ [step] }

variable {e : Engine σ α τ π} {vs : Vertices α} {w w' : Walk π} {id next : Nat}
  {s t : Edges τ π × σ}

/-- Crossing an edge looks at its arc and forces its proof, and the rest depends on nothing else. -/
theorem cross_eq (e : Engine σ α τ π) (vs : Vertices α) (w : Walk π) (id : Nat) :
    w.cross e vs id = BuildM.edge id >>= fun edge ↦
      match edge.otherEnd? w.cursor with
      | none => throw (.pathBroken id w.cursor)
      | some next => BuildM.proofOf e id >>= fun forced ↦ BuildM.ofExcept
          ((if edge.source = w.cursor then .ok forced else e.symmetry forced) >>=
            w.last e vs edge.toArc id next) := by
  rw [cross]
  congr 1
  funext edge
  cases edge.otherEnd? w.cursor with
  | none => rfl
  | some next =>
    simp only
    congr 1
    funext forced
    -- the two sides only differ in where their failures are counted
    have hlast (crossed : π) : (do
        let proof ← match w.proof with
          | none => pure crossed
          | some p => BuildM.ofExcept (e.transitivity p crossed)
        let before ← BuildM.ofExcept (vs.get w.cursor)
        let after ← BuildM.ofExcept (vs.get next)
        let step := { edge := id, use := edge.use, before := before.pretty, after := after.pretty }
        return { cursor := next, proof := some proof, steps := w.steps ++ [step] } :
          BuildM σ τ π (Walk π)) = BuildM.ofExcept (w.last e vs edge.toArc id next crossed) := by
      rw [last]
      cases w.proof with
      | none => cases vs.get w.cursor <;> cases vs.get next <;> rfl
      | some p =>
        dsimp only
        generalize e.transitivity p crossed = chained
        cases chained <;> cases vs.get w.cursor <;> cases vs.get next <;> rfl
    by_cases hsource : edge.source = w.cursor
    · simp only [if_pos hsource, pure_bind]
      exact hlast forced
    · simp only [if_neg hsource]
      cases e.symmetry forced with
      | error fault => rfl
      | ok crossed => exact hlast crossed

theorem of_last_eq_ok {arc : Arc} {crossed : π} (h : w.last e vs arc id next crossed = .ok w') :
    w'.cursor = next ∧ ∃ u v, vs.get w.cursor = .ok u ∧ vs.get next = .ok v ∧ w'.steps = w.steps ++
      [{ edge := id, use := arc.use, before := u.pretty, after := v.pretty }] := by
  unfold last at h
  dsimp only at h
  generalize vs.get w.cursor = u at h ⊢
  generalize vs.get next = v at h ⊢
  have hlast {proof : π} (h : (do
      let before ← u
      let after ← v
      let step := { edge := id, use := arc.use, before := before.pretty, after := after.pretty }
      return { cursor := next, proof := some proof, steps := w.steps ++ [step] } :
        Except Fault (Walk π)) = .ok w') : w'.cursor = next ∧ ∃ u' v', u = .ok u' ∧ v = .ok v' ∧
      w'.steps = w.steps ++
        [{ edge := id, use := arc.use, before := u'.pretty, after := v'.pretty }] := by
    rcases u with _ | u
    · cases h
    · rcases v with _ | v
      · cases h
      · cases h
        exact ⟨rfl, u, v, rfl, rfl, rfl⟩
  split at h
  · exact hlast h
  · generalize e.transitivity _ _ = chained at h
    cases chained with
    | error fault => cases h
    | ok proof => exact hlast h

/-- Crossing an edge forces its proof and copies its use. -/
theorem of_cross_eq_ok (h : w.cross e vs id s = (.ok w', t)) :
    ∃ (edge : Edge τ π) (u v : Vertex α) (p : π), s.1.items[id]? = some edge ∧
      edge.otherEnd? w.cursor = some w'.cursor ∧ s.1.force e.prove id s.2 = (.ok p, t) ∧
      vs.get w.cursor = .ok u ∧ vs.get w'.cursor = .ok v ∧ w'.steps = w.steps ++
        [{ edge := id, use := edge.use, before := u.pretty, after := v.pretty }] := by
  rw [cross_eq] at h
  obtain ⟨edge, s', hget, h⟩ := BuildM.bind_eq_ok_iff.mp h
  obtain ⟨hedge, rfl⟩ := BuildM.edge_eq_ok_iff.mp hget
  cases hother : edge.otherEnd? w.cursor with
  | none =>
    rw [hother] at h
    exact absurd h BuildM.throw_ne_ok
  | some next =>
    rw [hother] at h
    obtain ⟨p, t', hforce, h⟩ := BuildM.bind_eq_ok_iff.mp h
    obtain ⟨hanswer, rfl⟩ := BuildM.ofExcept_eq_ok_iff.mp h
    -- whichever way the edge was crossed, the walk goes on in the same way
    obtain ⟨crossed, -, hlast⟩ : ∃ crossed, (if edge.source = w.cursor then Except.ok p
        else e.symmetry p) = .ok crossed ∧ w.last e vs edge.toArc id next crossed = .ok w' := by
      generalize (if edge.source = w.cursor then Except.ok p else e.symmetry p) = c at hanswer
      cases c with
      | error fault => cases hanswer
      | ok crossed => exact ⟨crossed, rfl, hanswer⟩
    obtain ⟨rfl, u, v, hu, hv, hsteps⟩ := of_last_eq_ok hlast
    exact ⟨edge, u, v, p, hedge, hother, hforce, hu, hv, hsteps⟩

/-- Walking a path forces the proofs of its edges in order, and takes a step over each of them. -/
theorem forces_of_walk {path : List Nat}
    (h : path.foldlM (cross e vs) w s = (.ok w', t)) :
    Edges.Forces e.prove path s t ∧
      w'.steps.map (·.edge) = w.steps.map (·.edge) ++ path := by
  induction path using List.reverseRecOn generalizing w' t with
  | nil =>
    obtain ⟨rfl, rfl⟩ := BuildM.pure_eq_ok_iff.mp h
    exact ⟨.nil _, by rw [List.append_nil]⟩
  | append_singleton path id ih =>
    rw [List.foldlM_append] at h
    obtain ⟨w'', t', hwalk, h⟩ := BuildM.bind_eq_ok_iff.mp h
    rw [List.foldlM_cons] at h
    obtain ⟨w₃, t'', hcross, h⟩ := BuildM.bind_eq_ok_iff.mp h
    obtain ⟨rfl, rfl⟩ := BuildM.pure_eq_ok_iff.mp h
    obtain ⟨hforces, hedges⟩ := ih hwalk
    obtain ⟨edge, u, v, p, -, -, hforce, -, -, hsteps⟩ := of_cross_eq_ok hcross
    refine ⟨hforces.snoc hforce, ?_⟩
    rw [hsteps, List.map_append, hedges, List.append_assoc]
    rfl

end Walk

section Building

variable {e : Engine σ α τ π} {s t : Edges τ π × σ}

/-- The unit of a side has the steps of the walk over its path. -/
theorem exists_walk_of_unit {vs : Vertices α} {side : Side} {path : List Nat} {unit : ProofUnit π}
    (h : buildUnit e vs side path s = (.ok unit, t)) : unit.side = side ∧
      ∃ w, path.foldlM (Walk.cross e vs) { cursor := side.root } s = (.ok w, t) ∧
        unit.steps = w.steps := by
  rw [buildUnit] at h
  obtain ⟨w, t', hwalk, h⟩ := BuildM.bind_eq_ok_iff.mp h
  cases hsome : w.proof with
  | some p =>
    rw [hsome] at h
    obtain ⟨_, _, hproof, h⟩ := BuildM.bind_eq_ok_iff.mp h
    obtain ⟨rfl, rfl⟩ := BuildM.pure_eq_ok_iff.mp hproof
    obtain ⟨rfl, rfl⟩ := BuildM.pure_eq_ok_iff.mp h
    exact ⟨rfl, w, hwalk, rfl⟩
  | none =>
    rw [hsome] at h
    obtain ⟨_, -, h⟩ := BuildM.ofExcept_bind_eq_ok_iff.mp h
    obtain ⟨_, -, h⟩ := BuildM.ofExcept_bind_eq_ok_iff.mp h
    obtain ⟨rfl, rfl⟩ := BuildM.pure_eq_ok_iff.mp h
    exact ⟨rfl, w, hwalk, rfl⟩

theorem forces_of_unit {vs : Vertices α} {side : Side} {path : List Nat} {unit : ProofUnit π}
    (h : buildUnit e vs side path s = (.ok unit, t)) :
    Edges.Forces e.prove path s t ∧ unit.steps.map (·.edge) = path := by
  obtain ⟨-, w, hwalk, hsteps⟩ := exists_walk_of_unit h
  rw [hsteps]
  exact Walk.forces_of_walk hwalk

namespace Exploration

theorem joined_eq_ok_iff {p : π} {l r left right : ProofUnit π} :
    (do let proof ← BuildM.ofExcept (joinUnits e l r); return (proof, l, r) :
      BuildM σ τ π (π × ProofUnit π × ProofUnit π)) s = (.ok (p, left, right), t) ↔
    left = l ∧ right = r ∧ joinUnits e l r = .ok p ∧ s = t := by
  rw [BuildM.ofExcept_bind_eq_ok_iff]
  constructor
  · rintro ⟨_, hjoin, h⟩
    obtain ⟨⟨⟩, rfl⟩ := BuildM.pure_eq_ok_iff.mp h
    exact ⟨rfl, rfl, hjoin, rfl⟩
  · rintro ⟨rfl, rfl, hjoin, rfl⟩
    exact ⟨p, hjoin, BuildM.pure_eq_ok_iff.mpr ⟨rfl, rfl⟩⟩

/-- What it takes to build the proof over an edge. -/
theorem buildProof_eq_ok_iff {x : Exploration α τ π} {m : Nat} {p : π} {left right : ProofUnit π} :
    x.buildProof e m s = (.ok (p, left, right), t) ↔
      ∃ (arc : Edge τ π) (u v : Vertex α) (upath vpath : List Nat) (unit unit' : ProofUnit π)
        (s' : Edges τ π × σ), x.edges.get m = .ok arc ∧ x.vertices.get arc.source = .ok u ∧
      x.vertices.get arc.target = .ok v ∧ u.side ≠ v.side ∧
      pathFromRoot x.vertices x.edges u.id = .ok upath ∧
      pathFromRoot x.vertices x.edges v.id = .ok vpath ∧
      buildUnit e x.vertices u.side (upath ++ [arc.id]) s = (.ok unit, s') ∧
      buildUnit e x.vertices v.side vpath s' = (.ok unit', t) ∧ left = u.side.pick unit unit' ∧
      right = u.side.pick unit' unit ∧ joinUnits e left right = .ok p := by
  rw [buildProof]
  constructor
  · intro h
    obtain ⟨arc, harc, h⟩ := BuildM.ofExcept_bind_eq_ok_iff.mp h
    obtain ⟨u, hu, h⟩ := BuildM.ofExcept_bind_eq_ok_iff.mp h
    obtain ⟨v, hv, h⟩ := BuildM.ofExcept_bind_eq_ok_iff.mp h
    by_cases hside : u.side = v.side
    · rw [if_pos hside] at h
      exact absurd h BuildM.throw_ne_ok
    · rw [if_neg hside] at h
      obtain ⟨upath, hupath, h⟩ := BuildM.ofExcept_bind_eq_ok_iff.mp h
      obtain ⟨vpath, hvpath, h⟩ := BuildM.ofExcept_bind_eq_ok_iff.mp h
      obtain ⟨unit, s', hunit, h⟩ := BuildM.bind_eq_ok_iff.mp h
      obtain ⟨unit', t', hunit', h⟩ := BuildM.bind_eq_ok_iff.mp h
      refine ⟨arc, u, v, upath, vpath, unit, unit', s', harc, hu, hv, hside, hupath, hvpath, hunit,
        ?_⟩
      rcases hs : u.side
      all_goals
        rw [hs] at h
        obtain ⟨rfl, rfl, hjoin, rfl⟩ := joined_eq_ok_iff.mp h
        exact ⟨hunit', rfl, rfl, hjoin⟩
  · rintro ⟨arc, u, v, upath, vpath, unit, unit', s', harc, hu, hv, hside, hupath, hvpath, hunit,
      hunit', hleft, hright, hjoin⟩
    refine BuildM.ofExcept_bind_eq_ok_iff.mpr ⟨arc, harc, ?_⟩
    refine BuildM.ofExcept_bind_eq_ok_iff.mpr ⟨u, hu, ?_⟩
    refine BuildM.ofExcept_bind_eq_ok_iff.mpr ⟨v, hv, ?_⟩
    rw [if_neg hside]
    refine BuildM.ofExcept_bind_eq_ok_iff.mpr ⟨upath, hupath, ?_⟩
    refine BuildM.ofExcept_bind_eq_ok_iff.mpr ⟨vpath, hvpath, ?_⟩
    refine BuildM.bind_eq_ok_iff.mpr ⟨unit, s', hunit, ?_⟩
    refine BuildM.bind_eq_ok_iff.mpr ⟨unit', t, hunit', ?_⟩
    subst hleft hright
    rcases hs : u.side
    all_goals
      rw [hs] at hjoin
      exact joined_eq_ok_iff.mpr ⟨rfl, rfl, hjoin, rfl⟩

/-- **Building a proof forces the proofs of the edges that its steps name**, first those of the unit
on whose side the edge starts. -/
theorem forces_of_buildProof {x : Exploration α τ π} {m : Nat} {p : π} {left right : ProofUnit π}
    (h : x.buildProof e m s = (.ok (p, left, right), t)) :
    ∃ ids, Edges.Forces e.prove ids s t ∧
      ids.Perm ((left.steps ++ right.steps).map (·.edge)) := by
  obtain ⟨arc, u, v, upath, vpath, unit, unit', s', -, -, -, -, -, -, hunit, hunit', rfl, rfl, -⟩ :=
    buildProof_eq_ok_iff.mp h
  obtain ⟨hforces, hedges⟩ := forces_of_unit hunit
  obtain ⟨hforces', hedges'⟩ := forces_of_unit hunit'
  refine ⟨_, hforces.append hforces', ?_⟩
  rw [← hedges, ← hedges', ← List.map_append]
  apply List.Perm.map
  cases u.side with
  | left => exact List.Perm.refl _
  | right => exact List.perm_append_comm

end Exploration

/-- A proof that was given for the asking has been built. -/
theorem Search.exists_buildProof_of_prove {x : Exploration α τ π} {focus : Option Nat} {m : Nat}
    {s : σ} {result : Result π} (h : ((exploring x focus).prove e m s).answer = .ok result) :
    ∃ p left right edges t, x.buildProof e m (x.edges, s) = (.ok (p, left, right), edges, t) ∧
      result = .proved p [left, right] x.stats ∧
      ((exploring x focus).prove e m s).search = .exploring { x with edges } focus ∧
      ((exploring x focus).prove e m s).engine = t := by
  unfold prove at h ⊢
  rcases hbuild : x.buildProof e m (x.edges, s) with ⟨fault | ⟨p, left, right⟩, edges, t⟩
  · simp only [hbuild] at h
    exact absurd h (by simp)
  · simp only [hbuild, Except.ok.injEq] at h ⊢
    exact ⟨p, left, right, edges, t, rfl, h.symm, rfl, rfl⟩

end Building

end Joinability
