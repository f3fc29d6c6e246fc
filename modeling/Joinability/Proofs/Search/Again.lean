import Joinability.Proofs.Search.Building

/-!
# Building a proof again

A forced proof is kept, so whoever builds a proof a second time finds the proofs of all its edges
ready. `BuildM.Repeats` is what this gives for a computation: once it has succeeded, it succeeds
with the same answer in every later table, and changes nothing any more. An edge itself may look
different later, since it carries its proof; so the rule for binds has a companion for a computation
that goes on with an edge, which must only look at the arc.

With it, asking for the proof of a goal again is no event at all: **`Search.prove_again`**.
-/

namespace Joinability

variable {σ α τ π : Type}

/-! ## Building again -/

namespace BuildM

variable {ρ ρ' : Type}

/-- Once the computation has succeeded, it succeeds with the same answer in every later table, and
changes nothing any more. -/
def Repeats (m : BuildM σ τ π ρ) : Prop :=
  ∀ ⦃s t : Edges τ π × σ⦄ ⦃a : ρ⦄, m s = (.ok a, t) → s.1.Matures t.1 ∧
    ∀ u : Edges τ π × σ, t.1.Matures u.1 → m u = (.ok a, u)

theorem repeats_ofExcept (answer : Except Fault ρ) :
    Repeats (ofExcept answer : BuildM σ τ π ρ) := by
  intro s t a h
  obtain ⟨rfl, rfl⟩ := ofExcept_eq_ok_iff.mp h
  exact ⟨.refl _, fun u _ ↦ rfl⟩

theorem repeats_pure (a : ρ) : Repeats (pure a : BuildM σ τ π ρ) := repeats_ofExcept (.ok a)

theorem repeats_throw (fault : Fault) : Repeats (throw fault : BuildM σ τ π ρ) :=
  repeats_ofExcept (.error fault)

theorem repeats_proofOf (e : Engine σ α τ π) (id : Nat) : Repeats (proofOf e id) :=
  fun _ _ _ h ↦ ⟨Edges.matures_of_force h, fun u hu ↦ Edges.force_again h hu u.2⟩

theorem Repeats.bind {m : BuildM σ τ π ρ'} {f : ρ' → BuildM σ τ π ρ} (hm : Repeats m)
    (hf : ∀ a, Repeats (f a)) : Repeats (m >>= f) := by
  intro s t b h
  obtain ⟨a, u, hrun, hrest⟩ := bind_eq_ok_iff.mp h
  obtain ⟨hsu, hagain⟩ := hm hrun
  obtain ⟨hut, hagain'⟩ := hf a hrest
  exact ⟨hsu.trans hut, fun v hv ↦
    bind_eq_ok_iff.mpr ⟨a, v, hagain v (hut.trans hv), hagain' v hv⟩⟩

/-- Going on with an edge of which only the arc matters. -/
theorem repeats_edge_bind {id : Nat} {f : Edge τ π → BuildM σ τ π ρ}
    (harc : ∀ e e' : Edge τ π, e.toArc = e'.toArc → f e = f e') (hf : ∀ e, Repeats (f e)) :
    Repeats (edge id >>= f) := by
  intro s t b h
  obtain ⟨e, _, hedge, hrest⟩ := bind_eq_ok_iff.mp h
  obtain ⟨he, rfl⟩ := edge_eq_ok_iff.mp hedge
  obtain ⟨hst, hagain⟩ := hf e hrest
  refine ⟨hst, fun v hv ↦ ?_⟩
  obtain ⟨e', he', heq, -⟩ := hst.trans hv he
  refine bind_eq_ok_iff.mpr ⟨e', v, edge_eq_ok_iff.mpr ⟨he', rfl⟩, ?_⟩
  rw [harc e' e heq]
  exact hagain v hv

end BuildM

section Again

variable {e : Engine σ α τ π}

theorem Walk.repeats_cross (vs : Vertices α) (w : Walk π) (id : Nat) :
    BuildM.Repeats (w.cross e vs id) := by
  rw [cross_eq]
  apply BuildM.repeats_edge_bind
  · intro edge edge' harc
    simp only [harc]
  · intro edge
    cases edge.otherEnd? w.cursor with
    | none => exact BuildM.repeats_throw _
    | some next =>
      exact (BuildM.repeats_proofOf e id).bind fun forced ↦ BuildM.repeats_ofExcept _

theorem Walk.repeats_walk (vs : Vertices α) (path : List Nat) (w : Walk π) :
    BuildM.Repeats (path.foldlM (cross e vs) w) := by
  induction path generalizing w with
  | nil => exact BuildM.repeats_pure w
  | cons id path ih =>
    rw [List.foldlM_cons]
    exact (repeats_cross vs w id).bind ih

theorem repeats_unit (vs : Vertices α) (side : Side) (path : List Nat) :
    BuildM.Repeats (buildUnit e vs side path) := by
  rw [buildUnit]
  apply (Walk.repeats_walk vs path _).bind
  intro w
  cases w.proof with
  | some p => exact (BuildM.repeats_pure p).bind fun _ ↦ BuildM.repeats_pure _
  | none => exact (BuildM.repeats_ofExcept _).bind fun v ↦
      (BuildM.repeats_ofExcept _).bind fun _ ↦ BuildM.repeats_pure _

theorem Edges.Matures.get {es fs : Edges τ π} (h : es.Matures fs) {id : Nat} {edge : Edge τ π}
    (he : es.get id = .ok edge) : ∃ edge', fs.get id = .ok edge' ∧ edge'.toArc = edge.toArc := by
  obtain ⟨edge', he', harc, -⟩ := h (get_eq_ok_iff.mp he)
  exact ⟨edge', get_eq_ok_iff.mpr he', harc⟩

/-- A climb has arrived at the root of its side, or goes on from the other end of a parent edge. -/
theorem of_climb_eq_ok {vs : Vertices α} {es : Edges τ π} {start : Nat} {side : Side}
    {n cursor : Nat} {below path : List Nat}
    (h : climb vs es start side n cursor below = .ok path) : ∃ v, vs.get cursor = .ok v ∧
      ((v.isRoot = true ∧ v.id = side.root ∧ path = below) ∨
        ∃ m id edge parent, n = m + 1 ∧ v.isRoot = false ∧ v.parentEdge = some id ∧
          es.get id = .ok edge ∧ edge.otherEnd? cursor = some parent ∧
          climb vs es start side m parent (edge.id :: below) = .ok path) := by
  rw [climb.eq_def] at h
  cases hv : vs.get cursor with
  | error fault => simp [hv, bind, Except.bind] at h
  | ok v =>
    refine ⟨v, rfl, ?_⟩
    simp only [hv, bind, Except.bind] at h
    cases hroot : v.isRoot with
    | true =>
      rw [if_pos hroot] at h
      split at h
      · next hid => exact Or.inl ⟨rfl, hid, (Except.ok.inj h).symm⟩
      · cases h
    | false =>
      simp only [hroot, Bool.false_eq_true, if_false] at h
      split at h
      · cases h
      · next id hid =>
        cases hedge : es.get id with
        | error fault => simp [hedge] at h
        | ok edge =>
          simp only [hedge] at h
          split at h
          · cases h
          · next parent hother =>
            split at h
            · cases h
            · next m => exact Or.inr ⟨m, id, edge, parent, rfl, rfl, hid, hedge, hother, h⟩

/-- Climbing only follows arcs. -/
theorem climb_of_matures {vs : Vertices α} {es fs : Edges τ π} (hfs : es.Matures fs) {start : Nat}
    {side : Side} {n cursor : Nat} {below path : List Nat}
    (h : climb vs es start side n cursor below = .ok path) :
    climb vs fs start side n cursor below = .ok path := by
  induction n generalizing cursor below with
  | zero =>
    obtain ⟨v, hv, ⟨hroot, hid, rfl⟩ | ⟨_, _, _, _, hn, -⟩⟩ := of_climb_eq_ok h
    · exact climb_root hv hroot hid
    · exact absurd hn (by simp)
  | succ n ih =>
    obtain ⟨v, hv,
      ⟨hroot, hid, rfl⟩ | ⟨m, id, edge, parent, hn, hroot, hid, hedge, hother, hrest⟩⟩ :=
      of_climb_eq_ok h
    · exact climb_root hv hroot hid
    · obtain rfl := Nat.succ.inj hn
      obtain ⟨edge', hedge', harc⟩ := hfs.get hedge
      rw [← harc] at hother
      rw [climb_child hv hroot hid hedge' hother, harc]
      exact ih hrest

theorem pathFromRoot_of_matures {vs : Vertices α} {es fs : Edges τ π} (hfs : es.Matures fs)
    {vertex : Nat} {path : List Nat} (h : pathFromRoot vs es vertex = .ok path) :
    pathFromRoot vs fs vertex = .ok path := by
  rw [pathFromRoot] at h ⊢
  cases hv : vs.get vertex with
  | error fault =>
    rw [hv] at h
    cases h
  | ok v =>
    rw [hv] at h
    exact climb_of_matures hfs h

/-- A proof that was built is built again from what is ready. -/
theorem Exploration.buildProof_again {x : Exploration α τ π} {m : Nat} {s t : Edges τ π × σ}
    {r : π × ProofUnit π × ProofUnit π} (hs : s.1 = x.edges)
    (h : x.buildProof e m s = (.ok r, t)) :
    ({ x with edges := t.1 } : Exploration α τ π).buildProof e m t = (.ok r, t) := by
  obtain ⟨p, left, right⟩ := r
  obtain ⟨arc, u, v, upath, vpath, unit, unit', s', harc, hu, hv, hside, hupath, hvpath, hunit,
    hunit', hleft, hright, hjoin⟩ := buildProof_eq_ok_iff.mp h
  obtain ⟨hss', hagain⟩ := repeats_unit _ _ _ hunit
  obtain ⟨hs't, hagain'⟩ := repeats_unit _ _ _ hunit'
  have hfs : x.edges.Matures t.1 := hs ▸ hss'.trans hs't
  obtain ⟨arc', harc', heq⟩ := hfs.get harc
  refine buildProof_eq_ok_iff.mpr ⟨arc', u, v, upath, vpath, unit, unit', t, harc', ?_, ?_, hside,
    pathFromRoot_of_matures hfs hupath, pathFromRoot_of_matures hfs hvpath, ?_,
    hagain' t (.refl _), hleft, hright, hjoin⟩
  · rw [heq]
    exact hu
  · rw [heq]
    exact hv
  · rw [heq]
    exact hagain t hs't

/-- **Asking for a proof again** gives the same answer, asks the engine for nothing, and changes
nothing. -/
theorem Search.prove_again {search : Search α τ π} {m : Nat} {s : σ} {result : Result π}
    (h : (search.prove e m s).answer = .ok result) :
    (search.prove e m s).search.prove e m (search.prove e m s).engine = search.prove e m s := by
  cases search with
  | idle => cases h
  | agreed lhs =>
    unfold prove at h ⊢
    by_cases hm : m = unissued
    · simp only [if_pos hm]
    · simp only [if_neg hm] at h
      cases h
  | exploring x focus =>
    unfold prove at h ⊢
    rcases hbuild : x.buildProof e m (x.edges, s) with ⟨fault | ⟨p, left, right⟩, edges, t⟩
    · simp only [hbuild] at h
      cases h
    · simp only [hbuild, Exploration.buildProof_again rfl hbuild]

namespace Search

/-- The replies to `n` requests for the proof over an edge, one after the other. -/
def provings (e : Engine σ α τ π) (m : Nat) :
    Nat → Search α τ π → σ → List (Reply σ α τ π (Result π))
  | 0, _, _ => []
  | n + 1, search, s =>
    let reply := search.prove e m s
    reply :: provings e m n reply.search reply.engine

theorem provings_again {search : Search α τ π} {m : Nat} {s : σ} {result : Result π}
    (h : (search.prove e m s).answer = .ok result) (n : Nat) :
    provings e m n (search.prove e m s).search (search.prove e m s).engine
      = List.replicate n (search.prove e m s) := by
  induction n with
  | zero => rfl
  | succ n ih => rw [provings, prove_again h, ih, List.replicate_succ]

end Search

end Again

end Joinability
