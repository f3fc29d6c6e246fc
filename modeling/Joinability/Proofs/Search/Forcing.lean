import Joinability.Graph.Edge

/-!
# Forcing the proofs of edges

Building the proof of a goal forces the proofs of edges, and the table of edges keeps them. All that
happens to the table is that it matures: edges stay, with their arcs, and a proof that has been
built stays as it is. `Edges.Forces` names the edges whose proofs were forced, one after the other,
and `Forces.isForced_iff` says that no others were.
-/

namespace Joinability

variable {σ τ π : Type}

/-! ## Tables of edges that mature -/

namespace Edges

variable {es fs gs : Edges τ π}

/-- Whether the proof of an edge has been built. -/
def isForced (es : Edges τ π) (j : Nat) : Bool := es.items[j]?.any fun e ↦ e.proof.isReady

/-- `es.Matures fs`: the edges of `es` are still there in `fs`, and their proofs, where these had
been built. -/
def Matures (es fs : Edges τ π) : Prop :=
  ∀ ⦃j : Nat⦄ ⦃e : Edge τ π⦄, es.items[j]? = some e → ∃ f : Edge τ π, fs.items[j]? = some f ∧
    f.toArc = e.toArc ∧ ∀ p, e.proof = .ready p → f.proof = .ready p

theorem Matures.refl (es : Edges τ π) : es.Matures es := fun _ e he ↦ ⟨e, he, rfl, fun _ hp ↦ hp⟩

theorem Matures.trans (h : es.Matures fs) (h' : fs.Matures gs) : es.Matures gs := by
  intro j e he
  obtain ⟨f, hf, harc, hready⟩ := h he
  obtain ⟨g, hg, harc', hready'⟩ := h' hf
  exact ⟨g, hg, harc'.trans harc, fun p hp ↦ hready' p (hready p hp)⟩

theorem getElem?_keepProof (es : Edges τ π) (id : Nat) (p : π) (j : Nat) :
    (es.keepProof id p).items[j]? = if id = j
      then es.items[j]?.map fun e ↦ { e with proof := .ready p } else es.items[j]? :=
  Array.getElem?_modify

theorem force_of_ready {prove : τ → σ → Except Fault π × σ} {id : Nat} {s : σ} {e : Edge τ π}
    {p : π} (he : es.items[id]? = some e) (hp : e.proof = .ready p) :
    es.force prove id s = (.ok p, es, s) := by
  unfold force
  simp only [he, hp]

theorem force_of_pending {prove : τ → σ → Except Fault π × σ} {id : Nat} {s t : σ} {e : Edge τ π}
    {recipe : τ} {p : π} (he : es.items[id]? = some e) (hrecipe : e.proof = .pending recipe)
    (hp : prove recipe s = (.ok p, t)) : es.force prove id s = (.ok p, es.keepProof id p, t) := by
  unfold force
  simp only [he, hrecipe, hp]

/-- Forcing a proof succeeds when it has been built, and when it can be built now. -/
theorem force_eq_ok_iff {prove : τ → σ → Except Fault π × σ} {id : Nat} {s t : σ} {p : π} :
    es.force prove id s = (.ok p, fs, t) ↔ ∃ e, es.items[id]? = some e ∧
      ((e.proof = .ready p ∧ fs = es ∧ t = s) ∨
        ∃ recipe, e.proof = .pending recipe ∧ prove recipe s = (.ok p, t) ∧
          fs = es.keepProof id p) := by
  unfold force
  constructor
  · intro h
    split at h
    · simp at h
    · next e he =>
      refine ⟨e, he, ?_⟩
      split at h
      · next hready =>
        simp only [Prod.mk.injEq, Except.ok.injEq] at h
        exact Or.inl ⟨h.1 ▸ hready, h.2.1.symm, h.2.2.symm⟩
      · simp at h
      · next recipe hpending =>
        split at h
        · next hprove =>
          simp only [Prod.mk.injEq, Except.ok.injEq] at h
          obtain ⟨rfl, rfl, rfl⟩ := h
          exact Or.inr ⟨recipe, hpending, hprove, rfl⟩
        · simp at h
  · rintro ⟨e, he, ⟨hready, rfl, rfl⟩ | ⟨recipe, hpending, hprove, rfl⟩⟩
    · exact force_of_ready he hready
    · exact force_of_pending he hpending hprove

section Force

variable {prove : τ → σ → Except Fault π × σ} {id : Nat} {s t : σ} {p : π}

theorem matures_of_force (h : es.force prove id s = (.ok p, fs, t)) : es.Matures fs := by
  obtain ⟨e, he, ⟨-, rfl, -⟩ | ⟨recipe, hpending, -, rfl⟩⟩ := force_eq_ok_iff.mp h
  · exact .refl _
  · intro j f hf
    rw [getElem?_keepProof]
    by_cases hj : id = j
    · subst hj
      obtain rfl := Option.some.inj (he.symm.trans hf)
      rw [if_pos rfl, hf]
      refine ⟨_, rfl, rfl, fun q hq ↦ ?_⟩
      rw [hpending] at hq
      exact absurd hq (by simp)
    · rw [if_neg hj]
      exact ⟨f, hf, rfl, fun _ hq ↦ hq⟩

theorem ready_of_force (h : es.force prove id s = (.ok p, fs, t)) :
    ∃ f, fs.items[id]? = some f ∧ f.proof = .ready p := by
  obtain ⟨e, he, ⟨hready, rfl, -⟩ | ⟨recipe, -, -, rfl⟩⟩ := force_eq_ok_iff.mp h
  · exact ⟨e, he, hready⟩
  · rw [getElem?_keepProof, if_pos rfl, he]
    exact ⟨_, rfl, rfl⟩

theorem getElem?_of_force (h : es.force prove id s = (.ok p, fs, t)) {j : Nat} (hj : j ≠ id) :
    fs.items[j]? = es.items[j]? := by
  obtain ⟨e, he, ⟨-, rfl, -⟩ | ⟨recipe, -, -, rfl⟩⟩ := force_eq_ok_iff.mp h
  · rfl
  · rw [getElem?_keepProof, if_neg (Ne.symm hj)]

theorem isForced_of_force (h : es.force prove id s = (.ok p, fs, t)) (j : Nat) :
    fs.isForced j = true ↔ es.isForced j = true ∨ j = id := by
  obtain ⟨f, hf, hready⟩ := ready_of_force h
  by_cases hj : j = id
  · subst hj
    refine iff_of_true ?_ (Or.inr rfl)
    rw [isForced, hf, Option.any_some, hready]
    rfl
  · rw [isForced, isForced, getElem?_of_force h hj, or_iff_left hj]

/-- What was forced once is found ready in every later table, whatever recipes do by then. -/
theorem force_again (h : es.force prove id s = (.ok p, fs, t)) (hgs : fs.Matures gs)
    {prove' : τ → σ → Except Fault π × σ} (u : σ) : gs.force prove' id u = (.ok p, gs, u) := by
  obtain ⟨f, hf, hready⟩ := ready_of_force h
  obtain ⟨g, hg, -, hkept⟩ := hgs hf
  exact force_of_ready hg (hkept p hready)

end Force

/-- `Forces prove ids s t`: forcing the proofs of the edges `ids`, one after the other, succeeds and
leads from the table and the state of the engine in `s` to those in `t`. -/
inductive Forces (prove : τ → σ → Except Fault π × σ) :
    List Nat → Edges τ π × σ → Edges τ π × σ → Prop
  | nil (s : Edges τ π × σ) : Forces prove [] s s
  | snoc {ids : List Nat} {id : Nat} {s t u : Edges τ π × σ} {p : π} (h : Forces prove ids s t)
      (hforce : t.1.force prove id t.2 = (.ok p, u)) : Forces prove (ids ++ [id]) s u

namespace Forces

variable {prove : τ → σ → Except Fault π × σ} {ids jds : List Nat} {s t u : Edges τ π × σ}

theorem append (h : Forces prove ids s t) (h' : Forces prove jds t u) :
    Forces prove (ids ++ jds) s u := by
  induction h' with
  | nil s => rwa [List.append_nil]
  | snoc _ hforce ih =>
    rw [← List.append_assoc]
    exact (ih h).snoc hforce

theorem matures (h : Forces prove ids s t) : s.1.Matures t.1 := by
  induction h with
  | nil s => exact .refl _
  | snoc _ hforce ih => exact ih.trans (matures_of_force hforce)

theorem getElem?_eq (h : Forces prove ids s t) {j : Nat} (hj : j ∉ ids) :
    t.1.items[j]? = s.1.items[j]? := by
  induction h with
  | nil s => rfl
  | snoc _ hforce ih =>
    rw [List.mem_append, List.mem_singleton, not_or] at hj
    rw [getElem?_of_force hforce hj.2, ih hj.1]

theorem isForced_iff (h : Forces prove ids s t) (j : Nat) :
    t.1.isForced j = true ↔ s.1.isForced j = true ∨ j ∈ ids := by
  induction h with
  | nil s => simp
  | snoc _ hforce ih =>
    rw [isForced_of_force hforce, ih, List.mem_append, List.mem_singleton, or_assoc]

end Forces

end Edges

end Joinability
