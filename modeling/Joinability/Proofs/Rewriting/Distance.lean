import Mathlib.Combinatorics.SimpleGraph.Metric
import Joinability.Proofs.Rewriting.Site

/-!
# How far one text is from another

`Derives rules n s t` says that exactly `n` steps lead from `s` to `t`, and `distance rules s t` is
the least such `n`, or `⊤` if no number of steps will do. Rules may be one-way, so the distance need
not be symmetric.

## Symmetric rules

With symmetric rules a step can always be taken back, and texts form an undirected graph. There the
distance is the distance of that graph (`edist_rewriteGraph`), and a derivation of length `n` can be
cut anywhere: both ends reach the text at the cut. A step from a text to itself is no edge of a
simple graph, but such a step is never needed on a shortest way.
-/

namespace Joinability

variable {rules : List Rule}

/-! ## Derivations -/

/-- `Derives rules n s t`: exactly `n` steps lead from `s` to `t`. -/
def Derives (rules : List Rule) : ℕ → Text → Text → Prop
  | 0, s, t => s = t
  | n + 1, s, t => ∃ u, Derives rules n s u ∧ Rewrites rules u t

@[simp] theorem derives_zero {s t : Text} : Derives rules 0 s t ↔ s = t := Iff.rfl

theorem Derives.trans {m n : ℕ} {s t u : Text} (h₁ : Derives rules m s t)
    (h₂ : Derives rules n t u) : Derives rules (m + n) s u := by
  induction n generalizing u with
  | zero => rwa [derives_zero.mp h₂] at h₁
  | succ n ih =>
    obtain ⟨v, hv, hstep⟩ := h₂
    exact ⟨v, ih hv, hstep⟩

theorem Derives.symm (hsym : ∀ r ∈ rules, r.symmetric = true) {n : ℕ} {s t : Text}
    (h : Derives rules n s t) : Derives rules n t s := by
  induction n generalizing t with
  | zero => exact (derives_zero.mp h).symm
  | succ n ih =>
    obtain ⟨u, hu, hstep⟩ := h
    have hback : Derives rules 1 t u := ⟨t, rfl, hstep.symm hsym⟩
    rw [Nat.add_comm]
    exact hback.trans (ih hu)

theorem Derives.exists_cut {m n : ℕ} {s u : Text} (h : Derives rules (m + n) s u) :
    ∃ t, Derives rules m s t ∧ Derives rules n t u := by
  induction n generalizing u with
  | zero => exact ⟨u, h, rfl⟩
  | succ n ih =>
    obtain ⟨v, hv, hstep⟩ := h
    obtain ⟨t, ht, hv⟩ := ih hv
    exact ⟨t, ht, v, hv, hstep⟩

theorem reflTransGen_rewrites_iff {s t : Text} :
    Relation.ReflTransGen (Rewrites rules) s t ↔ ∃ n, Derives rules n s t := by
  constructor
  · intro h
    induction h with
    | refl => exact ⟨0, rfl⟩
    | tail _ hstep ih =>
      obtain ⟨n, hn⟩ := ih
      exact ⟨n + 1, _, hn, hstep⟩
  · rintro ⟨n, hn⟩
    induction n generalizing t with
    | zero => exact derives_zero.mp hn ▸ .refl
    | succ n ih =>
      obtain ⟨u, hu, hstep⟩ := hn
      exact (ih hu).tail hstep

/-! ## The distance -/

/-- The least number of steps that lead from one text to another. -/
noncomputable def distance (rules : List Rule) (s t : Text) : ℕ∞ :=
  ⨅ n : {n : ℕ // Derives rules n s t}, (n.1 : ℕ∞)

theorem distance_le_of_derives {n : ℕ} {s t : Text} (h : Derives rules n s t) :
    distance rules s t ≤ n :=
  iInf_le (fun n : {n : ℕ // Derives rules n s t} ↦ (n.1 : ℕ∞)) ⟨n, h⟩

theorem exists_derives_of_distance_ne_top {s t : Text} (h : distance rules s t ≠ ⊤) :
    ∃ n : ℕ, distance rules s t = n ∧ Derives rules n s t := by
  have hne : Nonempty {n : ℕ // Derives rules n s t} := by
    by_contra hempty
    rw [not_nonempty_iff] at hempty
    exact h (iInf_of_empty _)
  obtain ⟨n, hn⟩ := ENat.exists_eq_iInf fun n : {n : ℕ // Derives rules n s t} ↦ (n.1 : ℕ∞)
  exact ⟨n.1, hn.symm, n.2⟩

theorem distance_le_iff {n : ℕ} {s t : Text} :
    distance rules s t ≤ n ↔ ∃ k ≤ n, Derives rules k s t := by
  constructor
  · intro h
    obtain ⟨k, hk, hder⟩ := exists_derives_of_distance_ne_top (ne_top_of_le_ne_top (by simp) h)
    rw [hk] at h
    exact ⟨k, by exact_mod_cast h, hder⟩
  · rintro ⟨k, hk, hder⟩
    exact (distance_le_of_derives hder).trans (by exact_mod_cast hk)

theorem distance_eq_iff {n : ℕ} {s t : Text} :
    distance rules s t = n ↔ Derives rules n s t ∧ ∀ k, Derives rules k s t → n ≤ k := by
  constructor
  · intro h
    obtain ⟨k, hk, hder⟩ := exists_derives_of_distance_ne_top (h ▸ ENat.natCast_ne_top n)
    obtain rfl : n = k := by exact_mod_cast h.symm.trans hk
    refine ⟨hder, ?_⟩
    intro k hk
    have := h ▸ distance_le_of_derives hk
    exact_mod_cast this
  · rintro ⟨hder, hle⟩
    refine le_antisymm (distance_le_of_derives hder) (le_iInf ?_)
    intro k
    exact_mod_cast hle k.1 k.2

/-! ## Joinability -/

/-- Some text is at most `n` steps away from both texts. -/
def JoinableWithin (rules : List Rule) (n : ℕ) (s t : Text) : Prop :=
  ∃ m, distance rules s m ≤ n ∧ distance rules t m ≤ n

theorem joinableWithin_self (rules : List Rule) (n : ℕ) (t : Text) :
    JoinableWithin rules n t t := by
  have hzero : distance rules t t ≤ n := distance_le_iff.mpr ⟨0, Nat.zero_le n, rfl⟩
  exact ⟨t, hzero, hzero⟩

/-- With symmetric rules two texts can be joined half way. -/
theorem joinableWithin_iff_distance_le (hsym : ∀ r ∈ rules, r.symmetric = true) {n : ℕ}
    {s t : Text} : JoinableWithin rules n s t ↔ distance rules s t ≤ (2 * n : ℕ) := by
  constructor
  · rintro ⟨m, hs, ht⟩
    obtain ⟨i, hi, hsm⟩ := distance_le_iff.mp hs
    obtain ⟨j, hj, htm⟩ := distance_le_iff.mp ht
    exact distance_le_iff.mpr ⟨i + j, by omega, hsm.trans (htm.symm hsym)⟩
  · intro h
    obtain ⟨k, hk, hst⟩ := distance_le_iff.mp h
    rw [show k = k - min k n + min k n by omega] at hst
    obtain ⟨m, hsm, hmt⟩ := hst.exists_cut
    exact ⟨m, distance_le_iff.mpr ⟨_, by omega, hsm⟩,
      distance_le_iff.mpr ⟨_, Nat.min_le_right k n, hmt.symm hsym⟩⟩

/-- The least total number of steps in which two texts can be joined. -/
noncomputable def joinDistance (rules : List Rule) (s t : Text) : ℕ∞ :=
  ⨅ m, distance rules s m + distance rules t m

theorem joinDistance_le (rules : List Rule) (s t m : Text) :
    joinDistance rules s t ≤ distance rules s m + distance rules t m :=
  iInf_le (fun m ↦ distance rules s m + distance rules t m) m

theorem eq_joinDistance_iff {s t m : Text} :
    distance rules s m + distance rules t m = joinDistance rules s t ↔
      ∀ u, distance rules s m + distance rules t m ≤ distance rules s u + distance rules t u :=
  ⟨fun h u ↦ h ▸ joinDistance_le rules s t u,
    fun h ↦ le_antisymm (le_iInf h) (joinDistance_le rules s t m)⟩

/-- A bound on the derivations that meet in a text bounds the distances to it. -/
theorem le_distance_add_distance {n : ℕ} {s t m : Text}
    (h : ∀ i j, Derives rules i s m → Derives rules j t m → n ≤ i + j) :
    (n : ℕ∞) ≤ distance rules s m + distance rules t m := by
  by_cases hs : distance rules s m = ⊤
  · rw [hs, top_add]
    exact le_top
  by_cases ht : distance rules t m = ⊤
  · rw [ht, add_top]
    exact le_top
  obtain ⟨i, hi, hsm⟩ := exists_derives_of_distance_ne_top hs
  obtain ⟨j, hj, htm⟩ := exists_derives_of_distance_ne_top ht
  rw [hi, hj]
  exact_mod_cast h i j hsm htm

/-! ## The graph of symmetric rules -/

/-- The undirected graph in which two texts are neighbours when a step leads from one of them to the
other. -/
def rewriteGraph (rules : List Rule) : SimpleGraph Text := SimpleGraph.fromRel (Rewrites rules)

theorem edist_rewriteGraph_le {n : ℕ} {s t : Text}
    (h : Derives rules n s t) : (rewriteGraph rules).edist s t ≤ n := by
  induction n generalizing t with
  | zero => rw [derives_zero.mp h]; simp
  | succ n ih =>
    obtain ⟨u, hu, hstep⟩ := h
    have hlast : (rewriteGraph rules).edist u t ≤ 1 := by
      by_cases heq : u = t
      · rw [heq, SimpleGraph.edist_self]; exact zero_le
      · have hadj : (rewriteGraph rules).Adj u t := ⟨heq, Or.inl hstep⟩
        rw [SimpleGraph.edist_eq_one_iff_adj.mpr hadj]
    calc (rewriteGraph rules).edist s t
        ≤ (rewriteGraph rules).edist s u + (rewriteGraph rules).edist u t :=
          SimpleGraph.edist_triangle
      _ ≤ n + 1 := add_le_add (ih hu) hlast
      _ = ((n + 1 : ℕ) : ℕ∞) := by push_cast; rfl

theorem derives_of_walk (hsym : ∀ r ∈ rules, r.symmetric = true) {s t : Text}
    (w : (rewriteGraph rules).Walk s t) : Derives rules w.length s t := by
  induction w with
  | nil => exact derives_zero.mpr rfl
  | cons hadj w ih =>
    have hstep : Rewrites rules _ _ := hadj.2.elim id fun h ↦ h.symm hsym
    have hfirst : Derives rules 1 _ _ := ⟨_, rfl, hstep⟩
    rw [SimpleGraph.Walk.length_cons, Nat.add_comm]
    exact hfirst.trans ih

theorem edist_rewriteGraph (hsym : ∀ r ∈ rules, r.symmetric = true) (s t : Text) :
    (rewriteGraph rules).edist s t = distance rules s t := by
  refine le_antisymm (le_iInf fun n ↦ edist_rewriteGraph_le n.2) ?_
  refine le_iInf ?_
  intro w
  exact distance_le_of_derives (derives_of_walk hsym w)

end Joinability
