import Joinability.Proofs.Graph.Ascent
import Joinability.Proofs.Search.Unit

/-!
# Proving a walk in either direction

The edges of a path that a search has found are all crossed from their source to their target.
Building a unit does not rely on that. It takes any list of edges, keeps a cursor, and finds out at
each edge which end the cursor stands at. An edge that is crossed against its direction is proved by
symmetry; one whose ends are the same vertex counts as crossed in its own direction; and an edge may
come up again, in the same direction or the other.

`Leads` says that a list of edges is a walk in this sense, and `Provable` what is asked of the
graph: vertices carry the text under which they are printed, and the proof of an edge, once it is
asked for, equates the texts of its ends. Then the unit of a walk can be built, and proves that the
first text is the last; and of a list that is no walk, the part before the first edge that does not
touch the cursor can be built, and that edge is the fault: **`buildUnit_of_path`**.

## The invariant

Forced proofs are kept, so the table of edges changes on the way. It stays a table with the same
arcs in which every proof equates the texts of the ends (`Upholds`), no matter which edges come up
how often. The proof so far equates the text of the root with that of the cursor (`Walk.Covers`), so
the next one always fits.
-/

namespace Joinability

variable {σ α τ π : Type}

/-! ## Walks -/

/-- The edge `id` has the ends `u` and `v`, in one direction or the other. -/
def Crosses (es : Edges τ π) (id u v : Nat) : Prop := ∃ a, es.items[id]? = some a ∧ a.Between u v

/-- The edges of `path`, crossed one after the other, lead from `u` to `v`. -/
inductive Leads (es : Edges τ π) (u : Nat) : List Nat → Nat → Prop
  | nil : Leads es u [] u
  | snoc {path : List Nat} {id v w : Nat} (h : Leads es u path v) (hcross : Crosses es id v w) :
      Leads es u (path ++ [id]) w

theorem Leads.eq_of_nil {es : Edges τ π} {u v : Nat} {path : List Nat} (h : Leads es u path v)
    (hnil : path = []) : v = u := by
  induction h with
  | nil => rfl
  | snoc => exact absurd hnil (by simp)

/-- **A list of edges is a walk, or one of its edges is the first that does not go on where the ones
before lead.** -/
theorem leads_or_breaks (es : Edges τ π) (u : Nat) (path : List Nat) :
    (∃ v, Leads es u path v) ∨ ∃ walked id rest v, path = walked ++ id :: rest ∧
      Leads es u walked v ∧ ∀ w, ¬Crosses es id v w := by
  induction path using List.reverseRecOn with
  | nil => exact .inl ⟨u, .nil⟩
  | append_singleton path id ih =>
    obtain ⟨v, hv⟩ | ⟨walked, id', rest, v, rfl, hv, hbreak⟩ := ih
    · by_cases hcross : ∃ w, Crosses es id v w
      · obtain ⟨w, hw⟩ := hcross
        exact .inl ⟨w, hv.snoc hw⟩
      · exact .inr ⟨path, id, [], v, rfl, hv, not_exists.mp hcross⟩
    · exact .inr ⟨walked, id', rest ++ [id], v, List.append_assoc walked (id' :: rest) [id], hv,
        hbreak⟩

/-- The fault of a path that goes on with the edge `id` from the vertex `v`, which the edge does not
touch. -/
def Edges.breakAt (es : Edges τ π) (id v : Nat) : Fault :=
  if id < es.size then .pathBroken id v else .edgeUnissued id es.size

theorem Edges.kind_breakAt (es : Edges τ π) (id v : Nat) : (es.breakAt id v).kind = .invariant := by
  unfold breakAt
  split <;> rfl

/-! ## Proofs of equalities between texts -/

namespace Evidence

/-- The evidence is a proof that `s` equals `t`. -/
def Proves (x : Evidence) (s t : Text) : Prop :=
  ∃ p : Equality, x = .equality p ∧ p.lhs = s ∧ p.rhs = t

variable {x y : Evidence} {s t u : Text}

theorem Proves.exists_symmetry (h : x.Proves s t) : ∃ y, x.symmetry = .ok y ∧ y.Proves t s := by
  obtain ⟨p, rfl, hs, ht⟩ := h
  exact ⟨.equality p.symm, rfl, p.symm, rfl, ht, hs⟩

theorem Proves.exists_transitivity (hx : x.Proves s t) (hy : y.Proves t u) :
    ∃ z, x.transitivity y = .ok z ∧ z.Proves s u := by
  obtain ⟨p, rfl, hs, hp⟩ := hx
  obtain ⟨q, rfl, hq, hu⟩ := hy
  have htrans := Equality.trans_eq_ok_iff.mpr ⟨hp.trans hq.symm, rfl⟩
  exact ⟨_, transitivity_equality_eq_ok_iff.mpr ⟨_, htrans, rfl⟩, _, rfl, hs, hu⟩

theorem proves_refl (t : Text) : (equality (.refl t)).Proves t t := ⟨.refl t, rfl, rfl, rfl⟩

end Evidence

/-- The combinators of the engine are those of the text engines. -/
structure Engine.CombinesTexts (e : Engine σ Payload τ Evidence) : Prop where
  reflexivity : e.reflexivity = Evidence.reflexivity
  symmetry : e.symmetry = Evidence.symmetry
  transitivity : e.transitivity = Evidence.transitivity

/-- Whoever asks for the deferred proof gets a proof that `s` equals `t`. -/
def Deferred.Yields (prove : τ → σ → Except Fault Evidence × σ) (s t : Text) :
    Deferred τ Evidence → Prop
  | absent => False
  | pending recipe => ∀ a, ∃ x b, prove recipe a = (.ok x, b) ∧ x.Proves s t
  | ready x => x.Proves s t

/-! ## Graphs with proofs -/

/-- The printed term of a vertex; empty for an id that was never issued. -/
def Vertices.textAt (vs : Vertices α) (i : Nat) : Text := (vs.items[i]?.map Vertex.pretty).getD []

theorem Vertices.exists_get_textAt {vs : Vertices α} {i : Nat} (h : i < vs.size) :
    ∃ v, vs.get i = .ok v ∧ v.pretty = vs.textAt i := by
  have hv : vs.items[i]? = some vs.items[i] := Array.getElem?_eq_getElem h
  refine ⟨vs.items[i], Vertices.get_eq_ok_iff.mpr hv, ?_⟩
  rw [textAt, hv, Option.map_some, Option.getD_some]

/-- The roots and the ends of all edges are in the table of vertices, every vertex carries the text
under which it is printed, and every edge has a proof that the texts of its ends are equal. -/
structure Provable (prove : τ → σ → Except Fault Evidence × σ) (vs : Vertices Payload)
    (es : Edges τ Evidence) : Prop where
  root (side : Side) : side.root < vs.size
  payload {i : Nat} {v : Vertex Payload} (hv : vs.items[i]? = some v) :
    v.term.payload = some (.text v.pretty)
  source {id : Nat} {a : Edge τ Evidence} (ha : es.items[id]? = some a) : a.source < vs.size
  target {id : Nat} {a : Edge τ Evidence} (ha : es.items[id]? = some a) : a.target < vs.size
  proof {id : Nat} {a : Edge τ Evidence} (ha : es.items[id]? = some a) :
    a.proof.Yields prove (vs.textAt a.source) (vs.textAt a.target)

/-- The table of edges is one with the arcs of `es`, and all its edges have proofs. -/
structure Upholds (prove : τ → σ → Except Fault Evidence × σ) (vs : Vertices Payload)
    (es : Edges τ Evidence) (s : Edges τ Evidence × σ) : Prop where
  arcs (id : Nat) : s.1.items[id]?.map Edge.toArc = es.items[id]?.map Edge.toArc
  size : s.1.size = es.size
  provable : Provable prove vs s.1

section Forcing

variable {prove : τ → σ → Except Fault Evidence × σ} {vs : Vertices Payload} {es : Edges τ Evidence}
  {id : Nat} {a : Edge τ Evidence} {x : Evidence}

theorem Provable.upholds (h : Provable prove vs es) (s : σ) : Upholds prove vs es (es, s) :=
  ⟨fun _ ↦ rfl, rfl, h⟩

theorem Provable.lt_size (h : Provable prove vs es) (ha : es.items[id]? = some a) {u v : Nat}
    (hends : a.Between u v) : u < vs.size ∧ v < vs.size := by
  obtain ⟨rfl, rfl⟩ | ⟨rfl, rfl⟩ := hends
  · exact ⟨h.source ha, h.target ha⟩
  · exact ⟨h.target ha, h.source ha⟩

/-- A proof that was built can be kept. -/
theorem Provable.keepProof (h : Provable prove vs es) (ha : es.items[id]? = some a)
    (hx : x.Proves (vs.textAt a.source) (vs.textAt a.target)) :
    Provable prove vs (es.keepProof id x) := by
  have hkept {j : Nat} {b : Edge τ Evidence} (hb : (es.keepProof id x).items[j]? = some b) :
      es.items[j]? = some b ∨ b = { a with proof := .ready x } := by
    rw [Edges.getElem?_keepProof] at hb
    by_cases hj : id = j
    · subst hj
      rw [if_pos rfl, ha, Option.map_some] at hb
      exact .inr (Option.some.inj hb).symm
    · rw [if_neg hj] at hb
      exact .inl hb
  have hsource := h.source ha
  have htarget := h.target ha
  refine ⟨h.root, h.payload, fun hb ↦ ?_, fun hb ↦ ?_, fun hb ↦ ?_⟩
  · obtain hb' | rfl := hkept hb
    · exact h.source hb'
    · exact hsource
  · obtain hb' | rfl := hkept hb
    · exact h.target hb'
    · exact htarget
  · obtain hb' | rfl := hkept hb
    · exact h.proof hb'
    · exact hx

theorem Upholds.exists_edge {s : Edges τ Evidence × σ} (h : Upholds prove vs es s)
    (ha : es.items[id]? = some a) : ∃ b, s.1.items[id]? = some b ∧ b.toArc = a.toArc := by
  have harc := h.arcs id
  rw [ha, Option.map_some, Option.map_eq_some_iff] at harc
  exact harc

theorem Upholds.keepProof {s : Edges τ Evidence × σ} (h : Upholds prove vs es s)
    {b : Edge τ Evidence}
    (hb : s.1.items[id]? = some b) (hx : x.Proves (vs.textAt b.source) (vs.textAt b.target))
    (t : σ) : Upholds prove vs es (s.1.keepProof id x, t) := by
  refine ⟨fun j ↦ ?_, (Edges.size_keepProof s.1 id x).trans h.size, h.provable.keepProof hb hx⟩
  rw [← h.arcs j, Edges.getElem?_keepProof]
  by_cases hj : id = j
  · rw [if_pos hj, Option.map_map]
    rfl
  · rw [if_neg hj]

/-- An edge is there whatever proofs have been built. -/
theorem gives_edge_of_upholds (ha : es.items[id]? = some a) :
    BuildM.Gives (Upholds prove vs es) (BuildM.edge id) fun b ↦ b.toArc = a.toArc := by
  intro s hs
  obtain ⟨b, hb, harc⟩ := hs.exists_edge ha
  exact ⟨b, s, BuildM.edge_eq_ok_iff.mpr ⟨hb, rfl⟩, hs, harc⟩

/-- **The proof of an edge can be had at any time**, and equates the texts of its ends. -/
theorem gives_proofOf_of_upholds {e : Engine σ Payload τ Evidence} (ha : es.items[id]? = some a) :
    BuildM.Gives (Upholds e.prove vs es) (BuildM.proofOf e id)
      fun x ↦ x.Proves (vs.textAt a.source) (vs.textAt a.target) := by
  rintro ⟨fs, s⟩ hs
  obtain ⟨b, hb, harc⟩ := hs.exists_edge ha
  have hsource : b.source = a.source := congrArg Arc.source harc
  have htarget : b.target = a.target := congrArg Arc.target harc
  have hyields := hs.provable.proof hb
  rw [← hsource, ← htarget]
  rcases hproof : b.proof with _ | recipe | x
  all_goals rw [hproof] at hyields
  · exact hyields.elim
  · obtain ⟨x, t, hrun, hx⟩ := hyields s
    exact ⟨x, (_, t), Edges.force_of_pending hb hproof hrun, hs.keepProof hb hx t, hx⟩
  · exact ⟨x, (fs, s), Edges.force_of_ready hb hproof, hs, hyields⟩

end Forcing

/-! ## Steps along a walk -/

/-- The step crosses its edge, quotes the use of the edge and names the texts of its ends. -/
def ProofStep.Follows (vs : Vertices α) (es : Edges τ π) (p : ProofStep) : Prop :=
  ∃ a u v, es.items[p.edge]? = some a ∧ a.Between u v ∧ p.use = a.use ∧ p.before = vs.textAt u ∧
    p.after = vs.textAt v

/-- The steps list the edges of a walk over `path` from `u` to `v`. -/
structure Retraces (vs : Vertices α) (es : Edges τ π) (steps : List ProofStep) (u : Nat)
    (path : List Nat) (v : Nat) : Prop where
  edges : steps.map (·.edge) = path
  chain : Linked (·.Follows vs es) (vs.textAt u) steps (vs.textAt v)

section Crossing

variable {vs : Vertices Payload} {es : Edges τ Evidence} {u v w id : Nat} {path : List Nat}
  {a : Edge τ Evidence}

theorem retraces_nil (vs : Vertices Payload) (es : Edges τ Evidence) (u : Nat) :
    Retraces vs es [] u [] u :=
  ⟨rfl, rfl⟩

theorem Retraces.eq_of_nil {steps : List ProofStep} (h : Retraces vs es steps u [] v) :
    vs.textAt u = vs.textAt v := by
  have hchain := h.chain
  rwa [List.map_eq_nil_iff.mp h.edges] at hchain

theorem Retraces.snoc {steps : List ProofStep} (h : Retraces vs es steps u path v) {p : ProofStep}
    (ha : es.items[p.edge]? = some a) (hends : a.Between v w) (huse : p.use = a.use)
    (hbefore : p.before = vs.textAt v) (hafter : p.after = vs.textAt w) :
    Retraces vs es (steps ++ [p]) u (path ++ [p.edge]) w := by
  have hfollows : p.Follows vs es := ⟨a, v, w, ha, hends, huse, hbefore, hafter⟩
  refine ⟨?_, hafter ▸ h.chain.snoc hbefore hfollows⟩
  rw [List.map_append, h.edges]
  rfl

/-- What a walk over `path` from `u` to `v` has come to. -/
structure Walk.Covers (vs : Vertices Payload) (es : Edges τ Evidence) (walk : Walk Evidence)
    (u : Nat) (path : List Nat) (v : Nat) : Prop where
  cursor : walk.cursor = v
  steps : Retraces vs es walk.steps u path v
  proof : (path = [] ∧ walk.proof = none) ∨
    (path ≠ [] ∧ ∃ x, walk.proof = some x ∧ x.Proves (vs.textAt u) (vs.textAt v))

variable {e : Engine σ Payload τ Evidence} {walk : Walk Evidence}

/-- The proof of an edge, turned round if need be, goes in the direction in which the edge is
crossed. -/
theorem exists_turned (he : e.CombinesTexts) (hends : a.Between v w) {x : Evidence}
    (hx : x.Proves (vs.textAt a.source) (vs.textAt a.target)) :
    ∃ y, (if a.source = v then .ok x else e.symmetry x) = .ok y ∧
      y.Proves (vs.textAt v) (vs.textAt w) := by
  by_cases hsource : a.source = v
  -- an edge that starts at the cursor leads on to its target, also when it is a loop
  · have htarget : a.target = w := by
      have hforward : a.Between v a.target := .inl ⟨hsource, rfl⟩
      exact hforward.unique hends
    rw [hsource, htarget] at hx
    exact ⟨x, if_pos hsource, hx⟩
  · obtain ⟨hsource', -⟩ | ⟨hsource', htarget⟩ := hends
    · exact absurd hsource' hsource
    · rw [hsource', htarget] at hx
      rw [if_neg hsource, he.symmetry]
      exact hx.exists_symmetry

theorem Walk.last_eq_ok {arc : Arc} {before after : Vertex Payload} {x y : Evidence}
    (hproof : (walk.proof = none ∧ y = x) ∨ ∃ p, walk.proof = some p ∧ e.transitivity p x = .ok y)
    (hbefore : vs.get walk.cursor = .ok before) (hafter : vs.get w = .ok after) :
    walk.last e vs arc id w x = .ok { cursor := w, proof := some y, steps := walk.steps ++
      [{ edge := id, use := arc.use, before := before.pretty, after := after.pretty }] } := by
  obtain ⟨hnone, rfl⟩ | ⟨p, hsome, hchained⟩ := hproof
  · rw [last, hnone, hbefore, hafter]
    rfl
  · rw [last, hsome]
    simp only [hchained, hbefore, hafter]
    rfl

theorem Walk.Covers.exists_chained (hwalk : walk.Covers vs es u path v) (he : e.CombinesTexts)
    {x : Evidence} (hx : x.Proves (vs.textAt v) (vs.textAt w)) :
    ∃ y, ((walk.proof = none ∧ y = x) ∨ ∃ p, walk.proof = some p ∧ e.transitivity p x = .ok y) ∧
      y.Proves (vs.textAt u) (vs.textAt w) := by
  obtain ⟨rfl, hnone⟩ | ⟨-, p, hsome, hp⟩ := hwalk.proof
  · rw [hwalk.steps.eq_of_nil]
    exact ⟨x, .inl ⟨hnone, rfl⟩, hx⟩
  · obtain ⟨y, htrans, hy⟩ := hp.exists_transitivity hx
    rw [← he.transitivity] at htrans
    exact ⟨y, .inr ⟨p, hsome, htrans⟩, hy⟩

theorem Walk.Covers.exists_last (hwalk : walk.Covers vs es u path v) (he : e.CombinesTexts)
    (ha : es.items[id]? = some a) (hends : a.Between v w) (hv : v < vs.size) (hw : w < vs.size)
    {arc : Arc} (harc : arc = a.toArc) {x : Evidence} (hx : x.Proves (vs.textAt v) (vs.textAt w)) :
    ∃ next, walk.last e vs arc id w x = .ok next ∧ next.Covers vs es u (path ++ [id]) w := by
  obtain ⟨y, hchained, hy⟩ := hwalk.exists_chained he hx
  rw [← hwalk.cursor] at hv
  obtain ⟨before, hbefore, hbeforeText⟩ := Vertices.exists_get_textAt hv
  obtain ⟨after, hafter, hafterText⟩ := Vertices.exists_get_textAt hw
  rw [hwalk.cursor] at hbeforeText
  refine ⟨_, last_eq_ok hchained hbefore hafter, rfl, ?_, .inr ⟨by simp, y, rfl, hy⟩⟩
  exact hwalk.steps.snoc ha hends (congrArg Arc.use harc) hbeforeText hafterText

/-- **Crossing an edge**, in whichever direction it touches the cursor. -/
theorem gives_cross_of_covers (hwalk : walk.Covers vs es u path v) (he : e.CombinesTexts)
    (h : Provable e.prove vs es) (hcross : Crosses es id v w) :
    BuildM.Gives (Upholds e.prove vs es) (walk.cross e vs id) fun next ↦
      next.Covers vs es u (path ++ [id]) w := by
  obtain ⟨a, ha, hends⟩ := hcross
  obtain ⟨hv, hw⟩ := h.lt_size ha hends
  rw [Walk.cross_eq]
  apply (gives_edge_of_upholds ha).bind
  intro b harc
  have hends' : b.Between v w := by rwa [harc]
  have hother : b.otherEnd? walk.cursor = some w := by rwa [hwalk.cursor, Arc.otherEnd?_eq_some_iff]
  rw [hother]
  apply (gives_proofOf_of_upholds ha).bind
  intro x hx
  obtain ⟨y, hturned, hy⟩ := exists_turned he hends hx
  obtain ⟨next, hlast, hnext⟩ := hwalk.exists_last he ha hends hv hw harc hy
  refine BuildM.gives_ofExcept ?_ hnext
  rw [hwalk.cursor, harc, hturned]
  exact harc ▸ hlast

/-- Walking a walk. -/
theorem gives_walk_of_leads (he : e.CombinesTexts) (h : Provable e.prove vs es)
    (hpath : Leads es u path v) :
    BuildM.Gives (Upholds e.prove vs es) (path.foldlM (Walk.cross e vs) { cursor := u })
      fun walk ↦ walk.Covers vs es u path v := by
  induction hpath with
  | nil => exact BuildM.gives_pure ⟨rfl, retraces_nil vs es u, .inl ⟨rfl, rfl⟩⟩
  | snoc _ hcross ih =>
    rw [List.foldlM_append]
    apply ih.bind
    intro walk hwalk
    rw [List.foldlM_cons]
    apply (gives_cross_of_covers hwalk he h hcross).bind
    intro next hnext
    exact BuildM.gives_pure hnext

/-! ## The unit of a path -/

/-- The unit of a side shows what a walk over `path` from the root of the side to `v` proves. -/
structure ProofUnit.ShowsWalk (vs : Vertices Payload) (es : Edges τ Evidence)
    (unit : ProofUnit Evidence) (side : Side) (path : List Nat) (v : Nat) : Prop where
  onSide : unit.side = side
  steps : Retraces vs es unit.steps side.root path v
  proof : unit.proof.Proves (vs.textAt side.root) (vs.textAt v)
  reflexive : path = [] → unit.proof = .equality (.refl (vs.textAt side.root))

/-- The unit of a walk. -/
theorem gives_unit_of_leads (he : e.CombinesTexts) (h : Provable e.prove vs es) {side : Side}
    (hpath : Leads es side.root path v) :
    BuildM.Gives (Upholds e.prove vs es) (buildUnit e vs side path) fun unit ↦
      unit.ShowsWalk vs es side path v := by
  rw [buildUnit]
  apply (gives_walk_of_leads he h hpath).bind
  intro walk hwalk
  obtain ⟨rfl, hnone⟩ | ⟨hne, x, hsome, hx⟩ := hwalk.proof
  · obtain rfl := hpath.eq_of_nil rfl
    obtain ⟨x, hget, hpretty⟩ := Vertices.exists_get_textAt (h.root side)
    have hrefl : e.reflexivity x.term = .ok (.equality (.refl (vs.textAt side.root))) := by
      rw [he.reflexivity, Evidence.reflexivity, Term.text,
        h.payload (Vertices.get_eq_ok_iff.mp hget), hpretty]
      rfl
    rw [hnone, hwalk.cursor]
    refine BuildM.gives_ofExcept_bind hget (BuildM.gives_ofExcept_bind hrefl (BuildM.gives_pure ?_))
    exact ⟨rfl, hwalk.steps, Evidence.proves_refl _, fun _ ↦ rfl⟩
  · rw [hsome]
    exact BuildM.gives_pure ⟨rfl, hwalk.steps, hx, fun hnil ↦ absurd hnil hne⟩

/-- An edge that does not touch the cursor is refused before its proof is asked for. -/
theorem Walk.cross_of_break {s : Edges τ Evidence × σ} (hwalk : walk.cursor = v)
    (hs : Upholds e.prove vs es s) (hbreak : ∀ w, ¬Crosses es id v w) :
    walk.cross e vs id s = (.error (es.breakAt id v), s) := by
  rw [cross_eq]
  rcases ha : es.items[id]? with _ | a
  · have hnot : ¬id < es.size := Nat.not_lt.mpr (Array.getElem?_eq_none_iff.mp ha)
    have hget : s.1.items[id]? = none := by
      have harc := hs.arcs id
      rwa [ha, Option.map_none, Option.map_eq_none_iff] at harc
    rw [Edges.breakAt, if_neg hnot, ← hs.size]
    apply run_bind_of_error
    rw [BuildM.edge, Edges.get, hget]
  · have hlt : id < es.size := (Array.getElem?_eq_some_iff.mp ha).1
    obtain ⟨b, hb, harc⟩ := hs.exists_edge ha
    have hastray : b.otherEnd? walk.cursor = none := by
      rw [harc, hwalk, Arc.otherEnd?_eq_none_iff_between]
      exact fun w hends ↦ hbreak w ⟨a, ha, hends⟩
    rw [Edges.breakAt, if_pos hlt, run_bind_of_ok (BuildM.edge_eq_ok_iff.mpr ⟨hb, rfl⟩), hastray,
      hwalk]
    rfl

/-- Building the unit of a path stops at the first edge that does not touch the cursor, in the state
in which the unit of the edges before it is complete. -/
theorem buildUnit_of_break (he : e.CombinesTexts) (h : Provable e.prove vs es) {side : Side}
    {walked : List Nat}
    (hwalked : Leads es side.root walked v) (hbreak : ∀ w, ¬Crosses es id v w) (rest : List Nat)
    (s : σ) :
    ∃ unit t, buildUnit e vs side walked (es, s) = (.ok unit, t) ∧
      buildUnit e vs side (walked ++ id :: rest) (es, s) = (.error (es.breakAt id v), t) := by
  obtain ⟨walk, t, hrun, ht, hwalk⟩ := gives_walk_of_leads he h hwalked (es, s) (h.upholds s)
  obtain ⟨unit, t', hunit, -, -⟩ := gives_unit_of_leads he h hwalked (es, s) (h.upholds s)
  -- the unit of the edges before is the end of the walk over them
  obtain ⟨-, walk', hrun', -⟩ := exists_walk_of_unit hunit
  obtain ⟨-, rfl⟩ := Prod.mk.inj (hrun.symm.trans hrun')
  refine ⟨unit, t, hunit, ?_⟩
  rw [buildUnit, List.foldlM_append]
  apply run_bind_of_error
  rw [run_bind_of_ok hrun, List.foldlM_cons]
  exact run_bind_of_error (Walk.cross_of_break hwalk.cursor ht hbreak)

/-- **Any walk can be proved, and nothing else.** The vertices carry their texts and every edge has
a proof that the texts of its ends are equal. When a list of edges is a walk from the root of a
side, in whichever direction it crosses them, its unit can be built. The steps of the unit list the
edges in order, each from the text of one end to that of the other, and its proof equates the text
of the root with that of the last vertex; without an edge it is reflexivity. When the list is no
walk, there is an invariant fault at the first edge that does not touch the vertex reached by then,
and all that has happened is what happens for the edges before it. -/
theorem buildUnit_of_path (he : e.CombinesTexts) (h : Provable e.prove vs es) (side : Side)
    (path : List Nat) (s : σ) :
    (∀ v, Leads es side.root path v →
      ∃ unit t, buildUnit e vs side path (es, s) = (.ok unit, t) ∧
        unit.ShowsWalk vs es side path v) ∧
    ((¬∃ v, Leads es side.root path v) → ∃ walked id rest v unit t, path = walked ++ id :: rest ∧
      Leads es side.root walked v ∧ (∀ w, ¬Crosses es id v w) ∧
      buildUnit e vs side walked (es, s) = (.ok unit, t) ∧
      buildUnit e vs side path (es, s) = (.error (es.breakAt id v), t) ∧
        (es.breakAt id v).kind = .invariant) := by
  constructor
  · intro v hpath
    obtain ⟨unit, t, hunit, -, hshows⟩ := gives_unit_of_leads he h hpath (es, s) (h.upholds s)
    exact ⟨unit, t, hunit, hshows⟩
  · intro hnot
    obtain hpath | ⟨walked, id, rest, v, rfl, hwalked, hbreak⟩ := leads_or_breaks es side.root path
    · exact absurd hpath hnot
    · obtain ⟨unit, t, hunit, hfault⟩ := buildUnit_of_break he h hwalked hbreak rest s
      exact ⟨walked, id, rest, v, unit, t, rfl, hwalked, hbreak, hunit, hfault,
        es.kind_breakAt id v⟩

/-- A walk over an edge and back, with a loop before it turns and the same edge once more at its
end, and a path that goes on with the loop at a vertex that is not on it. -/
theorem buildUnit_of_path_loop :
    let vs : Vertices Payload :=
      { items := #[{ id := 0, term := .ofText (utf8 "a"), isRoot := true },
          { id := 1, term := .ofText (utf8 "z"), isRoot := true, side := .right },
          { id := 2, term := .ofText (utf8 "b"), parentEdge := some 0, depth := 1 }] }
    let es : Edges Recipe Evidence :=
      { items := #[⟨⟨0, 0, 2, {}⟩, .pending (.byRule (utf8 "a") (utf8 "b") {})⟩,
          ⟨⟨1, 2, 2, {}⟩, .ready (.equality (.refl (utf8 "b")))⟩] }
    let e : Engine Tally Payload Recipe Evidence := .ofRules []
    e.CombinesTexts ∧ Provable e.prove vs es ∧ Leads es Side.left.root [0, 1, 0, 0] 2 ∧
      (∃ unit t, buildUnit e vs .left [0, 1, 0, 0] (es, {}) = (.ok unit, t) ∧
        unit.ShowsWalk vs es .left [0, 1, 0, 0] 2) ∧
      (¬∃ v, Leads es Side.left.root [0, 0, 1] v) ∧
      ∃ fault t, buildUnit e vs .left [0, 0, 1] (es, {}) = (.error fault, t) ∧
        fault.kind = .invariant := by
  intro vs es e
  have he : e.CombinesTexts := ⟨rfl, rfl, rfl⟩
  have hedges {id : Nat} {a : Edge Recipe Evidence} (ha : es.items[id]? = some a) :
      a = ⟨⟨0, 0, 2, {}⟩, .pending (.byRule (utf8 "a") (utf8 "b") {})⟩ ∨
        a = ⟨⟨1, 2, 2, {}⟩, .ready (.equality (.refl (utf8 "b")))⟩ := by
    simpa [es] using Array.mem_of_getElem? ha
  have hprovable : Provable e.prove vs es := by
    refine ⟨fun side ↦ by cases side <;> decide, fun {i v} hv ↦ ?_, fun ha ↦ ?_, fun ha ↦ ?_,
      fun ha ↦ ?_⟩
    · obtain ⟨hi, rfl⟩ := Array.getElem?_eq_some_iff.mp hv
      revert i
      decide
    · obtain rfl | rfl := hedges ha <;> decide
    · obtain rfl | rfl := hedges ha <;> decide
    · obtain rfl | rfl := hedges ha
      · exact fun tally ↦ ⟨_, _, rfl, _, rfl, rfl, rfl⟩
      · exact ⟨_, rfl, rfl, rfl⟩
  have hwalk : Leads es Side.left.root [0, 1, 0, 0] 2 := by
    have hforth : Crosses es 0 0 2 := ⟨_, rfl, .inl ⟨rfl, rfl⟩⟩
    have hloop : Crosses es 1 2 2 := ⟨_, rfl, .inl ⟨rfl, rfl⟩⟩
    have hback : Crosses es 0 2 0 := ⟨_, rfl, .inr ⟨rfl, rfl⟩⟩
    exact (((Leads.nil.snoc hforth).snoc hloop).snoc hback).snoc hforth
  have hnot : ¬∃ v, Leads es Side.left.root [0, 0, 1] v := by
    rintro ⟨v, hv⟩
    obtain ⟨unit, t, hunit, -⟩ := (buildUnit_of_path he hprovable .left [0, 0, 1] {}).1 v hv
    have hfault : (buildUnit e vs .left [0, 0, 1] (es, {})).1 = .error (.pathBroken 1 0) := by
      decide +kernel
    exact absurd (hfault.symm.trans (congrArg Prod.fst hunit)) (by simp)
  refine ⟨he, hprovable, hwalk, (buildUnit_of_path he hprovable .left _ {}).1 2 hwalk, hnot, ?_⟩
  obtain ⟨walked, id, rest, v, -, t, -, -, -, -, hfault, hkind⟩ :=
    (buildUnit_of_path he hprovable .left [0, 0, 1] {}).2 hnot
  exact ⟨_, t, hfault, hkind⟩

end Crossing

end Joinability
