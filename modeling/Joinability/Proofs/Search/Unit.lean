import Joinability.Proofs.Search.Assembly
import Joinability.Proofs.Search.Building
import Joinability.Proofs.Search.ByRules

/-!
# What the unit of a side shows

Walking a trail away from its root, the library collects one step for each edge and chains the
proofs of the edges. When the search was one with rules, nothing can go wrong on the way: every edge
of a trail leads from the text at its source to the text at its target, so the proofs fit, and
building one cannot fail.

The unit of one side goes on over the edge at which the sides meet. It may be proved to end at
another text than that of the vertex which the edge leads to, when the key takes the two for the
same. The unit does not see this, because the meeting edge comes last and nothing is chained to its
proof.

## Forced proofs

Building proofs changes the table of edges, because the proofs stay forced. `Keeps` says how little
that is: an edge keeps its arc, and its proof is pending as before or is what its recipe makes. What
is built later is therefore built from the same proofs.
-/

namespace Joinability

variable {rules : List Rule}

/-! ## Chains of steps -/

/-- The steps lead from the text `s` to the text `t`. Each of them begins where the one before it
ends, and has the property `P`. -/
def Linked (P : ProofStep → Prop) : Text → List ProofStep → Text → Prop
  | s, [], t => s = t
  | s, p :: ps, t => p.before = s ∧ P p ∧ Linked P p.after ps t

namespace Linked

variable {P : ProofStep → Prop} {s t : Text} {steps : List ProofStep} {p : ProofStep}

theorem snoc (h : Linked P s steps t) (hbefore : p.before = t) (hp : P p) :
    Linked P s (steps ++ [p]) p.after := by
  induction steps generalizing s with
  | nil => exact ⟨hbefore.trans h.symm, hp, rfl⟩
  | cons q steps ih => exact ⟨h.1, h.2.1, ih h.2.2⟩

theorem of_snoc (h : Linked P s (steps ++ [p]) t) :
    Linked P s steps p.before ∧ P p ∧ p.after = t := by
  induction steps generalizing s with
  | nil => exact ⟨h.1.symm, h.2.1, h.2.2⟩
  | cons q steps ih =>
    obtain ⟨hlinked, hp, hend⟩ := ih h.2.2
    exact ⟨⟨h.1, h.2.1, hlinked⟩, hp, hend⟩

theorem of_mem (h : Linked P s steps t) (hp : p ∈ steps) : P p := by
  induction steps generalizing s with
  | nil => exact absurd hp List.not_mem_nil
  | cons q steps ih =>
    rcases List.mem_cons.mp hp with rfl | hp
    · exact h.2.1
    · exact ih h.2.2 hp

theorem getLast?_texts (h : Linked P s steps t) : (s :: steps.map (·.after)).getLast? = some t := by
  induction steps generalizing s with
  | nil => exact congrArg some h
  | cons p steps ih =>
    rw [List.map_cons, List.getLast?_cons_cons]
    exact ih h.2.2

theorem getLast?_back (h : Linked P s steps t) :
    (t :: steps.reverse.map (·.before)).getLast? = some s := by
  rcases steps with _ | ⟨p, steps⟩
  · exact congrArg some (h : s = t).symm
  · rw [List.reverse_cons, List.map_append, ← List.cons_append, List.getLast?_append]
    exact congrArg some h.1

end Linked

/-- `Chain rules s steps t`: the steps lead from `s` to `t`, and each of them turns its text before
into its text after by the use of a rule that it names. -/
abbrev Chain (rules : List Rule) : Text → List ProofStep → Text → Prop :=
  Linked fun p ↦ p.use.Turns rules p.before p.after

/-- The reasons that a list of steps quotes. -/
def reasonsOf (steps : List ProofStep) : List Text := steps.map fun p ↦ p.use.reason

/-- What a unit shows: its steps lead over the edges of `path` from `s` to `t`, and its proof is the
equality of the two, for the reasons that the steps quote. -/
structure ProofUnit.Shows (rules : List Rule) (u : ProofUnit Evidence) (s t : Text)
    (path : List Nat) : Prop where
  chain : Chain rules s u.steps t
  edges : u.steps.map (·.edge) = path
  proof : u.proof = .equality ⟨s, t, reasonsOf u.steps⟩

theorem ProofUnit.Shows.eq_of_nil {u : ProofUnit Evidence} {s t : Text} {path : List Nat}
    (h : u.Shows rules s t path) (hsteps : u.steps = []) : s = t := by
  have hchain := h.chain
  rwa [hsteps] at hchain

/-- What a unit shows when it goes on over the edge `e` to the vertex `v`, after `path` has led from
`s` to the vertex `u`. Its proof is the equality of `s` and the text `after` that the edge makes. -/
structure ProofUnit.ShowsBeyond (rules : List Rule) (unit : ProofUnit Evidence) (s : Text)
    (path : List Nat) (e : Edge Recipe Evidence) (u v : Vertex Payload) (after : Text) : Prop where
  steps : ∃ steps, Chain rules s steps u.pretty ∧ steps.map (·.edge) = path ∧
    unit.steps = steps ++ [{ edge := e.id, use := e.use, before := u.pretty, after := v.pretty }]
  proof : unit.proof = .equality ⟨s, after, reasonsOf unit.steps⟩

theorem ProofUnit.ShowsBeyond.shows {unit : ProofUnit Evidence} {s : Text} {path : List Nat}
    {e : Edge Recipe Evidence} {u v : Vertex Payload}
    (h : unit.ShowsBeyond rules s path e u v v.pretty)
    (hturns : e.use.Turns rules u.pretty v.pretty) :
    unit.Shows rules s v.pretty (path ++ [e.id]) := by
  obtain ⟨steps, hchain, hedges, hsteps⟩ := h.steps
  refine ⟨?_, ?_, h.proof⟩
  · rw [hsteps]
    exact hchain.snoc rfl hturns
  · rw [hsteps, List.map_append, hedges]
    rfl

/-! ## The proof of an edge -/

section Edges

variable {k : Skeleton Payload Recipe Evidence}

/-- The edges of a table are those of a skeleton, except that proofs may have been built. -/
def Keeps (k : Skeleton Payload Recipe Evidence) (s : Edges Recipe Evidence × Tally) : Prop :=
  ∀ (j : Nat) (e : Edge Recipe Evidence), k.edges[j]? = some e →
    ∃ e' : Edge Recipe Evidence, s.1.items[j]? = some e' ∧ e'.toArc = e.toArc ∧
    (e'.proof = e.proof ∨ ∃ before after, e.proof = .pending (.byRule before after e.use) ∧
      e'.proof = .ready (.equality ⟨before, after, [e.use.reason]⟩))

theorem keeps_skeleton (x : Exploration Payload Recipe Evidence) (tally : Tally) :
    Keeps x.skeleton (x.edges, tally) :=
  fun _ e he ↦ ⟨e, he, rfl, Or.inl rfl⟩

theorem Keeps.keepProof {es : Edges Recipe Evidence} {tally : Tally} (h : Keeps k (es, tally))
    {j : Nat} {e : Edge Recipe Evidence} (he : k.edges[j]? = some e) {before after : Text}
    (hproof : e.proof = .pending (.byRule before after e.use)) (tally' : Tally) :
    Keeps k (es.keepProof j (.equality ⟨before, after, [e.use.reason]⟩), tally') := by
  intro i f hf
  obtain ⟨f', hf', harc, hrest⟩ := h i f hf
  rw [Edges.getElem?_keepProof]
  -- only the edge whose proof was built is another one, and that has the same arc
  by_cases hij : j = i
  · subst hij
    obtain rfl := Option.some.inj (he.symm.trans hf)
    rw [if_pos rfl, hf']
    exact ⟨_, rfl, harc, Or.inr ⟨before, after, hproof, rfl⟩⟩
  · rw [if_neg hij]
    exact ⟨f', hf', harc, hrest⟩

theorem gives_edge {j : Nat} {e : Edge Recipe Evidence} (he : k.edges[j]? = some e) :
    BuildM.Gives (Keeps k) (BuildM.edge j) fun e' ↦ e'.toArc = e.toArc := by
  intro s hs
  obtain ⟨e', he', harc, -⟩ := hs j e he
  exact ⟨e', s, by rw [BuildM.edge, Edges.get_eq_ok_iff.mpr he'], hs, harc⟩

/-- The proof of an edge is what its recipe makes, whether it has been built before or not. -/
theorem gives_proofOf {j : Nat} {e : Edge Recipe Evidence} (he : k.edges[j]? = some e)
    {before after : Text} (hproof : e.proof = .pending (.byRule before after e.use)) :
    BuildM.Gives (Keeps k) (BuildM.proofOf (.ofRules rules) j)
      fun p ↦ p = .equality ⟨before, after, [e.use.reason]⟩ := by
  rintro ⟨es, tally⟩ hs
  obtain ⟨e', he', harc, hrest⟩ := hs j e he
  -- a proof that is still pending is built now, and one that is there came from the same recipe
  rcases hrest with hpending | ⟨before', after', hproof', hready⟩
  · refine ⟨_, (_, { tally with byRule := tally.byRule + 1 }), ?_, hs.keepProof he hproof _, rfl⟩
    exact Edges.force_of_pending he' (hpending.trans hproof) rfl
  · rw [hproof] at hproof'
    injection hproof' with hrecipe
    injection hrecipe with hbefore hafter
    subst hbefore hafter
    refine ⟨_, (es, tally), ?_, hs, rfl⟩
    exact Edges.force_of_ready he' hready

end Edges

/-! ## Chaining equalities -/

theorem Evidence.transitivity_equality_eq_ok_iff {p q : Equality} {x : Evidence} :
    transitivity (.equality p) (.equality q) = .ok x ↔
      ∃ r, p.trans q = .ok r ∧ .equality r = x := by
  show (p.trans q >>= fun r ↦ Except.ok (equality r)) = .ok x ↔ _
  simp only [bind_eq_ok_iff, Except.ok.injEq]

/-! ## Walking a trail -/

/-- How far a walk has come: over the edges of `path` to the vertex `v`, from a root with the text
`s`. -/
structure Walk.Stands (rules : List Rule) (w : Walk Evidence) (s : Text) (v : Vertex Payload)
    (path : List Nat) : Prop where
  cursor : w.cursor = v.id
  chain : Chain rules s w.steps v.pretty
  edges : w.steps.map (·.edge) = path
  proof : w.proof = if w.steps = [] then none else some (.equality ⟨s, v.pretty, reasonsOf w.steps⟩)

/-- The walk after one more step over the edge `e` from the vertex `u` to the vertex `v`, when the
edge is proved to lead to the text `after`. -/
def Walk.snoc (w : Walk Evidence) (s : Text) (e : Edge Recipe Evidence) (u v : Vertex Payload)
    (after : Text) : Walk Evidence :=
  { cursor := v.id
    proof := some (.equality ⟨s, after, reasonsOf w.steps ++ [e.use.reason]⟩)
    steps := w.steps ++ [{ edge := e.id, use := e.use, before := u.pretty, after := v.pretty }] }

theorem Walk.Stands.snoc {w : Walk Evidence} {s : Text} {u v : Vertex Payload} {path : List Nat}
    (hw : w.Stands rules s u path) {e : Edge Recipe Evidence}
    (hturns : e.use.Turns rules u.pretty v.pretty) :
    (w.snoc s e u v v.pretty).Stands rules s v (path ++ [e.id]) := by
  refine ⟨rfl, hw.chain.snoc rfl hturns, ?_, ?_⟩
  · rw [Walk.snoc, List.map_append, hw.edges]
    rfl
  · rw [Walk.snoc, if_neg (by simp), reasonsOf, reasonsOf, List.map_append]
    rfl

namespace Exploration

variable {x : Exploration Payload Recipe Evidence}

theorem exists_get_pretty {v : Vertex Payload} (hv : x.skeleton.vertices[v.id]? = some v) :
    ∃ v', x.vertices.get v.id = .ok v' ∧ v'.pretty = v.pretty := by
  obtain ⟨v', hget, hborn⟩ := exists_get_of_skeleton hv
  exact ⟨v', hget, by rw [← hborn, Vertex.pretty_asBorn]⟩

/-- Crossing an edge from the vertex reached so far. -/
theorem gives_cross {w : Walk Evidence} {s : Text} {u v : Vertex Payload} {path : List Nat}
    (hw : w.Stands rules s u path) {e : Edge Recipe Evidence}
    (he : x.skeleton.edges[e.id]? = some e) (hu : x.skeleton.vertices[u.id]? = some u)
    (hv : x.skeleton.vertices[v.id]? = some v) (hsource : e.source = u.id)
    (htarget : e.target = v.id) {after : Text}
    (hproof : e.proof = .pending (.byRule u.pretty after e.use)) :
    BuildM.Gives (Keeps x.skeleton) (w.cross (.ofRules rules) x.vertices e.id)
      (· = w.snoc s e u v after) := by
  obtain ⟨u', hgetu, hpu⟩ := exists_get_pretty hu
  obtain ⟨v', hgetv, hpv⟩ := exists_get_pretty hv
  rw [Walk.cross]
  apply (gives_edge he).bind
  intro e' harc
  have hsource' : e'.source = w.cursor := by rw [harc, hsource, hw.cursor]
  have hother : e'.otherEnd? w.cursor = some v.id := by
    rw [Arc.otherEnd?, if_pos hsource', harc, htarget]
  have huse : e'.use = e.use := congrArg Arc.use harc
  rw [hother]
  apply (gives_proofOf he hproof).bind
  intro p hp
  subst hp
  rw [if_pos hsource', huse, hw.cursor, hgetu, hgetv]
  refine BuildM.gives_pure_bind ?_
  have hwalk := hw.proof
  -- the first step starts the proof of the unit, and a later one is chained to it
  by_cases hsteps : w.steps = []
  · have hstart : s = u.pretty := by
      have hchain := hw.chain
      rwa [hsteps] at hchain
    rw [if_pos hsteps] at hwalk
    rw [hwalk]
    refine BuildM.gives_pure ?_
    rw [Walk.snoc, hsteps, hpu, hpv, hstart]
    rfl
  · rw [if_neg hsteps] at hwalk
    rw [hwalk]
    refine BuildM.gives_ofExcept_bind (Evidence.transitivity_equality_eq_ok_iff.mpr
      ⟨_, Equality.trans_eq_ok_iff.mpr ⟨rfl, rfl⟩, rfl⟩) ?_
    refine BuildM.gives_pure ?_
    rw [Walk.snoc, hpu, hpv]

/-- A walk over one more edge. -/
theorem gives_walk_snoc {start : Walk Evidence} {s : Text} {u v : Vertex Payload} {path : List Nat}
    (hwalk : BuildM.Gives (Keeps x.skeleton)
      (path.foldlM (Walk.cross (.ofRules rules) x.vertices) start) fun w ↦ w.Stands rules s u path)
    {e : Edge Recipe Evidence} (he : x.skeleton.edges[e.id]? = some e)
    (hu : x.skeleton.vertices[u.id]? = some u) (hv : x.skeleton.vertices[v.id]? = some v)
    (hsource : e.source = u.id) (htarget : e.target = v.id) {after : Text}
    (hproof : e.proof = .pending (.byRule u.pretty after e.use)) :
    BuildM.Gives (Keeps x.skeleton)
      ((path ++ [e.id]).foldlM (Walk.cross (.ofRules rules) x.vertices) start)
      fun w' ↦ ∃ w : Walk Evidence, w.Stands rules s u path ∧ w' = w.snoc s e u v after := by
  rw [List.foldlM_append]
  apply hwalk.bind
  intro w hw
  rw [List.foldlM_cons]
  apply (gives_cross hw he hu hv hsource htarget hproof).bind
  rintro w' rfl
  exact BuildM.gives_pure ⟨w, hw, rfl⟩

/-- Walking the trail of a vertex. -/
theorem gives_walk (hl : x.skeleton.Labelled rules) (hexact : x.skeleton.Exact)
    (hx : x.skeleton.IsForest) {r v : Vertex Payload} {path : List Nat}
    (ht : x.skeleton.Trail v path) (hr : x.skeleton.vertices[v.side.root]? = some r) :
    BuildM.Gives (Keeps x.skeleton)
      (path.foldlM (Walk.cross (.ofRules rules) x.vertices) { cursor := v.side.root })
      fun w ↦ w.Stands rules r.pretty v path := by
  induction ht with
  | @root v hv hroot =>
    have hid : v.id = v.side.root := (hx.isRoot_iff hv).mp hroot
    rw [← hid] at hr
    obtain rfl := Option.some.inj (hv.symm.trans hr)
    exact BuildM.gives_pure ⟨hid.symm, rfl, rfl, rfl⟩
  | @child e p v path hp hv h ih =>
    obtain ⟨u, w, hu, hw, hproof⟩ := hexact h.edge (hx.meeting_ne_of_hangs h hv)
    have hturns := hl.turns_of_proof h.edge hu hproof
    rw [h.source] at hu
    rw [h.target] at hw
    obtain rfl := Option.some.inj (h.parent.symm.trans hu)
    obtain rfl := Option.some.inj (hv.symm.trans hw)
    rw [← h.side] at hr ⊢
    apply (gives_walk_snoc (ih hr) h.edge h.parent hv h.source h.target hproof).mono
    rintro w' ⟨w, hw, rfl⟩
    exact hw.snoc hturns

/-- The unit of a side, from the walk over its path. -/
theorem gives_unit (side : Side) {s : Text} {v : Vertex Payload} {path : List Nat}
    (hl : x.skeleton.Labelled rules) (hv : x.skeleton.vertices[v.id]? = some v)
    (hwalk : BuildM.Gives (Keeps x.skeleton)
      (path.foldlM (Walk.cross (.ofRules rules) x.vertices) { cursor := side.root })
      fun w ↦ w.Stands rules s v path) :
    BuildM.Gives (Keeps x.skeleton) (buildUnit (.ofRules rules) x.vertices side path)
      fun u ↦ u.side = side ∧ u.Shows rules s v.pretty path := by
  rw [buildUnit]
  apply hwalk.bind
  intro w hw
  have hproof := hw.proof
  by_cases hsteps : w.steps = []
  · have hstart : s = v.pretty := by
      have hchain := hw.chain
      rwa [hsteps] at hchain
    obtain ⟨v', hget, hp⟩ := exists_get_pretty hv
    rw [if_pos hsteps] at hproof
    have hterm : v'.term = .ofText v.pretty := by
      rw [term_eq_ofText hl (Vertices.get_eq_ok_iff.mp hget), hp]
    rw [hproof, hw.cursor, hget]
    refine BuildM.gives_ofExcept_bind rfl ?_
    have hrefl : (Engine.ofRules rules).reflexivity v'.term
        = .ok (.equality ⟨v.pretty, v.pretty, []⟩) := by
      rw [hterm]
      rfl
    refine BuildM.gives_ofExcept_bind hrefl ?_
    refine BuildM.gives_pure ⟨rfl, hw.chain, hw.edges, ?_⟩
    rw [hsteps, hstart]
    rfl
  · rw [if_neg hsteps] at hproof
    rw [hproof]
    exact BuildM.gives_pure ⟨rfl, hw.chain, hw.edges, rfl⟩

/-- The unit of a side, from a walk that goes on over an edge. -/
theorem gives_unit_snoc (side : Side) {s : Text} {u v : Vertex Payload} {path : List Nat}
    {e : Edge Recipe Evidence} {after : Text}
    (hwalk : BuildM.Gives (Keeps x.skeleton)
      ((path ++ [e.id]).foldlM (Walk.cross (.ofRules rules) x.vertices) { cursor := side.root })
      fun w' ↦ ∃ w : Walk Evidence, w.Stands rules s u path ∧ w' = w.snoc s e u v after) :
    BuildM.Gives (Keeps x.skeleton)
      (buildUnit (.ofRules rules) x.vertices side (path ++ [e.id]))
      fun unit ↦ unit.side = side ∧ unit.ShowsBeyond rules s path e u v after := by
  rw [buildUnit]
  apply hwalk.bind
  rintro w' ⟨w, hw, rfl⟩
  have hreasons : reasonsOf (w.snoc s e u v after).steps = reasonsOf w.steps ++ [e.use.reason] := by
    rw [Walk.snoc, reasonsOf, List.map_append]
    rfl
  refine BuildM.gives_pure ⟨rfl, ⟨w.steps, hw.chain, hw.edges, rfl⟩, ?_⟩
  rw [hreasons]

end Exploration

end Joinability
