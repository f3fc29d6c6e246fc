import Joinability.Engine.Rules
import Joinability.Proofs.Rewriting.Distance
import Joinability.Proofs.Search.Step

/-!
# Searching with rules

The engine of a list of rules never fails on a term that carries the text it prints as, and it
answers with the sites of that text one by one. A search that starts from two texts only ever sees
such terms.

`Skeleton.Labelled` is what such a search leaves at its vertices and edges: each edge keeps one use
of a rule, which turns the text of its source into a text with the canonical key of its target, and
the recipe for the proof of just that step. With the default key the text is that of the target
itself. With any other key this may fail, but only for the edge at which the sides meet
(`Skeleton.Exact`).
-/

namespace Joinability

variable {rules : List Rule}

/-! ## The engine -/

@[simp] theorem Term.pretty_ofText (t : Text) : (Term.ofText t).pretty = t := rfl

theorem Term.text_ofText (t : Text) : (Term.ofText t).text = .ok t := rfl

theorem Config.key_ofText_ne {config : Config Payload} (hkey : config.key = Term.pretty)
    {s t : Text} (hne : s ≠ t) : config.key (.ofText s) ≠ config.key (.ofText t) := by
  rw [hkey]
  exact hne

namespace Engine

theorem tryNext_ofRules {v : Vertex Payload} (hv : v.term = .ofText v.pretty) (cursor : Nat)
    (tally : Tally) : ((ofRules rules).tryNext v cursor tally).1
      = .ok ((sites rules v.pretty)[cursor]?.map fun s ↦ reductAt v.pretty s (cursor + 1)) := by
  have htext : v.term.text = .ok v.pretty := by rw [hv]; exact Term.text_ofText _
  show v.term.text.map _ = _
  rw [htext]
  rfl

theorem tryNext_ofRules_eq_some_iff {v : Vertex Payload} (hv : v.term = .ofText v.pretty)
    {cursor : Nat} {tally : Tally} {r : Reduct Payload Recipe} :
    ((ofRules rules).tryNext v cursor tally).1 = .ok (some r) ↔
      ∃ s, (sites rules v.pretty)[cursor]? = some s ∧ r = reductAt v.pretty s (cursor + 1) := by
  rw [tryNext_ofRules hv, Except.ok.injEq, Option.map_eq_some_iff]
  exact exists_congr fun s ↦ and_congr_right fun _ ↦ eq_comm

theorem tryNext_ofRules_eq_none_iff {v : Vertex Payload} (hv : v.term = .ofText v.pretty)
    {cursor : Nat} {tally : Tally} :
    ((ofRules rules).tryNext v cursor tally).1 = .ok none ↔
      (sites rules v.pretty).length ≤ cursor := by
  rw [tryNext_ofRules hv, Except.ok.injEq, Option.map_eq_none_iff, List.getElem?_eq_none_iff]

end Engine

/-! ## Labels -/

namespace Skeleton

/-- Vertices carry the texts they print as, and edges the uses of rules that lead from their sources
to texts with the keys of their targets. -/
structure Labelled (rules : List Rule) (k : Skeleton Payload Recipe Evidence) : Prop where
  term {i : Nat} {v : Vertex Payload} : k.vertices[i]? = some v → v.term = .ofText v.pretty
  edge {j : Nat} {e : Edge Recipe Evidence} : k.edges[j]? = some e →
    ∃ u w after, k.vertices[e.source]? = some u ∧ k.vertices[e.target]? = some w ∧
      e.use.Turns rules u.pretty after ∧ e.proof = .pending (.byRule u.pretty after e.use) ∧
      k.key (.ofText after) = k.key w.term

variable {k : Skeleton Payload Recipe Evidence}

namespace Labelled

theorem withChild (h : k.Labelled rules) {v : Vertex Payload} (hv : k.vertices[v.id]? = some v)
    {s : Site} (hs : s ∈ sites rules v.pretty) (tokens : List Nat) :
    (k.withChild v (.ofText (s.result v.pretty)) tokens s.use
      (some (.byRule v.pretty (s.result v.pretty) s.use))).Labelled rules := by
  have hext := extends_withChild k v (.ofText (s.result v.pretty)) tokens s.use
    (some (.byRule v.pretty (s.result v.pretty) s.use))
  constructor
  · intro i u hu
    rcases of_getElem?_push hu with ⟨-, rfl⟩ | hu
    · rfl
    · exact h.term hu
  · intro j e he
    rcases of_getElem?_push he with ⟨-, rfl⟩ | he
    · exact ⟨v, _, s.result v.pretty, hext.vertex hv, Array.getElem?_push_size, turns_of_site hs,
        rfl, rfl⟩
    · obtain ⟨u, w, after, hu, hw, hrest⟩ := h.edge he
      exact ⟨u, w, after, hext.vertex hu, hext.vertex hw, hrest⟩

theorem withMeeting (h : k.Labelled rules) {v w : Vertex Payload}
    (hv : k.vertices[v.id]? = some v) (hw : k.vertices[w.id]? = some w) {s : Site}
    (hs : s ∈ sites rules v.pretty) (hkey : k.key (.ofText (s.result v.pretty)) = k.key w.term) :
    (k.withMeeting v.id w.id s.use
      (some (.byRule v.pretty (s.result v.pretty) s.use))).Labelled rules := by
  refine ⟨h.term, ?_⟩
  intro j e he
  rcases of_getElem?_push he with ⟨-, rfl⟩ | he
  · exact ⟨v, w, s.result v.pretty, hv, hw, turns_of_site hs, rfl, hkey⟩
  · exact h.edge he

theorem turns_of_proof (h : k.Labelled rules) {j : Nat} {e : Edge Recipe Evidence}
    (he : k.edges[j]? = some e) {u : Vertex Payload} (hu : k.vertices[e.source]? = some u)
    {after : Text} (hproof : e.proof = .pending (.byRule u.pretty after e.use)) :
    e.use.Turns rules u.pretty after := by
  obtain ⟨u', w, after', hu', -, hturns, hproof', -⟩ := h.edge he
  obtain rfl := Option.some.inj (hu.symm.trans hu')
  rw [hproof] at hproof'
  injection hproof' with hrecipe
  injection hrecipe with _ hafter
  rwa [hafter]

theorem exists_of_edge (h : k.Labelled rules) (hkey : k.key = Term.pretty) {j : Nat}
    {e : Edge Recipe Evidence} (he : k.edges[j]? = some e) :
    ∃ u w, k.vertices[e.source]? = some u ∧ k.vertices[e.target]? = some w ∧
      e.use.Turns rules u.pretty w.pretty ∧
      e.proof = .pending (.byRule u.pretty w.pretty e.use) := by
  obtain ⟨u, w, after, hu, hw, hturns, hproof, hafter⟩ := h.edge he
  rw [hkey] at hafter
  obtain rfl : after = w.pretty := hafter
  exact ⟨u, w, hu, hw, hturns, hproof⟩

end Labelled

/-- Every edge, all but one at which the sides meet, leads to the very text of its target. -/
def Exact (k : Skeleton Payload Recipe Evidence) : Prop :=
  ∀ ⦃j : Nat⦄ ⦃e : Edge Recipe Evidence⦄, k.edges[j]? = some e → k.meeting ≠ some j →
    ∃ u w, k.vertices[e.source]? = some u ∧ k.vertices[e.target]? = some w ∧
      e.proof = .pending (.byRule u.pretty w.pretty e.use)

namespace Exact

theorem withChild (h : k.Exact) {v : Vertex Payload} (hv : k.vertices[v.id]? = some v) (t : Text)
    (tokens : List Nat) (use : RuleUse) :
    (k.withChild v (.ofText t) tokens use (some (.byRule v.pretty t use))).Exact := by
  have hext := extends_withChild k v (.ofText t) tokens use (some (.byRule v.pretty t use))
  intro j e he hj
  rcases of_getElem?_push he with ⟨-, rfl⟩ | he
  · exact ⟨v, _, hext.vertex hv, Array.getElem?_push_size, rfl⟩
  · obtain ⟨u, w, hu, hw, hproof⟩ := h he hj
    exact ⟨u, w, hext.vertex hu, hext.vertex hw, hproof⟩

theorem withMeeting (h : k.Exact) (hm : k.meeting = none) (source target : Nat) (use : RuleUse)
    (recipe : Option Recipe) : (k.withMeeting source target use recipe).Exact := by
  intro j e he hj
  rcases of_getElem?_push he with ⟨rfl, -⟩ | he
  · exact absurd rfl hj
  · exact h he (by rw [hm]; simp)

end Exact

/-- The text of a vertex is derived from that of its root in as many steps as the vertex is deep. -/
theorem IsForest.derives (h : k.IsForest) (hl : k.Labelled rules) (hkey : k.key = Term.pretty)
    {i : Nat} {v r : Vertex Payload} (hv : k.vertices[i]? = some v)
    (hr : k.vertices[v.side.root]? = some r) : Derives rules v.depth r.pretty v.pretty := by
  induction i using Nat.strongRecOn generalizing v with
  | ind i ih =>
    obtain rfl := h.id_eq hv
    by_cases hi : 2 ≤ v.id
    · obtain ⟨e, p, hp⟩ := h.hangs hv hi
      obtain ⟨u, w, hu, hw, hturns, -⟩ := hl.exists_of_edge hkey hp.edge
      rw [hp.source] at hu
      rw [hp.target] at hw
      obtain rfl := Option.some.inj (hp.parent.symm.trans hu)
      obtain rfl := Option.some.inj (hv.symm.trans hw)
      rw [hp.depth]
      exact ⟨p.pretty, ih p.id hp.older hp.parent (hp.side ▸ hr), rewrites_of_turns hturns⟩
    · obtain ⟨s, hs⟩ := Side.exists_root_eq (Nat.lt_of_not_le hi)
      obtain ⟨w, hw, -, hside, hdepth⟩ := h.root s
      rw [← hs] at hw
      obtain rfl := Option.some.inj (hv.symm.trans hw)
      rw [hside, ← hs] at hr
      rw [hdepth, Option.some.inj (hr.symm.trans hv)]
      exact derives_zero.mpr rfl

end Skeleton

namespace Exploration

variable {x : Exploration Payload Recipe Evidence} {focus : Option Nat} {config : Config Payload}
  {lhs rhs : Text}

theorem labelled_rooted (config : Config Payload) (lhs rhs : Text) :
    (rooted config (.ofText lhs) (.ofText rhs) :
      Exploration Payload Recipe Evidence).skeleton.Labelled rules := by
  constructor
  · intro i v hv
    obtain ⟨s, -, hroot⟩ := isRootOf_of_skeleton_rooted hv
    rw [Vertex.pretty, hroot.term]
    cases s <;> rfl
  · intro j e he
    rw [edges_rooted] at he
    exact absurd he (by simp)

theorem term_eq_ofText (h : x.skeleton.Labelled rules) {i : Nat} {v : Vertex Payload}
    (hv : x.vertices.items[i]? = some v) : v.term = .ofText v.pretty := by
  have hterm := h.term (getElem?_skeleton_of hv)
  rwa [Vertex.term_asBorn, Vertex.pretty_asBorn] at hterm

theorem pretty_eq_of_findId? (hx : x.skeleton.IsForest) (hkey : x.config.key = Term.pretty)
    {t : Text} {w : Vertex Payload} (hfind : x.findId? (.ofText t) = some w.id)
    (hw : x.vertices.items[w.id]? = some w) : w.pretty = t := by
  obtain ⟨w', hw', hpretty⟩ := hx.find_iff.mp hfind
  obtain rfl := Option.some.inj ((getElem?_skeleton_of hw).symm.trans hw')
  rwa [key_skeleton, hkey] at hpretty

theorem Growth.labelled (hx : x.Orderly focus) (h : x.skeleton.Labelled rules)
    {k : Skeleton Payload Recipe Evidence} (hk : Growth (.ofRules rules) x k) :
    k.Labelled rules := by
  cases hk with
  | none => exact h
  | @child v _ r hv htry hnew tokens =>
    obtain ⟨s, hs, rfl⟩ := (Engine.tryNext_ofRules_eq_some_iff (term_eq_ofText h hv)).mp htry
    exact h.withChild (v := v.asBorn) (getElem?_skeleton_of hv) (List.mem_of_getElem? hs) tokens
  | @meeting v w _ r _ hv htry hfind hw hside =>
    obtain ⟨s, hs, rfl⟩ := (Engine.tryNext_ofRules_eq_some_iff (term_eq_ofText h hv)).mp htry
    obtain ⟨b, hb, hkey⟩ := hx.forest.find_iff.mp hfind
    obtain rfl := Option.some.inj ((getElem?_skeleton_of hw).symm.trans hb)
    exact h.withMeeting (v := v.asBorn) (w := w.asBorn) (getElem?_skeleton_of hv)
      (getElem?_skeleton_of hw) (List.mem_of_getElem? hs) hkey.symm

/-- **A search with rules labels what it grows.** -/
theorem Reached.labelled (hne : config.key (.ofText lhs) ≠ config.key (.ofText rhs))
    (h : Reached (.ofRules rules) config (.ofText lhs) (.ofText rhs) x focus) :
    x.skeleton.Labelled rules := by
  induction h with
  | start => exact labelled_rooted config lhs rhs
  | move h hm ih => exact hm.growth.labelled (h.orderly hne) ih

/-- **Whatever the key, a search with rules only blurs texts where its sides meet.** -/
theorem Reached.exact (hne : config.key (.ofText lhs) ≠ config.key (.ofText rhs))
    (h : Reached (.ofRules rules) config (.ofText lhs) (.ofText rhs) x focus) :
    x.skeleton.Exact := by
  induction h with
  | start =>
    intro j e he
    rw [edges_rooted] at he
    exact absurd he (by simp)
  | @move x y _ _ h hm ih =>
    generalize hy : y.skeleton = k
    have hk := hm.growth
    rw [hy] at hk
    cases hk with
    | none => exact ih
    | @child v _ r hv htry _ tokens =>
      obtain ⟨s, -, rfl⟩ := (Engine.tryNext_ofRules_eq_some_iff
        (term_eq_ofText (h.labelled hne) hv)).mp htry
      exact ih.withChild (v := v.asBorn) (getElem?_skeleton_of hv) _ tokens s.use
    | meeting hx _ _ _ _ _ => exact ih.withMeeting hx _ _ _ _

theorem Reached.exists_root_pretty
    (h : Reached (.ofRules rules) config (.ofText lhs) (.ofText rhs) x focus) (s : Side) :
    ∃ v, x.skeleton.vertices[s.root]? = some v ∧ v.pretty = s.pick lhs rhs := by
  obtain ⟨v, hv, hroot⟩ := h.exists_root s
  refine ⟨v, hv, ?_⟩
  rw [Vertex.pretty, hroot.term]
  cases s <;> rfl

theorem Reached.answer_ne_error (hne : config.key (.ofText lhs) ≠ config.key (.ofText rhs))
    (h : Reached (.ofRules rules) config (.ofText lhs) (.ofText rhs) x focus) {fault : Fault} :
    ¬Fits (.ofRules rules) x focus (.error fault) := by
  rintro ⟨v, tally, -, hv, hfail⟩
  rw [Engine.tryNext_ofRules (term_eq_ofText (h.labelled hne) hv)] at hfail
  exact absurd hfail (by simp)

/-! ## Texts and vertices -/

/-- What a search with rules and the default key has grown from two texts. -/
structure Grown (rules : List Rule) (lhs rhs : Text) (x : Exploration Payload Recipe Evidence)
    (focus : Option Nat) : Prop where
  orderly : x.Orderly focus
  labelled : x.skeleton.Labelled rules
  key : x.config.key = Term.pretty
  root (s : Side) : ∃ v, x.skeleton.vertices[s.root]? = some v ∧ v.pretty = s.pick lhs rhs

theorem Reached.grown (hkey : config.key = Term.pretty) (hne : lhs ≠ rhs)
    (h : Reached (.ofRules rules) config (.ofText lhs) (.ofText rhs) x focus) :
    x.Grown rules lhs rhs focus where
  orderly := h.orderly (Config.key_ofText_ne hkey hne)
  labelled := h.labelled (Config.key_ofText_ne hkey hne)
  key := h.config_eq ▸ hkey
  root := h.exists_root_pretty

namespace Grown

theorem eq_of_pretty_eq (h : Grown rules lhs rhs x focus) {i j : Nat} {v w : Vertex Payload}
    (hv : x.skeleton.vertices[i]? = some v) (hw : x.skeleton.vertices[j]? = some w)
    (heq : v.pretty = w.pretty) : v = w := by
  have hij := h.orderly.forest.eq_of_key_eq hv hw (by rw [key_skeleton, h.key]; exact heq)
  rw [hij] at hv
  exact Option.some.inj (hv.symm.trans hw)

theorem derives (h : Grown rules lhs rhs x focus) {i : Nat} {v : Vertex Payload}
    (hv : x.skeleton.vertices[i]? = some v) :
    Derives rules v.depth (v.side.pick lhs rhs) v.pretty := by
  obtain ⟨r, hr, hpretty⟩ := h.root v.side
  rw [← hpretty]
  exact h.orderly.forest.derives h.labelled h.key hv hr

theorem exists_root (h : Grown rules lhs rhs x focus) (s : Side) :
    ∃ v, x.skeleton.vertices[s.root]? = some v ∧ v.side = s ∧ v.pretty = s.pick lhs rhs ∧
      v.depth = 0 := by
  obtain ⟨v, hv, hpretty⟩ := h.root s
  obtain ⟨w, hw, -, hside, hdepth⟩ := h.orderly.forest.root s
  obtain rfl := Option.some.inj (hv.symm.trans hw)
  exact ⟨v, hv, hside, hpretty, hdepth⟩

end Grown

theorem joinableWithin_of_sides {n i j : ℕ} {s : Side} {t : Text} (hi : i ≤ n) (hj : j ≤ n)
    (hs : Derives rules i (s.pick lhs rhs) t) (ho : Derives rules j (s.opposite.pick lhs rhs) t) :
    JoinableWithin rules n lhs rhs :=
  ⟨t, Side.of_pick (P := fun u ↦ distance rules u t ≤ n) (distance_le_iff.mpr ⟨i, hi, hs⟩)
    (distance_le_iff.mpr ⟨j, hj, ho⟩)⟩

end Exploration

end Joinability
