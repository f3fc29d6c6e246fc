import Joinability.Proofs.Search.Building
import Joinability.Proofs.Search.Conclude

/-!
# The steps of a proof

A step of a proof quotes an edge: its use, and the texts at its ends. In the trees of a search no
step reads an edge against its direction, because each unit is walked away from its root and the
meeting edge comes last. So what holds of every edge holds of every step, for every engine
(`Exploration.copies_of_buildProof`).

For a search with rules this gives more than that the steps form a chain. A use says how many
matches its pattern has, and the number is that of the text before the step.
-/

namespace Joinability

variable {σ α τ π : Type}

/-- `p.Copies k`: the step quotes an edge of `k`, read from its source to its target. -/
def ProofStep.Copies (k : Skeleton α τ π) (p : ProofStep) : Prop :=
  ∃ (e : Edge τ π) (u v : Vertex α), k.edges[p.edge]? = some e ∧ k.vertices[e.source]? = some u ∧
    k.vertices[e.target]? = some v ∧ p.use = e.use ∧ p.before = u.pretty ∧ p.after = v.pretty

section Walks

variable {e : Engine σ α τ π} {x : Exploration α τ π} {s t : Edges τ π × σ} {w w' : Walk π}

theorem Exploration.exists_skeleton_of_get {i : Nat} {u : Vertex α} (h : x.vertices.get i = .ok u) :
    ∃ v, x.skeleton.vertices[i]? = some v ∧ u.pretty = v.pretty :=
  ⟨u.asBorn, getElem?_skeleton_of (Vertices.get_eq_ok_iff.mp h), (Vertex.pretty_asBorn u).symm⟩

/-- Crossing an edge from its source. -/
theorem Walk.copies_of_cross {edge : Edge τ π} (hedge : x.edges.items[edge.id]? = some edge)
    (hs : x.edges.Matures s.1) (hsource : edge.source = w.cursor)
    (h : w.cross e x.vertices edge.id s = (.ok w', t)) :
    w'.cursor = edge.target ∧ ∃ p, w'.steps = w.steps ++ [p] ∧ p.Copies x.skeleton := by
  obtain ⟨edge', u, v, _, hedge', hother, -, hu, hv, hsteps⟩ := of_cross_eq_ok h
  obtain ⟨f, hf, harc, -⟩ := hs hedge
  obtain rfl := Option.some.inj (hf.symm.trans hedge')
  have hcursor : w'.cursor = edge.target := by
    rw [harc, Arc.otherEnd?, if_pos hsource] at hother
    exact (Option.some.inj hother).symm
  obtain ⟨u', hu', hpu⟩ := Exploration.exists_skeleton_of_get hu
  obtain ⟨v', hv', hpv⟩ := Exploration.exists_skeleton_of_get hv
  refine ⟨hcursor, _, hsteps, edge, u', v', hedge, hsource ▸ hu', hcursor ▸ hv', ?_, hpu, hpv⟩
  exact congrArg Arc.use harc

/-- Walking the trail of a vertex. -/
theorem Walk.copies_of_trail (hx : x.skeleton.IsForest) {v : Vertex α} {path : List Nat}
    (ht : x.skeleton.Trail v path) (hs : x.edges.Matures s.1)
    (h : path.foldlM (cross e x.vertices) { cursor := v.side.root } s = (.ok w, t)) :
    w.cursor = v.id ∧ ∀ p ∈ w.steps, p.Copies x.skeleton := by
  induction ht generalizing w t with
  | @root v hv hroot =>
    obtain ⟨rfl, -⟩ := BuildM.pure_eq_ok_iff.mp h
    exact ⟨((hx.isRoot_iff hv).mp hroot).symm, by simp⟩
  | @child edge p v path hp hv hangs ih =>
    rw [List.foldlM_append, ← hangs.side] at h
    obtain ⟨w₁, t₁, hwalk, h⟩ := BuildM.bind_eq_ok_iff.mp h
    obtain ⟨w₂, t₂, hcross, h⟩ := BuildM.bind_eq_ok_iff.mp h
    obtain ⟨rfl, rfl⟩ := BuildM.pure_eq_ok_iff.mp h
    obtain ⟨hcursor, hcopies⟩ := ih hwalk
    have hmature := hs.trans (forces_of_walk hwalk).1.matures
    obtain ⟨hnext, q, hsteps, hq⟩ :=
      copies_of_cross hangs.edge hmature (hangs.source.trans hcursor.symm) hcross
    refine ⟨hnext.trans hangs.target, fun r hr ↦ ?_⟩
    rw [hsteps, List.mem_append, List.mem_singleton] at hr
    rcases hr with hr | rfl
    · exact hcopies r hr
    · exact hq

theorem copies_of_unit (hx : x.skeleton.IsForest) {v : Vertex α} {path : List Nat}
    (ht : x.skeleton.Trail v path) (hs : x.edges.Matures s.1) {unit : ProofUnit π}
    (h : buildUnit e x.vertices v.side path s = (.ok unit, t)) :
    ∀ p ∈ unit.steps, p.Copies x.skeleton := by
  obtain ⟨-, w, hwalk, hsteps⟩ := exists_walk_of_unit h
  rw [hsteps]
  exact (Walk.copies_of_trail hx ht hs hwalk).2

/-- The unit that goes on over the meeting edge. -/
theorem copies_of_unit_snoc (hx : x.skeleton.IsForest) {u : Vertex α} {path : List Nat}
    (ht : x.skeleton.Trail u path) (hs : x.edges.Matures s.1) {edge : Edge τ π}
    (hedge : x.edges.items[edge.id]? = some edge) (hsource : edge.source = u.id)
    {unit : ProofUnit π}
    (h : buildUnit e x.vertices u.side (path ++ [edge.id]) s = (.ok unit, t)) :
    ∀ p ∈ unit.steps, p.Copies x.skeleton := by
  obtain ⟨-, w, hwalk, hsteps⟩ := exists_walk_of_unit h
  rw [List.foldlM_append] at hwalk
  obtain ⟨w₁, t₁, htrail, hwalk⟩ := BuildM.bind_eq_ok_iff.mp hwalk
  obtain ⟨w₂, t₂, hcross, hwalk⟩ := BuildM.bind_eq_ok_iff.mp hwalk
  obtain ⟨rfl, rfl⟩ := BuildM.pure_eq_ok_iff.mp hwalk
  obtain ⟨hcursor, hcopies⟩ := Walk.copies_of_trail hx ht hs htrail
  have hmature := hs.trans (Walk.forces_of_walk htrail).1.matures
  obtain ⟨-, q, hnext, hq⟩ :=
    Walk.copies_of_cross hedge hmature (hsource.trans hcursor.symm) hcross
  rw [hsteps, hnext]
  intro r hr
  rcases List.mem_append.mp hr with hr | hr
  · exact hcopies r hr
  · exact List.mem_singleton.mp hr ▸ hq

/-- **Every step of a proof quotes an edge**, for every engine. -/
theorem Exploration.copies_of_buildProof (hx : x.skeleton.IsForest) {m : Nat} {p : π}
    {left right : ProofUnit π} (h : x.buildProof e m (x.edges, s.2) = (.ok (p, left, right), t)) :
    ∀ q ∈ left.steps ++ right.steps, q.Copies x.skeleton := by
  obtain ⟨edge, u, v, upath, vpath, unit, unit', s', hedge, hu, hv, -, hupath, hvpath, hunit,
    hunit', rfl, rfl, -⟩ := buildProof_eq_ok_iff.mp h
  have hedge' := Edges.get_eq_ok_iff.mp hedge
  have hu' := getElem?_skeleton_of (Vertices.get_eq_ok_iff.mp hu)
  have hv' := getElem?_skeleton_of (Vertices.get_eq_ok_iff.mp hv)
  have hid : edge.id = m := hx.edge_id_eq hedge'
  have huid : u.id = edge.source := hx.id_eq (v := u.asBorn) hu'
  have hvid : v.id = edge.target := hx.id_eq (v := v.asBorn) hv'
  -- the paths that were looked up are the trails
  obtain ⟨trail, ht⟩ := hx.exists_trail hu'
  obtain ⟨trail', ht'⟩ := hx.exists_trail hv'
  obtain rfl : trail = upath := by
    have hpath := pathFromRoot_eq hx ht
    rw [Vertex.id_asBorn, hupath] at hpath
    exact (Except.ok.inj hpath).symm
  obtain rfl : trail' = vpath := by
    have hpath := pathFromRoot_eq hx ht'
    rw [Vertex.id_asBorn, hvpath] at hpath
    exact (Except.ok.inj hpath).symm
  have hsource := copies_of_unit_snoc (u := u.asBorn) hx ht (.refl _) (hid ▸ hedge') huid.symm hunit
  have htarget := copies_of_unit (v := v.asBorn) hx ht' (forces_of_unit hunit).1.matures hunit'
  have hboth : ∀ q ∈ unit.steps ++ unit'.steps, q.Copies x.skeleton := by
    intro q hq
    exact (List.mem_append.mp hq).elim (hsource q) (htarget q)
  rcases hs : u.side
  · exact hboth
  · intro q hq
    exact hboth q (List.perm_append_comm.mem_iff.mp hq)

end Walks

/-! ## Searches with rules -/

section Rules

variable {rules : List Rule}

/-- `u.Counts rules t`: the use says how many matches its pattern has in `t`. -/
def RuleUse.Counts (u : RuleUse) (rules : List Rule) (t : Text) : Prop :=
  ∃ r, rules[u.index]? = some r ∧ u.matchCount = (t.positions (u.pattern r)).length

theorem counts_of_site {t : Text} {s : Site} (h : s ∈ sites rules t) : s.use.Counts rules t := by
  obtain ⟨r, hr, -, -, -, hcount⟩ := mem_reducts_iff.mp (List.mem_map_of_mem h)
  exact ⟨r, hr, hcount⟩

/-- The use on every edge counts the matches in the text of its source. -/
def Skeleton.CountsMatches (rules : List Rule) (k : Skeleton Payload Recipe Evidence) : Prop :=
  ∀ ⦃j : Nat⦄ ⦃e : Edge Recipe Evidence⦄, k.edges[j]? = some e →
    ∃ u, k.vertices[e.source]? = some u ∧ e.use.Counts rules u.pretty

namespace Exploration

variable {x : Exploration Payload Recipe Evidence} {focus : Option Nat} {config : Config Payload}
  {lhs rhs : Text}

theorem Growth.countsMatches (hl : x.skeleton.Labelled rules) (h : x.skeleton.CountsMatches rules)
    {k : Skeleton Payload Recipe Evidence} (hk : Growth (.ofRules rules) x k) :
    k.CountsMatches rules := by
  have hext := hk.extends
  -- an edge that is added comes from a site of the text of its source
  have hnew {v : Vertex Payload} {s : Tally} {r : Reduct Payload Recipe}
      (hv : x.vertices.items[v.id]? = some v)
      (htry : ((Engine.ofRules rules).tryNext v v.cursor s).1 = .ok (some r)) :
      ∃ u, k.vertices[v.id]? = some u ∧ r.use.Counts rules u.pretty := by
    obtain ⟨site, hsite, rfl⟩ :=
      (Engine.tryNext_ofRules_eq_some_iff (term_eq_ofText hl hv)).mp htry
    exact ⟨v.asBorn, hext.vertex (getElem?_skeleton_of hv),
      counts_of_site (List.mem_of_getElem? hsite)⟩
  have hold {j : Nat} {e : Edge Recipe Evidence} (he : x.skeleton.edges[j]? = some e) :
      ∃ u, k.vertices[e.source]? = some u ∧ e.use.Counts rules u.pretty := by
    obtain ⟨u, hu, hcounts⟩ := h he
    exact ⟨u, hext.vertex hu, hcounts⟩
  intro j e he
  cases hk with
  | none => exact hold he
  | @child v _ _ hv htry =>
    rcases of_getElem?_push he with ⟨-, rfl⟩ | he
    · exact hnew (v := v) hv htry
    · exact hold he
  | @meeting v _ _ _ _ hv htry =>
    rcases of_getElem?_push he with ⟨-, rfl⟩ | he
    · exact hnew (v := v) hv htry
    · exact hold he

theorem Reached.countsMatches (hne : config.key (.ofText lhs) ≠ config.key (.ofText rhs))
    (h : Reached (.ofRules rules) config (.ofText lhs) (.ofText rhs) x focus) :
    x.skeleton.CountsMatches rules := by
  induction h with
  | start =>
    intro j e he
    rw [edges_rooted] at he
    exact absurd he (by simp)
  | move h hm ih => exact hm.growth.countsMatches (h.labelled hne) ih

end Exploration

/-- The steps of a proof on one side. -/
def Result.stepsOf {π : Type} (r : Result π) (s : Side) : List ProofStep :=
  (r.units.filter (·.side = s)).flatMap (·.steps)

/-- What a successful search with rules has found: its result has one unit for each side unless the
goal texts are the same, their steps lead from the goal texts to one text `m` and count the matches
of what they replace, and the proof quotes them. -/
structure Finds (rules : List Rule) (lhs rhs : Text) (result : Result Evidence) (p : Equality)
    (m : Text) : Prop where
  units : (lhs = rhs ∧ result.units = []) ∨ ∃ left right, result.units = [left, right] ∧
    left.side = .left ∧ right.side = .right
  proof : result.proof? = some (.equality p)
  chain (s : Side) : Chain rules (s.pick lhs rhs) (result.stepsOf s) m
  counts (s : Side) : ∀ q ∈ result.stepsOf s, q.use.Counts rules q.before
  reasons : p.reasons = joinedReasons (result.stepsOf .left) (result.stepsOf .right)

theorem Result.stepsOf_of_units {π : Type} {r : Result π} {left right : ProofUnit π}
    (h : r.units = [left, right]) (hleft : left.side = .left) (hright : right.side = .right)
    (s : Side) : r.stepsOf s = (s.pick left right).steps := by
  rcases s <;> simp [stepsOf, h, hleft, hright, Side.pick]

theorem finds_self (t : Text) (stats : Stats) :
    Finds rules t t (.proved (.equality (.refl t)) [] stats) (.refl t) t := by
  refine ⟨Or.inl ⟨rfl, rfl⟩, rfl, ?_, ?_, rfl⟩
  · rintro (_ | _)
    · exact rfl
    · exact rfl
  · rintro s q hq
    exact absurd hq (by simp [Result.stepsOf, Result.units])

/-- The proof over the edge at which the sides have met. -/
theorem Exploration.Reached.finds {x : Exploration Payload Recipe Evidence} {focus : Option Nat}
    {config : Config Payload} {lhs rhs : Text} (hkey : config.key = Term.pretty) (hne : lhs ≠ rhs)
    (h : Reached (.ofRules rules) config (.ofText lhs) (.ofText rhs) x focus) {m : Nat}
    (hm : x.meeting = some m) (tally : Tally) :
    ∃ result p t, ((Search.exploring x focus).prove (.ofRules rules) m tally).answer = .ok result ∧
      Finds rules lhs rhs result p t := by
  have hkeyne := Config.key_ofText_ne hkey hne
  obtain ⟨result, hresult, hreports⟩ := h.exists_proved hkey hne hm tally
  obtain ⟨p, left, right, edges, t, hbuild, rfl, -, -⟩ := Search.exists_buildProof_of_prove hresult
  obtain ⟨e, u, w, left', right', hunits, -, -, -, -, hside, hjoins⟩ := hreports
  obtain ⟨rfl, rfl⟩ : left = left' ∧ right = right' := by simpa using hunits
  have hsteps := Result.stepsOf_of_units (r := .proved p [left, right] x.stats) rfl
    (hjoins.side .left) (hjoins.side .right)
  have hcopies := copies_of_buildProof (s := (x.edges, tally)) (h.orderly hkeyne).forest hbuild
  refine ⟨_, ⟨lhs, rhs, joinedReasons left.steps right.steps⟩, w.pretty, hresult, ?_, ?_, ?_, ?_,
    ?_⟩
  · exact Or.inr ⟨left, right, rfl, hjoins.side .left, hjoins.side .right⟩
  · exact congrArg some hjoins.proof
  · intro s
    obtain ⟨path, hshows⟩ := hjoins.shows hside s
    rw [hsteps s]
    exact hshows.chain
  · intro s q hq
    have hmem : q ∈ left.steps ++ right.steps := by
      rw [hsteps s] at hq
      rcases s
      · exact List.mem_append_left _ hq
      · exact List.mem_append_right _ hq
    obtain ⟨edge, a, b, hedge, ha, -, huse, hbefore, -⟩ := hcopies q hmem
    obtain ⟨a', ha', hcounts⟩ := h.countsMatches hkeyne hedge
    obtain rfl := Option.some.inj (ha.symm.trans ha')
    rwa [huse, hbefore]
  · rw [hsteps, hsteps]
    rfl

/-- **What a search with rules finds.** It always answers, and with a proof if it succeeds. -/
theorem Search.exists_finds (rules : List Rule) (clock : Nat → Nat) (config : Config Payload)
    (hkey : config.key = Term.pretty) (lhs rhs : Text) (tally : Tally) :
    ∃ result, (solve (.ofRules rules) clock config (.ofText lhs) (.ofText rhs) tally).answer
        = .ok result ∧ (result.status = .success → ∃ p m, Finds rules lhs rhs result p m) := by
  by_cases hne : lhs = rhs
  · subst hne
    exact ⟨_, solve_self rules clock config lhs tally, fun _ ↦ ⟨_, lhs, finds_self lhs _⟩⟩
  · obtain ⟨y, g, ending, hreach, hfit, hanswer, -, -⟩ :=
      Exploration.solve_eq_conclude rules hkey hne clock tally
    rcases ending with m | _ | _
    · obtain ⟨result, p, t, hresult, hfinds⟩ := hreach.finds hkey hne hfit tally
      exact ⟨result, hanswer.trans hresult, fun _ ↦ ⟨p, t, hfinds⟩⟩
    · exact ⟨_, hanswer, by simp [Result.status]⟩
    · exact ⟨_, hanswer, by simp [Result.status]⟩

end Rules

end Joinability
