import Joinability.Proofs.Exhaustion.DepthBound
import Joinability.Proofs.Search.Record

/-!
# Where the vertices of a search stand

A search does not record where a vertex stands. It marks a vertex as visited in the end, it knows
the one in focus, and the frontier hides the others in a queue that may hold vertices beyond the
depth bound, or turn them away, or give up a whole level at once. Yet, while the sides are apart,
each vertex within the bound stands in one place and in one only
(`Exploration.Reached.existsUnique_place`): nothing gets lost, and nothing can be expanded twice.

What waits has not been touched (`Fresh`). This is why the search never has to pass over a vertex
that it takes from the frontier, although it guards against visited ones.

## The bound

Vertices are created one level beyond the bound, and none of these is ever expanded. The two
frontiers see to that in their own ways, the one by the levels of its queue and the other by the
depth of an arrival, and both come down to the depth of the vertex in focus
(`Reached.depth_le_of_focus`).
-/

namespace Joinability

variable {σ α τ π : Type}

namespace Exploration

variable {e : Engine σ α τ π} {config : Config α} {lhs rhs : Term α} {x y : Exploration α τ π}
  {f g : Option Nat}

/-! ## What waits -/

/-- Nothing has happened to the vertex with an id, except that edges may lead to it. -/
def Fresh (x : Exploration α τ π) (i : Nat) : Prop :=
  ∃ v, x.vertices.items[i]? = some v ∧ v.visited = false ∧ v.cursor = 0 ∧ v.outgoing = []

namespace Fresh

variable {i : Nat}

theorem of_vertices_eq (h : x.Fresh i) (hy : y.vertices = x.vertices) : y.Fresh i := by
  rw [Fresh, hy]
  exact h

theorem put (h : x.Fresh i) {v : Vertex α} (hv : v.id ≠ i) : (x.put v).Fresh i := by
  rw [Fresh, getElem?_put, if_neg hv]
  exact h

theorem link (h : x.Fresh i) {source target : Nat} (hne : target ≠ source) (hsource : source ≠ i)
    (use : RuleUse) (recipe : Option τ) : (x.link source target use recipe).2.Fresh i := by
  obtain ⟨v, hv, hvis, hcursor, hout⟩ := h
  rw [Fresh, getElem?_link x hne, if_neg hsource, hv]
  split
  · exact ⟨_, rfl, hvis, hcursor, hout⟩
  · exact ⟨_, rfl, hvis, hcursor, hout⟩

theorem grow (h : x.Fresh i) {p : Vertex α} (hp : p.id < x.vertices.size) (hpi : p.id ≠ i)
    (t : Term α) (use : RuleUse) (recipe : Option τ) : (x.grow p t use recipe).2.2.Fresh i := by
  obtain ⟨v, hv, hfresh⟩ := h
  have hi : i ≠ x.vertices.size := Nat.ne_of_lt (Array.getElem?_eq_some_iff.mp hv).1
  rw [Fresh, getElem?_grow hp, if_neg hi, if_neg hpi]
  exact ⟨v, hv, hfresh⟩

end Fresh

theorem fresh_child {p : Vertex α} (hp : p.id < x.vertices.size) (t : Term α) (use : RuleUse)
    (recipe : Option τ) : (x.grow p t use recipe).2.2.Fresh x.vertices.size := by
  rw [Fresh, getElem?_grow hp, if_pos rfl]
  exact ⟨_, rfl, rfl, rfl, rfl⟩

/-- **What waits has not been touched.** -/
theorem Reached.fresh (hne : config.key lhs ≠ config.key rhs) (h : Reached e config lhs rhs x f)
    {i : Nat} (hi : i ∈ x.frontier.toList) : x.Fresh i := by
  induction h generalizing i with
  | start =>
    obtain ⟨v, hv, hvis⟩ := (Orderly.rooted (τ := τ) (π := π) hne).unvisited i hi
    obtain ⟨s, -, hroot⟩ := isRootOf_of_getElem?_rooted hv
    exact ⟨v, hv, hvis, by rw [← hroot.asBorn]; rfl, by rw [← hroot.asBorn]; rfl⟩
  | @move x y f g h hm ih =>
    have hord := h.orderly hne
    have hnodup := hord.nodup
    -- what is in focus does not wait
    have hfocus {j : Nat} (hf : f = some j) {k : Nat} (hk : k ∈ x.frontier.toList) : j ≠ k := by
      rintro rfl
      rw [hf, pending_some, List.nodup_cons] at hnodup
      exact hnodup.1 hk
    cases hm with
    | take _ hnext =>
      obtain ⟨hfront, hy⟩ := next_eq hnext
      refine (ih ?_).of_vertices_eq (by rw [hy])
      rw [Frontier.toList_of_next hfront]
      exact List.mem_cons_of_mem _ hi
    | dry _ hnext =>
      rw [Frontier.toList_of_next_none (next_eq hnext).1] at hi
      exact absurd hi List.not_mem_nil
    | fail => exact (ih hi).of_vertices_eq rfl
    | @close v s _ hv htry =>
      exact (ih hi).put (v := { v with visited := true }) (hfocus rfl hi)
    | @grow v s r _ hv _ _ =>
      have hlt : v.id < (x.spend.advance v r.next).vertices.size :=
        (Array.getElem?_eq_some_iff.mp (getElem?_advance_self hv)).1
      obtain ⟨score, hfront⟩ := frontier_grow (x.spend.advance v r.next) { v with cursor := r.next }
        r.term r.use r.recipe
      rw [hfront] at hi
      rcases List.mem_cons.mp ((Frontier.toList_enqueue_subperm _ _ _ _).subset hi) with rfl | hi
      · exact fresh_child (p := { v with cursor := r.next }) hlt r.term r.use r.recipe
      · have hadv : (x.spend.advance v r.next).Fresh i :=
          (ih hi).put (v := { v with cursor := r.next }) (hfocus rfl hi)
        exact hadv.grow (p := { v with cursor := r.next }) hlt (hfocus rfl hi) r.term r.use r.recipe
    | @discard v w s r _ hv _ _ _ _ =>
      exact (ih hi).put (v := { v with cursor := r.next }) (hfocus rfl hi)
    | @meet v w s r _ hv _ _ hw hside =>
      have hadv : (x.spend.advance v r.next).Fresh i :=
        (ih hi).put (v := { v with cursor := r.next }) (hfocus rfl hi)
      exact hadv.link (id_ne_of_side_ne hv hw hside) (hfocus rfl hi) r.use r.recipe

/-! ## How deep the search goes -/

theorem Reached.depth_le_of_focus (hne : config.key lhs ≠ config.key rhs) {v : Vertex α}
    (h : Reached e config lhs rhs x (some v.id)) (hapart : x.meeting = none)
    (hv : x.skeleton.vertices[v.id]? = some v) : v.depth ≤ config.maxDepth := by
  cases hs : config.strategy with
  | breadthFirst =>
    obtain ⟨k, q, hq⟩ := h.levelled hne hs hapart
    exact hq.depth_le hv
  | bestFirst =>
    rw [← (h.settings_frontier hapart).2]
    exact (h.shallow hne hs hapart).pending_le List.mem_cons_self hv

/-- No vertex lies more than one level beyond the bound, and none beyond the bound has been
visited. -/
structure Bounded (x : Exploration α τ π) (maxDepth : Nat) : Prop where
  depth_le {i : Nat} {v : Vertex α} : x.skeleton.vertices[i]? = some v → v.depth ≤ maxDepth + 1
  visited_le {i c : Nat} {v : Vertex α} : x.skeleton.vertices[i]? = some v →
    x.progress i = some (true, c) → v.depth ≤ maxDepth

theorem bounded_rooted (config : Config α) (lhs rhs : Term α) (maxDepth : Nat) :
    (rooted config lhs rhs : Exploration α τ π).Bounded maxDepth := by
  have hroot {i : Nat} {v : Vertex α}
      (hv : (rooted config lhs rhs : Exploration α τ π).skeleton.vertices[i]? = some v) :
      v.depth = 0 := by
    obtain ⟨s, -, hroot⟩ := isRootOf_of_skeleton_rooted hv
    exact hroot.depth
  exact ⟨fun hv ↦ hroot hv ▸ Nat.zero_le _, fun hv _ ↦ hroot hv ▸ Nat.zero_le _⟩

theorem Bounded.effect {maxDepth : Nat} (h : x.Bounded maxDepth)
    (hfocus : ∀ v : Vertex α, f = some v.id → x.skeleton.vertices[v.id]? = some v →
      v.depth ≤ maxDepth) (hm : Effect e x f y g) : y.Bounded maxDepth := by
  -- only the progress of what is in focus may change
  have hupdate {v : Vertex α} {p : Option (Bool × Nat)} (hv : x.vertices.items[v.id]? = some v)
      (hf : f = some v.id) {i c : Nat} {w : Vertex α} (hw : x.skeleton.vertices[i]? = some w)
      (hc : Function.update x.progress v.id p i = some (true, c)) : w.depth ≤ maxDepth := by
    by_cases hi : i = v.id
    · have hskel : x.skeleton.vertices[v.id]? = some v.asBorn := getElem?_skeleton_of hv
      rw [hi, hskel] at hw
      obtain rfl := Option.some.inj hw
      exact hfocus v.asBorn hf hskel
    · rw [Function.update_of_ne hi] at hc
      exact h.visited_le hw hc
  cases hm with
  | take hskel hprog _ | dry hskel hprog _ | fail hskel hprog _ =>
    exact ⟨fun hv ↦ h.depth_le (hskel ▸ hv), fun hv hc ↦ h.visited_le (hskel ▸ hv) (hprog ▸ hc)⟩
  | close hskel _ hv _ hprog =>
    exact ⟨fun hw ↦ h.depth_le (hskel ▸ hw), fun hw hc ↦ hupdate hv rfl (hskel ▸ hw) (hprog ▸ hc)⟩
  | discard hv _ _ _ _ hskel hprog _ =>
    exact ⟨fun hw ↦ h.depth_le (hskel ▸ hw), fun hw hc ↦ hupdate hv rfl (hskel ▸ hw) (hprog ▸ hc)⟩
  | @grow _ v _ r tokens score hv _ _ hskel hprog _ =>
    have hdepth : v.depth ≤ maxDepth := hfocus v.asBorn rfl (getElem?_skeleton_of hv)
    constructor
    · intro i w hw
      rw [hskel] at hw
      rcases of_getElem?_push hw with ⟨-, rfl⟩ | hw
      · exact Nat.le_trans (Nat.mod_le _ _) (Nat.succ_le_succ hdepth)
      · exact h.depth_le hw
    · intro i c w hw hc
      rw [hskel] at hw
      rw [hprog] at hc
      rcases of_getElem?_push hw with ⟨rfl, -⟩ | hw
      · rw [size_vertices_skeleton, Function.update_self] at hc
        exact absurd hc (by simp)
      · have hi : i ≠ x.vertices.size := by
          rw [← size_vertices_skeleton]
          exact Nat.ne_of_lt (Array.getElem?_eq_some_iff.mp hw).1
        rw [Function.update_of_ne hi] at hc
        exact hupdate hv rfl hw hc

theorem Reached.bounded (hne : config.key lhs ≠ config.key rhs) (h : Reached e config lhs rhs x f)
    (hapart : x.meeting = none) : x.Bounded config.maxDepth := by
  induction h with
  | start => exact bounded_rooted config lhs rhs config.maxDepth
  | @move x y f g h hm ih =>
    have hopen := hm.isOpen.meeting
    refine (ih hopen).effect ?_ (hm.effect hapart)
    rintro v rfl hv
    exact h.depth_le_of_focus hne hopen hv

/-! ## Where vertices stand -/

/-- The places at which a vertex can stand. -/
inductive Place where
  /-- Its reducts have all been tried. -/
  | visited
  /-- Its reducts are being tried. -/
  | inFocus
  /-- It waits in the frontier. -/
  | waiting

/-- The vertex with an id stands at a place. -/
def StandsAt (x : Exploration α τ π) (focus : Option Nat) (i : Nat) : Place → Prop
  | .visited => ∃ v, x.vertices.items[i]? = some v ∧ v.visited = true
  | .inFocus => focus = some i
  | .waiting => i ∈ x.frontier.toList

/-- Nothing stands at two places. -/
theorem Orderly.place_unique (hx : x.Orderly f) {i : Nat} {p q : Place} (hp : x.StandsAt f i p)
    (hq : x.StandsAt f i q) : p = q := by
  -- what still has to be expanded has not been visited
  have hvisited {q : Place} (hv : x.StandsAt f i .visited) (hq : x.StandsAt f i q) :
      Place.visited = q := by
    obtain ⟨v, hv, hvis⟩ := hv
    have hpending : i ∉ x.pending f := by
      intro hi
      obtain ⟨u, hu, hunvis⟩ := hx.unvisited i hi
      obtain rfl := Option.some.inj (hv.symm.trans hu)
      exact absurd (hvis.symm.trans hunvis) (by simp)
    cases q with
    | visited => rfl
    | inFocus => exact absurd (List.mem_append_left _ (Option.mem_toList.mpr hq)) hpending
    | waiting => exact absurd (List.mem_append_right _ hq) hpending
  -- what is in focus does not wait
  have hfocus (hf : f = some i) (hi : i ∈ x.frontier.toList) : False := by
    have hnodup := hx.nodup
    rw [hf, pending_some, List.nodup_cons] at hnodup
    exact hnodup.1 hi
  cases p with
  | visited => exact hvisited hp hq
  | inFocus =>
    cases q with
    | visited => exact (hvisited hq hp).symm
    | inFocus => rfl
    | waiting => exact (hfocus hp hq).elim
  | waiting =>
    cases q with
    | visited => exact (hvisited hq hp).symm
    | inFocus => exact (hfocus hq hp).elim
    | waiting => rfl

/-- **A vertex within the depth bound stands at one place**, as long as the sides are apart. -/
theorem Reached.existsUnique_place (hne : config.key lhs ≠ config.key rhs)
    (h : Reached e config lhs rhs x f) (hapart : x.meeting = none) {v : Vertex α}
    (hv : x.vertices.items[v.id]? = some v) (hdepth : v.depth ≤ config.maxDepth) :
    ∃! place, x.StandsAt f v.id place := by
  have hord := h.orderly hne
  refine existsUnique_of_exists_of_unique ?_ fun p q ↦ hord.place_unique
  cases hvis : v.visited with
  | true => exact ⟨.visited, v, hv, hvis⟩
  | false =>
    have hprogress : x.progress v.id = some (false, v.cursor) := hvis ▸ progress_of hv
    rcases h.kept hne hapart (getElem?_skeleton_of hv) hprogress with hmem | ⟨-, hdeep⟩
    · rcases List.mem_append.mp hmem with hfocus | hwaits
      · exact ⟨.inFocus, Option.mem_toList.mp hfocus⟩
      · exact ⟨.waiting, hwaits⟩
    · rw [(h.settings_frontier hapart).2] at hdeep
      exact absurd hdepth (Nat.not_le_of_lt hdeep)

/-- When nothing is left to expand, exactly the vertices within the depth bound have been
visited. -/
theorem Reached.visited_iff (hne : config.key lhs ≠ config.key rhs)
    (h : Reached e config lhs rhs x none) (hapart : x.meeting = none)
    (hempty : x.frontier.toList = []) {v : Vertex α} (hv : x.vertices.items[v.id]? = some v) :
    v.visited = true ↔ v.depth ≤ config.maxDepth := by
  constructor
  · intro hvis
    have hprogress : x.progress v.id = some (true, v.cursor) := hvis ▸ progress_of hv
    exact (h.bounded hne hapart).visited_le (v := v.asBorn) (getElem?_skeleton_of hv) hprogress
  · intro hdepth
    obtain ⟨place, hplace, -⟩ := h.existsUnique_place hne hapart hv hdepth
    cases place with
    | visited =>
      obtain ⟨u, hu, hvis⟩ := hplace
      rwa [Option.some.inj (hv.symm.trans hu)]
    | inFocus => exact absurd hplace (by simp [StandsAt])
    | waiting =>
      rw [StandsAt, hempty] at hplace
      exact absurd hplace List.not_mem_nil

/-! ## What a step does about it -/

theorem notMem_of_next {v : Option Nat} {entries : List (Entry α)} (h : x.next = (v, y, entries))
    (i : Nat) : .visitedSkipped i ∉ entries := by
  intro hskipped
  obtain ⟨maxDepth, count, hcut⟩ := eq_levelsCut_of_next h hskipped
  exact absurd hcut (by simp)

theorem notMem_journal_expand {v : Vertex α} (hv : x.vertices.items[v.id]? = some v) (s : σ)
    (i : Nat) : .visitedSkipped i ∉ (x.expand e v.id s).journal := by
  have habsorb (r : Reduct α τ) : .visitedSkipped i ∉ [(x.spend.absorb v r).2.2] := by
    rw [absorb_eq]
    split
    · simp
    · split <;> simp
  rw [expand_eq hv]
  rcases e.tryNext v v.cursor s with ⟨_ | _ | r, t⟩
  · simp
  · simp
  · exact habsorb r

/-- A step passes over no vertex. -/
theorem Orderly.notMem_journal_step (hx : x.Orderly f) (e : Engine σ α τ π) (elapsed : Nat) (s : σ)
    (i : Nat) : .visitedSkipped i ∉ ((Search.exploring x f).step e elapsed s).journal := by
  rcases hx.halts_or_asks elapsed with ⟨ending, y, entries, hhalts⟩ | ⟨y, v, entries, hasks⟩
  · rw [hhalts.step_eq]
    cases hhalts with
    | met _ => simp
    | spent _ _ => simp
    | dry _ _ _ hnext => simpa using notMem_of_next hnext i
  · rw [hasks.step_eq]
    have hexpand := notMem_journal_expand (e := e) hasks.getElem? s i
    cases hasks with
    | kept _ _ _ _ => exact hexpand
    | taken _ _ _ hnext _ _ =>
      intro hi
      exact (List.mem_append.mp hi).elim (notMem_of_next hnext i) hexpand

/-- A step only asks for reducts of vertices within the depth bound. -/
theorem Reached.depth_le_of_call (hne : config.key lhs ≠ config.key rhs)
    (h : Reached e config lhs rhs x f) (elapsed : Nat) (s : σ) {call : Call α τ}
    (hcall : call ∈ ((Search.exploring x f).step e.recorded elapsed (s, [])).engine.2) :
    call.vertex.depth ≤ config.maxDepth := by
  rcases (h.orderly hne).halts_or_asks elapsed with
    ⟨ending, y, entries, hhalts⟩ | ⟨y, v, entries, hasks⟩
  · rw [hhalts.step_eq] at hcall
    exact absurd hcall List.not_mem_nil
  · rw [hasks.step_eq] at hcall
    obtain ⟨hy, hopen⟩ := h.asks hasks
    have hrecord := engine_expand_recorded (e := e) hasks.getElem? (s, [])
    rw [show ((y.expand e.recorded v.id (s, [])).after entries).engine.2 = _ from hrecord,
      List.nil_append, List.mem_singleton] at hcall
    rw [hcall]
    exact hy.depth_le_of_focus (v := v.asBorn) hne hopen.meeting
      (getElem?_skeleton_of hasks.getElem?)

/-- A step that finds nothing left to expand has visited exactly the vertices within the bound. -/
theorem Reached.visited_iff_of_exhausted (hne : config.key lhs ≠ config.key rhs)
    (h : Reached e config lhs rhs x f) {ρ : Type} {e' : Engine ρ α τ π} {elapsed : Nat} {s : ρ}
    (hans : ((Search.exploring x f).step e' elapsed s).answer = .ok (.ended .exhausted)) :
    ∃ y, ((Search.exploring x f).step e' elapsed s).search = .exploring y none ∧
      ∀ v ∈ y.vertices.items, v.visited = true ↔ v.depth ≤ config.maxDepth := by
  rcases (h.orderly hne).halts_or_asks elapsed with
    ⟨ending, y, entries, hhalts⟩ | ⟨y, v, entries, hasks⟩
  · rw [hhalts.step_eq] at hans ⊢
    obtain rfl := Outcome.ended.inj (Except.ok.inj hans)
    obtain ⟨hy, hapart, rfl, z, later, hnext⟩ := h.halts hhalts
    refine ⟨y, rfl, fun v hv ↦ ?_⟩
    obtain ⟨i, hi⟩ := Array.mem_iff_getElem?.mp hv
    obtain rfl := (hy.orderly hne).id_eq hi
    exact hy.visited_iff hne hapart (Frontier.toList_of_next_none (next_eq hnext).1) hi
  · rw [hasks.step_eq] at hans
    obtain ⟨m, hm⟩ := exists_met_of_expand hasks.getElem? hans
    exact absurd hm (by simp)

end Exploration

namespace Search

/-- **No vertex is lost, expanded twice or expanded too deep.** Whatever the engine, the key, the
settings and the goal, the following holds as long as the sides have not met. A vertex within the
depth bound has been visited, is in focus, or waits, and no two of these. What waits is listed once
and has not been touched. No vertex lies more than one level beyond the bound. A step never passes
over a vertex, never asks the engine for a reduct of a vertex beyond the bound, and when it finds
nothing left to expand, exactly the vertices within the bound have been visited. -/
theorem stepped_partition {e : Engine σ α τ π} {config : Config α} {lhs rhs : Term α}
    {x : Exploration α τ π} {focus : Option Nat}
    (h : Stepped e config lhs rhs (.exploring x focus)) (hapart : x.meeting = none) :
    (∀ v ∈ x.vertices.items, v.depth ≤ config.maxDepth → ∃! place, x.StandsAt focus v.id place) ∧
      x.frontier.toList.Nodup ∧ (∀ i ∈ x.frontier.toList, x.Fresh i) ∧
      (∀ v ∈ x.vertices.items, v.depth ≤ config.maxDepth + 1) ∧
      ∀ elapsed s, let reply := (exploring x focus).step e.recorded elapsed (s, [])
        (∀ i, .visitedSkipped i ∉ reply.journal) ∧
        (∀ call ∈ reply.engine.2, call.vertex.depth ≤ config.maxDepth) ∧
        (reply.answer = .ok (.ended .exhausted) → ∃ y, reply.search = .exploring y none ∧
          ∀ v ∈ y.vertices.items, v.visited = true ↔ v.depth ≤ config.maxDepth) := by
  obtain ⟨hne, hx⟩ := h.reached
  have hord := hx.orderly hne
  refine ⟨?_, ?_, fun i hi ↦ hx.fresh hne hi, ?_, fun elapsed s ↦ ⟨?_, ?_, ?_⟩⟩
  · intro v hv hdepth
    obtain ⟨i, hi⟩ := Array.mem_iff_getElem?.mp hv
    obtain rfl := hord.id_eq hi
    exact hx.existsUnique_place hne hapart hi hdepth
  · exact (List.nodup_append.mp hord.nodup).2.1
  · intro v hv
    obtain ⟨i, hi⟩ := Array.mem_iff_getElem?.mp hv
    exact (hx.bounded hne hapart).depth_le (v := v.asBorn)
      (Exploration.getElem?_skeleton_of hi)
  · exact hord.notMem_journal_step e.recorded elapsed (s, [])
  · exact fun call hcall ↦ hx.depth_le_of_call hne elapsed s hcall
  · exact hx.visited_iff_of_exhausted hne

/-- After one step under the bound zero there is a vertex beyond it, and each root stands at one
place. -/
theorem stepped_partition_longWay :
    let first : Search Payload Recipe Evidence :=
      (start { maxDepth := 0 } (.ofText (utf8 "s")) (.ofText (utf8 "g"))).1
    let second := (first.step (.ofRules longWay) 0 {}).search
    ∃ x focus, second = .exploring x focus ∧ x.meeting = none ∧ x.vertices.size = 3 ∧
      (∀ v ∈ x.vertices.items, v.depth ≤ 0 → ∃! place, x.StandsAt focus v.id place) ∧
      ∀ v ∈ x.vertices.items, v.depth ≤ 0 + 1 := by
  intro first second
  have hsecond : Stepped (.ofRules longWay) { maxDepth := 0 } (.ofText (utf8 "s"))
      (.ofText (utf8 "g")) second := Stepped.start.step 0 {}
  obtain ⟨x, focus, hx, -⟩ := hsecond.exists_reached (by decide)
  have hgraph : second.graph?.map (fun x ↦ (x.meeting, x.vertices.size)) = some (none, 3) := by
    decide +kernel
  rw [hx] at hgraph hsecond
  obtain ⟨hapart, hsize⟩ := Prod.mk.inj (Option.some.inj hgraph)
  obtain ⟨hplace, -, -, hdepth, -⟩ := stepped_partition hsecond hapart
  exact ⟨x, focus, hx, hapart, hsize, hplace, hdepth⟩

end Search

end Joinability
