import Joinability.Proofs.Search.Routes
import Joinability.Proofs.Search.Step

/-!
# What is left of a failed proof

The recipe for the proof of an edge may fail, and whoever asked for the proof of the goal gets the
fault instead. By then other recipes have come to an end, and their proofs are kept. So it is no
loss to ask again: only what has failed and what was not reached is attempted, and once nothing
fails the proof of the goal is there, put together from the proofs that were built first.

This holds of every search that has been driven in any way until the sides met (`Search.Driven`): by
steps, and by requests for the proof of the goal or of an edge, whether these succeeded or not. The
recipes may fail and answer as they like, each time they run, as the engine and its state are
arbitrary. Only the combinators must not fail.
-/

namespace Joinability

variable {σ α τ π : Type}

/-! ## Proved edges and the order of a search -/

namespace Edges.Settles

variable {prove : τ → σ → Except Fault π × σ} {s t : Edges τ π × σ} {log : List (Attempt π)}

theorem size_eq (h : Settles prove s log t) : t.1.size = s.1.size := by
  have hnone (j : Nat) : t.1.size ≤ j ↔ s.1.size ≤ j := by
    rw [size, size, ← Array.getElem?_eq_none_iff, ← Array.getElem?_eq_none_iff, h.entry,
      Option.map_eq_none_iff]
  exact Nat.le_antisymm ((hnone _).mpr (Nat.le_refl _)) ((hnone _).mp (Nat.le_refl _))

theorem exists_of_getElem? (h : Settles prove s log t) {j : Nat} {f : Edge τ π}
    (hf : t.1.items[j]? = some f) : ∃ e, s.1.items[j]? = some e ∧ f.toArc = e.toArc := by
  rw [h.entry] at hf
  obtain ⟨e, he, rfl⟩ := Option.map_eq_some_iff.mp hf
  exact ⟨e, he, e.toArc_withProof? _⟩

end Edges.Settles

namespace Exploration

variable {e : Engine σ α τ π} {x y : Exploration α τ π} {focus : Option Nat}

/-- Only the arcs of the edges matter. -/
theorem Orderly.settle (h : x.Orderly focus) {prove : τ → σ → Except Fault π × σ} {s : σ}
    {log : List (Attempt π)} {t : Edges τ π × σ} (ht : Edges.Settles prove (x.edges, s) log t) :
    ({ x with edges := t.1 } : Exploration α τ π).Orderly focus where
  forest :=
    { id_eq := h.forest.id_eq
      edge_id_eq := fun hf ↦ by
        obtain ⟨e, he, harc⟩ := ht.exists_of_getElem? hf
        exact (congrArg Arc.id harc).trans (h.forest.edge_id_eq he)
      root := h.forest.root
      hangs := fun hv hi ↦ by
        obtain ⟨e, p, hp⟩ := h.forest.hangs hv hi
        obtain ⟨f, hf, harc, -⟩ := ht.matures hp.edge
        have hid : f.id = e.id := congrArg Arc.id harc
        refine ⟨f, p, ?_, hp.parent, ?_, ?_, ?_, hp.notRoot, hp.older, hp.side, hp.depth⟩
        · exact hid ▸ hf
        · exact (congrArg Arc.source harc).trans hp.source
        · exact (congrArg Arc.target harc).trans hp.target
        · rw [hid]
          exact hp.parentEdge
      find_iff := h.forest.find_iff
      apart := fun hm ↦ by
        obtain ⟨e, u, w, he, hu, hw, hside⟩ := h.forest.apart hm
        obtain ⟨f, hf, harc, -⟩ := ht.matures he
        exact ⟨f, u, w, hf, by rw [harc]; exact hu, by rw [harc]; exact hw, hside⟩
      depth_le := fun hv ↦ Nat.le_trans (h.forest.depth_le hv) (Nat.le_of_eq ht.size_eq.symm) }
  unvisited := h.unvisited
  nodup := h.nodup
  edges_le := Nat.le_trans (Nat.le_of_eq ht.size_eq) h.edges_le

theorem Orderly.halts (h : x.Orderly focus) {elapsed : Nat} {ending : Ending}
    {entries : List (Entry α)} (hhalts : x.Halts focus elapsed ending y entries) :
    y.Orderly focus := by
  cases hhalts with
  | met _ => exact h
  | spent _ _ => exact h
  | dry _ _ hfocus hnext =>
    subst hfocus
    exact h.dry hnext

theorem Orderly.asks (h : x.Orderly focus) {elapsed : Nat} {v : Vertex α} {entries : List (Entry α)}
    (hasks : x.Asks focus elapsed y v entries) : y.Orderly (some v.id) := by
  cases hasks with
  | kept _ _ hfocus _ =>
    subst hfocus
    exact h
  | taken _ _ hfocus hnext _ _ =>
    subst hfocus
    exact h.take hnext

theorem Orderly.step (h : x.Orderly focus) (elapsed : Nat) (s : σ) :
    ∃ y g, ((Search.exploring x focus).step e elapsed s).search = .exploring y g ∧ y.Orderly g := by
  rcases h.halts_or_asks elapsed with ⟨ending, y, entries, hhalts⟩ | ⟨y, v, entries, hasks⟩
  · rw [hhalts.step_eq]
    exact ⟨y, focus, rfl, h.halts hhalts⟩
  · rw [hasks.step_eq]
    have hy := h.asks hasks
    obtain ⟨z, g, hsearch, hm, -⟩ := hy.exists_move hasks.isOpen hasks.getElem? s
    exact ⟨z, g, hsearch, hy.move hm⟩

/-! ## Asking for the proof of the goal -/

theorem prove_of_buildProof_eq_error {m : Nat} {fault : Fault} {edges : Edges τ π} {s t : σ}
    (h : x.buildProof e m (x.edges, s) = (.error fault, edges, t)) :
    (Search.exploring x focus).prove e m s =
      { answer := .error fault, search := .exploring { x with edges } focus, engine := t } := by
  rw [Search.prove, h]

theorem prove_of_buildProof_eq_ok {m : Nat} {p : π} {left right : ProofUnit π} {edges : Edges τ π}
    {s t : σ} (h : x.buildProof e m (x.edges, s) = (.ok (p, left, right), edges, t)) :
    (Search.exploring x focus).prove e m s =
      { answer := .ok (.proved p [left, right] x.stats),
        search := .exploring { x with edges } focus, engine := t
        journal := [.proofBuilt left.steps.length right.steps.length] } := by
  rw [Search.prove, h]

theorem prove_of_route_eq_error {m : Nat} {fault : Fault} (h : x.route m = .error fault) (s : σ) :
    (Search.exploring x focus).prove e m s =
      { answer := .error fault, search := .exploring x focus, engine := s } := by
  apply prove_of_buildProof_eq_error
  rw [buildProof_eq, h]
  rfl

/-- **Along a route, building attempts the proofs that are missing**, up to the first that fails,
and fails as this one does. If none fails, there is a result, which is the result in every later
table, whatever recipes do by then. -/
theorem exists_settles_of_route (he : e.Combines) (hx : x.skeleton.IsForest) {m : Nat} {r : Route}
    (hr : x.route m = .ok r) (focus : Option Nat) (s : σ) :
    let reply := (Search.exploring x focus).prove e m s
    ∃ log edges, reply.search = .exploring { x with edges } focus ∧
      Edges.Settles e.prove (x.edges, s) log (edges, reply.engine) ∧
      (∀ a ∈ log.dropLast, ∃ p, a.answer = .ok p) ∧
      (∀ fault, reply.answer = .error fault ↔ ∃ a ∈ log, a.answer = .error fault) ∧
      ((∀ a ∈ log, ∃ p, a.answer = .ok p) → ∃ result, reply.answer = .ok result ∧
        ∀ later, edges.Matures later → ∀ prove' u,
          ((Search.exploring { x with edges := later } focus).prove (e.proving prove') m u).answer =
            .ok result) := by
  intro reply
  have hrelies := relies_along he hx hr
  have hsettles := Edges.settles_forceAll e.prove r.edges (x.edges, s)
  have hfails := Edges.exists_forceAll_eq_error_iff e.prove r.edges (x.edges, s)
  have hlast := Edges.exists_ok_of_mem_dropLast e.prove r.edges (x.edges, s)
  have hbuild (prove : τ → σ → Except Fault π × σ) {later : Edges τ π}
      (hlater : x.edges.Matures later) (u : σ) :
      ({ x with edges := later } : Exploration α τ π).buildProof (e.proving prove) m (later, u) =
        buildAlong (e.proving prove) x.vertices r (later, u) := by
    rw [buildProof_eq, route_of_matures hlater hr]
    rfl
  rcases hforce : Edges.forceAll e.prove r.edges (x.edges, s) with ⟨log, _ | _, edges, t⟩
  · rw [hforce] at hsettles hlast hfails
    have hreply : reply = _ :=
      prove_of_buildProof_eq_error ((hbuild _ (.refl _) s).trans (hrelies.fails (.refl _) hforce))
    rw [hreply]
    refine ⟨log, edges, rfl, hsettles, hlast, fun fault ↦ .trans ?_ (hfails fault).symm,
      fun hall ↦ ?_⟩
    · rw [Except.error.injEq, Except.error.injEq]
    obtain ⟨a, ha, hfail⟩ := (hfails _).mpr rfl
    obtain ⟨p, hp⟩ := hall a ha
    exact absurd (hfail.symm.trans hp) (by simp)
  · rw [hforce] at hsettles hlast hfails
    obtain ⟨⟨p, left, right⟩, -, hrun, hagain⟩ := hrelies.gives (.refl _) hforce
    have hreply : reply = _ := prove_of_buildProof_eq_ok ((hbuild _ (.refl _) s).trans hrun)
    rw [hreply]
    refine ⟨log, edges, rfl, hsettles, hlast, fun fault ↦ .trans ?_ (hfails fault).symm,
      fun _ ↦ ⟨_, rfl, fun later hlater prove' u ↦ ?_⟩⟩
    · exact iff_of_false (by simp) (by simp)
    rw [prove_of_buildProof_eq_ok
      ((hbuild prove' (hsettles.matures.trans hlater) u).trans (hagain prove' (later, u) hlater))]

end Exploration

/-! ## Any number of requests -/

/-- A request for a proof. -/
inductive Request where
  /-- The proof of the goal, over an edge. -/
  | goal (meeting : Nat)
  /-- The proof of an edge. -/
  | edge (id : Nat)
deriving DecidableEq, Repr

namespace Search

/-- The search and the state of the engine after a request, whether there was a proof or not. -/
def grant (e : Engine σ α τ π) (search : Search α τ π) (s : σ) : Request → Search α τ π × σ
  | .goal m => ((search.prove e m s).search, (search.prove e m s).engine)
  | .edge id =>
    match search with
    | exploring x focus =>
      let (_, edges, s) := x.edges.force e.prove id s
      (exploring { x with edges } focus, s)
    | search => (search, s)

/-- The search and the state of the engine after a number of requests. -/
def grantAll (e : Engine σ α τ π) (rs : List Request) (search : Search α τ π) (s : σ) :
    Search α τ π × σ :=
  rs.foldl (fun now r ↦ grant e now.1 now.2 r) (search, s)

/-- What a search comes to when it is driven in any way: it starts, and then there are steps and
requests for proofs in any order. Each of them may find any time elapsed and the engine in any
state. -/
inductive Driven (e : Engine σ α τ π) (config : Config α) (lhs rhs : Term α) : Search α τ π → Prop
  | start : Driven e config lhs rhs (start config lhs rhs).1
  | step {search : Search α τ π} (h : Driven e config lhs rhs search) (elapsed : Nat) (s : σ) :
      Driven e config lhs rhs (search.step e elapsed s).search
  | grant {search : Search α τ π} (h : Driven e config lhs rhs search) (s : σ) (r : Request) :
      Driven e config lhs rhs (search.grant e s r).1

variable {e : Engine σ α τ π} {config : Config α} {lhs rhs : Term α} {x : Exploration α τ π}
  {focus : Option Nat}

theorem exists_settles_grant (he : e.Combines) (hx : x.skeleton.IsForest) (focus : Option Nat)
    (r : Request) (s : σ) :
    ∃ log t, grant e (exploring x focus) s r = (exploring { x with edges := t.1 } focus, t.2) ∧
      Edges.Settles e.prove (x.edges, s) log t := by
  cases r with
  | edge id => exact ⟨_, _, rfl, Edges.settles_force e.prove id (x.edges, s)⟩
  | goal m =>
    rw [grant]
    cases hr : x.route m with
    | error fault =>
      rw [Exploration.prove_of_route_eq_error hr]
      exact ⟨[], _, rfl, .refl e.prove (x.edges, s)⟩
    | ok r =>
      obtain ⟨log, edges, hsearch, hsettles, -⟩ :=
        Exploration.exists_settles_of_route he hx hr focus s
      rw [hsearch]
      exact ⟨log, _, rfl, hsettles⟩

/-- **Requests only settle edges.** -/
theorem exists_settles_grantAll (he : e.Combines) (hx : x.Orderly focus) (rs : List Request)
    (s : σ) :
    ∃ log t, grantAll e rs (exploring x focus) s = (exploring { x with edges := t.1 } focus, t.2) ∧
      Edges.Settles e.prove (x.edges, s) log t := by
  induction rs generalizing x s with
  | nil => exact ⟨[], _, rfl, .refl e.prove (x.edges, s)⟩
  | cons r rs ih =>
    obtain ⟨log, t, hgrant, ht⟩ := exists_settles_grant he hx.forest focus r s
    obtain ⟨more, u, hall, hu⟩ := ih (hx.settle ht) t.2
    refine ⟨log ++ more, u, ?_, ht.trans hu⟩
    rw [grantAll, List.foldl_cons, hgrant]
    exact hall

theorem Driven.agreed_or_orderly (he : e.Combines) {search : Search α τ π}
    (h : Driven e config lhs rhs search) :
    search = .agreed lhs ∨ ∃ x focus, search = .exploring x focus ∧ x.Orderly focus := by
  induction h with
  | start =>
    by_cases hkey : config.key lhs = config.key rhs
    · exact .inl (by rw [Search.start, if_pos hkey])
    · exact .inr ⟨_, _, Exploration.start_of_key_ne hkey, .rooted hkey⟩
  | step _ elapsed s ih =>
    rcases ih with rfl | ⟨x, focus, rfl, hx⟩
    · exact .inl rfl
    · exact .inr (hx.step elapsed s)
  | grant _ s r ih =>
    rcases ih with rfl | ⟨x, focus, rfl, hx⟩
    · refine .inl ?_
      cases r with
      | edge id => rfl
      | goal m =>
        rw [Search.grant, prove]
        split <;> rfl
    · obtain ⟨log, t, hgrant, ht⟩ := exists_settles_grant he hx.forest focus r s
      exact .inr ⟨_, focus, congrArg Prod.fst hgrant, hx.settle ht⟩

theorem Driven.orderly (he : e.Combines) (h : Driven e config lhs rhs (.exploring x focus)) :
    x.Orderly focus := by
  rcases h.agreed_or_orderly he with hagreed | ⟨_, _, ⟨⟩, hx⟩
  · exact absurd hagreed (by simp)
  · exact hx

/-- **No proof that was built is lost when another fails.** Take any search that has been driven
until the sides met, and then any requests. All that these have done is to settle edges. When the
proof of the goal is asked for once more, this settles edges as well: those whose recipes come to an
end keep the first proof, and nothing else changes, nor is a recipe followed again that has come to
an end before. The first that fails is the last that is followed, and the request fails with the
same fault. If none fails, there is a result. It has been built from the proofs that are kept, so it
is the result wherever these are, whatever recipes do by then. -/
theorem prove_salvages (he : e.Combines) (h : Driven e config lhs rhs (exploring x focus)) {m : Nat}
    (hm : x.meeting = some m) (rs : List Request) (s : σ) :
    ∃ past es t, grantAll e rs (exploring x focus) s = (exploring { x with edges := es } focus, t) ∧
      Edges.Settles e.prove (x.edges, s) past (es, t) ∧
      let reply := (exploring { x with edges := es } focus).prove e m t
      ∃ log edges, reply.search = exploring { x with edges } focus ∧
        Edges.Settles e.prove (es, t) log (edges, reply.engine) ∧
        Edges.Settles e.prove (x.edges, s) (past ++ log) (edges, reply.engine) ∧
        (∀ a ∈ log.dropLast, ∃ p, a.answer = .ok p) ∧
        (∀ fault, reply.answer = .error fault ↔ ∃ a ∈ log, a.answer = .error fault) ∧
        ((∀ a ∈ log, ∃ p, a.answer = .ok p) → ∃ result, reply.answer = .ok result ∧
          ∀ later, edges.Matures later → ∀ prove' u,
            ((exploring { x with edges := later } focus).prove (e.proving prove') m u).answer =
              .ok result) := by
  have hx := h.orderly he
  obtain ⟨past, ⟨es, t⟩, hall, hpast⟩ := exists_settles_grantAll he hx rs s
  have hforest := (hx.settle hpast).forest
  obtain ⟨r, hr⟩ := Exploration.exists_route hforest hm
  obtain ⟨log, edges, hsearch, hlog, hlast, hfails, hgives⟩ :=
    Exploration.exists_settles_of_route he hforest hr focus t
  exact ⟨past, es, t, hall, hpast, log, edges, hsearch, hlog, hpast.trans hlog, hlast, hfails,
    hgives⟩

/-- An engine for which `a` turns into `c` and `c` into `b`. A proof lists the recipes that went
into it. The second recipe that is followed fails, whichever it is. -/
def faltering : Engine Nat Unit Nat (List Nat) where
  tryNext v cursor s :=
    let reduct (t : Text) (recipe : Nat) : Reduct Unit Nat :=
      { term := { pretty := t }, next := 1, recipe := some recipe, use := {} }
    (.ok (if cursor ≠ 0 then none
      else if v.pretty = utf8 "a" then some (reduct (utf8 "c") 0)
      else if v.pretty = utf8 "c" then some (reduct (utf8 "b") 1) else none), s)
  prove recipe s := (if s = 1 then .error (.engineFailed (utf8 "busy")) else .ok [recipe], s + 1)
  reflexivity _ := .ok []
  symmetry p := .ok p.reverse
  transitivity p q := .ok (p ++ q)

theorem faltering_combines : faltering.Combines :=
  ⟨fun _ ↦ ⟨_, rfl⟩, fun _ ↦ ⟨_, rfl⟩, fun _ _ ↦ ⟨_, rfl⟩⟩

/-- Between `a` and `b` the first request for the proof fails and keeps the proof of the first edge.
The second request follows the other recipe only, and succeeds. -/
theorem prove_salvages_faltering :
    let step (search : Search Unit Nat (List Nat)) := (search.step faltering 0 0).search
    let search :=
      step (step (step (step (start {} { pretty := utf8 "a" } { pretty := utf8 "b" }).1)))
    ∃ x focus es past, search = exploring x focus ∧ x.meeting = some 1 ∧
      grantAll faltering [.goal 1] search 0 = (exploring { x with edges := es } focus, 2) ∧
      Edges.Settles faltering.prove (x.edges, 0) past (es, 2) ∧
      es.isForced 0 = true ∧ es.isForced 1 = false ∧
      let reply := (exploring { x with edges := es } focus).prove faltering 1 2
      ∃ log edges result, reply.search = exploring { x with edges } focus ∧ reply.engine = 3 ∧
        Edges.Settles faltering.prove (x.edges, 0) (past ++ log) (edges, 3) ∧
        edges.isForced 1 = true ∧ reply.answer = .ok result ∧ result.proof? = some [0, 1] := by
  intro step search
  have hdriven : Driven faltering {} { pretty := utf8 "a" } { pretty := utf8 "b" } search :=
    (((Driven.start.step 0 0).step 0 0).step 0 0).step 0 0
  have hmeet : search.graph?.map (·.meeting) = some (some 1) := by decide +kernel
  have hfirst : (grantAll faltering [.goal 1] search 0).2 = 2 ∧
      (grantAll faltering [.goal 1] search 0).1.graph?.map
        (fun y ↦ (y.edges.isForced 0, y.edges.isForced 1))
        = some (true, false) := by decide +kernel
  have hsecond :
      let reply := (grantAll faltering [.goal 1] search 0).1.prove faltering 1 2
      reply.engine = 3 ∧ reply.search.graph?.map (·.edges.isForced 1) = some true ∧
        reply.answer.map (·.proof?) = .ok (some [0, 1]) := by decide +kernel
  obtain ⟨x, focus, hsearch⟩ : ∃ x focus, search = exploring x focus := by
    rcases hsearch : search with _ | _ | ⟨x, focus⟩
    · rw [hsearch] at hmeet
      cases hmeet
    · rw [hsearch] at hmeet
      cases hmeet
    · exact ⟨x, focus, rfl⟩
  rw [hsearch] at hdriven hmeet hfirst hsecond ⊢
  obtain ⟨past, es, t, hall, hpast, log, edges, hreply, -, hboth, -, hfails, hgives⟩ :=
    prove_salvages faltering_combines hdriven (Option.some.inj hmeet) [.goal 1] 0
  rw [hall] at hfirst hsecond
  obtain ⟨rfl, hkept⟩ := hfirst
  obtain ⟨hforced, hmissing⟩ := Prod.mk.inj (Option.some.inj hkept)
  obtain ⟨hengine, hready, hproof⟩ := hsecond
  rw [hreply] at hready
  rw [hengine] at hboth
  refine ⟨x, focus, es, past, rfl, Option.some.inj hmeet, hall, hpast, hforced, hmissing, ?_⟩
  -- the second answer is no fault, so no attempt has failed
  obtain ⟨result, hresult, -⟩ := hgives fun a ha ↦ by
    rcases ha' : a.answer with fault | p
    · have hfault := (hfails fault).mpr ⟨a, ha, ha'⟩
      rw [hfault] at hproof
      cases hproof
    · exact ⟨p, rfl⟩
  rw [hresult] at hproof
  exact ⟨log, edges, result, hreply, hengine, hboth, Option.some.inj hready, hresult,
    Except.ok.inj hproof⟩

end Search

end Joinability
