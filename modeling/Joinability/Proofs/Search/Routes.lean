import Joinability.Proofs.Limits.Returns
import Joinability.Proofs.Search.Again
import Joinability.Proofs.Search.Attempts

/-!
# Building along a route

Which edges a proof goes over does not depend on the proofs that have been built.
`Exploration.route` looks the edges up, and `buildProof_eq` says that building begins with that.
What comes then forces the proofs of these edges, one after the other, and puts them together in
between.

For an engine whose combinators never fail, the putting together cannot go wrong. So building relies
on the proofs of the edges on the route and on nothing else (`BuildM.Relies`): it fails as the first
of them fails, and when they are all there, the answer is settled.
-/

namespace Joinability

variable {σ α τ π : Type}

/-- The engine with another way of following recipes. -/
def Engine.proving (e : Engine σ α τ π) (prove : τ → σ → Except Fault π × σ) : Engine σ α τ π :=
  { e with prove }

/-! ## What building relies on -/

namespace BuildM

variable {ρ ρ' : Type} {es : Edges τ π} {ids jds : List Nat}

/-- Building forces the proofs of the edges `ids`, in this order, and fails as the first of them
fails. If all of them can be had, there is an answer, which has the property `post`. It is the
answer again in every later table, whatever recipes do by then. -/
structure Relies (es : Edges τ π) (ids : List Nat)
    (m : (τ → σ → Except Fault π × σ) → BuildM σ τ π ρ) (post : ρ → Prop) : Prop where
  fails {prove : τ → σ → Except Fault π × σ} {s t : Edges τ π × σ} {log : List (Attempt π)}
    {fault : Fault}
    (hs : es.Matures s.1) (h : Edges.forceAll prove ids s = (log, .error fault, t)) :
    m prove s = (.error fault, t)
  gives {prove : τ → σ → Except Fault π × σ} {s t : Edges τ π × σ} {log : List (Attempt π)}
    (hs : es.Matures s.1) (h : Edges.forceAll prove ids s = (log, .ok (), t)) :
    ∃ a, post a ∧ m prove s = (.ok a, t) ∧
      ∀ prove' (u : Edges τ π × σ), t.1.Matures u.1 → m prove' u = (.ok a, u)

theorem relies_ofExcept {answer : Except Fault ρ} {a : ρ} {post : ρ → Prop} (ha : answer = .ok a)
    (hpost : post a) : Relies es [] (fun _ ↦ (ofExcept answer : BuildM σ τ π ρ)) post where
  fails _ h := absurd (congrArg (·.2.1) h) (by simp [Edges.forceAll])
  gives _ h := by
    obtain rfl : _ = _ := congrArg (·.2.2) h
    subst ha
    exact ⟨a, hpost, rfl, fun _ _ _ ↦ rfl⟩

theorem Relies.bind {m : (τ → σ → Except Fault π × σ) → BuildM σ τ π ρ'}
    {f : ρ' → (τ → σ → Except Fault π × σ) → BuildM σ τ π ρ} {mid : ρ' → Prop} {post : ρ → Prop}
    (hm : Relies es ids m mid) (hf : ∀ a, mid a → Relies es jds (f a) post) :
    Relies es (ids ++ jds) (fun prove ↦ m prove >>= fun a ↦ f a prove) post where
  fails hs h := by
    rcases Edges.forceAll_append h with ⟨_, _, hids, ⟨⟩⟩ | ⟨_, u, _, hids, hjds⟩
    · exact run_bind_of_error (hm.fails hs hids)
    · obtain ⟨a, ha, hrun, -⟩ := hm.gives hs hids
      rw [run_bind_of_ok hrun]
      exact (hf a ha).fails (hs.trans (Edges.matures_forceAll hids)) hjds
  gives hs h := by
    rcases Edges.forceAll_append h with ⟨_, _, _, ⟨⟩⟩ | ⟨_, u, _, hids, hjds⟩
    obtain ⟨a, ha, hrun, hagain⟩ := hm.gives hs hids
    obtain ⟨b, hb, hrest, hrepeat⟩ := (hf a ha).gives (hs.trans (Edges.matures_forceAll hids)) hjds
    refine ⟨b, hb, ?_, fun prove' v hv ↦ ?_⟩
    · rw [run_bind_of_ok hrun, hrest]
    · rw [run_bind_of_ok (hagain prove' v ((Edges.matures_forceAll hjds).trans hv)),
        hrepeat prove' v hv]

theorem relies_ofExcept_bind {answer : Except Fault ρ'} {a : ρ'}
    {f : ρ' → (τ → σ → Except Fault π × σ) → BuildM σ τ π ρ} {post : ρ → Prop} (ha : answer = .ok a)
    (h : Relies es ids (f a) post) :
    Relies es ids (fun prove ↦ ofExcept answer >>= fun a ↦ f a prove) post := by
  subst ha
  exact h

end BuildM

namespace Exploration

variable {e : Engine σ α τ π} {x : Exploration α τ π}

/-! ## Walking -/

/-- Crossing an edge from its source to its target. -/
theorem relies_cross (he : e.Combines) {w : Walk π} {arc : Edge τ π} {u v : Vertex α}
    (hw : w.cursor = u.id) (harc : x.skeleton.edges[arc.id]? = some arc)
    (hu : x.skeleton.vertices[u.id]? = some u)
    (hv : x.skeleton.vertices[v.id]? = some v) (hsource : arc.source = u.id)
    (htarget : arc.target = v.id) :
    BuildM.Relies x.edges [arc.id] (fun prove ↦ w.cross (e.proving prove) x.vertices arc.id)
      (·.cursor = v.id) := by
  rw [← hw] at hu hsource
  have hother : arc.otherEnd? w.cursor = some v.id := by
    rw [Arc.otherEnd?, if_pos hsource, htarget]
  have hcross (prove : τ → σ → Except Fault π × σ) {s : Edges τ π × σ} (hs : x.edges.Matures s.1) :
      w.cross (e.proving prove) x.vertices arc.id s =
        (BuildM.proofOf (e.proving prove) arc.id >>= fun forced ↦
        BuildM.ofExcept (w.last e x.vertices arc.toArc arc.id v.id forced)) s := by
    obtain ⟨arc', harc', hsame, -⟩ := hs harc
    rw [Walk.cross_eq, run_bind_of_ok (BuildM.edge_eq_ok_iff.mpr ⟨harc', rfl⟩), hsame, hother]
    simp only [if_pos hsource]
    rfl
  have hproof (prove : τ → σ → Except Fault π × σ) (s : Edges τ π × σ) :
      (BuildM.proofOf (e.proving prove) arc.id : BuildM σ τ π π) s = s.1.force prove arc.id s.2 :=
        rfl
  constructor
  · intro prove s t log fault hs h
    rw [hcross prove hs]
    rw [Edges.forceAll_singleton] at h
    rcases hforce : s.1.force prove arc.id s.2 with ⟨fault' | p, t'⟩
    · rw [hforce] at h
      obtain ⟨rfl, ⟨⟩, rfl⟩ := h
      exact run_bind_of_error ((hproof prove s).trans hforce)
    · rw [hforce] at h
      exact absurd (congrArg (·.2.1) h) (by simp [Except.map])
  · intro prove s t log hs h
    rw [hcross prove hs]
    rw [Edges.forceAll_singleton] at h
    rcases hforce : s.1.force prove arc.id s.2 with ⟨fault | p, t'⟩
    · rw [hforce] at h
      exact absurd (congrArg (·.2.1) h) (by simp [Except.map])
    · rw [hforce] at h
      obtain ⟨rfl, -, rfl⟩ := h
      obtain ⟨w', hlast, hw'⟩ := exists_last he arc.toArc arc.id hu hv p
      refine ⟨w', hw', ?_, fun prove' a ha ↦ ?_⟩
      · rw [run_bind_of_ok ((hproof prove s).trans hforce), hlast]
        rfl
      · have hagain : a.1.force prove' arc.id a.2 = _ := Edges.force_again hforce ha a.2
        rw [hcross prove' (hs.trans ((Edges.matures_of_force hforce).trans ha)),
          run_bind_of_ok ((hproof prove' a).trans hagain), hlast]
        rfl

theorem relies_walk_snoc (he : e.Combines) {start : Walk π} {path : List Nat} {arc : Edge τ π}
    {u v : Vertex α}
    (hwalk : BuildM.Relies x.edges path
      (fun prove ↦ path.foldlM (Walk.cross (e.proving prove) x.vertices) start)
      (·.cursor = u.id))
    (harc : x.skeleton.edges[arc.id]? = some arc) (hu : x.skeleton.vertices[u.id]? = some u)
    (hv : x.skeleton.vertices[v.id]? = some v) (hsource : arc.source = u.id)
    (htarget : arc.target = v.id) :
    BuildM.Relies x.edges (path ++ [arc.id])
      (fun prove ↦ (path ++ [arc.id]).foldlM (Walk.cross (e.proving prove) x.vertices) start)
      (·.cursor = v.id) := by
  simp only [List.foldlM_append, List.foldlM_cons, List.foldlM_nil, bind_pure]
  exact hwalk.bind fun w hw ↦ relies_cross he hw harc hu hv hsource htarget

theorem relies_walk (he : e.Combines) (hx : x.skeleton.IsForest) {v : Vertex α} {path : List Nat}
    (hpath : x.skeleton.Trail v path) :
    BuildM.Relies x.edges path (fun prove ↦ path.foldlM (Walk.cross (e.proving prove) x.vertices)
      { cursor := v.side.root }) (·.cursor = v.id) := by
  induction hpath with
  | @root v hv hroot => exact BuildM.relies_ofExcept rfl ((hx.isRoot_iff hv).mp hroot).symm
  | @child arc p v path _ hv h ih =>
    rw [← h.side]
    exact relies_walk_snoc he ih h.edge h.parent hv h.source h.target

/-- The unit of a side, when walking its path ends at a vertex of the graph. -/
theorem relies_unit (he : e.Combines) (side : Side) {path : List Nat} {v : Vertex α}
    (hv : x.skeleton.vertices[v.id]? = some v)
    (hwalk : BuildM.Relies x.edges path
      (fun prove ↦ path.foldlM (Walk.cross (e.proving prove) x.vertices)
      { cursor := side.root }) (·.cursor = v.id)) :
    BuildM.Relies x.edges path
      (fun prove ↦ buildUnit (e.proving prove) x.vertices side path) fun _ ↦ True := by
  have hunit : BuildM.Relies x.edges (path ++ [])
      (fun prove ↦ buildUnit (e.proving prove) x.vertices side path) fun _ ↦ True := by
    refine hwalk.bind fun w hw ↦ ?_
    cases w.proof with
    | some p => exact BuildM.relies_ofExcept_bind rfl (BuildM.relies_ofExcept rfl trivial)
    | none =>
      obtain ⟨v', hget, -⟩ := exists_get_of_skeleton hv
      obtain ⟨p, hp⟩ := he.reflexivity v'.term
      rw [hw, hget]
      exact BuildM.relies_ofExcept_bind rfl
        (BuildM.relies_ofExcept_bind hp (BuildM.relies_ofExcept rfl trivial))
  rwa [List.append_nil] at hunit

/-! ## Routes -/

end Exploration

/-- The edges over which a proof goes, from the roots of the two sides on. The edge for which the
proof is built comes last on the near side. -/
structure Route where
  /-- The side on which the edge starts. -/
  nearSide : Side
  /-- The edges on this side. -/
  near : List Nat
  /-- The other side. -/
  farSide : Side
  /-- The edges on the other side. -/
  far : List Nat

/-- All edges of a route, in the order in which their proofs are forced. -/
def Route.edges (r : Route) : List Nat := r.near ++ r.far

/-- The route of the proof over an edge. -/
def Exploration.route (x : Exploration α τ π) (m : Nat) : Except Fault Route := do
  let arc ← x.edges.get m
  let source ← x.vertices.get arc.source
  let target ← x.vertices.get arc.target
  if source.side = target.side then
    throw (.edgeWithinSide m)
  let sourcePath ← pathFromRoot x.vertices x.edges source.id
  let targetPath ← pathFromRoot x.vertices x.edges target.id
  return {
    nearSide := source.side, near := sourcePath ++ [arc.id],
    farSide := target.side, far := targetPath }

/-- The proof along a route. -/
def buildAlong (e : Engine σ α τ π) (vs : Vertices α) (r : Route) :
    BuildM σ τ π (π × ProofUnit π × ProofUnit π) := do
  let near ← buildUnit e vs r.nearSide r.near
  let far ← buildUnit e vs r.farSide r.far
  let (left, right) :=
    match r.nearSide with
    | .left => (near, far)
    | .right => (far, near)
  let proof ← .ofExcept (joinUnits e left right)
  return (proof, left, right)

namespace Exploration

variable {e : Engine σ α τ π} {x : Exploration α τ π}

/-- **Building looks up the route first**, and goes along it without another look at the graph. -/
theorem buildProof_eq (e : Engine σ α τ π) (x : Exploration α τ π) (m : Nat) :
    x.buildProof e m = BuildM.ofExcept (x.route m) >>= buildAlong e x.vertices := by
  have hbind {ρ ρ' : Type} (answer : Except Fault ρ') (f : ρ' → Except Fault ρ) :
      (BuildM.ofExcept (answer >>= f) : BuildM σ τ π ρ) =
        BuildM.ofExcept answer >>= fun a ↦ BuildM.ofExcept (f a) := by
    cases answer <;> rfl
  rw [buildProof, route, hbind, bind_assoc]
  refine bind_congr fun arc ↦ ?_
  rw [hbind, bind_assoc]
  refine bind_congr fun source ↦ ?_
  rw [hbind, bind_assoc]
  refine bind_congr fun target ↦ ?_
  by_cases hside : source.side = target.side
  · rw [if_pos hside, if_pos hside]
    rfl
  rw [if_neg hside, if_neg hside, hbind, bind_assoc]
  refine bind_congr fun sourcePath ↦ ?_
  rw [hbind, bind_assoc]
  refine bind_congr fun targetPath ↦ ?_
  rfl

theorem route_eq_ok_iff {m : Nat} {r : Route} :
    x.route m = .ok r ↔
      ∃ (arc : Edge τ π) (u v : Vertex α) (upath vpath : List Nat), x.edges.get m = .ok arc ∧
        x.vertices.get arc.source = .ok u ∧ x.vertices.get arc.target = .ok v ∧ u.side ≠ v.side ∧
        pathFromRoot x.vertices x.edges u.id = .ok upath ∧
        pathFromRoot x.vertices x.edges v.id = .ok vpath ∧
        r = { nearSide := u.side, near := upath ++ [arc.id], farSide := v.side, far := vpath } := by
  rw [route]
  simp only [bind_eq_ok_iff]
  constructor
  · rintro ⟨arc, harc, u, hu, v, hv, h⟩
    by_cases hside : u.side = v.side
    · rw [if_pos hside] at h
      cases h
    · rw [if_neg hside] at h
      obtain ⟨upath, hupath, h⟩ := bind_eq_ok_iff.mp h
      obtain ⟨vpath, hvpath, h⟩ := bind_eq_ok_iff.mp h
      exact ⟨arc, u, v, upath, vpath, harc, hu, hv, hside, hupath, hvpath, (Except.ok.inj h).symm⟩
  · rintro ⟨arc, u, v, upath, vpath, harc, hu, hv, hside, hupath, hvpath, rfl⟩
    refine ⟨arc, harc, u, hu, v, hv, ?_⟩
    rw [if_neg hside]
    exact bind_eq_ok_iff.mpr ⟨upath, hupath, bind_eq_ok_iff.mpr ⟨vpath, hvpath, rfl⟩⟩

theorem route_of_matures {fs : Edges τ π} (hfs : x.edges.Matures fs) {m : Nat} {r : Route}
    (h : x.route m = .ok r) : ({ x with edges := fs } : Exploration α τ π).route m = .ok r := by
  obtain ⟨arc, u, v, upath, vpath, harc, hu, hv, hside, hupath, hvpath, rfl⟩ := route_eq_ok_iff.mp h
  obtain ⟨arc', harc', hsame⟩ := hfs.get harc
  exact route_eq_ok_iff.mpr ⟨arc', u, v, upath, vpath, harc', by rwa [hsame], by rwa [hsame], hside,
    pathFromRoot_of_matures hfs hupath, pathFromRoot_of_matures hfs hvpath, by rw [hsame]⟩

/-- There is a route over the edge at which the sides meet. -/
theorem exists_route (hx : x.skeleton.IsForest) {m : Nat} (hm : x.meeting = some m) :
    ∃ r, x.route m = .ok r := by
  obtain ⟨arc, u, w, harc, hu, hw, hside⟩ := hx.apart hm
  obtain ⟨upath, hupath⟩ := hx.exists_trail hu
  obtain ⟨wpath, hwpath⟩ := hx.exists_trail hw
  obtain ⟨u', hgetu, hsideu, hpathu⟩ := exists_get_pathFromRoot hx hupath
  obtain ⟨w', hgetw, hsidew, hpathw⟩ := exists_get_pathFromRoot hx hwpath
  rw [hx.id_eq hu] at hgetu
  rw [hx.id_eq hw] at hgetw
  refine ⟨_, route_eq_ok_iff.mpr
    ⟨arc, u', w', upath, wpath, Edges.get_eq_ok_iff.mpr harc, hgetu, hgetw, ?_, hpathu, hpathw,
      rfl⟩⟩
  rw [hsideu, hsidew]
  exact hside.symm

theorem trail_of_get (hx : x.skeleton.IsForest) {i : Nat} {u : Vertex α}
    (hu : x.vertices.get i = .ok u) {path : List Nat}
    (hpath : pathFromRoot x.vertices x.edges u.id = .ok path) :
    u.id = i ∧ x.skeleton.Trail u.asBorn path := by
  have hborn : x.skeleton.vertices[i]? = some u.asBorn :=
    getElem?_skeleton_of (Vertices.get_eq_ok_iff.mp hu)
  obtain ⟨path', htrail⟩ := hx.exists_trail hborn
  have hpath' := pathFromRoot_eq hx htrail
  rw [Vertex.id_asBorn, hpath] at hpath'
  obtain rfl := Except.ok.inj hpath'
  have hid : u.asBorn.id = i := hx.id_eq hborn
  exact ⟨hid, htrail⟩

/-- **Building along a route relies on the proofs of its edges.** -/
theorem relies_along (he : e.Combines) (hx : x.skeleton.IsForest) {m : Nat} {r : Route}
    (h : x.route m = .ok r) :
    BuildM.Relies x.edges r.edges (fun prove ↦ buildAlong (e.proving prove) x.vertices r) fun _ ↦
      True := by
  obtain ⟨arc, u, v, upath, vpath, hget, hu, hv, -, hupath, hvpath, rfl⟩ := route_eq_ok_iff.mp h
  obtain ⟨hidu, hutrail⟩ := trail_of_get hx hu hupath
  obtain ⟨hidv, hvtrail⟩ := trail_of_get hx hv hvpath
  have harc : x.skeleton.edges[arc.id]? = some arc := by
    have harc : x.skeleton.edges[m]? = some arc := Edges.get_eq_ok_iff.mp hget
    rwa [hx.edge_id_eq harc]
  have huwalk := relies_walk he hx hutrail
  have hnear := relies_unit he u.asBorn.side hvtrail.vertex
    (relies_walk_snoc he huwalk harc hutrail.vertex hvtrail.vertex hidu.symm hidv.symm)
  have hfar := relies_unit he v.asBorn.side hvtrail.vertex (relies_walk he hx hvtrail)
  have hunits : BuildM.Relies x.edges ((upath ++ [arc.id]) ++ (vpath ++ []))
      (fun prove ↦ buildAlong (e.proving prove) x.vertices
        { nearSide := u.side, near := upath ++ [arc.id], farSide := v.side, far := vpath }) fun _ ↦
          True := by
    refine hnear.bind fun near _ ↦ hfar.bind fun far _ ↦ ?_
    -- the meeting edge may have been found from either side
    cases u.side with
    | left =>
      obtain ⟨p, hp⟩ := exists_joinUnits he near far
      exact BuildM.relies_ofExcept_bind hp (BuildM.relies_ofExcept rfl trivial)
    | right =>
      obtain ⟨p, hp⟩ := exists_joinUnits he far near
      exact BuildM.relies_ofExcept_bind hp (BuildM.relies_ofExcept rfl trivial)
  rwa [List.append_nil] at hunits

end Exploration

end Joinability
