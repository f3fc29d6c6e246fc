import Joinability.Proofs.Search.Again
import Joinability.Proofs.Search.Conclude

/-!
# Proofs are built for the path only

A search with rules reports reducts without proving anything: the engine is left as it was, and
every edge waits for its proof with a recipe. Only a search that succeeds forces proofs, in the end,
and then those of the edges on the way from one root over the meeting edge to the other. No edge is
crossed twice on this way, because the two trails lie in different trees and the meeting edge is the
parent edge of no vertex. So as many proofs are built as the proof has steps:
**`Search.solve_lazy`**.
-/

namespace Joinability

variable {σ α τ π : Type}

/-! ## The tally of the engine -/

section Rules

variable {rules : List Rule}

/-- Where every edge waits with the recipe for a step by a rule, forcing adds one to the tally for
each edge. -/
theorem Edges.Forces.tally_eq {ids : List Nat} {s t : Edges Recipe Evidence × Tally}
    (h : Forces Recipe.run ids s t) (hnodup : ids.Nodup)
    (hpending : ∀ ⦃j : Nat⦄ ⦃e : Edge Recipe Evidence⦄, s.1.items[j]? = some e →
      ∃ before after use, e.proof = .pending (.byRule before after use)) :
    t.2 = { s.2 with byRule := s.2.byRule + ids.length } := by
  induction h with
  | nil s => rfl
  | @snoc ids id s t u p h hforce ih =>
    rw [List.nodup_append'] at hnodup
    have hfresh : id ∉ ids := fun hid ↦ hnodup.2.2 hid List.mem_cons_self
    have htally := ih hnodup.1 hpending
    obtain ⟨e, he, -⟩ := force_eq_ok_iff.mp hforce
    obtain ⟨before, after, use, hproof⟩ := hpending (h.getElem?_eq hfresh ▸ he)
    rw [force_of_pending he hproof rfl] at hforce
    obtain ⟨-, rfl⟩ := Prod.mk.inj hforce
    rw [List.length_append, htally]
    rfl

end Rules

namespace Skeleton

variable {k : Skeleton α τ π}

theorem Trail.exists_hangs {v : Vertex α} {path : List Nat} (ht : k.Trail v path) {j : Nat}
    (hj : j ∈ path) : ∃ e p u, k.Hangs e p u ∧ e.id = j ∧ k.vertices[u.id]? = some u ∧
      u.side = v.side ∧ u.id ≤ v.id := by
  induction ht with
  | root _ _ => exact absurd hj (by simp)
  | @child e p v path hp hv h ih =>
    rcases List.mem_append.mp hj with hj | hj
    · obtain ⟨e', p', u, hu, hid, hvert, hside, hle⟩ := ih hj
      exact ⟨e', p', u, hu, hid, hvert, hside.trans h.side, hle.trans h.older.le⟩
    · exact ⟨e, p, v, h, (List.mem_singleton.mp hj).symm, hv, rfl, le_refl _⟩

theorem Hangs.child_unique {e e' : Edge τ π} {p p' u u' : Vertex α} (h : k.Hangs e p u)
    (h' : k.Hangs e' p' u') (hu : k.vertices[u.id]? = some u) (hu' : k.vertices[u'.id]? = some u')
    (hid : e.id = e'.id) : u = u' := by
  have he := h.edge
  rw [hid, h'.edge] at he
  have htarget : u.id = u'.id := by rw [← h.target, ← h'.target, Option.some.inj he]
  rw [htarget] at hu
  exact Option.some.inj (hu.symm.trans hu')

theorem Trail.nodup {v : Vertex α} {path : List Nat} (ht : k.Trail v path) : path.Nodup := by
  induction ht with
  | root _ _ => exact List.nodup_nil
  | @child e p v path hp hv h ih =>
    rw [List.nodup_append]
    refine ⟨ih, List.nodup_singleton _, ?_⟩
    rintro j hj _ hlast rfl
    obtain ⟨e', p', u, hu, hid, hvert, -, hle⟩ := hp.exists_hangs hj
    rw [List.mem_singleton.mp hlast] at hid
    rw [hu.child_unique h hvert hv hid] at hle
    exact absurd (hle.trans_lt h.older) (lt_irrefl _)

theorem Trail.disjoint {u v : Vertex α} {upath vpath : List Nat} (hu : k.Trail u upath)
    (hv : k.Trail v vpath) (hside : v.side ≠ u.side) : upath.Disjoint vpath := by
  intro j hj hj'
  obtain ⟨e, p, a, ha, hid, hvert, haside, -⟩ := hu.exists_hangs hj
  obtain ⟨e', p', b, hb, hid', hvert', hbside, -⟩ := hv.exists_hangs hj'
  have hab := ha.child_unique hb hvert hvert' (hid.trans hid'.symm)
  exact hside (hbside.symm.trans ((congrArg Vertex.side hab.symm).trans haside))

theorem Trail.meeting_notMem (hx : k.IsForest) {v : Vertex α} {path : List Nat}
    (ht : k.Trail v path) {m : Nat} (hm : k.meeting = some m) : m ∉ path := by
  intro hj
  obtain ⟨e, p, u, hu, rfl, hvert, -⟩ := ht.exists_hangs hj
  exact hx.meeting_ne_of_hangs hu hvert hm

end Skeleton

section Rules

variable {rules : List Rule} {x : Exploration Payload Recipe Evidence} {lhs rhs : Text}

/-- No step of a proof crosses an edge that another step crosses. -/
theorem Joins.nodup_edges {k : Skeleton Payload Recipe Evidence} {e : Edge Recipe Evidence}
    {u w : Vertex Payload} {p : Evidence} {left right : ProofUnit Evidence}
    (h : Joins rules k e u w lhs rhs p left right) (hx : k.IsForest) (hm : k.meeting = some e.id)
    (hside : w.side ≠ u.side) : ((left.steps ++ right.steps).map (·.edge)).Nodup := by
  obtain ⟨upath, hupath, hsource⟩ := h.source
  obtain ⟨wpath, hwpath, htarget⟩ := h.target
  have hnodup : ((upath ++ [e.id]) ++ wpath).Nodup := by
    have hmu := hupath.meeting_notMem hx hm
    have hmw := hwpath.meeting_notMem hx hm
    have hdisjoint := hupath.disjoint hwpath hside
    rw [List.nodup_append', List.nodup_append', List.disjoint_append_left]
    exact ⟨⟨hupath.nodup, List.nodup_singleton _, by simpa using hmu⟩, hwpath.nodup, hdisjoint,
      by simpa using hmw⟩
  rw [← hsource.edges, ← htarget.edges, ← List.map_append] at hnodup
  rw [Side.eq_opposite_of_ne hside] at hnodup
  -- the unit that crosses the meeting edge may be the left or the right one
  rcases hs : u.side
  · rw [hs] at hnodup
    exact hnodup
  · rw [hs] at hnodup
    exact (List.perm_append_comm.map _).nodup_iff.mp hnodup

theorem Exploration.not_isForced (hl : x.skeleton.Labelled rules) (j : Nat) :
    x.edges.isForced j = false := by
  rw [Edges.isForced]
  rcases he : x.edges.items[j]? with _ | e
  · rfl
  · obtain ⟨_, _, _, -, -, -, hproof, -⟩ := hl.edge he
    rw [Option.any_some, hproof]
    rfl

/-- The edges that the steps of a proof name; none without a proof. -/
def Result.edges {π : Type} (r : Result π) : List Nat := (r.units.flatMap (·.steps)).map (·.edge)

theorem Result.length_edges {π : Type} (r : Result π) : r.edges.length = r.proofLength :=
  List.length_map _

/-- What the proof over the meeting edge of a search with rules costs. -/
theorem Exploration.Reached.exists_forced {config : Config Payload} {focus : Option Nat}
    (hkey : config.key = Term.pretty) (hne : lhs ≠ rhs)
    (h : Reached (.ofRules rules) config (.ofText lhs) (.ofText rhs) x focus) {m : Nat}
    (hm : x.meeting = some m) (tally : Tally) :
    let reply := (Search.exploring x focus).prove (.ofRules rules) m tally
    ∃ result edges, reply.answer = .ok result ∧ reply.search = .exploring { x with edges } focus ∧
      result.status = .success ∧ (∀ j, edges.isForced j = true ↔ j ∈ result.edges) ∧
      result.edges.Nodup ∧
      reply.engine = { tally with byRule := tally.byRule + result.proofLength } := by
  intro reply
  have hkeyne := Config.key_ofText_ne hkey hne
  have hlabelled := h.labelled hkeyne
  obtain ⟨result, hresult, hreports⟩ := h.exists_proved hkey hne hm tally
  obtain ⟨p, left, right, edges, t, hbuild, rfl, hsearch, hengine⟩ :=
    Search.exists_buildProof_of_prove hresult
  obtain ⟨e, u, w, left', right', hunits, hmeet, -, -, -, hside, hjoins⟩ := hreports
  obtain ⟨rfl, rfl⟩ : left = left' ∧ right = right' := by simpa using hunits
  have hedges : (Result.proved p [left, right] x.stats).edges
      = (left.steps ++ right.steps).map (·.edge) := by
    rw [Result.edges, Result.units, List.flatMap_cons, List.flatMap_singleton]
  have hnodup := hjoins.nodup_edges (h.orderly hkeyne).forest hmeet hside
  rw [← hedges] at hnodup
  obtain ⟨ids, hforces, hperm⟩ := forces_of_buildProof hbuild
  rw [← hedges] at hperm
  refine ⟨_, edges, hresult, hsearch, rfl, fun j ↦ ?_, hnodup, ?_⟩
  · rw [hforces.isForced_iff, not_isForced hlabelled, hperm.mem_iff]
    simp
  · have htally := hforces.tally_eq (hperm.nodup_iff.mpr hnodup) fun j e he ↦ by
      obtain ⟨u, _, after, -, -, -, hproof, -⟩ := hlabelled.edge he
      exact ⟨u.pretty, after, e.use, hproof⟩
    rw [show reply.engine = t from hengine, show t = _ from htally, hperm.length_eq,
      Result.length_edges]

namespace Search

/-- **Proofs are built for the path only, and once.** After a search with rules over two different
texts the edges whose proofs have been built are those that the steps of the proof name. No two
steps name the same edge, so the engine has built as many proofs as there are steps; without success
it has built none. Asking for the proof over the meeting edge any number of times gives the same
result again and changes nothing. -/
theorem solve_lazy (rules : List Rule) (clock : Nat → Nat) (config : Config Payload)
    (hkey : config.key = Term.pretty) {lhs rhs : Text} (hne : lhs ≠ rhs) (tally : Tally) :
    let reply := solve (.ofRules rules) clock config (.ofText lhs) (.ofText rhs) tally
    ∃ x focus result, reply.search = .exploring x focus ∧ reply.answer = .ok result ∧
      (result.status ≠ .success → (∀ j, x.edges.isForced j = false) ∧ reply.engine = tally) ∧
      (result.status = .success →
        (∀ j, x.edges.isForced j = true ↔ j ∈ result.edges) ∧ result.edges.Nodup ∧
        reply.engine = { tally with byRule := tally.byRule + result.proofLength } ∧
        ∃ m, x.meeting = some m ∧ ∀ n,
          ∀ again ∈ provings (.ofRules rules) m n reply.search reply.engine,
            again.answer = .ok result ∧ again.search = reply.search ∧
            again.engine = reply.engine) := by
  intro reply
  obtain ⟨y, g, ending, hreach, hfit, hanswer, hsearch, hengine⟩ :=
    Exploration.solve_eq_conclude rules hkey hne clock tally
  have hquiet := Exploration.not_isForced (hreach.labelled (Config.key_ofText_ne hkey hne))
  rcases ending with m | _ | _
  · obtain ⟨result, edges, hresult, hafter, hsuccess, hforced, hnodup, htally⟩ :=
      hreach.exists_forced hkey hne hfit tally
    refine ⟨{ y with edges }, g, result, hsearch.trans hafter, hanswer.trans hresult,
      fun hfail ↦ absurd hsuccess hfail,
        fun _ ↦ ⟨hforced, hnodup, hengine.trans htally, m, hfit, ?_⟩⟩
    intro n again hagain
    rw [show reply.search = _ from hsearch, show reply.engine = _ from hengine] at hagain ⊢
    rw [conclude, provings_again hresult] at hagain
    rw [List.eq_of_mem_replicate hagain]
    exact ⟨hresult, rfl, rfl⟩
  · exact ⟨y, g, _, hsearch, hanswer, fun _ ↦ ⟨hquiet, hengine⟩, by simp [Result.status]⟩
  · exact ⟨y, g, _, hsearch, hanswer, fun _ ↦ ⟨hquiet, hengine⟩, by simp [Result.status]⟩

/-- Of the edges that this search adds, the proof uses two, and asking for it three more times
builds nothing else. -/
theorem solve_lazy_swap :
    let e := Engine.ofRules [{ name := utf8 "swap", lhs := utf8 "ba", rhs := utf8 "ab" }]
    let reply := solve e (fun _ ↦ 0) {} (.ofText (utf8 "bbaa")) (.ofText (utf8 "abba")) {}
    ∃ x focus result, reply.search = .exploring x focus ∧ reply.answer = .ok result ∧
      result.edges = [0, 2] ∧ x.edges.size = 3 ∧
      (∀ j, x.edges.isForced j = true ↔ j ∈ result.edges) ∧ reply.engine = { byRule := 2 } ∧
      ∃ m, ∀ again ∈ provings e m 3 reply.search reply.engine,
        again.answer = .ok result ∧ again.engine = reply.engine := by
  intro e reply
  have hne : utf8 "bbaa" ≠ utf8 "abba" := by decide
  have hresult : reply.answer.toOption.map (fun r ↦ (r.status, r.edges, r.proofLength))
      = some (.success, [0, 2], 2) := by decide +kernel
  have hsize : reply.search.graph?.map (·.edges.size) = some 3 := by decide +kernel
  obtain ⟨x, focus, result, hsearch, hanswer, -, hlazy⟩ := solve_lazy
    [{ name := utf8 "swap", lhs := utf8 "ba", rhs := utf8 "ab" }] (fun _ ↦ 0) {} rfl hne {}
  rw [show reply.answer = _ from hanswer] at hresult
  rw [show reply.search = _ from hsearch] at hsize
  obtain ⟨hstatus, hrest⟩ := Prod.mk.inj (Option.some.inj hresult)
  obtain ⟨hedges, hlength⟩ := Prod.mk.inj hrest
  obtain ⟨hforced, -, hengine, m, -, hagain⟩ := hlazy hstatus
  rw [hlength] at hengine
  exact ⟨x, focus, result, hsearch, hanswer, hedges, Option.some.inj hsize, hforced, hengine, m,
    fun again h ↦ ⟨(hagain 3 again h).1, (hagain 3 again h).2.2⟩⟩

end Search

end Rules

end Joinability
