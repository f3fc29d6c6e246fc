import Joinability.Proofs.BreadthFirst.Survey

/-!
# Where the sides of a breadth-first search meet

A search succeeds when a target of the vertex in focus is the text of a vertex of the other side.
Here is what that says of a breadth-first search: how deep the two vertices can lie, how long the
two units of the proof are, and, when all rules are symmetric, how far apart the two goal texts are.

## Two balls that do not meet

Before the sides meet no text is close to both roots, and how close is settled by the rank of the
vertex in focus. A derivation from one goal text to the other, cut in the middle, would put the text
at the cut into both balls. So with symmetric rules the goal texts are further apart than that rank,
and the crossing shows that they are just one step further apart.
-/

namespace Joinability

variable {rules : List Rule} {lhs rhs : Text}

namespace Exploration

variable {x y : Exploration Payload Recipe Evidence} {focus : Option Nat} {maxDepth k c : Nat}
  {q : BreadthFirst} {u w : Vertex Payload}

/-- The target of the vertex `u` at its cursor `c` is the text of the vertex `w` of the other
side. -/
structure Crosses (rules : List Rule) (x : Exploration Payload Recipe Evidence)
    (u w : Vertex Payload) (c : Nat) : Prop where
  source : x.skeleton.vertices[u.id]? = some u
  target : x.skeleton.vertices[w.id]? = some w
  side_ne : w.side ≠ u.side
  cursor : x.progress u.id = some (false, c)
  text : (targets rules u.pretty)[c]? = some w.pretty

/-- The edge at which the sides have met joins the vertex that was in focus to the one that was
found. -/
theorem Reached.exists_meeting_edge {config : Config Payload} {e : Edge Recipe Evidence}
    (hkeyne : config.key (.ofText lhs) ≠ config.key (.ofText rhs))
    (h : Reached (.ofRules rules) config (.ofText lhs) (.ofText rhs) y focus)
    (hm : y.meeting = some e.id) (he : y.skeleton.edges[e.id]? = some e)
    (hu : y.skeleton.vertices[e.source]? = some u) (hw : y.skeleton.vertices[e.target]? = some w) :
    ∃ (x : Exploration Payload Recipe Evidence) (v w' : Vertex Payload) (site : Site),
      Reached (.ofRules rules) config (.ofText lhs) (.ofText rhs) x (some v.id) ∧ x.meeting = none ∧
      x.vertices.items[v.id]? = some v ∧ (sites rules v.pretty)[v.cursor]? = some site ∧
      x.findId? (.ofText (site.result v.pretty)) = some w'.id ∧
      x.vertices.items[w'.id]? = some w' ∧ w'.side ≠ v.side ∧ u = v.asBorn ∧ w = w'.asBorn := by
  obtain ⟨x, v, w', s, r, hx, hapart, hv, htry, hfind, hw', hside, hskel⟩ := h.exists_meet hm
  obtain ⟨site, hsite, rfl⟩ := (Engine.tryNext_ofRules_eq_some_iff
    (term_eq_ofText (hx.labelled hkeyne) hv)).mp htry
  refine ⟨x, v, w', site, hx, hapart, hv, hsite, hfind, hw', hside, ?_⟩
  have hid : e.id = x.skeleton.edges.size := by
    have hmeeting : y.skeleton.meeting = some e.id := hm
    rw [hskel] at hmeeting
    exact (Option.some.inj hmeeting).symm
  -- it is the edge that the last move has added
  rw [hskel, hid] at he
  obtain rfl := Option.some.inj (Array.getElem?_push_size.symm.trans he)
  rw [hskel] at hu hw
  exact ⟨Option.some.inj (hu.symm.trans (getElem?_skeleton_of hv)),
    Option.some.inj (hw.symm.trans (getElem?_skeleton_of hw'))⟩

/-- **A breadth-first search succeeds by a crossing.** One of its two units has a step for each
level above the source and one more, the other a step for each level above the target. -/
theorem Reached.exists_crosses {config : Config Payload} (hkey : config.key = Term.pretty)
    (hne : lhs ≠ rhs) (hbfs : config.strategy = .breadthFirst)
    (h : Reached (.ofRules rules) config (.ofText lhs) (.ofText rhs) y focus)
    {p : Evidence} {units : List (ProofUnit Evidence)} {stats : Stats}
    (hreports : Reports rules y focus lhs rhs (.proved p units stats)) :
    ∃ x k q u w c left right,
      Reached (.ofRules rules) config (.ofText lhs) (.ofText rhs) x (some u.id) ∧ x.meeting = none ∧
      Surveyed rules lhs rhs x (some u.id) config.maxDepth k q ∧ Crosses rules x u w c ∧
      units = [left, right] ∧ left.side = .left ∧ right.side = .right ∧
      (u.side.pick left right).steps.length = u.depth + 1 ∧
      (w.side.pick left right).steps.length = w.depth := by
  have hkeyne := Config.key_ofText_ne hkey hne
  obtain ⟨e, u, w, left, right, hunits, hm, he, hu, hw, -, hjoins⟩ := hreports
  obtain ⟨x, v, w', site, hx, hapart, hv, hsite, hfind, hw', hside, rfl, rfl⟩ :=
    h.exists_meeting_edge hkeyne hm he hu hw
  have hforest := (h.orderly hkeyne).forest
  have horderly := hx.orderly hkeyne
  obtain ⟨k, q, hsurveyed⟩ := hx.surveyed hkey hne hbfs hapart
  obtain ⟨v', hv', hvisited⟩ := horderly.unvisited v.id List.mem_cons_self
  obtain rfl := Option.some.inj (hv.symm.trans hv')
  have htext := pretty_eq_of_findId? horderly.forest (hx.config_eq ▸ hkey) hfind hw'
  obtain ⟨path, htrail, hshows⟩ := hjoins.source
  obtain ⟨path', htrail', hshows'⟩ := hjoins.target
  refine ⟨x, k, q, v.asBorn, w'.asBorn, v.cursor, left, right, hx, hapart, hsurveyed,
    ⟨getElem?_skeleton_of hv, getElem?_skeleton_of hw', hside, ?_, ?_⟩, hunits,
    hjoins.side .left, hjoins.side .right, ?_, ?_⟩
  · rw [Vertex.id_asBorn, progress_of hv, hvisited]
  · rw [Vertex.pretty_asBorn, Vertex.pretty_asBorn, htext]
    exact getElem?_targets hsite
  · rw [← List.length_map (·.edge), hshows.edges, List.length_append, List.length_singleton,
      htrail.length_eq hforest]
  · rw [← List.length_map (·.edge), hshows'.edges, htrail'.length_eq hforest]

/-! ## The two vertices -/

namespace Crosses

theorem rewrites (h : Crosses rules x u w c) : Rewrites rules u.pretty w.pretty :=
  mem_targets_iff.mp (List.mem_of_getElem? h.text)

theorem side_eq (h : Crosses rules x u w c) : w.side = u.side.opposite :=
  Side.eq_opposite_of_ne h.side_ne

theorem depth_le (h : Crosses rules x u w c)
    (hs : Surveyed rules lhs rhs x (some u.id) maxDepth k q) :
    w.depth ≤ u.depth + u.side.root := by
  have hrank := hs.levelled.rank_le_of_focus rfl h.source h.target
  have hroots := u.side.root_add_root_opposite
  rw [Vertex.rank, Vertex.rank, h.side_eq] at hrank
  omega

theorem derives (h : Crosses rules x u w c)
    (hs : Surveyed rules lhs rhs x (some u.id) maxDepth k q) :
    Derives rules (u.depth + 1) (u.side.pick lhs rhs) w.pretty ∧
      Derives rules w.depth (w.side.pick lhs rhs) w.pretty :=
  ⟨⟨u.pretty, hs.grown.derives h.source, h.rewrites⟩, hs.grown.derives h.target⟩

theorem rank_lt (h : Crosses rules x u w c) (hsym : ∀ r ∈ rules, r.symmetric = true)
    (hs : Surveyed rules lhs rhs x (some u.id) maxDepth k q) {n : Nat}
    (hn : Derives rules n lhs rhs) : u.rank < n := by
  by_contra hle
  -- cut so that both parts are shorter than what has been visited on their sides
  have hsum : n - min n (u.rank / 2) + min n (u.rank / 2) = n := by omega
  rw [← hsum] at hn
  obtain ⟨t, hl, hr⟩ := hn.exists_cut
  exact hs.not_derives_both (hs.visitedBelow_focus h.source) hl (hr.symm hsym) (by omega) (by omega)

/-- **With symmetric rules the sides meet half way**: the goal texts are one step further apart than
the rank of the source, and the target lies exactly as deep as the levels that have been handed out
on its side. -/
theorem distance_eq (h : Crosses rules x u w c) (hsym : ∀ r ∈ rules, r.symmetric = true)
    (hs : Surveyed rules lhs rhs x (some u.id) maxDepth k q) :
    distance rules lhs rhs = (u.rank + 1 : ℕ) ∧ w.depth = u.depth + u.side.root := by
  obtain ⟨hu, hw⟩ := h.derives hs
  have hdepth := h.depth_le hs
  have hthrough : Derives rules (u.depth + 1 + w.depth) lhs rhs := by
    rw [h.side_eq] at hw
    cases hside : u.side <;> rw [hside] at hu hw
    · exact hu.trans (hw.symm hsym)
    · rw [Nat.add_comm]
      exact hw.trans (hu.symm hsym)
  have hlt := h.rank_lt hsym hs hthrough
  have hrank : u.rank = 2 * u.depth + u.side.root := rfl
  refine ⟨distance_eq_iff.mpr ⟨?_, fun n hn ↦ h.rank_lt hsym hs hn⟩, by omega⟩
  rwa [show u.rank + 1 = u.depth + 1 + w.depth by omega]

/-- With symmetric rules the units of a crossing are two halves; an odd step belongs to the left
one. -/
theorem halves (h : Crosses rules x u w c) (hsym : ∀ r ∈ rules, r.symmetric = true)
    (hs : Surveyed rules lhs rhs x (some u.id) maxDepth k q) {left right : ProofUnit Evidence}
    (hsource : (u.side.pick left right).steps.length = u.depth + 1)
    (htarget : (w.side.pick left right).steps.length = w.depth) :
    left.steps.length = (u.rank + 1 + 1) / 2 ∧ right.steps.length = (u.rank + 1) / 2 := by
  obtain ⟨-, hdepth⟩ := h.distance_eq hsym hs
  rw [h.side_eq, hdepth] at htarget
  rw [Vertex.rank]
  cases hside : u.side with
  | left =>
    rw [hside] at hsource htarget
    have hl : left.steps.length = u.depth + 1 := hsource
    have hr : right.steps.length = u.depth := htarget
    rw [hl, hr, Side.root]
    constructor <;> omega
  | right =>
    rw [hside] at hsource htarget
    have hl : left.steps.length = u.depth + 1 := htarget
    have hr : right.steps.length = u.depth + 1 := hsource
    rw [hl, hr, Side.root]
    constructor <;> omega

end Crosses

end Exploration

end Joinability
