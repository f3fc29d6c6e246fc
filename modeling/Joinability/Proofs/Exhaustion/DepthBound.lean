import Joinability.Proofs.BreadthFirst.Decision
import Joinability.Proofs.Exhaustion.Refutation

/-!
# One depth bound for two orders of expansion

A best-first frontier only hands out vertices that lie within the depth bound
(`Exploration.Shallow`), so what a best-first search proves is joinable within the bound, and a
breadth-first search with the same bound proves it too.

## The long way round

The converse fails. A best-first search may come to a text on a way that is longer than the bound,
and turn its vertex away. When it comes to the same text on a shorter way later, the reduct is a
duplicate of that vertex and is discarded, and the text is never expanded. This is the only way in
which the two orders can disagree (`Search.solve_agree_or_turnedAway`): a vertex was turned away one
level below the bound although its text is within the bound.
-/

namespace Joinability

variable {σ α τ π : Type}

namespace Exploration

/-! ## What a best-first search expands -/

section Shallow

variable {e : Engine σ α τ π} {config : Config α} {lhs rhs : Term α} {x y : Exploration α τ π}
  {f g : Option Nat}

/-- What still has to be expanded lies within the depth bound, and no vertex lies more than one
level below it. -/
structure Shallow (x : Exploration α τ π) (focus : Option Nat) : Prop where
  pending_le {i : Nat} {v : Vertex α} : i ∈ x.pending focus → x.skeleton.vertices[i]? = some v →
    v.depth ≤ x.frontier.maxDepth
  depth_le {i : Nat} {v : Vertex α} : x.skeleton.vertices[i]? = some v →
    v.depth ≤ x.frontier.maxDepth + 1

theorem shallow_rooted (config : Config α) (lhs rhs : Term α) :
    (rooted config lhs rhs : Exploration α τ π).Shallow none := by
  constructor
  · intro i v _ hv
    obtain ⟨s, -, hroot⟩ := isRootOf_of_skeleton_rooted hv
    exact hroot.depth ▸ Nat.zero_le _
  · intro i v hv
    obtain ⟨s, -, hroot⟩ := isRootOf_of_skeleton_rooted hv
    exact hroot.depth ▸ Nat.zero_le _

namespace Shallow

/-- Less may be left to expand. -/
theorem of_subset (h : x.Shallow f) (hskel : y.skeleton = x.skeleton)
    (hmax : y.frontier.maxDepth = x.frontier.maxDepth) (hsub : y.pending g ⊆ x.pending f) :
    y.Shallow g := by
  constructor
  · intro i v hi hv
    rw [hskel] at hv
    rw [hmax]
    exact h.pending_le (hsub hi) hv
  · intro i v hv
    rw [hskel] at hv
    rw [hmax]
    exact h.depth_le hv

theorem effect (h : x.Shallow f) (hx : x.Orderly f) (hs : x.frontier.strategy = .bestFirst)
    (hm : Effect e x f y g) : y.Shallow g := by
  obtain ⟨-, hmax⟩ := hm.settings_frontier
  cases hm with
  | @take _ i hskel _ hfront =>
    have hlist : y.pending (some i) = x.pending none := (Frontier.toList_of_next hfront).symm
    exact h.of_subset hskel hmax (hlist ▸ List.Subset.refl _)
  | dry hskel _ hfront =>
    have hlist : y.pending none = [] := Frontier.toList_of_next_none hfront
    exact h.of_subset hskel hmax (hlist ▸ List.nil_subset _)
  | @fail _ i hskel _ hfront =>
    have hlist : y.pending (some i) = x.pending (some i) := by rw [pending, pending, hfront]
    exact h.of_subset hskel hmax (hlist ▸ List.Subset.refl _)
  | @close _ v _ hskel hfront _ _ _ =>
    have hlist : y.pending none = x.frontier.toList := by
      rw [← hfront]
      rfl
    exact h.of_subset hskel hmax (hlist ▸ List.subset_cons_self _ _)
  | @discard _ v _ _ _ _ _ _ _ _ hskel _ hfront =>
    have hlist : y.pending (some v.id) = x.pending (some v.id) := by rw [pending, pending, hfront]
    exact h.of_subset hskel hmax (hlist ▸ List.Subset.refl _)
  | @grow _ v _ r tokens score hv _ _ hskel _ hfront =>
    have hvskel : x.skeleton.vertices[v.id]? = some v.asBorn := getElem?_skeleton_of hv
    have hfocus : v.depth ≤ x.frontier.maxDepth :=
      h.pending_le (v := v.asBorn) List.mem_cons_self hvskel
    -- what is pending was so before, or is the child, which was admitted
    have hpending {i : Nat} (hi : i ∈ y.pending (some v.id)) : i ∈ x.pending (some v.id) ∨
        (i = x.skeleton.vertices.size ∧ depthBelow v.depth ≤ x.frontier.maxDepth) := by
      rw [pending_some, hfront] at hi
      rw [pending_some, size_vertices_skeleton]
      rcases List.mem_cons.mp hi with rfl | hi
      · exact Or.inl List.mem_cons_self
      · exact (Frontier.mem_toList_of_enqueue _ _ _ _ hs hi).imp_left (List.mem_cons_of_mem _)
    constructor
    · intro i w hi hw
      rw [hskel] at hw
      rw [hmax]
      rcases of_getElem?_push hw with ⟨rfl, rfl⟩ | hw
      · rcases hpending hi with hi | ⟨-, hdepth⟩
        · obtain ⟨u, hu, -⟩ := hx.unvisited _ hi
          rw [size_vertices_skeleton] at hu
          exact absurd (Array.getElem?_eq_some_iff.mp hu).1 (Nat.lt_irrefl _)
        · exact hdepth
      · rcases hpending hi with hi | ⟨rfl, -⟩
        · exact h.pending_le hi hw
        · exact absurd (Array.getElem?_eq_some_iff.mp hw).1 (Nat.lt_irrefl _)
    · intro i w hw
      rw [hskel] at hw
      rw [hmax]
      rcases of_getElem?_push hw with ⟨-, rfl⟩ | hw
      · exact Nat.le_trans (Nat.mod_le _ _) (Nat.succ_le_succ hfocus)
      · exact h.depth_le hw

end Shallow

/-- **While the sides are apart, a best-first search keeps within the depth bound.** -/
theorem Reached.shallow (hne : config.key lhs ≠ config.key rhs)
    (hbest : config.strategy = .bestFirst) (h : Reached e config lhs rhs x f)
    (hapart : x.meeting = none) : x.Shallow f := by
  induction h with
  | start => exact shallow_rooted config lhs rhs
  | move h hm ih =>
    have hopen := hm.isOpen.meeting
    have hs := (h.settings_frontier hopen).1.trans hbest
    exact (ih hopen).effect (h.orderly hne) hs (hm.effect hapart)

end Shallow

/-! ## What it proves, and what it misses -/

variable {rules : List Rule} {config : Config Payload} {lhs rhs : Text}
  {x : Exploration Payload Recipe Evidence} {focus : Option Nat}

/-- What a best-first search proves can be joined within one step more than its depth bound. -/
theorem Reached.joinableWithin_of_proved (hkey : config.key = Term.pretty) (hne : lhs ≠ rhs)
    (hbest : config.strategy = .bestFirst)
    (h : Reached (.ofRules rules) config (.ofText lhs) (.ofText rhs) x focus)
    {p : Evidence} {units : List (ProofUnit Evidence)} {stats : Stats}
    (hreports : Reports rules x focus lhs rhs (.proved p units stats)) :
    JoinableWithin rules (config.maxDepth + 1) lhs rhs := by
  have hkeyne := Config.key_ofText_ne hkey hne
  obtain ⟨e, u, w, left, right, -, hm, he, hu, hw, -, -⟩ := hreports
  obtain ⟨y, v, w', site, hy, hapart, hv, hsite, hfind, hw', hside, -, -⟩ :=
    h.exists_meeting_edge hkeyne hm he hu hw
  have hgrown := hy.grown hkey hne
  have hshallow := hy.shallow hkeyne hbest hapart
  obtain ⟨-, hmax⟩ := hy.settings_frontier hapart
  -- the reduct of the vertex in focus is the text of a vertex of the other side
  have hpretty := pretty_eq_of_findId? hgrown.orderly.forest hgrown.key hfind hw'
  have hstep : Rewrites rules v.pretty w'.pretty := by
    rw [hpretty]
    exact rewrites_of_turns (turns_of_site (List.mem_of_getElem? hsite))
  have hsource := hgrown.derives (v := v.asBorn) (getElem?_skeleton_of hv)
  have htarget := hgrown.derives (v := w'.asBorn) (getElem?_skeleton_of hw')
  have hdepth := hshallow.pending_le (v := v.asBorn) List.mem_cons_self (getElem?_skeleton_of hv)
  have hdepth' := hshallow.depth_le (v := w'.asBorn) (getElem?_skeleton_of hw')
  rw [hmax] at hdepth hdepth'
  have hopposite : w'.asBorn.side = v.side.opposite := Side.eq_opposite_of_ne hside
  rw [hopposite] at htarget
  exact joinableWithin_of_sides (Nat.succ_le_succ hdepth) hdepth' ⟨v.pretty, hsource, hstep⟩ htarget

/-- **A best-first search only misses what it has come to on too long a way.** When it is exhausted
although the goal texts can be joined within one step more than its bound, it has turned away a
vertex whose text is within the bound. -/
theorem Explored.exists_turnedAway (h : Explored rules lhs rhs x none) (hs : x.Shallow none)
    (hempty : x.frontier.toList = [])
    (hjoin : JoinableWithin rules (x.frontier.maxDepth + 1) lhs rhs) :
    x.frontier.isCut = true ∧ ∃ v ∈ x.vertices.items, v.depth = x.frontier.maxDepth + 1 ∧
      distance rules (v.side.pick lhs rhs) v.pretty ≤ x.frontier.maxDepth := by
  constructor
  · by_contra hcut
    rw [Bool.not_eq_true] at hcut
    exact h.not_joinableWithin (h.visitedWithin hempty hcut _) hjoin
  · by_contra hno
    refine h.not_joinableWithin ?_ hjoin
    rintro i b hb ⟨m, hm, hder⟩
    apply (h.visited_or hempty hb).resolve_right
    rintro ⟨-, hdeep⟩
    obtain ⟨v, hv, rfl⟩ := exists_of_getElem?_skeleton hb
    have hdepth : v.depth = x.frontier.maxDepth + 1 :=
      Nat.le_antisymm (hs.depth_le (v := v.asBorn) hb) hdeep
    exact hno ⟨v, Array.mem_of_getElem? hv, hdepth,
      distance_le_iff.mpr ⟨m, Nat.le_of_lt_succ hm, hder⟩⟩

end Exploration

namespace Search

/-- **Two searches with one depth bound agree, or the best-first one has turned away too much.**
Unless one of them is cut short, a breadth-first and a best-first search end with the same status;
or else the breadth-first one succeeds, the best-first one fails, and that one has turned away a
vertex one level below the bound although the text of the vertex is within the bound. -/
theorem solve_agree_or_turnedAway (rules : List Rule) (clock clock' : Nat → Nat)
    (config config' : Config Payload) (hkey : config.key = Term.pretty)
    (hkey' : config'.key = Term.pretty) (hbfs : config.strategy = .breadthFirst)
    (hbest : config'.strategy = .bestFirst) (hdepth : config'.maxDepth = config.maxDepth)
    (lhs rhs : Text) (tally tally' : Tally) :
    ∃ result result',
      (solve (.ofRules rules) clock config (.ofText lhs) (.ofText rhs) tally).answer = .ok result ∧
      (solve (.ofRules rules) clock' config' (.ofText lhs) (.ofText rhs) tally').answer
        = .ok result' ∧
      (result.status ≠ .abort → result'.status ≠ .abort → result.status = result'.status ∨
        (result.status = .success ∧ result'.status = .failure ∧ ∃ x focus,
          (solve (.ofRules rules) clock' config' (.ofText lhs) (.ofText rhs) tally').search
            = .exploring x focus ∧ x.frontier.isCut = true ∧
          ∃ v ∈ x.vertices.items, v.depth = config.maxDepth + 1 ∧
            distance rules (v.side.pick lhs rhs) v.pretty ≤ config.maxDepth)) := by
  by_cases hne : lhs = rhs
  · subst hne
    exact ⟨_, _, solve_self rules clock config lhs tally,
      solve_self rules clock' config' lhs tally', fun _ _ ↦ Or.inl rfl⟩
  · obtain ⟨y, g, result, hy, hanswer, hreports⟩ :=
      Exploration.exists_result rules hkey hne clock tally
    obtain ⟨y', g', result', edges, hy', hanswer', hsearch, hreports'⟩ :=
      Exploration.exists_result_search rules hkey' hne clock' tally'
    refine ⟨result, result', hanswer, hanswer', ?_⟩
    intro hended hended'
    obtain ⟨hsuccess, hfailure⟩ := hy.reports_iff_joinableWithin hkey hne hbfs hreports hended
    rw [← hdepth] at hsuccess hfailure ⊢
    rcases result' with ⟨p, units, stats⟩ | stats | stats
    · exact Or.inl (hsuccess.mpr (hy'.joinableWithin_of_proved hkey' hne hbest hreports'))
    · by_cases hjoin : JoinableWithin rules (config'.maxDepth + 1) lhs rhs
      · obtain ⟨hexplored, hempty⟩ := hy'.explored_of_failure hkey' hne hreports' rfl
        obtain ⟨hapart, rfl, -⟩ := hreports'
        obtain ⟨-, hmax⟩ := hy'.settings_frontier hapart
        have hshallow := hy'.shallow (Config.key_ofText_ne hkey' hne) hbest hapart
        rw [← hmax] at hjoin ⊢
        obtain ⟨hcut, v, hv, hclose⟩ := hexplored.exists_turnedAway hshallow hempty hjoin
        exact Or.inr ⟨hsuccess.mpr (hmax ▸ hjoin), rfl, _, _, hsearch, hcut, v, hv, hclose⟩
      · exact Or.inl (hfailure.mpr hjoin)
    · exact absurd rfl hended'

/-- One-way rules by which `s` leads to `x` in three steps over `p` and `q`, and in two over `b b`.
Next to the goal `g` the long way looks shorter, as `p` and `q` are shorter texts. -/
def longWay : List Rule :=
  [(utf8 "s", utf8 "p"), (utf8 "s", utf8 "b b"), (utf8 "p", utf8 "q"), (utf8 "q", utf8 "x"),
    (utf8 "b b", utf8 "x"), (utf8 "x", utf8 "g")].map fun sides ↦
      { name := sides.1, lhs := sides.1, rhs := sides.2, symmetric := false }

theorem statuses_longWay :
    ((solve (.ofRules longWay) (fun _ ↦ 0) { maxDepth := 2 } (.ofText (utf8 "s"))
      (.ofText (utf8 "g")) {}).answer.toOption.map Result.status) = some .success ∧
    ((solve (.ofRules longWay) (fun _ ↦ 0) { maxDepth := 2, strategy := .bestFirst }
      (.ofText (utf8 "s")) (.ofText (utf8 "g")) {}).answer.toOption.map Result.status)
        = some .failure := by
  constructor
  · decide +kernel
  · decide +kernel

theorem solve_agree_or_turnedAway_longWay : ∃ x focus,
    (solve (.ofRules longWay) (fun _ ↦ 0) { maxDepth := 2, strategy := .bestFirst }
      (.ofText (utf8 "s")) (.ofText (utf8 "g")) {}).search = .exploring x focus ∧
    x.frontier.isCut = true ∧ ∃ v ∈ x.vertices.items, v.depth = 3 ∧
      distance longWay (v.side.pick (utf8 "s") (utf8 "g")) v.pretty ≤ (2 : ℕ) := by
  obtain ⟨result, result', hanswer, hanswer', hagree⟩ := solve_agree_or_turnedAway longWay
    (fun _ ↦ 0) (fun _ ↦ 0) { maxDepth := 2 } { maxDepth := 2, strategy := .bestFirst } rfl rfl rfl
    rfl rfl (utf8 "s") (utf8 "g") {} {}
  obtain ⟨hsuccess, hfailure⟩ := statuses_longWay
  rw [hanswer] at hsuccess
  rw [hanswer'] at hfailure
  have hstatus : result.status = .success := Option.some.inj hsuccess
  have hstatus' : result'.status = .failure := Option.some.inj hfailure
  rw [hstatus, hstatus'] at hagree
  obtain ⟨-, -, hturned⟩ := (hagree (by decide) (by decide)).resolve_left (by decide)
  exact hturned

/-- With one depth bound the two orders of expansion need not agree. -/
theorem solve_longWay_disagree : ∃ result result',
    (solve (.ofRules longWay) (fun _ ↦ 0) { maxDepth := 2 } (.ofText (utf8 "s"))
      (.ofText (utf8 "g")) {}).answer = .ok result ∧
    (solve (.ofRules longWay) (fun _ ↦ 0) { maxDepth := 2, strategy := .bestFirst }
      (.ofText (utf8 "s")) (.ofText (utf8 "g")) {}).answer = .ok result' ∧
    result.status ≠ .abort ∧ result'.status ≠ .abort ∧ result.status ≠ result'.status := by
  obtain ⟨-, -, result, -, hanswer, -⟩ := Exploration.exists_result longWay
    (rfl : ({ maxDepth := 2 } : Config Payload).key = Term.pretty)
    (show utf8 "s" ≠ utf8 "g" by decide) (fun _ ↦ 0) {}
  obtain ⟨-, -, result', -, hanswer', -⟩ := Exploration.exists_result longWay
    (rfl : ({ maxDepth := 2, strategy := .bestFirst } : Config Payload).key = Term.pretty)
    (show utf8 "s" ≠ utf8 "g" by decide) (fun _ ↦ 0) {}
  obtain ⟨hsuccess, hfailure⟩ := statuses_longWay
  rw [hanswer] at hsuccess
  rw [hanswer'] at hfailure
  have hstatus : result.status = .success := Option.some.inj hsuccess
  have hstatus' : result'.status = .failure := Option.some.inj hfailure
  refine ⟨result, result', hanswer, hanswer', ?_⟩
  rw [hstatus, hstatus']
  exact ⟨by decide, by decide, by decide⟩

end Search

end Joinability
