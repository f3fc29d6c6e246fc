import Joinability.Proofs.Search.Run
import Joinability.Proofs.Search.Unit

/-!
# A proof that a search returns proves the goal

When the sides have met, the unit of the side from which the meeting edge was found walks the trail
of the source and then the meeting edge, and the other unit walks the trail of the target. Building
the two cannot fail, whatever the key (`Exploration.yields_proof`), so all depends on putting them
together.

With the default key both units end at the text of the target. They show `lhs = m` and `rhs = m` for
the same text `m`, and the proof put together from them shows `lhs = rhs`, by the reasons of the
left steps and then those of the right steps turned round and read backwards. So a search with rules
and the default key, started over two texts, always answers.
-/

namespace Joinability

variable {rules : List Rule}

/-! ## Putting the units together -/

/-- The reasons of a proof with the given steps on the two sides. -/
def joinedReasons (left right : List ProofStep) : List Text :=
  reasonsOf left ++ (reasonsOf right).reverse.map Equality.turnReason

/-- Two units that are proved by equalities: the right proof is turned round and chained to the left
one, and a unit without steps is left out. -/
theorem joinUnits_equality {left right : ProofUnit Evidence} {p q : Equality}
    (hl : left.proof = .equality p) (hr : right.proof = .equality q) :
    joinUnits (.ofRules rules) left right
      = if right.steps = [] then .ok (.equality p)
        else if left.steps = [] then .ok (.equality q.symm)
        else (p.trans q.symm).map .equality := by
  rw [joinUnits, hl, hr]
  by_cases hright : right.steps = []
  · rw [if_pos (by simpa using hright), if_pos hright]
  · rw [if_neg (by simpa using hright), if_neg hright]
    by_cases hleft : left.steps = []
    · rw [if_pos hleft, hleft]
      rfl
    · have hempty : left.steps.isEmpty = false := by simpa using hleft
      rw [if_neg hleft, hempty]
      rfl

/-- Units that end at the same text. -/
theorem joinUnits_of_shows {left right : ProofUnit Evidence} {s t m : Text} {ps qs : List Nat}
    (hl : left.Shows rules s m ps) (hr : right.Shows rules t m qs) :
    joinUnits (.ofRules rules) left right
      = .ok (.equality ⟨s, t, joinedReasons left.steps right.steps⟩) := by
  rw [joinUnits_equality hl.proof hr.proof, joinedReasons]
  by_cases hright : right.steps = []
  · have ht : t = m := hr.eq_of_nil hright
    rw [if_pos hright, hright, ht]
    simp [reasonsOf]
  · rw [if_neg hright]
    by_cases hleft : left.steps = []
    · have hs : s = m := hl.eq_of_nil hleft
      rw [if_pos hleft, hleft, hs]
      rfl
    · have htrans : Equality.trans ⟨s, m, reasonsOf left.steps⟩
          (Equality.symm ⟨t, m, reasonsOf right.steps⟩)
            = .ok ⟨s, t, joinedReasons left.steps right.steps⟩ :=
        Equality.trans_eq_ok_iff.mpr ⟨rfl, rfl⟩
      rw [if_neg hleft, htrans]
      rfl

/-! ## Building the proof -/

/-- What the units over the meeting edge `e` from `u` to `w` show, when the edge makes the text
`after`. -/
structure Halves (rules : List Rule) (k : Skeleton Payload Recipe Evidence)
    (e : Edge Recipe Evidence) (u w : Vertex Payload) (after lhs rhs : Text)
    (source target : ProofUnit Evidence) : Prop where
  sourceSide : source.side = u.side
  targetSide : target.side = w.side
  source : ∃ path, k.Trail u path ∧
    source.ShowsBeyond rules (u.side.pick lhs rhs) path e u w after
  target : ∃ path, k.Trail w path ∧ target.Shows rules (w.side.pick lhs rhs) w.pretty path

/-- What the proof over the meeting edge `e` and its units show. -/
structure Joins (rules : List Rule) (k : Skeleton Payload Recipe Evidence)
    (e : Edge Recipe Evidence) (u w : Vertex Payload) (lhs rhs : Text) (proof : Evidence)
    (left right : ProofUnit Evidence) : Prop where
  side (s : Side) : (s.pick left right).side = s
  source : ∃ path, k.Trail u path ∧
    (u.side.pick left right).Shows rules (u.side.pick lhs rhs) w.pretty (path ++ [e.id])
  target : ∃ path, k.Trail w path ∧
    (w.side.pick left right).Shows rules (w.side.pick lhs rhs) w.pretty path
  proof : proof = .equality ⟨lhs, rhs, joinedReasons left.steps right.steps⟩

section Units

variable {k : Skeleton Payload Recipe Evidence} {e : Edge Recipe Evidence} {u w : Vertex Payload}
  {lhs rhs : Text} {p : Evidence} {source target left right : ProofUnit Evidence}

theorem Joins.shows (h : Joins rules k e u w lhs rhs p left right) (hside : w.side ≠ u.side)
    (s : Side) : ∃ path, (s.pick left right).Shows rules (s.pick lhs rhs) w.pretty path := by
  by_cases hs : s = u.side
  · obtain ⟨path, -, hpath⟩ := h.source
    exact ⟨_, hs ▸ hpath⟩
  · have hsw : s = w.side := Side.eq_of_ne_of_ne hs hside
    obtain ⟨path, -, hpath⟩ := h.target
    exact ⟨_, hsw ▸ hpath⟩

theorem Joins.joinUnits_eq (h : Joins rules k e u w lhs rhs p left right)
    (hside : w.side ≠ u.side) : joinUnits (.ofRules rules) left right = .ok p := by
  obtain ⟨_, hleft⟩ := h.shows hside .left
  obtain ⟨_, hright⟩ := h.shows hside .right
  rw [h.proof]
  exact joinUnits_of_shows hleft hright

/-- When the edge makes the text of its target, the halves fit. -/
theorem Halves.joins (h : Halves rules k e u w w.pretty lhs rhs source target)
    (hside : w.side ≠ u.side) (hturns : e.use.Turns rules u.pretty w.pretty)
    (hleft : left = u.side.pick source target) (hright : right = u.side.pick target source) :
    Joins rules k e u w lhs rhs (.equality ⟨lhs, rhs, joinedReasons left.steps right.steps⟩)
      left right := by
  obtain ⟨pathu, htu, hbeyond⟩ := h.source
  obtain ⟨pathw, htw, hshows⟩ := h.target
  have hopposite : w.side = u.side.opposite := Side.eq_opposite_of_ne hside
  have hsource : u.side.pick left right = source := by rw [hleft, hright, Side.pick_pick]
  have htarget : w.side.pick left right = target := by
    rw [hleft, hright, hopposite, Side.pick_opposite_pick]
  refine ⟨fun s ↦ ?_, ⟨pathu, htu, ?_⟩, ⟨pathw, htw, ?_⟩, rfl⟩
  · by_cases hs : s = u.side
    · rw [hs, hsource, h.sourceSide]
    · rw [Side.eq_of_ne_of_ne hs hside, htarget, h.targetSide]
  · rw [hsource]
    exact hbeyond.shows hturns
  · rw [htarget]
    exact hshows

end Units

namespace Exploration

variable {x : Exploration Payload Recipe Evidence} {lhs rhs : Text}

/-- **A proof over the meeting edge is as good as its units**: the units can be built, and what
comes of the proof is what comes of putting them together. -/
theorem yields_proof (hl : x.skeleton.Labelled rules) (hexact : x.skeleton.Exact)
    (hx : x.skeleton.IsForest) (hroot : ∀ s : Side, ∃ v, x.skeleton.vertices[s.root]? = some v ∧
      v.pretty = s.pick lhs rhs) {e : Edge Recipe Evidence} {u w : Vertex Payload}
    (he : x.skeleton.edges[e.id]? = some e) (hu : x.skeleton.vertices[e.source]? = some u)
    (hw : x.skeleton.vertices[e.target]? = some w) (hside : w.side ≠ u.side) {after : Text}
    (hproof : e.proof = .pending (.byRule u.pretty after e.use))
    {post : Except Fault (Evidence × ProofUnit Evidence × ProofUnit Evidence) → Prop}
    (hpost : ∀ source target left right, Halves rules x.skeleton e u w after lhs rhs source target →
      left = u.side.pick source target → right = u.side.pick target source →
      post ((joinUnits (.ofRules rules) left right).map fun p ↦ (p, left, right))) :
    BuildM.Yields (Keeps x.skeleton) (x.buildProof (.ofRules rules) e.id) post := by
  obtain ⟨ru, hru, hpu⟩ := hroot u.side
  obtain ⟨rw', hrw, hpw⟩ := hroot w.side
  have hidu := hx.id_eq hu
  have hidw := hx.id_eq hw
  apply yields_buildProof hx he hu hw hside
    (P := fun source ↦ source.side = u.side ∧ ∃ path, x.skeleton.Trail u path ∧
      source.ShowsBeyond rules (u.side.pick lhs rhs) path e u w after)
    (Q := fun target ↦ target.side = w.side ∧ ∃ path, x.skeleton.Trail w path ∧
      target.Shows rules (w.side.pick lhs rhs) w.pretty path)
  · intro path hpath
    rw [← hidu] at hu
    rw [← hidw] at hw
    have hwalk := gives_walk_snoc (gives_walk hl hexact hx hpath hru) he hu hw hidu.symm hidw.symm
      hproof
    rw [hpu] at hwalk
    exact (gives_unit_snoc u.side hwalk).mono fun source h ↦ ⟨h.1, path, hpath, h.2⟩
  · intro path hpath
    rw [← hidw] at hw
    have hwalk := gives_walk hl hexact hx hpath hrw
    rw [hpw] at hwalk
    exact (gives_unit w.side hl hw hwalk).mono fun target h ↦ ⟨h.1, path, hpath, h.2⟩
  · rintro source target left right ⟨hsource, hbeyond⟩ ⟨htarget, hshows⟩ hleft hright
    exact hpost source target left right ⟨hsource, htarget, hbeyond, hshows⟩ hleft hright

/-- With the default key the two units fit. -/
theorem gives_proof (hl : x.skeleton.Labelled rules) (hkey : x.config.key = Term.pretty)
    (hexact : x.skeleton.Exact) (hx : x.skeleton.IsForest)
    (hroot : ∀ s : Side, ∃ v, x.skeleton.vertices[s.root]? = some v ∧
      v.pretty = s.pick lhs rhs) {e : Edge Recipe Evidence} {u w : Vertex Payload}
    (he : x.skeleton.edges[e.id]? = some e) (hu : x.skeleton.vertices[e.source]? = some u)
    (hw : x.skeleton.vertices[e.target]? = some w) (hside : w.side ≠ u.side) :
    BuildM.Gives (Keeps x.skeleton) (x.buildProof (.ofRules rules) e.id)
      fun r ↦ Joins rules x.skeleton e u w lhs rhs r.1 r.2.1 r.2.2 := by
  obtain ⟨_, _, hu', hw', hturns, hproof⟩ := hl.exists_of_edge hkey he
  obtain rfl := Option.some.inj (hu.symm.trans hu')
  obtain rfl := Option.some.inj (hw.symm.trans hw')
  apply BuildM.gives_iff_yields.mpr
  apply yields_proof hl hexact hx hroot he hu hw hside hproof
  intro source target left right hhalves hleft hright
  have hjoins := hhalves.joins hside hturns hleft hright
  refine ⟨(_, left, right), ?_, hjoins⟩
  rw [hjoins.joinUnits_eq hside]
  rfl

/-! ## Whole searches -/

/-- What the result of a search with rules says of the exploration and the focus that it ended
with. -/
def Reports (rules : List Rule) (x : Exploration Payload Recipe Evidence) (focus : Option Nat)
    (lhs rhs : Text) : Result Evidence → Prop
  | .proved p units _ => ∃ (e : Edge Recipe Evidence) (u w : Vertex Payload)
      (left right : ProofUnit Evidence), units = [left, right] ∧ x.meeting = some e.id ∧
      x.skeleton.edges[e.id]? = some e ∧ x.skeleton.vertices[e.source]? = some u ∧
      x.skeleton.vertices[e.target]? = some w ∧ w.side ≠ u.side ∧
      Joins rules x.skeleton e u w lhs rhs p left right
  | .exhausted _ => x.meeting = none ∧ focus = none ∧
      ∃ (y : Exploration Payload Recipe Evidence) (entries : List (Entry Payload)),
        y.next = (none, x, entries)
  | .aborted _ => True

variable {config : Config Payload} {focus : Option Nat}

/-- A proof can be built over the edge at which the sides of a search with rules meet. -/
theorem Reached.exists_proved (hkey : config.key = Term.pretty) (hne : lhs ≠ rhs)
    (h : Reached (.ofRules rules) config (.ofText lhs) (.ofText rhs) x focus) {m : Nat}
    (hm : x.meeting = some m) (tally : Tally) :
    ∃ result, ((Search.exploring x focus).prove (.ofRules rules) m tally).answer = .ok result ∧
      Reports rules x focus lhs rhs result := by
  have hkeyne := Config.key_ofText_ne hkey hne
  have hforest := (h.orderly hkeyne).forest
  obtain ⟨e, u, w, he, hu, hw, hside⟩ := hforest.apart hm
  obtain rfl : e.id = m := hforest.edge_id_eq he
  obtain ⟨⟨p, left, right⟩, ⟨edges, tally'⟩, hbuild, -, hjoins⟩ :=
    gives_proof (h.labelled hkeyne) (h.config_eq ▸ hkey)
      (h.exact hkeyne) hforest h.exists_root_pretty
      he hu hw hside (x.edges, tally) (keeps_skeleton x tally)
  refine ⟨.proved p [left, right] x.stats, ?_, e, u, w, left, right, rfl, hm, he, hu, hw, hside,
    hjoins⟩
  unfold Search.prove
  simp only [hbuild]

/-- What a search with rules over two different texts answers, and what it is then. -/
theorem exists_result_search (rules : List Rule) (hkey : config.key = Term.pretty) (hne : lhs ≠ rhs)
    (clock : Nat → Nat) (tally : Tally) : ∃ y g result edges,
      Reached (.ofRules rules) config (.ofText lhs) (.ofText rhs) y g ∧
      (Search.solve (.ofRules rules) clock config (.ofText lhs) (.ofText rhs) tally).answer
        = .ok result ∧
      (Search.solve (.ofRules rules) clock config (.ofText lhs) (.ofText rhs) tally).search
        = .exploring { y with edges } g ∧ Reports rules y g lhs rhs result := by
  have hkeyne := Config.key_ofText_ne hkey hne
  obtain ⟨y, g, t, answer, hy, hfit, hsolve, hsearch⟩ :=
    exists_reached_of_solve (e := .ofRules rules) hkeyne clock tally
  rcases answer with fault | ending
  · exact absurd hfit (hy.answer_ne_error hkeyne)
  · obtain ⟨edges, hedges⟩ := exists_search_conclude (e := .ofRules rules) y g ending t
    rw [← hsearch ending rfl] at hedges
    rcases ending with m | _ | _
    · obtain ⟨result, hresult, hreports⟩ := hy.exists_proved hkey hne hfit t
      exact ⟨y, g, result, edges, hy, hsolve.trans hresult, hedges, hreports⟩
    · exact ⟨y, g, _, edges, hy, hsolve, hedges, trivial⟩
    · exact ⟨y, g, _, edges, hy, hsolve, hedges, hfit⟩

/-- **A search with rules over two different texts always answers**, and its result reports what it
ended with. -/
theorem exists_result (rules : List Rule) (hkey : config.key = Term.pretty) (hne : lhs ≠ rhs)
    (clock : Nat → Nat) (tally : Tally) : ∃ y g result,
      Reached (.ofRules rules) config (.ofText lhs) (.ofText rhs) y g ∧
      (Search.solve (.ofRules rules) clock config (.ofText lhs) (.ofText rhs) tally).answer
        = .ok result ∧ Reports rules y g lhs rhs result := by
  obtain ⟨y, g, result, -, hy, hanswer, -, hreports⟩ :=
    exists_result_search rules hkey hne clock tally
  exact ⟨y, g, result, hy, hanswer, hreports⟩

end Exploration

namespace Search

theorem solve_agreed (rules : List Rule) (clock : Nat → Nat) {config : Config Payload}
    {lhs rhs : Text} (hkey : config.key (.ofText lhs) = config.key (.ofText rhs)) (tally : Tally) :
    (solve (.ofRules rules) clock config (.ofText lhs) (.ofText rhs) tally).answer
        = .ok (.proved (.equality ⟨lhs, lhs, []⟩) [] {}) ∧
      (solve (.ofRules rules) clock config (.ofText lhs) (.ofText rhs) tally).search
        = .agreed (.ofText lhs) := by
  obtain ⟨hanswer, hsearch, -⟩ :=
    Exploration.solve_of_key_eq (e := .ofRules rules) hkey clock tally
  exact ⟨hanswer, hsearch⟩

theorem solve_self (rules : List Rule) (clock : Nat → Nat) (config : Config Payload) (t : Text)
    (tally : Tally) :
    (solve (.ofRules rules) clock config (.ofText t) (.ofText t) tally).answer
      = .ok (.proved (.equality ⟨t, t, []⟩) [] {}) :=
  (solve_agreed rules clock rfl tally).1

/-- **Soundness of a search with rules.** A search always answers, and when it succeeds its proof
proves the goal: the steps of the left unit lead from `lhs` and those of the right unit from `rhs`
to one text `m`, and the reasons of the proof are those of the left steps, and then those of the
right steps turned round and read backwards. -/
theorem solve_sound (rules : List Rule) (clock : Nat → Nat) (config : Config Payload)
    (hkey : config.key = Term.pretty) (lhs rhs : Text) (tally : Tally) :
    ∃ result, (solve (.ofRules rules) clock config (.ofText lhs) (.ofText rhs) tally).answer
        = .ok result ∧
      (result.status = .success → ∃ p : Equality, result.proof? = some (.equality p) ∧
        p.lhs = lhs ∧ p.rhs = rhs ∧ (lhs = rhs → result.units = [] ∧ p.reasons = []) ∧
        (lhs ≠ rhs → ∃ left right m, result.units = [left, right] ∧
          left.side = .left ∧ right.side = .right ∧
          Chain rules lhs left.steps m ∧ Chain rules rhs right.steps m ∧
          left.proof = .equality ⟨lhs, m, reasonsOf left.steps⟩ ∧
          right.proof = .equality ⟨rhs, m, reasonsOf right.steps⟩ ∧
          p.reasons = joinedReasons left.steps right.steps)) := by
  by_cases hne : lhs = rhs
  · subst hne
    refine ⟨_, solve_self rules clock config lhs tally, ?_⟩
    intro _
    exact ⟨⟨lhs, lhs, []⟩, rfl, rfl, rfl, fun _ ↦ ⟨rfl, rfl⟩, fun h ↦ absurd rfl h⟩
  · obtain ⟨y, g, result, -, hanswer, hreports⟩ :=
      Exploration.exists_result rules hkey hne clock tally
    refine ⟨result, hanswer, ?_⟩
    intro hsuccess
    rcases result with ⟨p, units, stats⟩ | _ | _
    · obtain ⟨e, u, w, left, right, rfl, -, -, -, -, hside, hjoins⟩ := hreports
      obtain ⟨ps, hleft⟩ := hjoins.shows hside .left
      obtain ⟨qs, hright⟩ := hjoins.shows hside .right
      refine ⟨_, congrArg some hjoins.proof, rfl, rfl, fun h ↦ absurd h hne, fun _ ↦ ?_⟩
      exact ⟨left, right, w.pretty, rfl, hjoins.side .left, hjoins.side .right, hleft.chain,
        hright.chain, hleft.proof, hright.proof, rfl⟩
    · exact absurd hsuccess (by simp [Result.status])
    · exact absurd hsuccess (by simp [Result.status])

theorem solve_sound_swap : ∃ result p,
    (solve (.ofRules [{ name := utf8 "swap", lhs := utf8 "ba", rhs := utf8 "ab" }]) (fun _ ↦ 0) {}
      (.ofText (utf8 "bab")) (.ofText (utf8 "abb")) {}).answer = .ok result ∧
    result.status = .success ∧ result.proof? = some (.equality p) ∧
    p.lhs = utf8 "bab" ∧ p.rhs = utf8 "abb" := by
  obtain ⟨result, hanswer, hsound⟩ := solve_sound
    [{ name := utf8 "swap", lhs := utf8 "ba", rhs := utf8 "ab" }] (fun _ ↦ 0) {} rfl
    (utf8 "bab") (utf8 "abb") {}
  have hstatus : ((solve (.ofRules [{ name := utf8 "swap", lhs := utf8 "ba", rhs := utf8 "ab" }])
      (fun _ ↦ 0) {} (.ofText (utf8 "bab")) (.ofText (utf8 "abb")) {}).answer.toOption.map
      Result.status) = some .success := by decide +kernel
  rw [hanswer] at hstatus
  have hsuccess : result.status = .success := Option.some.inj hstatus
  obtain ⟨p, hp, hl, hr, -⟩ := hsound hsuccess
  exact ⟨result, p, hanswer, hsuccess, hp, hl, hr⟩

end Search

end Joinability
