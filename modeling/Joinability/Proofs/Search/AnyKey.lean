import Joinability.Key
import Joinability.Proofs.Search.Soundness

/-!
# Searching up to a key

A configuration may choose any canonical key, and the search then takes two texts for the same
vertex when their keys are equal. This file is about what that does to the proof of the goal.

In the trees nothing is blurred: a child is created with the very text that its edge makes, whatever
the key. Only the edge at which the sides meet leads to a vertex that was there before, and so to a
text that may differ from the one it makes. The unit of its source then ends at the text that the
edge makes, and the unit of its target at the text of the target.

## Where the two texts meet

When the target is a root, its unit has no steps and is left out. The proof then ends at the text
that the edge makes, which has the key of the goal text but need not be that text. When the target
is any other vertex, the two units are chained, which compares their texts and not their keys. So a
search over a key that is not injective can fail, with the fault of a chain that does not fit, and
`Exploration.Mismatches` says exactly when it does.
-/

namespace Joinability

variable {rules : List Rule}

/-! ## Units that need not fit -/

namespace Halves

variable {k : Skeleton Payload Recipe Evidence} {e : Edge Recipe Evidence} {u w : Vertex Payload}
  {after lhs rhs : Text} {source target left right : ProofUnit Evidence}

theorem source_ne_nil (h : Halves rules k e u w after lhs rhs source target) :
    source.steps ≠ [] := by
  obtain ⟨path, -, hbeyond⟩ := h.source
  obtain ⟨steps, -, -, hsteps⟩ := hbeyond.steps
  rw [hsteps]
  simp

theorem target_eq_nil_iff (h : Halves rules k e u w after lhs rhs source target) :
    target.steps = [] ↔ w.isRoot = true := by
  obtain ⟨path, htrail, hshows⟩ := h.target
  rw [htrail.isRoot_iff, ← hshows.edges, List.map_eq_nil_iff]

/-- Where the target is a root, the proof is the unit of the source alone. It begins or ends at the
text that the meeting edge makes. -/
theorem joinUnits_of_isRoot (h : Halves rules k e u w after lhs rhs source target)
    (hroot : w.isRoot = true) (hleft : left = u.side.pick source target)
    (hright : right = u.side.pick target source) :
    ∃ p : Equality, joinUnits (.ofRules rules) left right = .ok (.equality p) ∧
      u.side.pick p.lhs p.rhs = u.side.pick lhs rhs ∧ u.side.opposite.pick p.lhs p.rhs = after := by
  have hnil := h.target_eq_nil_iff.mpr hroot
  have hne := h.source_ne_nil
  obtain ⟨_, -, hsource⟩ := h.source
  obtain ⟨_, -, htarget⟩ := h.target
  cases hside : u.side with
  | left =>
    rw [hside] at hleft hright hsource
    subst hleft hright
    exact ⟨_, (joinUnits_equality hsource.proof htarget.proof).trans (if_pos hnil), rfl, rfl⟩
  | right =>
    rw [hside] at hleft hright hsource
    subst hleft hright
    have hjoin : joinUnits (.ofRules rules) left right = _ :=
      joinUnits_equality htarget.proof hsource.proof
    exact ⟨_, hjoin.trans ((if_neg hne).trans (if_pos hnil)), rfl, rfl⟩

/-- Where the target is no root, chaining the units compares the text that the meeting edge makes
with that of the target, from left to right. -/
theorem joinUnits_of_ne (h : Halves rules k e u w after lhs rhs source target)
    (hroot : w.isRoot = false) (hne : after ≠ w.pretty) (hleft : left = u.side.pick source target)
    (hright : right = u.side.pick target source) :
    joinUnits (.ofRules rules) left right
      = .error (.chainMismatch (u.side.pick after w.pretty) (u.side.pick w.pretty after)) := by
  have htargetne : target.steps ≠ [] := by
    rw [Ne, h.target_eq_nil_iff, hroot]
    simp
  have hsourcene := h.source_ne_nil
  obtain ⟨_, -, hsource⟩ := h.source
  obtain ⟨_, -, htarget⟩ := h.target
  cases hside : u.side with
  | left =>
    rw [hside] at hleft hright
    subst hleft hright
    have hjoin : joinUnits (.ofRules rules) left right = _ :=
      joinUnits_equality hsource.proof htarget.proof
    rw [if_neg htargetne, if_neg hsourcene, Equality.trans_of_ne hne] at hjoin
    exact hjoin
  | right =>
    rw [hside] at hleft hright
    subst hleft hright
    have hjoin : joinUnits (.ofRules rules) left right = _ :=
      joinUnits_equality htarget.proof hsource.proof
    rw [if_neg hsourcene, if_neg htargetne, Equality.trans_of_ne (Ne.symm hne)] at hjoin
    exact hjoin

end Halves

/-! ## What comes of putting the units together -/

/-- What a proof that was asked for can be when texts are told apart by a key: no proof; a proof
whose ends have the keys of the goal texts; or, under the condition `mismatch` and only then, a
fault that names two different texts with the same key. -/
def ProvesUpTo (key : Term Payload → Text) (lhs rhs : Text) (mismatch : Prop) :
    Except Fault (Option Evidence) → Prop
  | .ok proof? => ¬mismatch ∧ ∀ proof, proof? = some proof → ∃ p : Equality, proof = .equality p ∧
      key (.ofText p.lhs) = key (.ofText lhs) ∧ key (.ofText p.rhs) = key (.ofText rhs)
  | .error fault => mismatch ∧ ∃ s t, fault = .chainMismatch s t ∧ s ≠ t ∧
      key (.ofText s) = key (.ofText t)

theorem provesUpTo_equality {key : Term Payload → Text} {lhs rhs : Text} {mismatch : Prop}
    (hmismatch : ¬mismatch) {p : Equality} (hlhs : key (.ofText p.lhs) = key (.ofText lhs))
    (hrhs : key (.ofText p.rhs) = key (.ofText rhs)) :
    ProvesUpTo key lhs rhs mismatch (.ok (some (.equality p))) := by
  refine ⟨hmismatch, ?_⟩
  rintro _ ⟨⟩
  exact ⟨p, rfl, hlhs, hrhs⟩

/-- What this says of the answer of a search. -/
theorem ProvesUpTo.answer {key : Term Payload → Text} {lhs rhs : Text} {mismatch : Prop}
    {answer : Except Fault (Result Evidence)}
    (h : ProvesUpTo key lhs rhs mismatch (answer.map Result.proof?)) :
    (∀ result, answer = .ok result → result.status = .success →
      ∃ p : Equality, result.proof? = some (.equality p) ∧
        key (.ofText p.lhs) = key (.ofText lhs) ∧ key (.ofText p.rhs) = key (.ofText rhs)) ∧
    (∀ fault, answer = .error fault → ∃ s t, fault = .chainMismatch s t ∧ s ≠ t ∧
      key (.ofText s) = key (.ofText t)) ∧
    ((∃ fault, answer = .error fault) ↔ mismatch) := by
  rcases answer with fault | result
  · obtain ⟨hmismatch, hfault⟩ := h
    refine ⟨by simp, ?_, iff_of_true ⟨fault, rfl⟩ hmismatch⟩
    rintro _ ⟨⟩
    exact hfault
  · obtain ⟨hmismatch, hproof⟩ := h
    refine ⟨?_, by simp, iff_of_false (by simp) hmismatch⟩
    rintro _ ⟨⟩ hsuccess
    rcases result with ⟨proof, units, stats⟩ | _ | _
    · obtain ⟨p, rfl, hp⟩ := hproof proof rfl
      exact ⟨p, rfl, hp⟩
    · exact absurd hsuccess (by simp [Result.status])
    · exact absurd hsuccess (by simp [Result.status])

theorem Halves.provesUpTo {k : Skeleton Payload Recipe Evidence} {e : Edge Recipe Evidence}
    {u w : Vertex Payload} {after lhs rhs : Text} {source target left right : ProofUnit Evidence}
    (h : Halves rules k e u w after lhs rhs source target) (hside : w.side ≠ u.side)
    (hturns : e.use.Turns rules u.pretty after) {key : Term Payload → Text}
    (hkey : key (.ofText after) = key (.ofText w.pretty)) (hleft : left = u.side.pick source target)
    (hright : right = u.side.pick target source) :
    ProvesUpTo key lhs rhs (w.isRoot = false ∧ after ≠ w.pretty)
      ((joinUnits (.ofRules rules) left right).map some) := by
  by_cases hexact : after = w.pretty
  · subst hexact
    rw [(h.joins hside hturns hleft hright).joinUnits_eq hside]
    exact provesUpTo_equality (fun hmismatch ↦ hmismatch.2 rfl) rfl rfl
  · cases hroot : w.isRoot with
    | false =>
      rw [h.joinUnits_of_ne hroot hexact hleft hright]
      refine ⟨⟨rfl, hexact⟩, _, _, rfl, ?_⟩
      cases u.side with
      | left => exact ⟨hexact, hkey⟩
      | right => exact ⟨Ne.symm hexact, hkey.symm⟩
    | true =>
      obtain ⟨p, hjoin, hnear, hfar⟩ := h.joinUnits_of_isRoot hroot hleft hright
      rw [hjoin]
      -- the goal text on the side of the target is the text of that root
      have hgoal : w.side.pick lhs rhs = w.pretty := by
        obtain ⟨_, -, htarget⟩ := h.target
        exact htarget.eq_of_nil (h.target_eq_nil_iff.mpr hroot)
      rw [Side.eq_opposite_of_ne hside] at hgoal
      rw [← hfar, ← hgoal] at hkey
      cases hu : u.side with
      | left =>
        rw [hu] at hnear hkey
        exact provesUpTo_equality (by simp) (congrArg (key ∘ .ofText) hnear) hkey
      | right =>
        rw [hu] at hnear hkey
        exact provesUpTo_equality (by simp) hkey (congrArg (key ∘ .ofText) hnear)

namespace Exploration

variable {x : Exploration Payload Recipe Evidence} {lhs rhs : Text} {config : Config Payload}
  {focus : Option Nat}

/-- The edge at which the sides meet leads to a vertex that is no root, and makes a text that is not
the text of this vertex. -/
def Mismatches (rules : List Rule) (x : Exploration Payload Recipe Evidence) : Prop :=
  ∃ (e : Edge Recipe Evidence) (u w : Vertex Payload) (after : Text), x.meeting = some e.id ∧
    x.edges.items[e.id]? = some e ∧ x.vertices.items[e.source]? = some u ∧
    x.vertices.items[e.target]? = some w ∧ w.isRoot = false ∧ e.use.Turns rules u.pretty after ∧
    after ≠ w.pretty

/-- Building proofs does not change whether the meeting edge misses the text of its target. -/
theorem mismatches_iff {edges : Edges Recipe Evidence} {tally : Tally}
    (hkeeps : Keeps x.skeleton (edges, tally)) {e : Edge Recipe Evidence} {u w : Vertex Payload}
    (hm : x.meeting = some e.id) (he : x.skeleton.edges[e.id]? = some e)
    (hu : x.skeleton.vertices[e.source]? = some u) (hw : x.skeleton.vertices[e.target]? = some w)
    {after : Text} (hturns : e.use.Turns rules u.pretty after) :
    ({ x with edges } : Exploration Payload Recipe Evidence).Mismatches rules
      ↔ w.isRoot = false ∧ after ≠ w.pretty := by
  obtain ⟨e', he', harc, -⟩ := hkeeps e.id e he
  obtain ⟨u', hu', rfl⟩ := exists_of_getElem?_skeleton hu
  obtain ⟨w', hw', rfl⟩ := exists_of_getElem?_skeleton hw
  have hid : e'.id = e.id := congrArg Arc.id harc
  have hsource : e'.source = e.source := congrArg Arc.source harc
  have htarget : e'.target = e.target := congrArg Arc.target harc
  have huse : e'.use = e.use := congrArg Arc.use harc
  constructor
  · rintro ⟨f, a, b, after', hf, hf', ha, hb, hroot, hturns', hne⟩
    obtain hfid : f.id = e.id := Option.some.inj (hf.symm.trans hm)
    rw [hfid] at hf'
    obtain rfl := Option.some.inj (hf'.symm.trans he')
    rw [hsource] at ha
    rw [htarget] at hb
    obtain rfl := Option.some.inj (ha.symm.trans hu')
    obtain rfl := Option.some.inj (hb.symm.trans hw')
    rw [huse] at hturns'
    obtain rfl := hturns.unique hturns'
    exact ⟨hroot, hne⟩
  · rintro ⟨hroot, hne⟩
    refine ⟨e', u', w', after, ?_, ?_, ?_, ?_, hroot, ?_, hne⟩
    · rw [hid]
      exact hm
    · rw [hid]
      exact he'
    · rw [hsource]
      exact hu'
    · rw [htarget]
      exact hw'
    · rw [huse]
      exact hturns

/-! ## Whole searches -/

/-- What comes of building the proof over the edge at which the sides have met. -/
theorem Reached.provesUpTo (hne : config.key (.ofText lhs) ≠ config.key (.ofText rhs))
    (h : Reached (.ofRules rules) config (.ofText lhs) (.ofText rhs) x focus) {m : Nat}
    (hm : x.meeting = some m) (tally : Tally) :
    let reply := (Search.exploring x focus).prove (.ofRules rules) m tally
    ProvesUpTo config.key lhs rhs (∃ y g, reply.search = .exploring y g ∧ y.Mismatches rules)
      (reply.answer.map Result.proof?) := by
  have hforest := (h.orderly hne).forest
  have hlabelled := h.labelled hne
  obtain ⟨e, u, w, he, hu, hw, hside⟩ := hforest.apart hm
  obtain rfl : e.id = m := hforest.edge_id_eq he
  obtain ⟨u', w', after, hu', hw', hturns, hproof, hkey⟩ := hlabelled.edge he
  obtain rfl := Option.some.inj (hu.symm.trans hu')
  obtain rfl := Option.some.inj (hw.symm.trans hw')
  rw [hlabelled.term hw, key_skeleton, h.config_eq] at hkey
  have hyields : BuildM.Yields (Keeps x.skeleton) (x.buildProof (.ofRules rules) e.id) fun answer ↦
      ProvesUpTo config.key lhs rhs (w.isRoot = false ∧ after ≠ w.pretty)
        (answer.map fun r ↦ some r.1) := by
    apply yields_proof hlabelled (h.exact hne) hforest h.exists_root_pretty he hu hw hside hproof
    intro source target left right hhalves hleft hright
    have hproves := hhalves.provesUpTo hside hturns hkey hleft hright
    cases hjoin : joinUnits (.ofRules rules) left right with
    | error fault => rwa [hjoin] at hproves
    | ok p => rwa [hjoin] at hproves
  obtain ⟨answer, ⟨edges, tally'⟩, hbuild, hkeeps, hproves⟩ :=
    hyields (x.edges, tally) (keeps_skeleton x tally)
  have hiff :
      (∃ y g, (Search.exploring { x with edges } focus) = .exploring y g ∧ y.Mismatches rules)
      ↔ w.isRoot = false ∧ after ≠ w.pretty := by
    rw [← mismatches_iff hkeeps hm he hu hw hturns]
    constructor
    · rintro ⟨_, _, ⟨⟩, hmismatch⟩
      exact hmismatch
    · intro hmismatch
      exact ⟨_, _, rfl, hmismatch⟩
  rw [← hiff] at hproves
  unfold Search.prove
  rcases answer with fault | ⟨p, left, right⟩
  · simp only [hbuild]
    exact hproves
  · simp only [hbuild]
    exact hproves

/-- What comes of a search over two texts, whatever their keys. -/
theorem solve_provesUpTo (rules : List Rule) (clock : Nat → Nat) (config : Config Payload)
    (lhs rhs : Text) (tally : Tally) :
    let reply := Search.solve (.ofRules rules) clock config (.ofText lhs) (.ofText rhs) tally
    ProvesUpTo config.key lhs rhs
      (∃ x focus, reply.search = .exploring x focus ∧ x.Mismatches rules)
      (reply.answer.map Result.proof?) := by
  intro reply
  by_cases hkey : config.key (.ofText lhs) = config.key (.ofText rhs)
  · obtain ⟨hanswer, hsearch⟩ := Search.solve_agreed rules clock hkey tally
    rw [show reply.answer = _ from hanswer, show reply.search = _ from hsearch]
    apply provesUpTo_equality _ rfl hkey
    rintro ⟨x, focus, hx, -⟩
    exact absurd hx (by simp)
  · obtain ⟨x, focus, t, answer, hx, hfit, hsolve, hsearch⟩ :=
      exists_reached_of_solve (e := .ofRules rules) hkey clock tally
    rcases answer with fault | ending
    · exact absurd hfit (hx.answer_ne_error hkey)
    · rw [show reply.answer = _ from hsolve, show reply.search = _ from hsearch ending rfl]
      -- without a meeting edge there is nothing that could mismatch, and nothing to prove
      have hquiet (hm : x.meeting = none) : ¬∃ y g,
          (Search.exploring x focus : Search Payload Recipe Evidence) = .exploring y g ∧
            y.Mismatches rules := by
        rintro ⟨y, g, hy, e, u, w, after, he, -⟩
        obtain ⟨rfl, -⟩ := Search.exploring.inj hy
        rw [hm] at he
        exact absurd he (by simp)
      cases ending with
      | met m => exact hx.provesUpTo hkey hfit t
      | aborted => exact ⟨hquiet hfit, by simp [Result.proof?]⟩
      | exhausted => exact ⟨hquiet hfit.1, by simp [Result.proof?]⟩

end Exploration

namespace Search

/-- **Searching up to a key**, whatever the key, the configuration and the rules. A proof that is
found ends at texts with the keys of the goal texts. The only fault is that of a chain whose texts
differ although they have the same key, and the search ends with it exactly when its meeting edge
misses the text of a vertex that is no root. -/
theorem solve_upToKey (rules : List Rule) (clock : Nat → Nat) (config : Config Payload)
    (lhs rhs : Text) (tally : Tally) :
    let reply := solve (.ofRules rules) clock config (.ofText lhs) (.ofText rhs) tally
    (∀ result, reply.answer = .ok result → result.status = .success →
      ∃ p : Equality, result.proof? = some (.equality p) ∧
        config.key (.ofText p.lhs) = config.key (.ofText lhs) ∧
        config.key (.ofText p.rhs) = config.key (.ofText rhs)) ∧
    (∀ fault, reply.answer = .error fault → ∃ s t, fault = .chainMismatch s t ∧ s ≠ t ∧
      config.key (.ofText s) = config.key (.ofText t)) ∧
    ((∃ fault, reply.answer = .error fault) ↔
      ∃ x focus, reply.search = .exploring x focus ∧ x.Mismatches rules) :=
  (Exploration.solve_provesUpTo rules clock config lhs rhs tally).answer

/-- Over keys in lower case, a search from `a` and `d` takes the `B` that it makes of `a` and the
`b` that it makes of `d` for one vertex, and fails where it chains the two texts. -/
theorem solve_lowercase_fails : ∃ fault,
    (solve (.ofRules [{ name := utf8 "r1", lhs := utf8 "a", rhs := utf8 "B", symmetric := false },
        { name := utf8 "r2", lhs := utf8 "d", rhs := utf8 "b", symmetric := false }]) (fun _ ↦ 0)
      { key := Key.lowercase } (.ofText (utf8 "a")) (.ofText (utf8 "d")) {}).answer
      = .error fault ∧ fault.kind = .invariant :=
  ⟨.chainMismatch (utf8 "B") (utf8 "b"), by decide +kernel, rfl⟩

end Search

end Joinability
