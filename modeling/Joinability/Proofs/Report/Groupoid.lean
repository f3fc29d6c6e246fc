import Joinability.Proofs.Report.Reasons
import Joinability.Proofs.Rewriting.Enumeration

/-!
# How proofs compose

Proofs of equalities are paths between texts. Chaining is defined where one path ends and the next
begins, and there it is associative, with the proofs that take no step as units. Turning round
reverses a chain.

Turning round twice gives back a proof only if its reasons are marked at most once. A reason that
begins with two marks loses the first of them when it is turned round, and the second one when it is
turned round again, where any other reason gets its mark back
(`Equality.turnReason_turnReason_iff`). The combinators keep proofs in this normal form, and the
steps of rules have it unless the name of a rule itself begins with a mark. So turning round is an
involution on all that can be had from the engine, however it was put together.
-/

namespace Joinability

/-! ## Paths -/

namespace Equality

variable {p q r s : Equality}

/-- Two chains that are bracketed differently are defined for the same proofs, and are the same
there. -/
theorem exists_trans_assoc : (∃ pq, p.trans q = .ok pq ∧ pq.trans r = .ok s) ↔
    ∃ qr, q.trans r = .ok qr ∧ p.trans qr = .ok s := by
  simp only [trans_eq_ok_iff]
  constructor
  · rintro ⟨_, ⟨hpq, rfl⟩, hqr, rfl⟩
    exact ⟨_, ⟨hqr, rfl⟩, hpq, by rw [List.append_assoc]⟩
  · rintro ⟨_, ⟨hqr, rfl⟩, hpq, rfl⟩
    exact ⟨_, ⟨hpq, rfl⟩, hqr, by rw [List.append_assoc]⟩

theorem refl_trans (p : Equality) : (refl p.lhs).trans p = .ok p := trans_eq_ok_iff.mpr ⟨rfl, rfl⟩

theorem trans_refl (p : Equality) : p.trans (refl p.rhs) = .ok p :=
  trans_eq_ok_iff.mpr ⟨rfl, by rw [reasons_refl, List.append_nil, rhs_refl]⟩

theorem symm_trans_eq_ok_iff :
    (∃ pq, p.trans q = .ok pq ∧ pq.symm = s) ↔ q.symm.trans p.symm = .ok s := by
  simp only [trans_eq_ok_iff, lhs_symm, rhs_symm, reasons_symm]
  constructor
  · rintro ⟨_, ⟨h, rfl⟩, rfl⟩
    exact ⟨h.symm, by rw [symm, List.reverse_append, List.map_append]⟩
  · rintro ⟨h, rfl⟩
    exact ⟨_, ⟨h.symm, rfl⟩, by rw [symm, List.reverse_append, List.map_append]⟩

/-! ## Marks -/

/-- A reason with at most one mark in front. -/
def IsMarkedOnce (reason : Text) : Prop := ¬backwardMark ++ backwardMark <+: reason

/-- A proof all of whose reasons have at most one mark in front. -/
def IsNormal (p : Equality) : Prop := ∀ reason ∈ p.reasons, IsMarkedOnce reason

variable {t : Text}

theorem turnReason_append (t : Text) : turnReason (backwardMark ++ t) = t := by
  rw [turnReason, if_pos (List.isPrefixOf_iff_prefix.mpr (List.prefix_append _ t)), List.drop_left]

theorem turnReason_of_unmarked (h : ¬backwardMark <+: t) : turnReason t = backwardMark ++ t := by
  rw [turnReason, if_neg (by rwa [List.isPrefixOf_iff_prefix])]

theorem isMarkedOnce_append_iff : IsMarkedOnce (backwardMark ++ t) ↔ ¬backwardMark <+: t := by
  rw [IsMarkedOnce, List.prefix_append_right_inj]

theorem isMarkedOnce_of_unmarked (h : ¬backwardMark <+: t) : IsMarkedOnce t :=
  fun hmarks ↦ h ((List.prefix_append _ _).trans hmarks)

/-- A reason is the same again after two turns exactly when it has at most one mark. -/
theorem turnReason_turnReason_iff : turnReason (turnReason t) = t ↔ IsMarkedOnce t := by
  by_cases hmark : backwardMark <+: t
  · obtain ⟨u, rfl⟩ := hmark
    rw [turnReason_append, isMarkedOnce_append_iff]
    by_cases hmarks : backwardMark <+: u
    · -- the second turn takes a mark away instead of giving one back
      obtain ⟨v, rfl⟩ := hmarks
      have hne : v ≠ backwardMark ++ (backwardMark ++ v) := by
        intro h
        have hlength := congrArg List.length h
        have hpos : 0 < backwardMark.length := by decide
        rw [List.length_append, List.length_append] at hlength
        omega
      rw [turnReason_append]
      exact iff_of_false hne fun h ↦ h (List.prefix_append _ v)
    · exact iff_of_true (turnReason_of_unmarked hmarks) hmarks
  · rw [turnReason_of_unmarked hmark, turnReason_append]
    exact iff_of_true rfl (isMarkedOnce_of_unmarked hmark)

theorem IsMarkedOnce.turnReason (h : IsMarkedOnce t) : IsMarkedOnce (turnReason t) := by
  by_cases hmark : backwardMark <+: t
  · obtain ⟨u, rfl⟩ := hmark
    rw [turnReason_append]
    exact isMarkedOnce_of_unmarked (isMarkedOnce_append_iff.mp h)
  · rw [turnReason_of_unmarked hmark]
    exact isMarkedOnce_append_iff.mpr hmark

/-- Turning round is an involution exactly on the proofs in normal form. -/
theorem symm_symm_iff : p.symm.symm = p ↔ p.IsNormal := by
  have hreasons : p.symm.symm.reasons = p.reasons.map fun t ↦ turnReason (turnReason t) := by
    rw [reasons_symm, reasons_symm, ← List.map_reverse, List.reverse_reverse, List.map_map]
    rfl
  constructor
  · intro h t ht
    have hmap : p.reasons.map (fun t ↦ turnReason (turnReason t)) = p.reasons.map id := by
      rw [← hreasons, h, List.map_id]
    exact turnReason_turnReason_iff.mp (List.map_inj_left.mp hmap t ht)
  · intro h
    have hmap : p.symm.symm.reasons = p.reasons := by
      rw [hreasons, List.map_congr_left fun t ht ↦ turnReason_turnReason_iff.mpr (h t ht),
        List.map_id']
    calc p.symm.symm = ⟨p.lhs, p.rhs, p.symm.symm.reasons⟩ := rfl
      _ = p := by rw [hmap]

theorem isNormal_refl (t : Text) : (refl t).IsNormal := fun _ h ↦ absurd h List.not_mem_nil

theorem IsNormal.symm (h : p.IsNormal) : p.symm.IsNormal := by
  intro reason hreason
  rw [reasons_symm] at hreason
  obtain ⟨t, ht, rfl⟩ := List.mem_map.mp hreason
  exact (h t (List.mem_reverse.mp ht)).turnReason

theorem IsNormal.trans (hp : p.IsNormal) (hq : q.IsNormal) (h : p.trans q = .ok r) :
    r.IsNormal := by
  obtain ⟨-, rfl⟩ := trans_eq_ok_iff.mp h
  exact fun reason hreason ↦ (List.mem_append.mp hreason).elim (hp reason) (hq reason)

end Equality

theorem RuleUse.isMarkedOnce_reason {u : RuleUse} (h : ¬backwardMark <+: u.name) :
    Equality.IsMarkedOnce u.reason := by
  rw [reason_eq_reference, reference]
  by_cases hrev : u.reversed = true
  · rw [if_pos hrev]
    exact Equality.isMarkedOnce_append_iff.mpr (unmarked_append h)
  · rw [if_neg hrev]
    exact Equality.isMarkedOnce_of_unmarked (unmarked_append h)

/-! ## What an engine proves -/

namespace Evidence

variable {p q : Equality}

theorem transitivity_equality_eq_error_iff {f : Fault} :
    transitivity (.equality p) (.equality q) = .error f ↔
      p.rhs ≠ q.lhs ∧ .chainMismatch p.rhs q.lhs = f := by
  show (p.trans q >>= fun r ↦ Except.ok (equality r)) = .error f ↔ _
  by_cases h : p.rhs = q.lhs
  · rw [Equality.trans_eq_ok_iff.mpr ⟨h, rfl⟩]
    exact iff_of_false nofun fun hne ↦ hne.1 h
  · rw [Equality.trans_of_ne h]
    exact ⟨fun hf ↦ ⟨h, Except.error.inj hf⟩, fun hf ↦ congrArg Except.error hf.2⟩

theorem transitivity_assoc (p q r : Equality) (x : Evidence) :
    (do transitivity (← transitivity (.equality p) (.equality q)) (.equality r)) = .ok x ↔
      (do transitivity (.equality p) (← transitivity (.equality q) (.equality r))) = .ok x := by
  simp only [bind_eq_ok_iff, transitivity_equality_eq_ok_iff]
  constructor
  · rintro ⟨_, ⟨pq, hpq, rfl⟩, hr⟩
    obtain ⟨s, hs, rfl⟩ := transitivity_equality_eq_ok_iff.mp hr
    obtain ⟨qr, hqr, hp⟩ := Equality.exists_trans_assoc.mp ⟨pq, hpq, hs⟩
    exact ⟨_, ⟨qr, hqr, rfl⟩, transitivity_equality_eq_ok_iff.mpr ⟨s, hp, rfl⟩⟩
  · rintro ⟨_, ⟨qr, hqr, rfl⟩, hp⟩
    obtain ⟨s, hs, rfl⟩ := transitivity_equality_eq_ok_iff.mp hp
    obtain ⟨pq, hpq, hr⟩ := Equality.exists_trans_assoc.mpr ⟨qr, hqr, hs⟩
    exact ⟨_, ⟨pq, hpq, rfl⟩, transitivity_equality_eq_ok_iff.mpr ⟨s, hr, rfl⟩⟩

theorem reflexivity_transitivity (p : Equality) :
    (do transitivity (← reflexivity (.ofText p.lhs)) (.equality p)) = .ok (.equality p) :=
  bind_eq_ok_iff.mpr
    ⟨_, rfl, transitivity_equality_eq_ok_iff.mpr ⟨p, Equality.refl_trans p, rfl⟩⟩

theorem transitivity_reflexivity (p : Equality) :
    (do transitivity (.equality p) (← reflexivity (.ofText p.rhs))) = .ok (.equality p) :=
  bind_eq_ok_iff.mpr
    ⟨_, rfl, transitivity_equality_eq_ok_iff.mpr ⟨p, Equality.trans_refl p, rfl⟩⟩

theorem symmetry_transitivity (p q : Equality) (x : Evidence) :
    (do symmetry (← transitivity (.equality p) (.equality q))) = .ok x ↔
      (do transitivity (← symmetry (.equality q)) (← symmetry (.equality p))) = .ok x := by
  rw [bind_eq_ok_iff]
  show _ ↔ transitivity (.equality q.symm) (.equality p.symm) = .ok x
  rw [transitivity_equality_eq_ok_iff]
  constructor
  · rintro ⟨y, hy, hx⟩
    obtain ⟨pq, hpq, rfl⟩ := transitivity_equality_eq_ok_iff.mp hy
    exact ⟨pq.symm, Equality.symm_trans_eq_ok_iff.mp ⟨pq, hpq, rfl⟩, Except.ok.inj hx⟩
  · rintro ⟨s, hs, rfl⟩
    obtain ⟨pq, hpq, rfl⟩ := Equality.symm_trans_eq_ok_iff.mpr hs
    exact ⟨_, transitivity_equality_eq_ok_iff.mpr ⟨pq, hpq, rfl⟩, rfl⟩

theorem symmetry_symmetry {p : Equality} (h : p.IsNormal) :
    (do symmetry (← symmetry (.equality p))) = .ok (.equality p) :=
  congrArg (fun q ↦ Except.ok (equality q)) (Equality.symm_symm_iff.mpr h)

end Evidence

namespace Engine

variable {σ α τ π : Type}

/-- The proofs that can be had from an engine: those of the steps that it lists for some vertex, and
all that its combinators make of these. -/
inductive Obtainable (e : Engine σ α τ π) : π → Prop
  /-- The proof of a step, whenever its recipe is followed. -/
  | step {v : Vertex α} {cursor : Nat} {s s' t t' : σ} {r : Reduct α τ} {recipe : τ} {p : π}
    (hr : e.tryNext v cursor s = (.ok (some r), s')) (hrecipe : r.recipe = some recipe)
    (hp : e.prove recipe t = (.ok p, t')) : Obtainable e p
  | reflexivity {t : Term α} {p : π} (hp : e.reflexivity t = .ok p) : Obtainable e p
  | symmetry {p q : π} (h : Obtainable e p) (hq : e.symmetry p = .ok q) : Obtainable e q
  | transitivity {p q r : π} (hp : Obtainable e p) (hq : Obtainable e q)
    (hr : e.transitivity p q = .ok r) : Obtainable e r

variable {rules : List Rule}

/-- The proof of a step quotes a rule by a use of it. -/
theorem exists_use_of_step {v : Vertex Payload} {cursor : Nat} {s s' t t' : Tally}
    {r : Reduct Payload Recipe} {recipe : Recipe} {x : Evidence}
    (hr : (ofRules rules).tryNext v cursor s = (.ok (some r), s'))
    (hrecipe : r.recipe = some recipe) (hx : (ofRules rules).prove recipe t = (.ok x, t')) :
    ∃ (before after : Text) (u : RuleUse),
      x = .equality ⟨before, after, [u.reason]⟩ ∧ ∃ rule ∈ rules, u.name = rule.name := by
  rcases htext : v.term.text with fault | text
  · have hfails : (ofRules rules).tryNext v cursor s = (.error fault, s) := by
      show (v.term.text.map _, s) = _
      rw [htext]
      rfl
    exact absurd (hfails.symm.trans hr) (by simp)
  · rw [tryNext_of_text htext] at hr
    obtain ⟨site, hsite, rfl⟩ := Option.map_eq_some_iff.mp (Except.ok.inj (Prod.mk.inj hr).1)
    obtain rfl := Option.some.inj hrecipe
    obtain rfl := Except.ok.inj (Prod.mk.inj hx).1
    exact ⟨text, site.result text, site.use, rfl,
      (turns_of_site (List.mem_of_getElem? hsite)).mem_name⟩

/-- Nothing but equalities in normal form can be had from the engine of rules that are not named
like marked ones. -/
theorem Obtainable.exists_isNormal (hnames : ∀ rule ∈ rules, ¬backwardMark <+: rule.name)
    {x : Evidence} (h : (ofRules rules).Obtainable x) :
    ∃ p : Equality, x = .equality p ∧ p.IsNormal := by
  induction h with
  | step hr hrecipe hp =>
    obtain ⟨before, after, u, rfl, rule, hrule, hname⟩ := exists_use_of_step hr hrecipe hp
    refine ⟨_, rfl, fun reason hreason ↦ ?_⟩
    rw [List.mem_singleton.mp hreason]
    exact RuleUse.isMarkedOnce_reason (hname ▸ hnames rule hrule)
  | @reflexivity t x hx =>
    obtain ⟨text, -, hx⟩ := bind_eq_ok_iff.mp hx
    obtain rfl := Except.ok.inj hx
    exact ⟨_, rfl, Equality.isNormal_refl text⟩
  | symmetry _ hq ih =>
    obtain ⟨p, rfl, hp⟩ := ih
    obtain rfl := Except.ok.inj hq
    exact ⟨_, rfl, hp.symm⟩
  | transitivity _ _ hr ihp ihq =>
    obtain ⟨p, rfl, hp⟩ := ihp
    obtain ⟨q, rfl, hq⟩ := ihq
    obtain ⟨r, htrans, rfl⟩ := Evidence.transitivity_equality_eq_ok_iff.mp hr
    exact ⟨r, rfl, hp.trans hq htrans⟩

/-- **Proofs form a groupoid.** The engine chains two equalities exactly when the first one ends
where the second begins, and refuses all others as ends that do not fit. Where chains are defined
they are associative, the proof that a text equals itself is a unit on either side, and a chain is
turned round by turning round its parts in the other order. If no rule has a name that begins with
the mark of a direction, all that can be had from the engine are equalities whose reasons have at
most one mark, and turning such a proof round twice gives it back. -/
theorem combinators_groupoid (rules : List Rule) (p q r : Equality) :
    let e := ofRules rules
    ((∃ f, e.transitivity (.equality p) (.equality q) = .error f) ↔ p.rhs ≠ q.lhs) ∧
    (∀ f, e.transitivity (.equality p) (.equality q) = .error f → f.kind = .invariant) ∧
    (∀ x, (do e.transitivity (← e.transitivity (.equality p) (.equality q)) (.equality r)) = .ok x ↔
      (do e.transitivity (.equality p) (← e.transitivity (.equality q) (.equality r))) = .ok x) ∧
    (do e.transitivity (← e.reflexivity (.ofText p.lhs)) (.equality p)) = .ok (.equality p) ∧
    (do e.transitivity (.equality p) (← e.reflexivity (.ofText p.rhs))) = .ok (.equality p) ∧
    (∀ x, (do e.symmetry (← e.transitivity (.equality p) (.equality q))) = .ok x ↔
      (do e.transitivity (← e.symmetry (.equality q)) (← e.symmetry (.equality p))) = .ok x) ∧
    ((∀ rule ∈ rules, ¬backwardMark <+: rule.name) → ∀ x, e.Obtainable x →
      ∃ s : Equality, x = .equality s ∧
        (∀ reason ∈ s.reasons, ¬backwardMark ++ backwardMark <+: reason) ∧
        (do e.symmetry (← e.symmetry x)) = .ok x) := by
  intro e
  have hbreak {f : Fault} : e.transitivity (.equality p) (.equality q) = .error f ↔
      p.rhs ≠ q.lhs ∧ .chainMismatch p.rhs q.lhs = f := Evidence.transitivity_equality_eq_error_iff
  refine ⟨?_, ?_, Evidence.transitivity_assoc p q r, Evidence.reflexivity_transitivity p,
    Evidence.transitivity_reflexivity p, Evidence.symmetry_transitivity p q, ?_⟩
  · simp only [hbreak, exists_and_left, exists_eq', and_true]
  · intro f hf
    rw [← (hbreak.mp hf).2]
    rfl
  · intro hnames x hx
    obtain ⟨s, rfl, hs⟩ := Obtainable.exists_isNormal hnames hx
    exact ⟨s, rfl, hs, Evidence.symmetry_symmetry hs⟩

/-- A step that is turned round has one mark, and gets it back when it is turned round twice more.
Chained to itself it does not fit. -/
theorem combinators_groupoid_turned :
    let rules : List Rule := [{ name := utf8 "r", lhs := utf8 "a", rhs := utf8 "b" }]
    let e := ofRules rules
    let p : Equality := ⟨utf8 "b", utf8 "a", [utf8 "← r"]⟩
    let fault : Fault := .chainMismatch (utf8 "a") (utf8 "b")
    (∀ rule ∈ rules, ¬backwardMark <+: rule.name) ∧ e.Obtainable (.equality p) ∧
      (do e.symmetry (← e.symmetry (.equality p))) = .ok (.equality p) ∧
      e.transitivity (.equality p) (.equality p) = .error fault ∧ fault.kind = .invariant := by
  intro rules e p fault
  have hnames : ∀ rule ∈ rules, ¬backwardMark <+: rule.name := by decide
  have hlisted : ∃ reduct, e.tryNext { term := .ofText (utf8 "a") } 0 {} = (.ok (some reduct), {}) ∧
      ∃ recipe, reduct.recipe = some recipe ∧
        e.prove recipe {} = (.ok (.equality ⟨utf8 "a", utf8 "b", [utf8 "r"]⟩), { byRule := 1 }) :=
    ⟨_, rfl, _, rfl, rfl⟩
  obtain ⟨reduct, hlists, recipe, hrecipe, hproves⟩ := hlisted
  have hstep : e.Obtainable (.equality ⟨utf8 "a", utf8 "b", [utf8 "r"]⟩) :=
    .step hlists hrecipe hproves
  have hturned : e.Obtainable (.equality p) := hstep.symmetry rfl
  have hbreak : e.transitivity (.equality p) (.equality p) = .error fault := rfl
  obtain ⟨-, hkind, -, -, -, -, hnormal⟩ := combinators_groupoid rules p p p
  obtain ⟨-, -, -, htwice⟩ := hnormal hnames _ hturned
  exact ⟨hnames, hturned, htwice, hbreak, hkind fault hbreak⟩

end Engine

end Joinability
