import Joinability.Proofs.Report.Citation
import Joinability.Proofs.Search.Steps

/-!
# Retracing a proof by its reasons

A proof gives one reason for each of its steps, and a reason names the rule, its direction and the
number of the match that is replaced. So a reader can start from the text at which the proof begins
and follow the reasons one by one. For the steps of the left unit this leads through the texts of
the proof, to where the sides meet.

The steps of the right unit are quoted backwards. Turning a reason round marks the other direction
and keeps the number, which was counted in the text before the step among the matches of what the
step replaces. Backwards it is read as a number in the text after the step, among the matches of
what the step puts in their place, and there it may point elsewhere: `ba` becomes `bb` by replacing
the first `a`, and in `bb` the first `b` is another one. **`Search.solve_reasons`** says that the
reasons lead on to the end of the proof exactly when no number does this.
-/

namespace Joinability

variable {rules : List Rule}

/-! ## Reading reasons -/

/-- Reads a reason: the side of a rule that is quoted, and the number of its match. -/
def readReason? (t : Text) : Option (Citation × Nat) :=
  let c := Citation.ofReference t
  match Rule.splitFirst? '#'.toUInt8 c.name with
  | none => some (c, 0)
  | some (name, digits) => (numeral? digits).map fun k ↦ ({ c with name }, k)

/-- Follows a reason. -/
def followReason? (rules : List Rule) (reason t : Text) : Option Text := do
  let (c, k) ← readReason? reason
  c.replaceAt? rules k t

/-- The texts on the way, when reasons are followed one after the other. -/
def trace? (rules : List Rule) : List Text → Text → Option (List Text)
  | [], t => some [t]
  | reason :: reasons, t => do
    let texts ← trace? rules reasons (← followReason? rules reason t)
    return t :: texts

/-- A name that a reason can quote: it has no sign of a number and does not begin with the mark of a
direction. -/
structure IsQuotable (name : Text) : Prop where
  notMem : '#'.toUInt8 ∉ name
  unmarked : ¬backwardMark <+: name

namespace RuleUse

/-- The use of the same rule in the other direction, with the number as it is. -/
def flip (u : RuleUse) : RuleUse := { u with reversed := !u.reversed }

variable {u : RuleUse}

theorem reason_eq_reference (u : RuleUse) : u.reason = reference { u with
    name := u.name ++ if 0 < u.occurrence then '#'.toUInt8 :: decimal u.occurrence else [] } := by
  rw [reason, reference, reference]
  by_cases hk : 0 < u.occurrence
  · rw [if_pos hk, if_pos hk]
    split
    · rw [List.append_assoc, List.append_assoc]
      rfl
    · rw [List.append_assoc]
      rfl
  · rw [if_neg hk, if_neg hk, List.append_nil]

theorem unmarked_append (h : ¬backwardMark <+: u.name) :
    ¬backwardMark <+:
      u.name ++ if 0 < u.occurrence then '#'.toUInt8 :: decimal u.occurrence else [] := by
  intro hmark
  by_cases hk : 0 < u.occurrence
  · rw [if_pos hk] at hmark
    exact h (prefix_of_prefix_append (by decide) hmark)
  · rw [if_neg hk, List.append_nil] at hmark
    exact h hmark

theorem readReason?_reason (h : IsQuotable u.name) :
    readReason? u.reason = some (u.citation, u.occurrence) := by
  rw [reason_eq_reference, readReason?, Citation.ofReference_reference (unmarked_append h.unmarked)]
  by_cases hk : 0 < u.occurrence
  · simp only [citation, if_pos hk, Rule.splitFirst?_append h.notMem, numeral?_decimal,
      Option.map_some]
  · have hzero : u.occurrence = 0 := Nat.eq_zero_of_not_pos hk
    simp only [citation, if_neg hk, List.append_nil, Rule.splitFirst?_of_notMem h.notMem]
    rw [hzero]

/-- A reason that is turned round is the reason of the other direction. -/
theorem turnReason_reason (h : IsQuotable u.name) :
    Equality.turnReason u.reason = u.flip.reason := by
  rw [reason_eq_reference, reason_eq_reference u.flip, Equality.turnReason, reference, reference]
  by_cases hrev : u.reversed = true
  · have hmark (t : Text) : backwardMark.isPrefixOf (backwardMark ++ t) = true :=
      List.isPrefixOf_iff_prefix.mpr (List.prefix_append _ _)
    simp only [flip, hrev, if_true, Bool.not_true, Bool.false_eq_true, if_false, hmark,
      List.drop_left]
  · rw [Bool.not_eq_true] at hrev
    have hmark := unmarked_append h.unmarked
    rw [← List.isPrefixOf_iff_prefix, Bool.not_eq_true] at hmark
    simp only [flip, hrev, if_true, Bool.not_false, Bool.false_eq_true, if_false, hmark]

end RuleUse

/-! ## Retracing -/

/-- Putting back the match with the number that a step quotes, among those of what the step has put
in place, undoes the step. -/
def ProofStep.IsUndone (rules : List Rule) (p : ProofStep) : Prop :=
  ∃ r, rules[p.use.index]? = some r ∧
    Replaces (p.use.replacement r) (p.use.pattern r) p.use.occurrence p.after p.before

theorem head?_of_trace? {reasons : List Text} {t : Text} {texts : List Text}
    (h : trace? rules reasons t = some texts) : texts.head? = some t := by
  rcases reasons with _ | ⟨reason, reasons⟩
  · cases h
    rfl
  · rw [trace?, Option.bind_eq_bind, Option.bind_eq_some_iff] at h
    obtain ⟨u, -, h⟩ := h
    obtain ⟨rest, -, h⟩ := Option.bind_eq_some_iff.mp h
    cases h
    rfl

theorem trace?_cons_eq_iff {reason : Text} {reasons : List Text} {s t : Text} {texts : List Text} :
    trace? rules (reason :: reasons) s = some (s :: t :: texts) ↔
      followReason? rules reason s = some t ∧ trace? rules reasons t = some (t :: texts) := by
  rw [trace?, Option.bind_eq_bind, Option.bind_eq_some_iff]
  constructor
  · rintro ⟨u, hu, h⟩
    obtain ⟨rest, hrest, h⟩ := Option.bind_eq_some_iff.mp h
    obtain rfl : rest = t :: texts := by simpa using h
    obtain rfl : t = u := by simpa using head?_of_trace? hrest
    exact ⟨hu, hrest⟩
  · rintro ⟨hfollow, htrace⟩
    exact ⟨t, hfollow, by rw [htrace]; rfl⟩

section Chains

variable {s m : Text} {steps : List ProofStep}

/-- The reasons of a chain lead through its texts to its end. -/
theorem Chain.trace?_iff (h : Chain rules s steps m) (hnames : (rules.map (·.name)).Nodup)
    (hquotable : ∀ r ∈ rules, IsQuotable r.name) {reasons texts : List Text} :
    trace? rules (reasonsOf steps ++ reasons) s = some (s :: (steps.map (·.after) ++ texts)) ↔
      trace? rules reasons m = some (m :: texts) := by
  induction steps generalizing s with
  | nil =>
    obtain rfl : s = m := h
    rfl
  | cons p steps ih =>
    obtain ⟨rfl, hturns, hrest⟩ := h
    obtain ⟨r, hr, hname⟩ := hturns.mem_name
    have hfollow : followReason? rules p.use.reason p.before = some p.after := by
      rw [followReason?, RuleUse.readReason?_reason (hname ▸ hquotable r hr)]
      exact hturns.replaceAt? hnames
    rw [← ih hrest]
    exact trace?_cons_eq_iff.trans (and_iff_right hfollow)

/-- Turned round, the reasons of a chain lead back through its texts exactly when every step is
undone by the match with its number. -/
theorem Chain.retrace?_iff (h : Chain rules s steps m) (hnames : (rules.map (·.name)).Nodup)
    (hquotable : ∀ r ∈ rules, IsQuotable r.name) :
    trace? rules ((reasonsOf steps).reverse.map Equality.turnReason) m
        = some (m :: steps.reverse.map (·.before)) ↔ ∀ p ∈ steps, p.IsUndone rules := by
  induction steps using List.reverseRecOn generalizing m with
  | nil => simp [trace?, reasonsOf]
  | append_singleton steps p ih =>
    obtain ⟨hchain, hturns, rfl⟩ := h.of_snoc
    obtain ⟨r, hr, hname, -⟩ := hturns
    have hfollow : followReason? rules p.use.flip.reason p.after = some p.before ↔
        p.IsUndone rules := by
      have hname' := hquotable r (List.mem_of_getElem? hr)
      rw [followReason?, RuleUse.readReason?_reason (u := p.use.flip) (hname ▸ hname')]
      have hflip : p.use.flip.citation = p.use.citation.flip := rfl
      simp only [Option.bind_eq_bind, Option.bind_some]
      rw [hflip, Citation.replaceAt?_eq_some_iff (RuleUse.sides?_flip hnames hr hname)]
      constructor
      · exact fun hreplaces ↦ ⟨r, hr, hreplaces⟩
      · rintro ⟨r', hr', hreplaces⟩
        obtain rfl := Option.some.inj (hr.symm.trans hr')
        exact hreplaces
    have hreasons : (reasonsOf (steps ++ [p])).reverse.map Equality.turnReason
        = p.use.flip.reason :: (reasonsOf steps).reverse.map Equality.turnReason := by
      rw [← RuleUse.turnReason_reason (hname ▸ hquotable r (List.mem_of_getElem? hr))]
      simp [reasonsOf]
    rw [hreasons, List.reverse_append, List.reverse_singleton, List.singleton_append, List.map_cons,
      trace?_cons_eq_iff, hfollow, ih hchain]
    simp only [List.mem_append, List.mem_singleton, or_imp, forall_and, forall_eq, and_comm]

end Chains

/-- The texts of a proof from its beginning to its end. -/
def Result.texts {π : Type} (r : Result π) (lhs : Text) : List Text :=
  lhs :: ((r.stepsOf .left).map (·.after) ++ (r.stepsOf .right).reverse.map (·.before))

namespace Search

/-- **Retracing a proof by its reasons.** When a search with rules succeeds, the reasons of the left
steps lead from `lhs` through the texts after these steps. The reasons of the proof lead through all
of its texts, of which the last is `rhs`, exactly when each right step is undone by putting back the
match with the number that the step quotes. -/
theorem solve_reasons (rules : List Rule) (clock : Nat → Nat) (config : Config Payload)
    (hkey : config.key = Term.pretty) (hnames : (rules.map (·.name)).Nodup)
    (hquotable : ∀ r ∈ rules, IsQuotable r.name) (lhs rhs : Text) (tally : Tally) :
    ∃ result, (solve (.ofRules rules) clock config (.ofText lhs) (.ofText rhs) tally).answer
        = .ok result ∧
      (result.status = .success → ∃ p : Equality, result.proof? = some (.equality p) ∧
        trace? rules (reasonsOf (result.stepsOf .left)) lhs
          = some (lhs :: (result.stepsOf .left).map (·.after)) ∧
        (result.texts lhs).getLast? = some rhs ∧
        (trace? rules p.reasons lhs = some (result.texts lhs) ↔
          ∀ q ∈ result.stepsOf .right, q.IsUndone rules)) := by
  obtain ⟨result, hanswer, hfinds⟩ := exists_finds rules clock config hkey lhs rhs tally
  refine ⟨result, hanswer, fun hsuccess ↦ ?_⟩
  obtain ⟨p, m, h⟩ := hfinds hsuccess
  have hleft : Chain rules lhs (result.stepsOf .left) m := h.chain .left
  have hright : Chain rules rhs (result.stepsOf .right) m := h.chain .right
  refine ⟨p, h.proof, ?_, ?_, ?_⟩
  · have htrace : trace? rules (reasonsOf (result.stepsOf .left) ++ []) lhs
        = some (lhs :: ((result.stepsOf .left).map (·.after) ++ [])) :=
      (hleft.trace?_iff hnames hquotable).mpr rfl
    rwa [List.append_nil, List.append_nil] at htrace
  · have hback := hright.getLast?_back
    rw [List.getLast?_cons] at hback
    rw [Result.texts, ← List.cons_append, List.getLast?_append, hleft.getLast?_texts, ← hback,
      Option.or_some]
  · rw [h.reasons, joinedReasons, Result.texts, hleft.trace?_iff hnames hquotable,
      hright.retrace?_iff hnames hquotable]

/-- Here the step of the right side replaces the second `a` of `aca`, which turns into the second
`c` of `acc`. -/
theorem solve_reasons_second :
    let rules : List Rule :=
      [{ name := utf8 "r", lhs := utf8 "a", rhs := utf8 "c", symmetric := false }]
    ∃ result p, (solve (.ofRules rules) (fun _ ↦ 0) {} (.ofText (utf8 "acc"))
        (.ofText (utf8 "aca")) {}).answer = .ok result ∧
      result.proof? = some (.equality p) ∧ p.reasons = [utf8 "← r#1"] ∧
      (∀ q ∈ result.stepsOf .right, q.IsUndone rules) ∧
      (result.texts (utf8 "acc")).getLast? = some (utf8 "aca") := by
  intro rules
  have hquotable : ∀ r ∈ rules, IsQuotable r.name := by
    rintro r hr
    obtain rfl := List.mem_singleton.mp hr
    exact ⟨by decide, by decide⟩
  have hresult : (solve (.ofRules rules) (fun _ ↦ 0) {} (.ofText (utf8 "acc"))
      (.ofText (utf8 "aca")) {}).answer.toOption.map (fun r ↦ (r.status, r.proof?,
        r.texts (utf8 "acc"))) = some (.success,
        some (.equality ⟨utf8 "acc", utf8 "aca", [utf8 "← r#1"]⟩), [utf8 "acc", utf8 "aca"]) := by
    decide +kernel
  obtain ⟨result, hanswer, hretrace⟩ :=
    solve_reasons rules (fun _ ↦ 0) {} rfl (by decide) hquotable (utf8 "acc") (utf8 "aca") {}
  rw [hanswer] at hresult
  obtain ⟨hstatus, hrest⟩ := Prod.mk.inj (Option.some.inj hresult)
  obtain ⟨hproof, htexts⟩ := Prod.mk.inj hrest
  obtain ⟨p, hp, -, hlast, hiff⟩ := hretrace hstatus
  obtain rfl : p = ⟨utf8 "acc", utf8 "aca", [utf8 "← r#1"]⟩ := by
    rw [hproof] at hp
    injection Option.some.inj hp with heq
    exact heq.symm
  refine ⟨result, _, hanswer, hp, rfl, hiff.mp ?_, hlast⟩
  rw [htexts]
  decide +kernel

/-- Here it replaces the first `a` of `ba`, which turns into the second `b` of `bb`, and the reason
is read as if the first one were meant. -/
theorem solve_reasons_astray :
    let rules : List Rule :=
      [{ name := utf8 "r", lhs := utf8 "a", rhs := utf8 "b", symmetric := false }]
    (solve (.ofRules rules) (fun _ ↦ 0) {} (.ofText (utf8 "bb"))
      (.ofText (utf8 "ba")) {}).answer.toOption.map Result.proof?
        = some (some (.equality ⟨utf8 "bb", utf8 "ba", [utf8 "← r"]⟩)) ∧
    trace? rules [utf8 "← r"] (utf8 "bb") = some [utf8 "bb", utf8 "ab"] := by
  decide +kernel

end Search

end Joinability
