import Mathlib.Logic.Relation
import Joinability.Proofs.Rewriting.Site

/-!
# Taking a step back

A use of a rule splits a text as `before ++ pattern ++ after` and puts the replacement in the place
of the pattern. Read in the other direction, the rule finds the replacement in the same place and
puts the pattern back. The two uses need not agree in anything but the place: the replacement may
bring matches with it, or destroy some that overlapped the pattern, so both the number of the match
and the count of matches may differ.

A rule whose sides are equal has no other direction, and needs none: its uses change nothing.

With symmetric rules only, every step can be taken back, and the texts fall into classes of texts
that can be reached from each other: **`reducts_taken_back`**.
-/

namespace Joinability

variable {rules : List Rule}

namespace RuleUse

theorem sides_of_reversed_eq_not {u v : RuleUse} (h : v.reversed = !u.reversed) (r : Rule) :
    v.pattern r = u.replacement r ∧ v.replacement r = u.pattern r := by
  rw [pattern, replacement, pattern, replacement, h]
  cases u.reversed <;> exact ⟨rfl, rfl⟩

theorem replacement_of_sides_eq {r : Rule} (h : r.lhs = r.rhs) (u : RuleUse) :
    u.replacement r = u.pattern r := by
  rw [pattern, replacement, h]

end RuleUse

/-- One use of one of the rules turns the first text into the second. -/
def StepsTo (rules : List Rule) (s t : Text) : Prop := ∃ u, (t, u) ∈ reducts rules s

/-- A use of a symmetric rule can be undone by a use of the same rule, in the other direction if
there is one. -/
theorem exists_reduct_back {s t : Text} {u : RuleUse} (h : (t, u) ∈ reducts rules s) {r : Rule}
    (hr : rules[u.index]? = some r) (hsym : r.symmetric = true) :
    ∃ v : RuleUse, (s, v) ∈ reducts rules t ∧ v.name = r.name ∧ v.index = u.index ∧
      (r.lhs ≠ r.rhs → v.reversed = !u.reversed) := by
  obtain ⟨r', hr', hname, hrev, ⟨before, after, rfl, rfl, -⟩, -⟩ := mem_reducts_iff.mp h
  obtain rfl : r = r' := Option.some.inj (hr.symm.trans hr')
  by_cases hsides : r.lhs = r.rhs
  · -- nothing has changed, and the same use changes nothing again
    rw [u.replacement_of_sides_eq hsides] at h ⊢
    exact ⟨u, h, hname, rfl, fun hne ↦ absurd hsides hne⟩
  · obtain ⟨v, hvname, hvindex, hvrev, hv⟩ :=
      exists_reduct hr (!u.reversed) (fun _ ↦ ⟨hsym, hsides⟩) before after
    obtain ⟨hpattern, hreplacement⟩ := RuleUse.sides_of_reversed_eq_not hvrev r
    rw [hpattern, hreplacement] at hv
    exact ⟨v, hv, hvname, hvindex, fun _ ↦ hvrev⟩

theorem StepsTo.symm (hsym : ∀ r ∈ rules, r.symmetric = true) {s t : Text} (h : StepsTo rules s t) :
    StepsTo rules t s := by
  obtain ⟨u, hu⟩ := h
  obtain ⟨r, hr, -⟩ := mem_reducts_iff.mp hu
  obtain ⟨v, hv, -⟩ := exists_reduct_back hu hr (hsym r (List.mem_of_getElem? hr))
  exact ⟨v, hv⟩

/-- **Every use of a symmetric rule can be taken back.** An entry that is listed for a text comes
from a rule. If this rule is symmetric, the text is listed for the result, again with the same rule,
and in the other direction if the sides of the rule differ. With symmetric rules only, reachability
is therefore an equivalence. -/
theorem reducts_taken_back (rules : List Rule) :
    (∀ s t u, (t, u) ∈ reducts rules s → ∃ r, rules[u.index]? = some r ∧ u.name = r.name ∧
      (r.symmetric = true → ∃ v : RuleUse, (s, v) ∈ reducts rules t ∧ v.name = u.name ∧
        v.index = u.index ∧ (r.lhs ≠ r.rhs → v.reversed = !u.reversed))) ∧
    ((∀ r ∈ rules, r.symmetric = true) →
      Equivalence (Relation.ReflTransGen (StepsTo rules))) := by
  constructor
  · intro s t u h
    obtain ⟨r, hr, hname, -⟩ := mem_reducts_iff.mp h
    refine ⟨r, hr, hname, fun hsym ↦ ?_⟩
    rw [hname]
    exact exists_reduct_back h hr hsym
  · intro hsym
    have : Std.Symm (StepsTo rules) := ⟨fun _ _ h ↦ h.symm hsym⟩
    exact ⟨fun _ ↦ .refl, fun h ↦ Std.Symm.symm _ _ h, fun h h' ↦ h.trans h'⟩

/-- The second of two matches is replaced, and the use that takes this back replaces the only match
of the other side. -/
theorem reducts_taken_back_renumbered :
    let rules : List Rule := [{ name := utf8 "r", lhs := utf8 "b", rhs := utf8 "bb" }]
    let u : RuleUse := { name := utf8 "r", occurrence := 1, matchCount := 2 }
    (utf8 "babb", u) ∈ reducts rules (utf8 "bab") ∧
      (∃ v : RuleUse, (utf8 "bab", v) ∈ reducts rules (utf8 "babb") ∧ v.reversed = true) ∧
      (reducts rules (utf8 "babb")).filter (·.1 = utf8 "bab")
        = [(utf8 "bab", { name := utf8 "r", occurrence := 0, reversed := true, matchCount := 1 })] ∧
      Equivalence (Relation.ReflTransGen (StepsTo rules)) := by
  intro rules u
  have hu : (utf8 "babb", u) ∈ reducts rules (utf8 "bab") := by decide
  obtain ⟨hback, hequivalence⟩ := reducts_taken_back rules
  obtain ⟨r, hr, -, hsymmetric⟩ := hback _ _ u hu
  obtain rfl : { name := utf8 "r", lhs := utf8 "b", rhs := utf8 "bb" } = r := Option.some.inj hr
  obtain ⟨v, hv, -, -, hrev⟩ := hsymmetric rfl
  exact ⟨hu, ⟨v, hv, hrev (by decide)⟩, by decide, hequivalence (by decide)⟩

end Joinability
