import Mathlib.Data.List.Nodup
import Mathlib.Data.List.Range
import Joinability.Rule.Basic

/-!
# What a site does to a text

The library lists sites by computing with positions. This file says what such a list means without
mentioning positions: a site of a text splits it as `before ++ pattern ++ after`, its result is
`before ++ replacement ++ after`, and its number counts the matches of the pattern that start inside
`before`.

## Two views of one step

`Rewrites` forgets which rule was used where; it is the relation whose derivations measure how far
two texts are apart. `RuleUse.Turns` keeps the rule, the direction and the number of the match; it
is what a step of a proof has to satisfy. The list of targets is tied to the first by
`mem_targets_iff` and to the second by `turns_of_site`.
-/

namespace Joinability

/-! ## Positions -/

namespace Text

/-- Whether a pattern stands at a position of a text. -/
def matchesAt (pattern t : Text) (p : Nat) : Bool := pattern.isPrefixOf (t.drop p)

/-- The number of matches of a pattern that start before a position. -/
def matchesBefore (pattern t : Text) (p : Nat) : Nat :=
  (List.range p).countP (matchesAt pattern t)

theorem matchesAt_iff {pattern t : Text} {p : Nat} :
    matchesAt pattern t p = true ↔ pattern <+: t.drop p := by
  rw [matchesAt, List.isPrefixOf_iff_prefix]

theorem positionsFrom_eq_map (pattern : Text) (i : Nat) (t : Text) :
    positionsFrom pattern i t
      = ((List.range (t.length + 1)).filter (matchesAt pattern t)).map (i + ·) := by
  induction t generalizing i with
  | nil =>
    by_cases h : pattern.isPrefixOf ([] : Text) = true
    · simp [positionsFrom, matchesAt, h]
    · simp [positionsFrom, matchesAt, h]
  | cons b t ih =>
    have hshift : (matchesAt pattern (b :: t)) ∘ Nat.succ = matchesAt pattern t := by
      funext p
      rw [Function.comp_apply, matchesAt, matchesAt, Nat.succ_eq_add_one, List.drop_succ_cons]
    have hadd : ((i + ·) ∘ Nat.succ : Nat → Nat) = (i + 1 + ·) := by
      funext p
      rw [Function.comp_apply, Nat.succ_eq_add_one]
      omega
    rw [positionsFrom, List.length_cons, List.range_succ_eq_map, List.filter_cons, List.filter_map,
      hshift, ih]
    by_cases h : pattern.isPrefixOf (b :: t) = true
    · rw [if_pos h, if_pos (by rwa [matchesAt, List.drop_zero]), List.map_cons, List.map_map, hadd]
      rfl
    · rw [if_neg h, if_neg (by rwa [matchesAt, List.drop_zero]), List.map_map, hadd]

theorem positions_eq_filter (t pattern : Text) :
    t.positions pattern = (List.range (t.length + 1)).filter (matchesAt pattern t) := by
  rw [positions, positionsFrom_eq_map]
  simp

/-- The number of a match is the number of matches before it. -/
theorem getElem?_positions_iff {pattern t : Text} {p k : Nat} :
    (t.positions pattern)[k]? = some p
      ↔ p ≤ t.length ∧ pattern <+: t.drop p ∧ matchesBefore pattern t p = k := by
  have hcount : ∀ p, p ≤ t.length → pattern <+: t.drop p →
      (t.positions pattern)[matchesBefore pattern t p]? = some p := by
    intro p hp hm
    have hsplit : List.range (t.length + 1)
        = List.range p ++ (List.range (t.length - p + 1)).map (p + ·) := by
      rw [show t.length + 1 = p + (t.length - p + 1) by omega, List.range_add]
    rw [positions_eq_filter, hsplit, List.filter_append, List.getElem?_append_right
      (by rw [matchesBefore, List.countP_eq_length_filter]), matchesBefore,
      List.countP_eq_length_filter, Nat.sub_self, List.range_succ_eq_map, List.map_cons,
      List.filter_cons_of_pos (by rw [Nat.add_zero]; exact matchesAt_iff.mpr hm)]
    simp
  constructor
  · intro h
    obtain ⟨hp, hm⟩ := mem_positions_iff.mp (List.mem_of_getElem? h)
    have hnodup : (t.positions pattern).Nodup := by
      rw [positions_eq_filter]
      exact List.nodup_range.filter _
    obtain ⟨hk, hkp⟩ := List.getElem?_eq_some_iff.mp h
    obtain ⟨hk', hkp'⟩ := List.getElem?_eq_some_iff.mp (hcount p hp hm)
    exact ⟨hp, hm, (List.Nodup.getElem_inj_iff hnodup).mp (hkp'.trans hkp.symm)⟩
  · rintro ⟨hp, hm, rfl⟩
    exact hcount p hp hm

theorem eq_append_of_prefix_drop {pattern t : Text} {p : Nat} (h : pattern <+: t.drop p) :
    t = t.take p ++ pattern ++ t.drop (p + pattern.length) := by
  obtain ⟨rest, hrest⟩ := h
  have hdrop : t.drop (p + pattern.length) = rest := by
    rw [← List.drop_drop, ← hrest, List.drop_left]
  rw [hdrop, List.append_assoc, hrest, List.take_append_drop]

end Text

/-! ## Replacing one match -/

/-- `Replaces pattern replacement k s t`: the text `t` is `s` with match number `k` of the pattern
replaced. Matches are numbered from zero by where they start, and may overlap. -/
def Replaces (pattern replacement : Text) (k : Nat) (s t : Text) : Prop :=
  ∃ before after : Text, s = before ++ pattern ++ after ∧ t = before ++ replacement ++ after ∧
    Text.matchesBefore pattern s before.length = k

theorem replaces_iff_position {pattern replacement s t : Text} {k : Nat} :
    Replaces pattern replacement k s t ↔ ∃ p, (s.positions pattern)[k]? = some p ∧
      t = s.splice p pattern.length replacement := by
  constructor
  · rintro ⟨before, after, rfl, rfl, hk⟩
    refine ⟨before.length, Text.getElem?_positions_iff.mpr ⟨by simp, by simp, hk⟩, ?_⟩
    rw [Text.splice, ← List.length_append, List.drop_left, List.append_assoc before pattern,
      List.take_left]
  · rintro ⟨p, hp, rfl⟩
    obtain ⟨hle, hm, hk⟩ := Text.getElem?_positions_iff.mp hp
    refine ⟨s.take p, s.drop (p + pattern.length), Text.eq_append_of_prefix_drop hm, rfl, ?_⟩
    rwa [List.length_take, Nat.min_eq_left hle]

/-! ## The sites of a text -/

namespace Site

theorem mem_ofPattern_iff {base : RuleUse} {pattern replacement t : Text} {s : Site} :
    s ∈ ofPattern base pattern replacement t ↔ ∃ p k, (t.positions pattern)[k]? = some p ∧
      s = { use := { base with occurrence := k, matchCount := (t.positions pattern).length }
            position := p, pattern, replacement } := by
  simp only [ofPattern, List.mem_map, Prod.exists, List.mem_zipIdx_iff_getElem?]
  constructor
  · rintro ⟨p, k, h, rfl⟩
    exact ⟨p, k, h, rfl⟩
  · rintro ⟨p, k, h, rfl⟩
    exact ⟨p, k, h, rfl⟩

end Site

theorem Rule.mem_sites_iff {r : Rule} {i : Nat} {t : Text} {s : Site} :
    s ∈ r.sites i t ↔ s ∈ Site.ofPattern { name := r.name, index := i } r.lhs r.rhs t ∨
      (r.symmetric = true ∧ r.lhs ≠ r.rhs ∧
        s ∈ Site.ofPattern { name := r.name, index := i, reversed := true } r.rhs r.lhs t) := by
  rw [Rule.sites]
  by_cases h : (r.symmetric && r.lhs != r.rhs) = true
  · rw [if_pos h, List.mem_append]
    rw [Bool.and_eq_true, bne_iff_ne] at h
    exact or_congr_right ⟨fun hs ↦ ⟨h.1, h.2, hs⟩, fun hs ↦ hs.2.2⟩
  · rw [if_neg h]
    rw [Bool.and_eq_true, bne_iff_ne] at h
    exact ⟨Or.inl, fun hs ↦ hs.resolve_right fun hs ↦ h ⟨hs.1, hs.2.1⟩⟩

theorem mem_sites_iff {rules : List Rule} {t : Text} {s : Site} :
    s ∈ sites rules t ↔ ∃ (r : Rule) (i : Nat), rules[i]? = some r ∧ s ∈ r.sites i t := by
  simp only [sites, List.mem_flatMap, Prod.exists, List.mem_zipIdx_iff_getElem?]

/-! ## One step, with its rule -/

namespace RuleUse

/-- What a use of the rule `r` replaces. -/
def pattern (u : RuleUse) (r : Rule) : Text := if u.reversed then r.rhs else r.lhs

/-- What a use of the rule `r` puts in its place. -/
def replacement (u : RuleUse) (r : Rule) : Text := if u.reversed then r.lhs else r.rhs

/-- `u.Turns rules s t`: the use `u` of one of the rules turns `s` into `t`. The rule is the one
that stands at the index of `u` and has its name, only a symmetric rule is read from right to left,
and the match that is replaced is the one with the number that `u` gives. -/
def Turns (u : RuleUse) (rules : List Rule) (s t : Text) : Prop :=
  ∃ r, rules[u.index]? = some r ∧ u.name = r.name ∧ (u.reversed = true → r.symmetric = true) ∧
    Replaces (u.pattern r) (u.replacement r) u.occurrence s t

theorem Turns.unique {u : RuleUse} {rules : List Rule} {s t t' : Text} (h : u.Turns rules s t)
    (h' : u.Turns rules s t') : t = t' := by
  obtain ⟨r, hr, -, -, hreplaces⟩ := h
  obtain ⟨r', hr', -, -, hreplaces'⟩ := h'
  obtain rfl := Option.some.inj (hr.symm.trans hr')
  obtain ⟨p, hp, rfl⟩ := replaces_iff_position.mp hreplaces
  obtain ⟨q, hq, rfl⟩ := replaces_iff_position.mp hreplaces'
  rw [Option.some.inj (hp.symm.trans hq)]

end RuleUse

/-- **What the engine lists.** An entry names a rule and a match of what is replaced, and says how
many matches there are; only a symmetric rule whose sides differ is also read from right to left. -/
theorem mem_reducts_iff {rules : List Rule} {s t : Text} {u : RuleUse} :
    (t, u) ∈ reducts rules s ↔ ∃ r, rules[u.index]? = some r ∧ u.name = r.name ∧
      (u.reversed = true → r.symmetric = true ∧ r.lhs ≠ r.rhs) ∧
      Replaces (u.pattern r) (u.replacement r) u.occurrence s t ∧
      u.matchCount = (s.positions (u.pattern r)).length := by
  simp only [reducts, List.mem_map, Prod.mk.injEq, mem_sites_iff, Rule.mem_sites_iff,
    Site.mem_ofPattern_iff, replaces_iff_position]
  constructor
  · rintro ⟨site, ⟨r, i, hr, ⟨p, k, hp, rfl⟩ | ⟨hsym, hne, p, k, hp, rfl⟩⟩, rfl, rfl⟩
    · exact ⟨r, hr, rfl, by simp, ⟨p, hp, rfl⟩, rfl⟩
    · exact ⟨r, hr, rfl, fun _ ↦ ⟨hsym, hne⟩, ⟨p, hp, rfl⟩, rfl⟩
  · obtain ⟨name, i, k, reversed, count⟩ := u
    rintro ⟨r, hr, rfl, hrev, ⟨p, hp, rfl⟩, hcount⟩
    cases reversed with
    | false =>
      obtain rfl : count = (s.positions r.lhs).length := hcount
      exact ⟨_, ⟨r, i, hr, Or.inl ⟨p, k, hp, rfl⟩⟩, rfl, rfl⟩
    | true =>
      obtain rfl : count = (s.positions r.rhs).length := hcount
      exact ⟨_, ⟨r, i, hr, Or.inr ⟨(hrev rfl).1, (hrev rfl).2, p, k, hp, rfl⟩⟩, rfl, rfl⟩

theorem turns_of_site {rules : List Rule} {t : Text} {s : Site} (h : s ∈ sites rules t) :
    s.use.Turns rules t (s.result t) := by
  obtain ⟨r, hr, hname, hrev, hreplaces, -⟩ := mem_reducts_iff.mp (List.mem_map_of_mem h)
  exact ⟨r, hr, hname, fun h ↦ (hrev h).1, hreplaces⟩

/-! ## One step, without its rule -/

/-- `Rewrites rules s t`: one use of a rule turns `s` into `t`. -/
inductive Rewrites (rules : List Rule) : Text → Text → Prop
  /-- A rule is read from left to right. -/
  | forward {r : Rule} (hr : r ∈ rules) (before after : Text) :
      Rewrites rules (before ++ r.lhs ++ after) (before ++ r.rhs ++ after)
  /-- A symmetric rule is read from right to left. -/
  | backward {r : Rule} (hr : r ∈ rules) (hs : r.symmetric = true) (before after : Text) :
      Rewrites rules (before ++ r.rhs ++ after) (before ++ r.lhs ++ after)

/-- The texts that one use of a rule makes of a text, in the order in which sites are listed. -/
def targets (rules : List Rule) (t : Text) : List Text := (sites rules t).map (·.result t)

theorem targets_eq_reducts (rules : List Rule) (t : Text) :
    targets rules t = (reducts rules t).map Prod.fst := by
  rw [targets, reducts, List.map_map]
  rfl

theorem rewrites_of_turns {rules : List Rule} {u : RuleUse} {s t : Text}
    (h : u.Turns rules s t) : Rewrites rules s t := by
  obtain ⟨r, hr, -, hsym, before, after, rfl, rfl, -⟩ := h
  have hmem : r ∈ rules := List.mem_of_getElem? hr
  rw [RuleUse.pattern, RuleUse.replacement]
  by_cases hrev : u.reversed = true
  · rw [if_pos hrev, if_pos hrev]
    exact .backward hmem (hsym hrev) before after
  · rw [if_neg hrev, if_neg hrev]
    exact .forward hmem before after

theorem exists_reduct {rules : List Rule} {r : Rule} {i : Nat} (hr : rules[i]? = some r)
    (reversed : Bool) (hrev : reversed = true → r.symmetric = true ∧ r.lhs ≠ r.rhs)
    (before after : Text) : ∃ u : RuleUse, u.name = r.name ∧ u.index = i ∧ u.reversed = reversed ∧
      (before ++ u.replacement r ++ after, u) ∈ reducts rules (before ++ u.pattern r ++ after) := by
  let base : RuleUse := { name := r.name, index := i, reversed }
  let s := before ++ base.pattern r ++ after
  refine ⟨{ base with
    occurrence := Text.matchesBefore (base.pattern r) s before.length
    matchCount := (s.positions (base.pattern r)).length }, rfl, rfl, rfl, ?_⟩
  exact mem_reducts_iff.mpr ⟨r, hr, rfl, hrev, ⟨before, after, rfl, rfl, rfl⟩, rfl⟩

theorem exists_site_forward {rules : List Rule} {r : Rule} (hr : r ∈ rules) (before after : Text) :
    before ++ r.rhs ++ after ∈ targets rules (before ++ r.lhs ++ after) := by
  obtain ⟨i, hi⟩ := List.getElem?_of_mem hr
  obtain ⟨u, -, -, hrev, hu⟩ := exists_reduct hi false (by simp) before after
  rw [RuleUse.replacement, RuleUse.pattern, hrev] at hu
  exact targets_eq_reducts rules _ ▸ List.mem_map_of_mem hu

theorem exists_site_backward {rules : List Rule} {r : Rule} (hr : r ∈ rules)
    (hs : r.symmetric = true) (before after : Text) :
    before ++ r.lhs ++ after ∈ targets rules (before ++ r.rhs ++ after) := by
  -- a rule with equal sides has no backward sites, but there its forward sites do the same.
  by_cases heq : r.lhs = r.rhs
  · have h := exists_site_forward hr before after
    rwa [heq] at h ⊢
  · obtain ⟨i, hi⟩ := List.getElem?_of_mem hr
    obtain ⟨u, -, -, hrev, hu⟩ := exists_reduct hi true (fun _ ↦ ⟨hs, heq⟩) before after
    rw [RuleUse.replacement, RuleUse.pattern, hrev] at hu
    exact targets_eq_reducts rules _ ▸ List.mem_map_of_mem hu

theorem mem_targets_iff {rules : List Rule} {s t : Text} :
    t ∈ targets rules s ↔ Rewrites rules s t := by
  constructor
  · intro h
    obtain ⟨site, hsite, rfl⟩ := List.mem_map.mp h
    exact rewrites_of_turns (turns_of_site hsite)
  · rintro (⟨hr, before, after⟩ | ⟨hr, hs, before, after⟩)
    · exact exists_site_forward hr before after
    · exact exists_site_backward hr hs before after

theorem Rewrites.symm {rules : List Rule} (hsym : ∀ r ∈ rules, r.symmetric = true) {s t : Text}
    (h : Rewrites rules s t) : Rewrites rules t s := by
  rcases h with ⟨hr, before, after⟩ | ⟨hr, -, before, after⟩
  · exact .backward hr (hsym _ hr) before after
  · exact .forward hr before after

end Joinability
