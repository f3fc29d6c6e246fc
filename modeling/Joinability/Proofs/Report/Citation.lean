import Mathlib.Data.List.Nodup
import Mathlib.Data.List.TakeWhile
import Joinability.Proofs.Rewriting.Site
import Joinability.Rule.Grammar
import Joinability.Rule.Use

/-!
# Reading what a proof quotes

Reasons and scripts quote a rule by its name and mark the direction in which it is read. A reader
who has the rules can follow such a quotation: look up the name, and replace one match of the side
that is quoted, or all of them. A quotation forgets the index of the rule, so names have to be
different from each other, and a name that begins with the mark would be read as another name.

`Citation` is what a reader gets from a quotation, and `RuleUse.citation` what the writer meant.
-/

namespace Joinability

/-! ## Numerals -/

/-- A digit of base ten. -/
def isDigit (b : UInt8) : Bool := '0'.toUInt8 ≤ b && b ≤ '9'.toUInt8

/-- The number that a decimal numeral stands for. -/
def numeral? (t : Text) : Option Nat :=
  if t ≠ [] ∧ t.all isDigit then some (Nat.ofDigitChars 10 (t.map Char.ofUInt8) 0) else none

theorem toNat_toUInt8_of_isDigit {c : Char} (h : c.isDigit = true) :
    c.toUInt8.toNat = c.val.toNat ∧ 48 ≤ c.val.toNat ∧ c.val.toNat ≤ 57 := by
  simp only [Char.isDigit, Bool.and_eq_true, decide_eq_true_eq, UInt32.le_iff_toNat_le] at h
  have hle : 48 ≤ c.val.toNat := h.1
  have hge : c.val.toNat ≤ 57 := h.2
  refine ⟨?_, hle, hge⟩
  show c.val.toUInt8.toNat = c.val.toNat
  rw [UInt32.toNat_toUInt8]
  omega

theorem isDigit_of_mem_decimal {n : Nat} {b : UInt8} (h : b ∈ decimal n) : isDigit b = true := by
  obtain ⟨c, hc, rfl⟩ := List.mem_map.mp h
  obtain ⟨hval, hle, hge⟩ :=
    toNat_toUInt8_of_isDigit (Nat.isDigit_of_mem_toDigits (by decide) (by decide) hc)
  rw [isDigit, Bool.and_eq_true, decide_eq_true_eq, decide_eq_true_eq, UInt8.le_iff_toNat_le,
    UInt8.le_iff_toNat_le, hval]
  exact ⟨hle, hge⟩

theorem map_ofUInt8_decimal (n : Nat) : (decimal n).map Char.ofUInt8 = Nat.toDigits 10 n := by
  rw [decimal, List.map_map]
  have hsame : ∀ c ∈ Nat.toDigits 10 n, (Char.ofUInt8 ∘ fun c ↦ c.toUInt8) c = c := by
    intro c hc
    obtain ⟨hval, -⟩ :=
      toNat_toUInt8_of_isDigit (Nat.isDigit_of_mem_toDigits (by decide) (by decide) hc)
    exact Char.ext (UInt32.toNat_inj.mp ((UInt8.toNat_toUInt32 _).trans hval))
  rw [List.map_congr_left hsame, List.map_id']

theorem numeral?_decimal (n : Nat) : numeral? (decimal n) = some n := by
  have hne : decimal n ≠ [] := by simp [decimal, Nat.toDigits_ne_nil]
  have hall : (decimal n).all isDigit = true :=
    List.all_eq_true.mpr fun b hb ↦ isDigit_of_mem_decimal hb
  rw [numeral?, if_pos ⟨hne, hall⟩, map_ofUInt8_decimal, Nat.ofDigitChars_ten_toDigits]

/-! ## Separators -/

theorem Rule.splitFirst?_append {sep : UInt8} {s : Text} (h : sep ∉ s) (t : Text) :
    splitFirst? sep (s ++ sep :: t) = some (s, t) := by
  have hs : ∀ b ∈ s, decide (b ≠ sep) = true := fun b hb ↦ by
    rw [decide_eq_true_eq]
    rintro rfl
    exact h hb
  rw [splitFirst?, List.dropWhile_append_of_pos hs, List.takeWhile_append_of_pos hs]
  simp

theorem Rule.splitFirst?_of_notMem {sep : UInt8} {t : Text} (h : sep ∉ t) :
    splitFirst? sep t = none := by
  have ht : t.dropWhile (· ≠ sep) = [] := by
    rw [List.dropWhile_eq_nil_iff]
    intro b hb
    rw [decide_eq_true_eq]
    rintro rfl
    exact h hb
  rw [splitFirst?, ht]

theorem prefix_of_prefix_append {b : UInt8} {l s t : Text} (hb : b ∉ l) (h : l <+: s ++ b :: t) :
    l <+: s := by
  rcases List.prefix_or_prefix_of_prefix h (List.prefix_append s (b :: t)) with hl | hs
  · exact hl
  · obtain ⟨u, rfl⟩ := hs
    rw [List.prefix_append_right_inj] at h
    rcases u with _ | ⟨c, u⟩
    · exact ⟨[], by simp⟩
    · obtain rfl := (List.cons_prefix_cons.mp h).1
      exact absurd (List.mem_append_right s List.mem_cons_self) hb

/-! ## Citations -/

/-- One side of a rule as a reader finds it quoted. -/
structure Citation where
  /-- The name of the rule. -/
  name : Text
  /-- Whether the rule is read from right to left. -/
  reversed : Bool := false
deriving DecidableEq, Repr

namespace Text

/-- The positions from `start` on that are at least `length` apart, each taken as soon as it can
be. -/
def apart (length start : Nat) : List Nat → List Nat
  | [] => []
  | p :: ps => if start ≤ p then p :: apart length (p + length) ps else apart length start ps

/-- Replaces every match of a pattern, from left to right. A match that overlaps one which is
replaced is passed over. -/
def replaceAll (t pattern replacement : Text) : Text :=
  (apart pattern.length 0 (t.positions pattern)).foldr
    (fun p t ↦ t.splice p pattern.length replacement) t

example : replaceAll (utf8 "aaa-aa") (utf8 "aa") (utf8 "b") = utf8 "ba-b" := by decide

theorem replaceAll_of_only {t pattern replacement : Text} {p : Nat}
    (h : t.positions pattern = [p]) :
    t.replaceAll pattern replacement = t.splice p pattern.length replacement := by
  rw [replaceAll, h, apart, if_pos (Nat.zero_le p)]
  rfl

end Text

namespace Citation

/-- Reads a reference to a rule. -/
def ofReference (t : Text) : Citation :=
  if backwardMark.isPrefixOf t then { name := t.drop backwardMark.length, reversed := true }
  else { name := t }

/-- The other side of the same rule. -/
def flip (c : Citation) : Citation := { c with reversed := !c.reversed }

/-- What is replaced, and what it is replaced by, if there is a rule with the name. -/
def sides? (rules : List Rule) (c : Citation) : Option (Text × Text) :=
  (rules.find? (·.name = c.name)).map fun r ↦
    if c.reversed then (r.rhs, r.lhs) else (r.lhs, r.rhs)

/-- Replaces match number `k` of the side that is cited. Matches are numbered from zero by where
they start, and may overlap. -/
def replaceAt? (rules : List Rule) (c : Citation) (k : Nat) (t : Text) : Option Text := do
  let (pattern, replacement) ← c.sides? rules
  let position ← (t.positions pattern)[k]?
  return t.splice position pattern.length replacement

/-- Replaces all matches of the side that is cited, of which there has to be one. -/
def replaceAll? (rules : List Rule) (c : Citation) (t : Text) : Option Text := do
  let (pattern, replacement) ← c.sides? rules
  if (t.positions pattern).isEmpty then none else return t.replaceAll pattern replacement

end Citation

/-- The side of a rule that is used. -/
def RuleUse.citation (u : RuleUse) : Citation := { name := u.name, reversed := u.reversed }

section Reading

variable {rules : List Rule} {c : Citation} {u : RuleUse} {r : Rule}

theorem Citation.ofReference_reference (h : ¬backwardMark <+: u.name) :
    Citation.ofReference u.reference = u.citation := by
  rw [ofReference, RuleUse.reference]
  by_cases hrev : u.reversed = true
  · have hmark : backwardMark.isPrefixOf (backwardMark ++ u.name) = true :=
      List.isPrefixOf_iff_prefix.mpr (List.prefix_append _ _)
    rw [if_pos hrev, if_pos hmark, List.drop_left, RuleUse.citation, hrev]
  · rw [if_neg hrev, if_neg (by rwa [List.isPrefixOf_iff_prefix]), RuleUse.citation]
    simpa using hrev

theorem find?_name (hnames : (rules.map (·.name)).Nodup) (hr : r ∈ rules) :
    rules.find? (·.name = r.name) = some r := by
  rcases hfind : rules.find? (·.name = r.name) with _ | r'
  · have hnone := List.find?_eq_none.mp hfind r hr
    simp at hnone
  · have hname : r'.name = r.name := by simpa using List.find?_some hfind
    rw [hfind, List.inj_on_of_nodup_map hnames (List.mem_of_find?_eq_some hfind) hr hname]

theorem RuleUse.sides?_citation (hnames : (rules.map (·.name)).Nodup)
    (hr : rules[u.index]? = some r) (hname : u.name = r.name) :
    u.citation.sides? rules = some (u.pattern r, u.replacement r) := by
  rw [Citation.sides?, citation, hname, find?_name hnames (List.mem_of_getElem? hr), pattern,
    replacement]
  by_cases hrev : u.reversed = true
  · simp [hrev]
  · simp [hrev]

theorem RuleUse.sides?_flip (hnames : (rules.map (·.name)).Nodup)
    (hr : rules[u.index]? = some r) (hname : u.name = r.name) :
    u.citation.flip.sides? rules = some (u.replacement r, u.pattern r) := by
  rw [Citation.sides?, Citation.flip, citation, hname, find?_name hnames (List.mem_of_getElem? hr),
    pattern, replacement]
  by_cases hrev : u.reversed = true
  · simp [hrev]
  · simp [hrev]

theorem Citation.replaceAt?_eq_some_iff {pattern replacement s t : Text} {k : Nat}
    (hsides : c.sides? rules = some (pattern, replacement)) :
    c.replaceAt? rules k s = some t ↔ Replaces pattern replacement k s t := by
  rw [replaceAt?, hsides, replaces_iff_position]
  rcases hp : (s.positions pattern)[k]? with _ | p
  · simp [hp]
  · simp [hp, eq_comm]

theorem RuleUse.Turns.mem_name {s t : Text} (h : u.Turns rules s t) :
    ∃ r ∈ rules, u.name = r.name := by
  obtain ⟨r, hr, hname, -⟩ := h
  exact ⟨r, List.mem_of_getElem? hr, hname⟩

theorem RuleUse.Turns.replaceAt? {s t : Text} (h : u.Turns rules s t)
    (hnames : (rules.map (·.name)).Nodup) :
    u.citation.replaceAt? rules u.occurrence s = some t := by
  obtain ⟨r, hr, hname, -, hreplaces⟩ := h
  exact (Citation.replaceAt?_eq_some_iff (sides?_citation hnames hr hname)).mpr hreplaces

end Reading

end Joinability
