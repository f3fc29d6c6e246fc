import Mathlib.Data.List.DropRight
import Joinability.Proofs.Report.Layout

/-!
# What is read as a rule

A text is read as a rule exactly when it is a written form of that rule: the name up to the first
colon, behind it exactly one equals sign with a side before it and a side after it, and blanks
around the three parts. A `>` that follows the equals sign directly belongs to the separator and
makes the rule one-way, so the right side of a symmetric rule that begins with `>` needs a blank in
front of it.

`Rule.Written` says this without reading anything: it puts a text together around a rule. What has
to be shown is that the two cuts of the reader, at the first colon and at the first equals sign
after it, fall where the parts were joined, and that trimming gives back what stands between the
blanks.
-/

namespace Joinability

/-! ## Blanks around a text -/

namespace Text

variable {p : UInt8 → Bool} {t u : Text}

/-- The text `t` is the tight text `u` with bytes of the class `p` around it. -/
def Wraps (p : UInt8 → Bool) (t u : Text) : Prop :=
  IsTight p u ∧ ∃ before after, t = before ++ u ++ after ∧ (∀ b ∈ before, p b = true) ∧
    ∀ b ∈ after, p b = true

/-- What trimming leaves begins and ends with bytes that are not in the class, if it leaves
anything. -/
theorem isTight_trim (h : t.trim p ≠ []) : IsTight p (t.trim p) := by
  refine ⟨h, ?_, ?_⟩
  · -- the beginning is that of the text of which only an end is taken away
    intro b hb
    obtain ⟨after, hafter⟩ : t.trim p <+: t.dropWhile p := List.rdropWhile_prefix p _
    have hhead := List.head?_dropWhile_not p t
    rw [← hafter, List.head?_append_of_ne_nil _ h, hb] at hhead
    exact hhead
  · intro b hb
    have hlast : ¬p ((t.trim p).getLast h) = true := List.rdropWhile_last_not p _ h
    rw [List.getLast?_eq_some_getLast h, Option.mem_some_iff] at hb
    rwa [hb, Bool.not_eq_true] at hlast

theorem wraps_iff_trim : Wraps p t u ↔ t.trim p = u ∧ u ≠ [] := by
  constructor
  · rintro ⟨htight, before, after, rfl, hbefore, hafter⟩
    exact ⟨trim_around htight hbefore hafter, htight.ne_nil⟩
  · rintro ⟨rfl, hne⟩
    refine ⟨isTight_trim hne, t.takeWhile p, (t.dropWhile p).rtakeWhile p, ?_, ?_, ?_⟩
    · have htrim : t.trim p ++ (t.dropWhile p).rtakeWhile p = t.dropWhile p :=
        List.rdropWhile_append_rtakeWhile
      rw [List.append_assoc, htrim, List.takeWhile_append_dropWhile]
    · exact fun b hb ↦ List.mem_takeWhile_imp hb
    · exact fun b hb ↦ List.mem_rtakeWhile_imp hb

end Text

namespace Rule

/-! ## Cuts -/

theorem splitFirst?_eq_some_iff {sep : UInt8} {t before after : Text} :
    splitFirst? sep t = some (before, after) ↔ sep ∉ before ∧ t = before ++ sep :: after := by
  constructor
  · intro h
    by_cases hsep : sep ∈ t
    · obtain ⟨s, u, rfl, hs⟩ := List.eq_append_cons_of_mem hsep
      rw [splitFirst?_append hs] at h
      obtain ⟨rfl, rfl⟩ := Prod.mk.inj (Option.some.inj h)
      exact ⟨hs, rfl⟩
    · rw [splitFirst?_of_notMem hsep] at h
      exact absurd h (by simp)
  · rintro ⟨hsep, rfl⟩
    exact splitFirst?_append hsep after

/-! ## Written forms -/

variable {r : Rule} {t : Text}

/-- A rule that has a written form: its name and its sides are trimmed and not empty, the name holds
no colon and the sides hold no equals sign. -/
structure IsWritable (r : Rule) : Prop where
  name : Text.IsTight isPadding r.name
  lhs : Text.IsTight isPadding r.lhs
  rhs : Text.IsTight isPadding r.rhs
  colon : ':'.toUInt8 ∉ r.name
  equals_lhs : '='.toUInt8 ∉ r.lhs
  equals_rhs : '='.toUInt8 ∉ r.rhs

/-- The parts of which a written form is made: the name and the sides with blanks around them. No
colon comes before the end of the name and no equals sign before or after the separator, and what
follows a lone equals sign does not make it an arrow. -/
structure Parts (r : Rule) (name lhs rhs : Text) : Prop where
  wraps_name : Text.Wraps isPadding name r.name
  wraps_lhs : Text.Wraps isPadding lhs r.lhs
  wraps_rhs : Text.Wraps isPadding rhs r.rhs
  colon : ':'.toUInt8 ∉ name
  equals_lhs : '='.toUInt8 ∉ lhs
  equals_rhs : '='.toUInt8 ∉ rhs
  arrow : r.symmetric = true → rhs.head? ≠ some '>'.toUInt8

/-- The text `t` is a written form of the rule. -/
def Written (r : Rule) (t : Text) : Prop :=
  ∃ name lhs rhs, t = name ++ utf8 ":" ++ lhs ++ r.separator ++ rhs ∧ r.Parts name lhs rhs

theorem separator_append (r : Rule) (rhs : Text) :
    r.separator ++ rhs = '='.toUInt8 :: if r.symmetric then rhs else '>'.toUInt8 :: rhs := by
  rw [separator]
  split <;> rfl

/-- What the reader makes of the three parts between its two cuts. -/
theorem parse_append_eq_ok_iff {name lhs after : Text} (hcolon : ':'.toUInt8 ∉ name)
    (hequals : '='.toUInt8 ∉ lhs) :
    parse (name ++ ':'.toUInt8 :: (lhs ++ '='.toUInt8 :: after)) = .ok r ↔
      '='.toUInt8 ∉ after ∧ (r.symmetric = true ↔ after.head? ≠ some '>'.toUInt8) ∧
        Text.Wraps isPadding name r.name ∧ Text.Wraps isPadding lhs r.lhs ∧
        Text.Wraps isPadding (if r.symmetric then after else after.tail) r.rhs := by
  rw [parse, splitFirst?_append hcolon]
  simp only [splitFirst?_append hequals]
  by_cases hmany : '='.toUInt8 ∈ after
  · simp [hmany]
  · rcases r with ⟨n, l, s, symmetric⟩
    simp only [List.contains_eq_mem, hmany, decide_false, Bool.false_eq_true, if_false, isUsable,
      not_false_eq_true, true_and, Text.wraps_iff_trim]
    by_cases harrow : after.head? = some '>'.toUInt8
    · cases symmetric <;> grind
    · cases symmetric <;> grind

/-- Only a text with a colon and an equals sign after it is read as a rule. -/
theorem exists_cuts_of_parse (h : parse t = .ok r) : ∃ name lhs after, ':'.toUInt8 ∉ name ∧
    '='.toUInt8 ∉ lhs ∧ t = name ++ ':'.toUInt8 :: (lhs ++ '='.toUInt8 :: after) := by
  rw [parse] at h
  split at h
  · exact absurd h (by simp)
  · next name body hname =>
    split at h
    · exact absurd h (by simp)
    · next lhs after hlhs =>
      obtain ⟨hcolon, rfl⟩ := splitFirst?_eq_some_iff.mp hname
      obtain ⟨hequals, rfl⟩ := splitFirst?_eq_some_iff.mp hlhs
      exact ⟨name, lhs, after, hcolon, hequals, rfl⟩

/-- A text is read as a rule exactly when it is a written form of the rule. -/
theorem parse_eq_ok_iff : parse t = .ok r ↔ r.Written t := by
  have hjoin (name lhs rhs : Text) : name ++ utf8 ":" ++ lhs ++ r.separator ++ rhs
      = name ++ ':'.toUInt8 :: (lhs ++ '='.toUInt8 ::
          if r.symmetric then rhs else '>'.toUInt8 :: rhs) := by
    rw [List.append_assoc _ r.separator, separator_append, List.append_assoc, List.append_assoc]
    rfl
  constructor
  · intro h
    obtain ⟨name, lhs, after, hcolon, hequals, rfl⟩ := exists_cuts_of_parse h
    obtain ⟨hafter, harrow, hname, hlhs, hrhs⟩ := (parse_append_eq_ok_iff hcolon hequals).mp h
    rcases hsymmetric : r.symmetric with _ | _
    · -- the arrow belongs to the separator
      have hhead : after.head? = some '>'.toUInt8 :=
        by_contra fun hne ↦ absurd (hsymmetric.symm.trans (harrow.mpr hne)) (by simp)
      obtain ⟨rhs, rfl⟩ := List.head?_eq_some_iff.mp hhead
      rw [hsymmetric] at hrhs
      refine ⟨name, lhs, rhs, ?_, hname, hlhs, hrhs, hcolon, hequals, ?_, ?_⟩
      · rw [hjoin, hsymmetric]
        rfl
      · exact fun hmem ↦ hafter (List.mem_cons_of_mem _ hmem)
      · exact fun hboth ↦ absurd (hsymmetric.symm.trans hboth) (by simp)
    · rw [hsymmetric] at hrhs
      refine ⟨name, lhs, after, ?_, hname, hlhs, hrhs, hcolon, hequals, hafter, harrow.mp⟩
      rw [hjoin, hsymmetric]
      rfl
  · rintro ⟨name, lhs, rhs, rfl, h⟩
    rw [hjoin, parse_append_eq_ok_iff h.colon h.equals_lhs]
    rcases hsymmetric : r.symmetric with _ | _
    · refine ⟨?_, by simp, h.wraps_name, h.wraps_lhs, h.wraps_rhs⟩
      have harrow : '='.toUInt8 ≠ '>'.toUInt8 := by decide
      simpa [harrow] using h.equals_rhs
    · exact ⟨h.equals_rhs, by simpa using h.arrow hsymmetric, h.wraps_name, h.wraps_lhs,
        h.wraps_rhs⟩

theorem kind_of_parse_eq_error {f : Fault} (h : parse t = .error f) : f.kind = .request := by
  unfold parse at h
  grind [Fault.kind]

/-! ## Writing and reading -/

/-- What is written with blanks between the parts is a written form. -/
theorem IsWritable.written_render (h : r.IsWritable) : r.Written r.render := by
  have hnil : ∀ b ∈ ([] : Text), isPadding b = true := by simp
  have hblank : ∀ b ∈ utf8 " ", isPadding b = true := by decide +kernel
  have hcolon : ':'.toUInt8 ∉ utf8 " " := by decide
  have hequals : '='.toUInt8 ∉ utf8 " " := by decide
  refine ⟨[] ++ r.name ++ utf8 " ", utf8 " " ++ r.lhs ++ utf8 " ", utf8 " " ++ r.rhs ++ [], ?_,
    ⟨h.name, _, _, rfl, hnil, hblank⟩, ⟨h.lhs, _, _, rfl, hblank, hblank⟩,
    ⟨h.rhs, _, _, rfl, hblank, hnil⟩, ?_, ?_, ?_, ?_⟩
  · have hseparator : utf8 " : " = utf8 " " ++ utf8 ":" ++ utf8 " " := rfl
    simp only [render, hseparator, List.nil_append, List.append_nil, List.append_assoc]
  · simpa [hcolon] using h.colon
  · simpa [hequals] using h.equals_lhs
  · simpa [hequals] using h.equals_rhs
  · -- the blank keeps a right side that begins with `>` from the equals sign
    intro _ harrow
    have hfirst : some ' '.toUInt8 = some '>'.toUInt8 := harrow
    exact absurd hfirst (by decide)

/-- **Rules are read as they are written**, and nothing else is read as a rule. A text is accepted
exactly when it is a written form of a rule: a name up to the first colon, after it exactly one
equals sign with a side on either hand, and nothing but blanks around these parts. The rule that is
read has the parts without the blanks, and it is one-way exactly when a `>` follows the equals sign.
Every other text is refused as an unacceptable request. A rule whose parts can be written at all is
therefore read back from what is written for it, whatever colons its sides hold and wherever they
hold a `>`. -/
theorem parse_reads_written (r : Rule) (t : Text) :
    (parse t = .ok r ↔ r.Written t) ∧ (∀ f, parse t = .error f → f.kind = .request) ∧
      (r.IsWritable → parse r.render = .ok r) :=
  ⟨parse_eq_ok_iff, fun _ ↦ kind_of_parse_eq_error, fun h ↦ parse_eq_ok_iff.mpr h.written_render⟩

/-- A rule whose left side holds a colon and whose right side begins with a `>` is read back, and a
text with two separators is refused. -/
theorem parse_reads_written_arrow :
    let r : Rule := { name := utf8 "shift", lhs := utf8 "a:b", rhs := utf8 "> c" }
    let t := utf8 "r : a = b => c"
    r.IsWritable ∧ r.render = utf8 "shift : a:b = > c" ∧ parse r.render = .ok r ∧
      parse t = .error (.ruleWithManyEquals t) ∧ (Fault.ruleWithManyEquals t).kind = .request := by
  intro r t
  have hwritable : r.IsWritable := by
    refine ⟨⟨?_, ?_, ?_⟩, ⟨?_, ?_, ?_⟩, ⟨?_, ?_, ?_⟩, ?_, ?_, ?_⟩ <;> decide +kernel
  have hrefused : parse t = .error (.ruleWithManyEquals t) := rfl
  obtain ⟨-, hkind, hread⟩ := parse_reads_written r t
  exact ⟨hwritable, rfl, hread hwritable, hrefused, hkind _ hrefused⟩

end Rule

end Joinability
