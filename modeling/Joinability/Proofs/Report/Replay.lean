import Joinability.Proofs.Report.Script
import Joinability.Proofs.Search.Steps

/-!
# Replaying a script

A script that was read can be run: every block turns the text of its side, command by command, and a
command that does not find a match fails. The script that is printed for a found proof runs on both
sides of the goal and leaves the same text there (**`Search.solve_explain`**).

The steps of a unit become one command each, or one citation of a shared `rw`. A `rw` replaces every
match, and a step only one. That comes to the same because a step goes into a `rw` only when it
quotes a pattern with one match, and the number of matches that it quotes is the true one.
-/

namespace Joinability

/-- Runs a command on a text. -/
def Command.run? (rules : List Rule) (t : Text) : Command → Option Text
  | rw citations => citations.foldlM (fun t c ↦ c.replaceAll? rules t) t
  | nth occurrence citation => citation.replaceAt? rules occurrence t

/-- Runs commands one after the other. -/
def Command.runAll? (rules : List Rule) (t : Text) (commands : List Command) : Option Text :=
  commands.foldlM (run? rules) t

namespace Script

/-- The commands of the blocks that work on a side. -/
def commandsOf (script : Script) (side : Side) : List Command :=
  (script.filter (·.1 = side)).flatMap (·.2)

/-- Runs a script on the text of a side. -/
def run? (rules : List Rule) (script : Script) (side : Side) (t : Text) : Option Text :=
  Command.runAll? rules t (script.commandsOf side)

theorem commandsOf_ofSides (us vs : List RuleUse) (side : Side) :
    (ofSides [(.left, us), (.right, vs)]).commandsOf side
      = (Tactic.ofUses (side.pick us vs)).map Tactic.command := by
  rcases side <;> rcases us <;> rcases vs <;> simp [ofSides, commandsOf, Side.pick, Tactic.ofUses]

end Script

variable {rules : List Rule} {u : RuleUse} {s t m : Text}

/-- A step that quotes a pattern with one match replaces all matches. -/
theorem RuleUse.Turns.replaceAll? (h : u.Turns rules s t) (hnames : (rules.map (·.name)).Nodup)
    (hcounts : u.Counts rules s) (honly : Tactic.isOnlyMatch u = true) :
    u.citation.replaceAll? rules s = some t := by
  obtain ⟨r, hr, hname, -, hreplaces⟩ := h
  obtain ⟨r', hr', hcount⟩ := hcounts
  obtain rfl := Option.some.inj (hr.symm.trans hr')
  obtain ⟨p, hp, rfl⟩ := replaces_iff_position.mp hreplaces
  -- there is one match, which is the one that the step replaces
  have hpositions : s.positions (u.pattern r) = [p] := by
    rw [Tactic.isOnlyMatch, Bool.and_eq_true, beq_iff_eq, decide_eq_true_eq] at honly
    obtain ⟨hfirst, hfew⟩ := honly
    rw [hfirst] at hp
    obtain ⟨q, hq⟩ := List.length_eq_one_iff.mp
      (Nat.le_antisymm (hcount ▸ hfew) (List.length_pos_of_mem (List.mem_of_getElem? hp)))
    rw [hq] at hp ⊢
    simpa using hp
  have hsides := RuleUse.sides?_citation hnames hr hname
  rw [Citation.replaceAll?, hsides, Option.bind_eq_bind, Option.bind_some]
  simp only [hpositions, List.isEmpty_cons, Text.replaceAll_of_only hpositions]
  rfl

/-- Running the tactics with one more step in front takes the step first. -/
theorem Tactic.runAll?_ofUses_cons (h : u.Turns rules s t) (hnames : (rules.map (·.name)).Nodup)
    (hcounts : u.Counts rules s) (us : List RuleUse) :
    Command.runAll? rules s ((ofUses (u :: us)).map command)
      = Command.runAll? rules t ((ofUses us).map command) := by
  rcases ofUses_cons u us with ⟨honly, vs, rest, hcons, hrest⟩ | ⟨-, hcons⟩
  · have hall := h.replaceAll? hnames hcounts honly
    have hrw :
        Command.run? rules s (rw (u :: vs)).command = Command.run? rules t (rw vs).command := by
      show (u.citation.replaceAll? rules s).bind _ = _
      rw [hall]
      rfl
    rw [hcons, Command.runAll?, List.map_cons, List.foldlM_cons, hrw]
    rcases hrest with hrest | ⟨rfl, hrest⟩
    · rw [hrest, Command.runAll?, List.map_cons, List.foldlM_cons]
    · rw [hrest]
      rfl
  · have hnth : Command.run? rules s (nth u).command = some t := h.replaceAt? hnames
    rw [hcons, Command.runAll?, List.map_cons, List.foldlM_cons, hnth]
    rfl

section Chains

variable {steps : List ProofStep}

theorem Chain.runAll? (h : Chain rules s steps m) (hnames : (rules.map (·.name)).Nodup)
    (hcounts : ∀ q ∈ steps, q.use.Counts rules q.before) :
    Command.runAll? rules s ((Tactic.ofUses (steps.map (·.use))).map Tactic.command) = some m := by
  induction steps generalizing s with
  | nil => exact congrArg some h
  | cons p steps ih =>
    obtain ⟨rfl, hturns, hrest⟩ := h
    rw [List.map_cons, Tactic.runAll?_ofUses_cons hturns hnames (hcounts p List.mem_cons_self)]
    exact ih hrest fun q hq ↦ hcounts q (List.mem_cons_of_mem p hq)

end Chains

namespace Search

/-- **Replaying a script.** When a search with rules succeeds, the script that is printed for its
proof can be read back, every command of it finds its matches, and it leads from `lhs` and from
`rhs` to the same text. -/
theorem solve_explain (rules : List Rule) (clock : Nat → Nat) (config : Config Payload)
    (hkey : config.key = Term.pretty) (hnames : (rules.map (·.name)).Nodup)
    (hplain : ∀ r ∈ rules, IsPlain r.name) (lhs rhs : Text) (tally : Tally) :
    ∃ result, (solve (.ofRules rules) clock config (.ofText lhs) (.ofText rhs) tally).answer
        = .ok result ∧
      (result.status = .success → ∃ script m, Script.read? (explain result.units) = some script ∧
        script.run? rules .left lhs = some m ∧ script.run? rules .right rhs = some m) := by
  obtain ⟨result, hanswer, hfinds⟩ := exists_finds rules clock config hkey lhs rhs tally
  refine ⟨result, hanswer, fun hsuccess ↦ ?_⟩
  obtain ⟨p, m, h⟩ := hfinds hsuccess
  rcases h.units with ⟨rfl, hunits⟩ | ⟨left, right, hunits, hleft, hright⟩
  · rw [hunits]
    exact ⟨[], lhs, rfl, rfl, rfl⟩
  · have hsteps := Result.stepsOf_of_units hunits hleft hright
    have hchain (side : Side) : Chain rules (side.pick lhs rhs) (side.pick left right).steps m :=
      hsteps side ▸ h.chain side
    have hcounts (side : Side) : ∀ q ∈ (side.pick left right).steps, q.use.Counts rules q.before :=
      hsteps side ▸ h.counts side
    have hplains (side : Side) :
        ∀ u ∈ (side.pick left right).steps.map (·.use), IsPlain u.name := by
      rw [List.forall_mem_map]
      intro q hq
      have hturns := (hchain side).of_mem hq
      obtain ⟨r, hr, hname⟩ := hturns.mem_name
      exact hname ▸ hplain r hr
    have hread : Script.read? (explain result.units) = some (Script.ofSides
        [(.left, left.steps.map (·.use)), (.right, right.steps.map (·.use))]) := by
      rw [hunits, explain, List.map_cons, List.map_singleton, hleft, hright]
      refine Script.read?_tacticScript ?_
      rw [List.forall_mem_cons, List.forall_mem_singleton]
      exact ⟨hplains .left, hplains .right⟩
    refine ⟨_, m, hread, ?_, ?_⟩
    · rw [Script.run?, Script.commandsOf_ofSides]
      exact (hchain .left).runAll? hnames (hcounts .left)
    · rw [Script.run?, Script.commandsOf_ofSides]
      exact (hchain .right).runAll? hnames (hcounts .right)

/-- Here the first step has to name its match, since `a` has another one in `a+a`, and the second
step does not. -/
theorem solve_explain_twice :
    let rules : List Rule :=
      [{ name := utf8 "r s", lhs := utf8 "a", rhs := utf8 "c", symmetric := false },
       { name := utf8 "t", lhs := utf8 "+", rhs := utf8 "-" }]
    ∃ result script m, (solve (.ofRules rules) (fun _ ↦ 0) {} (.ofText (utf8 "a+a"))
        (.ofText (utf8 "c-c")) {}).answer = .ok result ∧ result.status = .success ∧
      explain result.units = utf8
        "conv_lhs \x7b nth_rewrite 0 r s, rw [r s] \x7d\nconv_rhs \x7b rw [← t] \x7d" ∧
      Script.read? (explain result.units) = some script ∧
      script.run? rules .left (utf8 "a+a") = some m ∧
      script.run? rules .right (utf8 "c-c") = some m := by
  intro rules
  have hplain : ∀ r ∈ rules, IsPlain r.name := by
    rw [List.forall_mem_cons, List.forall_mem_singleton]
    constructor <;>
      exact ⟨⟨by decide, by decide +kernel, by decide +kernel⟩, by decide +kernel, by decide⟩
  have hresult : (solve (.ofRules rules) (fun _ ↦ 0) {} (.ofText (utf8 "a+a"))
      (.ofText (utf8 "c-c")) {}).answer.toOption.map (fun r ↦ (r.status, explain r.units))
        = some (.success, utf8
          "conv_lhs \x7b nth_rewrite 0 r s, rw [r s] \x7d\nconv_rhs \x7b rw [← t] \x7d") := by
    decide +kernel
  obtain ⟨result, hanswer, hreplay⟩ :=
    solve_explain rules (fun _ ↦ 0) {} rfl (by decide) hplain (utf8 "a+a") (utf8 "c-c") {}
  rw [hanswer] at hresult
  obtain ⟨hstatus, hscript⟩ := Prod.mk.inj (Option.some.inj hresult)
  obtain ⟨script, m, hread, hleft, hright⟩ := hreplay hstatus
  exact ⟨result, script, m, hanswer, hstatus, hscript, hread, hleft, hright⟩

end Search

end Joinability
