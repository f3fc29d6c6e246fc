import Joinability.Proofs.Report.Layout
import Joinability.Report.Tactics

/-!
# Reading a printed script

A printed script is a text, and somebody who wants to check it has nothing else. The reader of this
file takes a text apart again: lines into a name and a list of commands between braces, the list
into commands, and each command into the rules that it cites. What it gets from the script of a
proof is what was printed: **`Script.read?_tacticScript`**.

This needs names that can be told from what stands around them (`IsPlain`). A name may well hold
blanks, or something that looks like a command.
-/

namespace Joinability

/-! ## The reader -/

/-- One command of a script. -/
inductive Command where
  /-- Replaces all matches for each citation in turn. -/
  | rw (citations : List Citation)
  /-- Replaces the match with a number. -/
  | nth (occurrence : Nat) (citation : Citation)
deriving DecidableEq, Repr

/-- The blocks of a script: for each, the side on which it works, and its commands. -/
abbrev Script := List (Side × List Command)

/-- Reads a citation that stands in a command. -/
def Citation.read? (t : Text) : Option Citation :=
  let c := ofReference t.bare
  if c.name = [] then none else some c

/-- Reads a command. -/
def Command.read? (t : Text) : Option Command :=
  match t.bare.dropPrefix? (utf8 "rw [") with
  | some list => do
    let cited ← Text.upTo? ']'.toUInt8 list
    return rw (← (cited.splitOn ','.toUInt8).mapM Citation.read?)
  | none => do
    let call ← t.bare.dropPrefix? (utf8 "nth_rewrite ")
    let (digits, cited) ← Rule.splitFirst? ' '.toUInt8 call
    return nth (← numeral? digits) (← Citation.read? cited)

namespace Script

/-- Reads a line with a block. -/
def readBlock? (line : Text) : Option (Side × List Command) := do
  let (header, rest) ← Rule.splitFirst? '\x7b'.toUInt8 line
  let side ← [Side.left, Side.right].find? (Tactic.blockName · = header.bare)
  let body ← Text.upTo? '\x7d'.toUInt8 rest
  return (side, ← (splitCommands 0 (Text.bare body)).mapM Command.read?)

/-- Reads a script: one line for each block, or `rfl` when there is none. -/
def read? (t : Text) : Option Script :=
  if t = utf8 "rfl" then some [] else (t.splitOn '\n'.toUInt8).mapM readBlock?

example : read? (utf8 "conv_rhs \x7b rw [a, ← b c],  nth_rewrite 12 a \x7d") =
    some [(.right, [.rw [⟨utf8 "a", false⟩, ⟨utf8 "b c", true⟩], .nth 12 ⟨utf8 "a", false⟩])] := by
  decide

end Script

/-! ## What can be read back -/

/-- A name that a script can cite: nothing in it separates the parts of a script, no blank stands at
either end, and it does not begin with the arrow that marks a direction. -/
structure IsPlain (name : Text) : Prop where
  tight : Text.IsTight isBlank name
  notMem : ∀ b ∈ utf8 ",[]\x7b\x7d\n", b ∉ name
  unmarked : ¬utf8 "←" <+: name

theorem mapM_spaced {α β : Type} {f : α → Text} {g : α → β} {h : Text → Option β} {a : α}
    {as : List α}
    (hread : ∀ x ∈ a :: as, ∀ s, (∀ b ∈ s, isBlank b = true) → h (s ++ f x) = some (g x)) :
    (f a :: (as.map f).map (utf8 " " ++ ·)).mapM h = some ((a :: as).map g) := by
  have ha : h (f a) = some (g a) := hread a List.mem_cons_self [] (by simp)
  have has : (as.map ((utf8 " " ++ ·) ∘ f)).mapM h = some (as.map g) :=
    mapM_map_eq_some fun x hx ↦ hread x (List.mem_cons_of_mem a hx) (utf8 " ") (by decide +kernel)
  rw [List.map_map, List.mapM_cons, ha, has]
  rfl

namespace RuleUse

variable {u : RuleUse}

theorem isTight_reference (h : IsPlain u.name) : Text.IsTight isBlank u.reference := by
  rw [reference]
  split
  · exact Text.isTight_append (by decide) h.tight.ne_nil (by decide +kernel) h.tight.last
  · exact h.tight

theorem notMem_reference (h : IsPlain u.name) {b : UInt8} (hb : b ∈ utf8 ",[]\x7b\x7d\n") :
    b ∉ u.reference := by
  have hmark : ∀ b ∈ utf8 ",[]\x7b\x7d\n", b ∉ backwardMark := by decide +kernel
  rw [reference]
  split
  · rw [List.mem_append, not_or]
    exact ⟨hmark b hb, h.notMem b hb⟩
  · exact h.notMem b hb

end RuleUse

theorem Citation.read?_reference {u : RuleUse} (h : IsPlain u.name) {s : Text}
    (hs : ∀ b ∈ s, isBlank b = true) : Citation.read? (s ++ u.reference) = some u.citation := by
  have hunmarked : ¬backwardMark <+: u.name := fun hmark ↦
    h.unmarked (List.IsPrefix.trans ⟨utf8 " ", rfl⟩ hmark)
  rw [read?, Text.bare_append (RuleUse.isTight_reference h) hs, ofReference_reference hunmarked]
  exact if_neg h.tight.ne_nil

/-! ## Reading back a script -/

namespace Tactic

/-- The uses of rules for which a tactic stands. -/
def uses : Tactic → List RuleUse
  | rw us => us
  | nth u => [u]

/-- The command that a tactic is read as. -/
def command : Tactic → Command
  | rw us => .rw (us.map RuleUse.citation)
  | nth u => .nth u.occurrence u.citation

/-- What grouping does with one more use in front: it opens or extends a `rw`, or is a tactic of its
own. -/
theorem ofUses_cons (u : RuleUse) (us : List RuleUse) :
    (isOnlyMatch u = true ∧ ∃ vs rest, ofUses (u :: us) = rw (u :: vs) :: rest ∧
      (ofUses us = rw vs :: rest ∨ vs = [] ∧ ofUses us = rest)) ∨
    (isOnlyMatch u = false ∧ ofUses (u :: us) = nth u :: ofUses us) := by
  rw [ofUses]
  by_cases honly : isOnlyMatch u = true
  · rw [if_pos honly]
    refine Or.inl ⟨honly, ?_⟩
    rcases ofUses us with _ | ⟨vs | v, rest⟩
    · exact ⟨[], [], rfl, Or.inr ⟨rfl, rfl⟩⟩
    · exact ⟨vs, rest, rfl, Or.inl rfl⟩
    · exact ⟨[], nth v :: rest, rfl, Or.inr ⟨rfl, rfl⟩⟩
  · rw [if_neg honly]
    exact Or.inr ⟨by simpa using honly, rfl⟩

/-- Grouping does not lose or change any use. -/
theorem uses_ofUses (us : List RuleUse) : (ofUses us).flatMap uses = us := by
  induction us with
  | nil => rfl
  | cons u us ih =>
    rcases ofUses_cons u us with ⟨-, vs, rest, hcons, hrest | ⟨rfl, hrest⟩⟩ | ⟨-, hcons⟩
    · rw [hrest, List.flatMap_cons] at ih
      rw [hcons, List.flatMap_cons]
      exact congrArg (u :: ·) ih
    · rw [hrest] at ih
      rw [hcons, List.flatMap_cons, ih]
      rfl
    · rw [hcons, List.flatMap_cons, ih]
      rfl

theorem uses_ne_nil {us : List RuleUse} {t : Tactic} (h : t ∈ ofUses us) : t.uses ≠ [] := by
  induction us with
  | nil => exact absurd h (by simp [ofUses])
  | cons u us ih =>
    rcases ofUses_cons u us with ⟨-, vs, rest, hcons, hrest⟩ | ⟨-, hcons⟩
    · rw [hcons, List.mem_cons] at h
      rcases h with rfl | h
      · exact List.cons_ne_nil u vs
      · rcases hrest with hrest | ⟨-, hrest⟩
        · exact ih (hrest ▸ List.mem_cons_of_mem _ h)
        · exact ih (hrest ▸ h)
    · rw [hcons, List.mem_cons] at h
      rcases h with rfl | h
      · exact List.cons_ne_nil u []
      · exact ih h

theorem ofUses_ne_nil {us : List RuleUse} (h : us ≠ []) : ofUses us ≠ [] := by
  intro hnil
  rw [← uses_ofUses us, hnil] at h
  exact h rfl

/-- A tactic that can be read back: it stands for some uses, and their names are plain. -/
structure IsPlain (t : Tactic) : Prop where
  ne_nil : t.uses ≠ []
  plain : ∀ u ∈ t.uses, Joinability.IsPlain u.name

theorem isPlain_of_mem {us : List RuleUse} (h : ∀ u ∈ us, Joinability.IsPlain u.name) {t : Tactic}
    (ht : t ∈ ofUses us) : t.IsPlain := by
  refine ⟨uses_ne_nil ht, fun u hu ↦ h u ?_⟩
  rw [← uses_ofUses us]
  exact List.mem_flatMap_of_mem ht hu

theorem render_rw (us : List RuleUse) : (rw us).render
    = utf8 "rw [" ++ (utf8 ", ").intercalate (us.map RuleUse.reference) ++ utf8 "]" := rfl

section Plain

variable {t : Tactic} {b : UInt8}

theorem isTight_render (h : t.IsPlain) : Text.IsTight isBlank t.render := by
  rcases t with us | u
  · have hclose : ∀ b ∈ (utf8 "]").getLast?, isBlank b = false := by decide +kernel
    rw [render_rw, List.append_assoc]
    refine Text.isTight_append (by decide) (by simp [utf8]) (by decide +kernel) ?_
    rwa [List.getLast?_append_of_ne_nil _ (by decide)]
  · have htight := RuleUse.isTight_reference (h.plain u (List.mem_singleton_self u))
    rw [render, List.append_assoc, List.append_assoc]
    refine Text.isTight_append (by decide) (by simp [utf8]) (by decide +kernel) ?_
    rw [← List.append_assoc, List.getLast?_append_of_ne_nil _ htight.ne_nil]
    exact htight.last

theorem notMem_references {us : List RuleUse} (h : ∀ u ∈ us, Joinability.IsPlain u.name)
    (hb : b ∈ utf8 "[]\x7b\x7d\n") : b ∉ (utf8 ", ").intercalate (us.map RuleUse.reference) := by
  have hsep : ∀ b ∈ utf8 "[]\x7b\x7d\n", b ∉ utf8 ", " := by decide +kernel
  refine Text.notMem_intercalate (hsep b hb) ?_
  rw [List.forall_mem_map]
  exact fun u hu ↦ RuleUse.notMem_reference (h u hu) (List.mem_cons_of_mem _ hb)

theorem notMem_render_nth {u : RuleUse} (h : Joinability.IsPlain u.name)
    (hb : b ∈ utf8 ",[]\x7b\x7d\n") : b ∉ (nth u).render := by
  have hsigns : ∀ b ∈ utf8 ",[]\x7b\x7d\n",
      b ∉ utf8 "nth_rewrite " ∧ isDigit b = false ∧ b ∉ utf8 " " := by decide +kernel
  obtain ⟨hcall, hdigit, hblank⟩ := hsigns b hb
  have hnumber : b ∉ decimal u.occurrence := fun hmem ↦
    absurd (isDigit_of_mem_decimal hmem) (by simp [hdigit])
  simp only [render, List.mem_append, not_or]
  exact ⟨⟨⟨hcall, hnumber⟩, hblank⟩, RuleUse.notMem_reference h hb⟩

theorem notMem_render (h : t.IsPlain) (hb : b ∈ utf8 "\x7b\x7d\n") : b ∉ t.render := by
  rcases t with us | u
  · have hsigns : ∀ b ∈ utf8 "\x7b\x7d\n", b ∉ utf8 "rw [" ∧ b ∉ utf8 "]" := by decide +kernel
    have hlist := notMem_references h.plain (List.mem_append_right (utf8 "[]") hb)
    rw [render_rw, List.mem_append, List.mem_append, not_or, not_or]
    exact ⟨⟨(hsigns b hb).1, hlist⟩, (hsigns b hb).2⟩
  · have hname := h.plain u (List.mem_singleton_self u)
    exact notMem_render_nth hname (List.mem_append_right (utf8 ",[]") hb)

theorem depthAfter?_render (h : t.IsPlain) : depthAfter? 0 t.render = some 0 := by
  rcases t with us | u
  · have hplain : ∀ u ∈ us, Joinability.IsPlain u.name := h.plain
    have hopen : depthAfter? 0 (utf8 "rw [") = some 1 := by decide
    have hlist :=
      depthAfter?_of_notMem (d := 1) (notMem_references hplain (b := '['.toUInt8) (by decide))
      (notMem_references hplain (by decide)) (by simp)
    rw [render_rw, List.append_assoc, depthAfter?_append hopen, depthAfter?_append hlist]
    decide
  · have hname := h.plain u (List.mem_singleton_self u)
    exact depthAfter?_of_notMem (notMem_render_nth hname (by decide))
      (notMem_render_nth hname (by decide)) fun _ ↦ notMem_render_nth hname (by decide)

end Plain

end Tactic

/-- The citations of a `rw` are told apart at their commas. -/
theorem splitOn_references {u : RuleUse} {us : List RuleUse} (h : ∀ v ∈ u :: us, IsPlain v.name) :
    ((utf8 ", ").intercalate ((u :: us).map RuleUse.reference)).splitOn ','.toUInt8
      = u.reference :: (us.map RuleUse.reference).map (utf8 " " ++ ·) := by
  have hcomma : ∀ v ∈ u :: us, ','.toUInt8 ∉ v.reference := fun v hv ↦
    RuleUse.notMem_reference (h v hv) (by decide)
  have hparts : ∀ t ∈ u.reference :: (us.map RuleUse.reference).map (utf8 " " ++ ·),
      ','.toUInt8 ∉ t := by
    rw [List.forall_mem_cons, List.map_map, List.forall_mem_map]
    refine ⟨hcomma u List.mem_cons_self, fun v hv ↦ ?_⟩
    rw [Function.comp_apply, List.mem_append, not_or]
    exact ⟨by decide, hcomma v (List.mem_cons_of_mem u hv)⟩
  rw [List.map_cons, Text.intercalate_comma]
  exact List.splitOn_intercalate _ hparts (List.cons_ne_nil _ _)

/-- A tactic is read as the command that it is. -/
theorem Command.read?_render {t : Tactic} (h : t.IsPlain) {s : Text}
    (hs : ∀ b ∈ s, isBlank b = true) : Command.read? (s ++ t.render) = some t.command := by
  rw [read?, Text.bare_append (Tactic.isTight_render h) hs]
  rcases t with us | u
  · obtain ⟨u, vs, rfl⟩ := List.exists_cons_of_ne_nil h.ne_nil
    have hplain : ∀ v ∈ u :: vs, IsPlain v.name := h.plain
    have hclose :=
      Text.upTo?_append (Tactic.notMem_references hplain (b := ']'.toUInt8) (by decide))
    have hread : (u.reference :: (vs.map RuleUse.reference).map (utf8 " " ++ ·)).mapM Citation.read?
        = some ((u :: vs).map RuleUse.citation) :=
      mapM_spaced fun v hv s hs ↦ Citation.read?_reference (hplain v hv) hs
    rw [Tactic.render_rw, List.append_assoc, List.dropPrefix?_append_of_beq _ (by simp)]
    simp only [Option.bind_eq_bind]
    rw [show utf8 "]" = [']'.toUInt8] from rfl, hclose, Option.bind_some, splitOn_references hplain,
      hread]
    rfl
  · have hname := h.plain u (List.mem_singleton_self u)
    have hnot : (Tactic.nth u).render.dropPrefix? (utf8 "rw [") = none := rfl
    have hdigits : ' '.toUInt8 ∉ decimal u.occurrence := fun hmem ↦
      absurd (isDigit_of_mem_decimal hmem) (by decide)
    have hread := Citation.read?_reference hname (s := []) (by simp)
    rw [hnot]
    simp only [Tactic.render, List.append_assoc]
    rw [List.dropPrefix?_append_of_beq _ (by simp)]
    simp only [Option.bind_eq_bind, Option.bind_some]
    rw [show utf8 " " ++ u.reference = ' '.toUInt8 :: u.reference from rfl,
      Rule.splitFirst?_append hdigits]
    simp only [Option.bind_some, numeral?_decimal]
    rw [← List.nil_append u.reference, hread]
    rfl

namespace Script

/-- The list of commands in a block. -/
def bodyOf (us : List RuleUse) : Text :=
  (utf8 ", ").intercalate ((Tactic.ofUses us).map Tactic.render)

theorem renderBlock_eq (side : Side) (us : List RuleUse) : Tactic.renderBlock side us
    = (Tactic.blockName side ++ utf8 " ") ++ '\x7b'.toUInt8 ::
      ((utf8 " " ++ bodyOf us ++ utf8 " ") ++ ['\x7d'.toUInt8]) := by
  have hopen : utf8 " \x7b " = utf8 " " ++ '\x7b'.toUInt8 :: utf8 " " := rfl
  have hclose : utf8 " \x7d" = utf8 " " ++ ['\x7d'.toUInt8] := rfl
  rw [Tactic.renderBlock, hopen, hclose]
  simp only [List.append_assoc, List.cons_append]
  rfl

section Blocks

variable {us : List RuleUse} (hplain : ∀ u ∈ us, IsPlain u.name)

include hplain

theorem notMem_bodyOf {b : UInt8} (hb : b ∈ utf8 "\x7b\x7d\n") : b ∉ bodyOf us := by
  have hsep : ∀ b ∈ utf8 "\x7b\x7d\n", b ∉ utf8 ", " := by decide +kernel
  refine Text.notMem_intercalate (hsep b hb) ?_
  rw [List.forall_mem_map]
  exact fun t ht ↦ Tactic.notMem_render (Tactic.isPlain_of_mem hplain ht) hb

theorem isTight_bodyOf (hne : us ≠ []) : Text.IsTight isBlank (bodyOf us) := by
  refine Text.isTight_intercalate (by simpa using Tactic.ofUses_ne_nil hne) ?_
  rw [List.forall_mem_map]
  exact fun t ht ↦ Tactic.isTight_render (Tactic.isPlain_of_mem hplain ht)

theorem mapM_splitCommands_bodyOf (hne : us ≠ []) :
    (splitCommands 0 (bodyOf us)).mapM Command.read? =
      some ((Tactic.ofUses us).map Tactic.command) := by
  obtain ⟨t, ts, hts⟩ := List.exists_cons_of_ne_nil (Tactic.ofUses_ne_nil hne)
  have ht : ∀ t' ∈ t :: ts, t'.IsPlain := fun t' ht' ↦
    Tactic.isPlain_of_mem hplain (hts ▸ ht')
  have hparts : ∀ s ∈ t.render :: (ts.map Tactic.render).map (utf8 " " ++ ·),
      depthAfter? 0 s = some 0 := by
    have hblank : depthAfter? 0 (utf8 " ") = some 0 := by decide
    rw [List.forall_mem_cons, List.map_map, List.forall_mem_map]
    refine ⟨Tactic.depthAfter?_render (ht t List.mem_cons_self), fun t' ht' ↦ ?_⟩
    rw [Function.comp_apply, depthAfter?_append hblank]
    exact Tactic.depthAfter?_render (ht t' (List.mem_cons_of_mem t ht'))
  rw [bodyOf, hts, List.map_cons, Text.intercalate_comma, splitCommands_intercalate hparts]
  exact mapM_spaced fun t' ht' s hs ↦ Command.read?_render (ht t' ht') hs

theorem newline_notMem_renderBlock (side : Side) : '\n'.toUInt8 ∉ Tactic.renderBlock side us := by
  have hname : '\n'.toUInt8 ∉ Tactic.blockName side := by
    rcases side <;> decide
  have hbody := notMem_bodyOf hplain (b := '\n'.toUInt8) (by decide)
  rw [Tactic.renderBlock]
  simp only [List.mem_append, not_or]
  exact ⟨⟨⟨hname, by decide⟩, hbody⟩, by decide⟩

/-- A block is read as the commands of its tactics. -/
theorem readBlock?_renderBlock (hne : us ≠ []) (side : Side) :
    readBlock? (Tactic.renderBlock side us) =
      some (side, (Tactic.ofUses us).map Tactic.command) := by
  have hheader : '\x7b'.toUInt8 ∉ Tactic.blockName side ++ utf8 " " ∧
      [Side.left, Side.right].find? (Tactic.blockName · = (Tactic.blockName side ++ utf8 " ").bare)
        = some side := by
    rcases side <;> decide
  have hbody : '\x7d'.toUInt8 ∉ utf8 " " ++ bodyOf us ++ utf8 " " := by
    have hclose := notMem_bodyOf hplain (b := '\x7d'.toUInt8) (by decide)
    simp only [List.mem_append, not_or]
    exact ⟨⟨by decide, hclose⟩, by decide⟩
  have hbare : (utf8 " " ++ bodyOf us ++ utf8 " ").bare = bodyOf us :=
    Text.trim_around (isTight_bodyOf hplain hne) (by decide +kernel) (by decide +kernel)
  rw [renderBlock_eq, readBlock?, Rule.splitFirst?_append hheader.1]
  simp only [Option.bind_eq_bind, Option.bind_some]
  rw [hheader.2, Option.bind_some, Text.upTo?_append hbody, Option.bind_some, hbare,
    mapM_splitCommands_bodyOf hplain hne]
  rfl

end Blocks

/-- What a script for the uses of rules on each side is read as. -/
def ofSides (sides : List (Side × List RuleUse)) : Script :=
  (sides.filter fun (_, us) ↦ !us.isEmpty).map fun (side, us) ↦
    (side, (Tactic.ofUses us).map Tactic.command)

theorem read?_lines {lines : List Text} {script : Script} (hne : lines ≠ [])
    (hlines : ∀ t ∈ lines, '\n'.toUInt8 ∉ t) (hread : lines.mapM readBlock? = some script) :
    read? ((utf8 "\n").intercalate lines) = some script := by
  have hscript : (((utf8 "\n").intercalate lines).splitOn '\n'.toUInt8).mapM readBlock?
      = some script := by
    rw [show utf8 "\n" = ['\n'.toUInt8] from rfl, List.splitOn_intercalate _ hlines hne]
    exact hread
  have hnot : (utf8 "\n").intercalate lines ≠ utf8 "rfl" := by
    intro heq
    have hnone : ((utf8 "rfl").splitOn '\n'.toUInt8).mapM readBlock? = none := by decide
    rw [heq, hnone] at hscript
    simp at hscript
  exact (if_neg hnot).trans hscript

/-- **Reading a printed script** gives the commands that were printed. -/
theorem read?_tacticScript {sides : List (Side × List RuleUse)}
    (h : ∀ block ∈ sides, ∀ u ∈ block.2, IsPlain u.name) :
    read? (tacticScript sides) = some (ofSides sides) := by
  have hblocks : ∀ block ∈ sides.filter (fun (_, us) ↦ !us.isEmpty),
      block.2 ≠ [] ∧ ∀ u ∈ block.2, IsPlain u.name := by
    intro block hblock
    obtain ⟨hmem, hne⟩ := List.mem_filter.mp hblock
    exact ⟨by simpa using hne, h block hmem⟩
  rw [tacticScript, ofSides]
  generalize sides.filter (fun (_, us) ↦ !us.isEmpty) = blocks at hblocks ⊢
  rcases blocks with _ | ⟨block, blocks⟩
  · rfl
  · refine read?_lines (by simp) ?_ ?_
    · rw [List.forall_mem_map]
      exact fun b hb ↦ newline_notMem_renderBlock (hblocks b hb).2 b.1
    · exact mapM_map_eq_some fun b hb ↦
        readBlock?_renderBlock (hblocks b hb).2 (hblocks b hb).1 b.1

end Script

end Joinability
