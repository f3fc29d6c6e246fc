import Mathlib.Data.List.Basic
import Joinability.Proofs.Search.Forcing

/-!
# Attempts at a proof

The recipe for the proof of an edge may fail. The edge then stays as it is, and whoever wants the
proof later has the recipe run again. An *attempt* is what happens when the proof of an edge is
forced that has not been built: the recipe runs, and there is a proof or a fault. An edge without a
recipe counts as one whose recipe always fails.

`Edges.Settles` describes what a number of attempts have made of a table: an edge whose recipe came
to an end carries the first proof that came of it, and every other edge is as it was. So there is no
second proof to choose from (`Settles.once`), and nothing is attempted at an edge that was ready
before (`Settles.fresh`). The list of attempts is no claim about the engine but a record of it:
these recipes, followed in this order and with these answers, lead the engine from its state before
to its state after (`Edges.Runs`).

Tables that settle one after the other settle together (`Settles.trans`), so it is enough to look at
a single edge (`Edges.settles_force`).
-/

namespace Joinability

variable {σ τ π : Type}

/-- The edge with a proof, if there is one. -/
def Edge.withProof? (e : Edge τ π) : Option π → Edge τ π
  | some p => { e with proof := .ready p }
  | none => e

theorem Edge.toArc_withProof? (e : Edge τ π) (p? : Option π) :
    (e.withProof? p?).toArc = e.toArc := by
  cases p? <;> rfl

/-- An attempt to build the proof of an edge. -/
structure Attempt (π : Type) where
  /-- The edge. -/
  edge : Nat
  /-- What came of it. -/
  answer : Except Fault π

/-- The first proof that came of the attempts at an edge. -/
def firstProof? (log : List (Attempt π)) (j : Nat) : Option π :=
  log.findSome? fun a ↦ if a.edge = j then a.answer.toOption else none

theorem firstProof?_append (log more : List (Attempt π)) (j : Nat) :
    firstProof? (log ++ more) j = (firstProof? log j).or (firstProof? more j) :=
  List.findSome?_append

theorem firstProof?_singleton (a : Attempt π) (j : Nat) :
    firstProof? [a] j = if a.edge = j then a.answer.toOption else none := by
  rw [firstProof?, List.findSome?_singleton]

theorem exists_of_firstProof? {log : List (Attempt π)} {j : Nat} {p : π}
    (h : firstProof? log j = some p) : ∃ a ∈ log, a.edge = j ∧ a.answer = .ok p := by
  obtain ⟨a, ha, hp⟩ := List.exists_of_findSome?_eq_some h
  by_cases hj : a.edge = j
  · rw [if_pos hj] at hp
    refine ⟨a, ha, hj, ?_⟩
    cases hanswer : a.answer with
    | error fault => simp [hanswer, Except.toOption] at hp
    | ok q => rw [hanswer] at hp; exact congrArg Except.ok (Option.some.inj hp)
  · rw [if_neg hj] at hp
    exact absurd hp (by simp)

theorem exists_firstProof? {log : List (Attempt π)} {a : Attempt π} (ha : a ∈ log) {p : π}
    (hp : a.answer = .ok p) : ∃ q, firstProof? log a.edge = some q := by
  rw [← Option.isSome_iff_exists, firstProof?, List.isSome_findSome?]
  exact List.any_eq_true.mpr ⟨a, ha, by rw [if_pos rfl, hp]; rfl⟩

namespace Edges

theorem isForced_iff {es : Edges τ π} {j : Nat} :
    es.isForced j = true ↔ ∃ (e : Edge τ π) (p : π), es.items[j]? = some e ∧
      e.proof = .ready p := by
  rw [isForced, Option.any_eq_true]
  constructor
  · rintro ⟨e, he, hready⟩
    cases hproof : e.proof with
    | absent => simp [hproof, Deferred.isReady] at hready
    | pending recipe => simp [hproof, Deferred.isReady] at hready
    | ready p => exact ⟨e, p, he, hproof⟩
  · rintro ⟨e, p, he, hproof⟩
    exact ⟨e, he, by rw [hproof]; rfl⟩

variable {prove : τ → σ → Except Fault π × σ} {es fs : Edges τ π} {s t u : Edges τ π × σ}
  {log more : List (Attempt π)}

/-- What forcing the proof of an edge comes to depends on this edge only. -/
theorem force_congr (prove : τ → σ → Except Fault π × σ) {id : Nat}
    (hitem : es.items[id]? = fs.items[id]?) (s : σ) :
    (es.force prove id s).1 = (fs.force prove id s).1 ∧
    (es.force prove id s).2.2 = (fs.force prove id s).2.2 := by
  unfold force
  rw [hitem]
  rcases fs.items[id]? with _ | e
  · exact ⟨rfl, rfl⟩
  dsimp only
  rcases e.proof with _ | recipe | p
  · exact ⟨rfl, rfl⟩
  · dsimp only
    rcases prove recipe s with ⟨_ | p, t⟩
    · exact ⟨rfl, rfl⟩
    · exact ⟨rfl, rfl⟩
  · exact ⟨rfl, rfl⟩

/-- The attempts in `log`, made one after the other at edges as they are in `es`, lead the engine
from one state to the other. -/
inductive Runs (prove : τ → σ → Except Fault π × σ) (es : Edges τ π) :
    σ → List (Attempt π) → σ → Prop
  | nil (s : σ) : Runs prove es s [] s
  | cons {id : Nat} {s t : σ} {log : List (Attempt π)}
    (h : Runs prove es (es.force prove id s).2.2 log t) :
      Runs prove es s ({ edge := id, answer := (es.force prove id s).1 } :: log) t

theorem Runs.append {s t u : σ} (h : Runs prove es s log t) (h' : Runs prove es t more u) :
    Runs prove es s (log ++ more) u := by
  induction h with
  | nil _ => exact h'
  | cons _ ih => exact .cons (ih h')

theorem Runs.congr {s t : σ} (h : Runs prove fs s log t)
    (hes : ∀ a ∈ log, es.items[a.edge]? = fs.items[a.edge]?) : Runs prove es s log t := by
  induction h with
  | nil s => exact .nil s
  | @cons id s t log _ ih =>
    have hitem : es.items[id]? = fs.items[id]? := hes _ List.mem_cons_self
    obtain ⟨hanswer, hstate⟩ := force_congr prove hitem s
    have hrest := ih fun a ha ↦ hes a (List.mem_cons_of_mem _ ha)
    rw [← hstate] at hrest
    rw [← hanswer]
    exact .cons hrest

theorem Runs.exists_of_ok {s t : σ} (h : Runs prove es s log t) {a : Attempt π} (ha : a ∈ log)
    {p : π} (hp : a.answer = .ok p) : ∃ e, es.items[a.edge]? = some e := by
  induction h with
  | nil s => exact absurd ha (by simp)
  | cons _ ih =>
    rcases List.mem_cons.mp ha with rfl | ha
    · obtain ⟨e, he, -⟩ := force_eq_ok_iff.mp (Prod.ext hp rfl)
      exact ⟨e, he⟩
    · exact ih ha

/-- What the attempts in `log` make of a table and a state of the engine. -/
structure Settles (prove : τ → σ → Except Fault π × σ) (s : Edges τ π × σ) (log : List (Attempt π))
    (t : Edges τ π × σ) : Prop where
  /-- The attempts are all that has been asked of the engine. -/
  runs : Runs prove s.1 s.2 log t.2
  /-- An edge has the first proof that came of an attempt, and is as before if there is none. -/
  entry (j : Nat) : t.1.items[j]? = s.1.items[j]?.map fun e ↦ e.withProof? (firstProof? log j)
  /-- Nothing is attempted at an edge whose proof was there before. -/
  fresh {a : Attempt π} : a ∈ log → s.1.isForced a.edge = false
  /-- An edge is attempted again only after a failure. -/
  once : log.Pairwise fun a b ↦ a.edge = b.edge → ∃ fault, a.answer = .error fault

namespace Settles

theorem refl (prove : τ → σ → Except Fault π × σ) (s : Edges τ π × σ) : Settles prove s [] s where
  runs := .nil s.2
  entry j := Option.map_id'.symm
  fresh h := absurd h (by simp)
  once := .nil

theorem firstProof?_eq_none (h : Settles prove s log t) {j : Nat} (hj : s.1.isForced j = true) :
    firstProof? log j = none := by
  cases hp : firstProof? log j with
  | none => rfl
  | some p =>
    obtain ⟨a, ha, rfl, -⟩ := exists_of_firstProof? hp
    rw [h.fresh ha] at hj
    exact absurd hj (by simp)

theorem matures (h : Settles prove s log t) : s.1.Matures t.1 := by
  intro j e he
  refine ⟨e.withProof? (firstProof? log j), ?_, e.toArc_withProof? _, fun p hp ↦ ?_⟩
  · rw [h.entry, he]
    rfl
  · rw [h.firstProof?_eq_none (isForced_iff.mpr ⟨e, p, he, hp⟩)]
    exact hp

theorem isForced_of_ok (h : Settles prove s log t) {a : Attempt π} (ha : a ∈ log) {p : π}
    (hp : a.answer = .ok p) : t.1.isForced a.edge = true := by
  obtain ⟨e, he⟩ := h.runs.exists_of_ok ha hp
  obtain ⟨q, hq⟩ := exists_firstProof? ha hp
  exact isForced_iff.mpr ⟨_, q, by rw [h.entry, he, Option.map_some], by rw [hq]; rfl⟩

theorem firstProof?_of_mem (h : Settles prove s log t) (h' : Settles prove t more u) {a : Attempt π}
    (ha : a ∈ more) : firstProof? log a.edge = none := by
  cases hp : firstProof? log a.edge with
  | none => rfl
  | some p =>
    obtain ⟨b, hb, hba, hanswer⟩ := exists_of_firstProof? hp
    have hforced := h.isForced_of_ok hb hanswer
    rw [hba, h'.fresh ha] at hforced
    exact absurd hforced (by simp)

theorem getElem?_of_mem (h : Settles prove s log t) (h' : Settles prove t more u) {a : Attempt π}
    (ha : a ∈ more) : s.1.items[a.edge]? = t.1.items[a.edge]? := by
  rw [h.entry, h.firstProof?_of_mem h' ha]
  exact Option.map_id'.symm

theorem trans (h : Settles prove s log t) (h' : Settles prove t more u) :
    Settles prove s (log ++ more) u where
  runs := h.runs.append (h'.runs.congr fun _ ha ↦ h.getElem?_of_mem h' ha)
  entry j := by
    rw [h'.entry, h.entry, Option.map_map, firstProof?_append]
    refine Option.map_congr fun e he ↦ ?_
    cases hp : firstProof? log j with
    | none => rfl
    | some p =>
      obtain ⟨a, ha, rfl, hanswer⟩ := exists_of_firstProof? hp
      rw [Function.comp_apply, h'.firstProof?_eq_none (h.isForced_of_ok ha hanswer)]
      rfl
  fresh ha := by
    rcases List.mem_append.mp ha with ha | ha
    · exact h.fresh ha
    · rw [isForced, h.getElem?_of_mem h' ha]
      exact h'.fresh ha
  once := by
    refine List.pairwise_append.mpr ⟨h.once, h'.once, fun a ha b hb hab ↦ ?_⟩
    cases hanswer : a.answer with
    | error fault => exact ⟨fault, rfl⟩
    | ok p =>
      have hforced := h.isForced_of_ok ha hanswer
      rw [hab, h'.fresh hb] at hforced
      exact absurd hforced (by simp)

end Settles

/-! ## Forcing one edge after the other -/

variable {ids jds : List Nat}

/-- The attempt that is made when the proof of an edge is forced. There is none if it is ready. -/
def attempts (prove : τ → σ → Except Fault π × σ) (id : Nat) (s : Edges τ π × σ) :
    List (Attempt π) :=
  if s.1.isForced id then [] else [{ edge := id, answer := (s.1.force prove id s.2).1 }]

theorem force_of_isForced (prove : τ → σ → Except Fault π × σ) {id : Nat}
    (h : s.1.isForced id = true) : ∃ p, s.1.force prove id s.2 = (.ok p, s) := by
  obtain ⟨e, p, he, hp⟩ := isForced_iff.mp h
  exact ⟨p, force_of_ready he hp⟩

theorem force_eq_error {id : Nat} {fault : Fault} (h : s.1.force prove id s.2 = (.error fault, t)) :
    t.1 = s.1 := by
  unfold force at h
  grind

/-- **Forcing the proof of an edge settles it, or changes nothing.** -/
theorem settles_force (prove : τ → σ → Except Fault π × σ) (id : Nat) (s : Edges τ π × σ) :
    Settles prove s (attempts prove id s) (s.1.force prove id s.2).2 := by
  by_cases hready : s.1.isForced id = true
  · obtain ⟨p, hp⟩ := force_of_isForced prove hready
    rw [attempts, if_pos hready, hp]
    exact .refl prove s
  rw [attempts, if_neg hready]
  refine ⟨.cons (.nil _), fun j ↦ ?_, ?_, List.pairwise_singleton ..⟩
  · rw [firstProof?_singleton]
    rcases hforce : s.1.force prove id s.2 with ⟨fault | p, t⟩
    · -- a failure leaves the table as it is
      rw [force_eq_error hforce]
      split
      · exact Option.map_id'.symm
      · exact Option.map_id'.symm
    · split
      · next hj =>
        obtain rfl : id = j := hj
        obtain ⟨e, he, ⟨hproof, -⟩ | ⟨recipe, -, -, hkeep⟩⟩ := force_eq_ok_iff.mp hforce
        · exact absurd (isForced_iff.mpr ⟨e, p, he, hproof⟩) hready
        · rw [hkeep, getElem?_keepProof, if_pos rfl]
          rfl
      · next hj =>
        rw [getElem?_of_force hforce (Ne.symm hj)]
        exact Option.map_id'.symm
  · intro a ha
    rw [List.mem_singleton.mp ha]
    exact Bool.not_eq_true _ ▸ hready

/-- Forces the proofs of edges, one after the other, up to the first that fails, and lists the
attempts. -/
def forceAll (prove : τ → σ → Except Fault π × σ) :
    List Nat → Edges τ π × σ → List (Attempt π) × Except Fault Unit × Edges τ π × σ
  | [], s => ([], .ok (), s)
  | id :: ids, s =>
    match s.1.force prove id s.2 with
    | (.error fault, t) => (attempts prove id s, .error fault, t)
    | (.ok _, t) =>
      let (more, answer, u) := forceAll prove ids t
      (attempts prove id s ++ more, answer, u)

theorem settles_forceAll (prove : τ → σ → Except Fault π × σ) (ids : List Nat) (s : Edges τ π × σ) :
    Settles prove s (forceAll prove ids s).1 (forceAll prove ids s).2.2 := by
  induction ids generalizing s with
  | nil => exact .refl prove s
  | cons id ids ih =>
    have hfirst := settles_force prove id s
    rw [forceAll]
    rcases hforce : s.1.force prove id s.2 with ⟨fault | p, t⟩
    · rwa [hforce] at hfirst
    · rw [hforce] at hfirst
      exact hfirst.trans (ih t)

theorem matures_forceAll {answer : Except Fault Unit}
    (h : forceAll prove ids s = (log, answer, t)) : s.1.Matures t.1 := by
  have hsettles := settles_forceAll prove ids s
  rw [h] at hsettles
  exact hsettles.matures

/-- Forcing more edges goes on where forcing the first of them ended, unless that has failed. -/
theorem forceAll_append {answer : Except Fault Unit}
    (h : forceAll prove (ids ++ jds) s = (log, answer, t)) :
    (∃ first fault, forceAll prove ids s = (first, .error fault, t) ∧ answer = .error fault) ∨
      ∃ first u more, forceAll prove ids s = (first, .ok (), u) ∧
        forceAll prove jds u = (more, answer, t) := by
  induction ids generalizing s log with
  | nil => exact .inr ⟨[], s, log, rfl, h⟩
  | cons id ids ih =>
    rw [List.cons_append, forceAll] at h
    rw [forceAll]
    rcases hforce : s.1.force prove id s.2 with ⟨fault | p, u⟩
    · rw [hforce] at h
      obtain ⟨rfl, rfl, rfl⟩ := h
      exact .inl ⟨_, fault, rfl, rfl⟩
    · rw [hforce] at h
      obtain ⟨rfl, rfl, rfl⟩ := h
      rcases ih rfl with ⟨first, fault, hids, hanswer⟩ | ⟨first, v, more, hids, hjds⟩
      · refine .inl ⟨attempts prove id s ++ first, fault, ?_, hanswer⟩
        dsimp only
        rw [hids]
      · refine .inr ⟨attempts prove id s ++ first, v, more, ?_, hjds⟩
        dsimp only
        rw [hids]

theorem forceAll_singleton (prove : τ → σ → Except Fault π × σ) (id : Nat) (s : Edges τ π × σ) :
    forceAll prove [id] s =
      (attempts prove id s, (s.1.force prove id s.2).1.map fun _ ↦ (),
        (s.1.force prove id s.2).2) := by
  rw [forceAll]
  rcases s.1.force prove id s.2 with ⟨fault | p, t⟩
  · rfl
  · simp only [forceAll, List.append_nil]
    rfl

theorem answer_of_mem_attempts {id : Nat} {a : Attempt π} (ha : a ∈ attempts prove id s) :
    a.answer = (s.1.force prove id s.2).1 := by
  rw [attempts] at ha
  split at ha
  · exact absurd ha (by simp)
  · rw [List.mem_singleton.mp ha]

/-- Forcing fails with the fault of an attempt. -/
theorem exists_attempts_eq_error_iff (prove : τ → σ → Except Fault π × σ) (id : Nat)
    (s : Edges τ π × σ) (fault : Fault) :
    (∃ a ∈ attempts prove id s, a.answer = .error fault) ↔
    (s.1.force prove id s.2).1 = .error fault := by
  constructor
  · rintro ⟨a, ha, hfault⟩
    rwa [answer_of_mem_attempts ha] at hfault
  · intro hfault
    have hready : ¬ s.1.isForced id = true := by
      intro hready
      obtain ⟨p, hp⟩ := force_of_isForced prove hready
      rw [hp] at hfault
      cases hfault
    exact ⟨_, by rw [attempts, if_neg hready]; exact List.mem_singleton_self _, hfault⟩

theorem exists_forceAll_eq_error_iff (prove : τ → σ → Except Fault π × σ) (ids : List Nat)
    (s : Edges τ π × σ) (fault : Fault) :
    (∃ a ∈ (forceAll prove ids s).1, a.answer = .error fault) ↔
    (forceAll prove ids s).2.1 = .error fault := by
  induction ids generalizing s with
  | nil => simp [forceAll]
  | cons id ids ih =>
    have hfirst := exists_attempts_eq_error_iff prove id s fault
    rw [forceAll]
    rcases hforce : s.1.force prove id s.2 with ⟨fault' | p, t⟩
    · rw [hforce] at hfirst
      exact hfirst.trans (by rw [Except.error.injEq, Except.error.injEq])
    · rw [hforce] at hfirst
      simp only [List.mem_append, or_and_right, exists_or, hfirst, ih]
      simp

theorem dropLast_attempts (prove : τ → σ → Except Fault π × σ) (id : Nat) (s : Edges τ π × σ) :
    (attempts prove id s).dropLast = [] := by
  rw [attempts]
  split
  · rfl
  · rfl

/-- Only the last attempt may fail. -/
theorem exists_ok_of_mem_dropLast (prove : τ → σ → Except Fault π × σ) (ids : List Nat)
    (s : Edges τ π × σ) : ∀ a ∈ (forceAll prove ids s).1.dropLast, ∃ p, a.answer = .ok p := by
  induction ids generalizing s with
  | nil => simp [forceAll]
  | cons id ids ih =>
    intro a ha
    rw [forceAll] at ha
    rcases hforce : s.1.force prove id s.2 with ⟨fault | p, t⟩
    · rw [hforce] at ha
      dsimp only at ha
      rw [dropLast_attempts] at ha
      exact absurd ha (by simp)
    · rw [hforce] at ha
      dsimp only at ha
      have hanswer (hfirst : a ∈ attempts prove id s) : a.answer = .ok p := by
        rw [answer_of_mem_attempts hfirst, hforce]
      by_cases hmore : (forceAll prove ids t).1 = []
      · rw [hmore, List.append_nil] at ha
        exact ⟨p, hanswer (List.dropLast_subset _ ha)⟩
      · rw [List.dropLast_append_of_ne_nil hmore] at ha
        rcases List.mem_append.mp ha with ha | ha
        · exact ⟨p, hanswer ha⟩
        · exact ih t a ha

end Edges

end Joinability
