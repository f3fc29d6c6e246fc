import Joinability.Proofs.BestFirst.Ledger

/-!
# The order of a heap

A best-first frontier can also be kept as a heap of numbered entries. A heap hands out an entry that
is not less than any other one, so its order has to be turned round: the greater of two entries is
the one with the lower score, and between equal scores the one with the lower number
(`Entry.Less`). How a heap lays out its entries is its own affair. `Heap.Pops` only says which
entry it may hand out, and that it keeps the others.

## Only one order of popping

Numbers are given out once, so of two entries one is less, and a heap never has a choice. The list
of a `BestFirst` is the list of the entries in the order in which they are popped, without their
numbers (`BestFirst.Lists`). The entry at its head is the one that the heap pops, and `place`
inserts an arrival where it will be popped: it has the greatest number, and so it comes behind all
entries with the same score. Any heap therefore gives the answers of the list:
**`BestFirst.run_heap`**.
-/

namespace Joinability

namespace BestFirst

variable {κ : Type}

/-- An entry of a heap. -/
structure Entry (κ : Type) extends Scored κ where
  /-- The number of the arrival. -/
  sequence : Nat
deriving DecidableEq, Repr

/-- The order of a heap, whose greatest entry is handed out first. -/
def Entry.Less [DecidableEq κ] [LT κ] (a b : Entry κ) : Prop :=
  if a.score ≠ b.score then b.score < a.score else b.sequence < a.sequence

/-- A frontier that is kept as a heap. -/
structure Heap (κ : Type) where
  /-- The greatest depth that is admitted. -/
  maxDepth : Nat
  /-- The depth of the vertex that was handed out last. -/
  depth : Nat := 0
  /-- The waiting entries, in no particular order. -/
  entries : List (Entry κ) := []
  /-- The number of the next arrival. -/
  nextSequence : Nat := 0
  /-- Whether vertices were turned away because of the depth bound. -/
  cut : Bool := false
deriving DecidableEq, Repr

namespace Heap

/-- Adds a vertex, unless it lies too deep. -/
def enqueue (h : Heap κ) (e : Scored κ) : Heap κ :=
  if h.maxDepth < e.depth then { h with cut := true }
  else { h with entries := { e with sequence := h.nextSequence } :: h.entries
                nextSequence := h.nextSequence + 1 }

/-- What a request can come to. -/
inductive Pops [DecidableEq κ] [LT κ] : Heap κ → Option Nat → Heap κ → Prop
  /-- There is nothing to hand out. -/
  | none {h : Heap κ} (hempty : h.entries = []) : Pops h none h
  /-- An entry is handed out than which no other is greater. -/
  | some {h : Heap κ} {e : Entry κ} {rest : List (Entry κ)} (hperm : h.entries.Perm (e :: rest))
    (hmax : ∀ f ∈ rest, ¬e.Less f) :
    Pops h (some e.vertex) { h with depth := e.depth, entries := rest }

/-- The answers to the requests among some calls, and the heap after them. -/
inductive Runs [DecidableEq κ] [LT κ] : Heap κ → List (Call κ) → List (Option Nat) → Heap κ → Prop
  | nil (h : Heap κ) : Runs h [] [] h
  | enqueue {h last : Heap κ} {e : Scored κ} {calls : List (Call κ)} {answers : List (Option Nat)}
    (rest : Runs (h.enqueue e) calls answers last) : Runs h (.enqueue e :: calls) answers last
  | next {h h' last : Heap κ} {answer : Option Nat} {calls : List (Call κ)}
    {answers : List (Option Nat)} (hpop : Pops h answer h') (rest : Runs h' calls answers last) :
    Runs h (.next :: calls) (answer :: answers) last

end Heap

/-- The answers to the requests among some calls, and the frontier after them. -/
def run [LT κ] [DecidableLT κ] (q : BestFirst κ) : List (Call κ) → List (Option Nat) × BestFirst κ
  | [] => ([], q)
  | .enqueue e :: calls => (q.perform (.enqueue e)).run calls
  | .next :: calls => ((q.perform .next).run calls).map (q.next.1 :: ·) id

/-! ## Entries in the order of popping -/

section Order

variable [DecidableEq κ] [LE κ] [LT κ] [Std.IsLinearOrder κ] [Std.LawfulOrderLT κ]
  {a b c : Entry κ}

theorem Entry.less_iff_before :
    a.Less b ↔ Scored.Before (b.toScored, b.sequence) (a.toScored, a.sequence) := by
  unfold Less Scored.Before
  by_cases hscore : a.score = b.score
  · rw [if_neg (by simpa using hscore), hscore]
    constructor
    · exact fun hlt ↦ .inr ⟨Std.le_refl _, hlt⟩
    · rintro (hlt | ⟨-, hlt⟩)
      · exact absurd hlt (Std.not_lt.mpr (Std.le_refl _))
      · exact hlt
  · rw [if_pos hscore]
    constructor
    · exact .inl
    · rintro (hlt | ⟨hle, -⟩)
      · exact hlt
      · exact Std.lt_of_le_of_ne hle (Ne.symm hscore)

theorem Entry.Less.trans (hab : a.Less b) (hbc : b.Less c) : a.Less c :=
  less_iff_before.mpr ((less_iff_before.mp hbc).trans (less_iff_before.mp hab))

end Order

/-- The list of the frontier has the entries of the heap in the order in which they are popped. -/
structure Lists [DecidableEq κ] [LT κ] (q : BestFirst κ) (h : Heap κ) : Prop where
  bound : h.maxDepth = q.maxDepth
  depth : h.depth = q.depth
  cut : h.cut = q.cut
  waiting : ∃ order : List (Entry κ), order.Perm h.entries ∧
    order.Pairwise (fun a b ↦ b.Less a) ∧ order.map Entry.toScored = q.waiting ∧
    ∀ e ∈ order, e.sequence < h.nextSequence

namespace Lists

section Pop

variable [DecidableEq κ] [LT κ] {q : BestFirst κ} {h h' : Heap κ} {answer : Option Nat}

theorem length_eq (hq : q.Lists h) : h.entries.length = q.size := by
  obtain ⟨order, hperm, -, hwaiting, -⟩ := hq.waiting
  rw [size, ← hwaiting, List.length_map, hperm.length_eq]

/-- Whatever the heap pops is the head of the list. -/
theorem of_pops (hq : q.Lists h) (hpop : h.Pops answer h') :
    q.next.1 = answer ∧ q.next.2.Lists h' := by
  obtain ⟨order, horder, hsorted, hwaiting, hlt⟩ := hq.waiting
  rcases hpop with hempty | @⟨e, rest, hperm, hmax⟩
  · obtain rfl := (hempty ▸ horder).eq_nil
    rw [next, ← hwaiting]
    exact ⟨rfl, hq⟩
  · rcases order with _ | ⟨a, s⟩
    · exact absurd (horder.trans hperm).length_eq (by simp)
    have hall := horder.trans hperm
    have hfirst : a = e := by
      rcases List.mem_cons.mp (hall.mem_iff.mpr List.mem_cons_self) with he | he
      · exact he.symm
      · rcases List.mem_cons.mp (hall.mem_iff.mp List.mem_cons_self) with ha | ha
        · exact ha
        -- otherwise the popped entry would be less than the head of the list
        · exact absurd (List.rel_of_pairwise_cons hsorted he) (hmax a ha)
    subst hfirst
    rw [next, ← hwaiting]
    exact ⟨rfl, hq.bound, rfl, hq.cut, s, hall.cons_inv, hsorted.of_cons, rfl,
      fun b hb ↦ hlt b (List.mem_cons_of_mem a hb)⟩

end Pop

variable [DecidableEq κ] [LE κ] [LT κ] [Std.IsLinearOrder κ] [Std.LawfulOrderLT κ]
  {q : BestFirst κ} {h last : Heap κ}

theorem exists_pops (hq : q.Lists h) : ∃ h', h.Pops q.next.1 h' := by
  obtain ⟨order, horder, hsorted, hwaiting, -⟩ := hq.waiting
  rw [next, ← hwaiting]
  rcases order with _ | ⟨a, s⟩
  · exact ⟨h, .none (List.nil_perm.mp horder)⟩
  · refine ⟨_, .some horder.symm fun b hb hless ↦ ?_⟩
    have hbefore := Entry.less_iff_before.mp (List.rel_of_pairwise_cons hsorted hb)
    exact hbefore.asymm (Entry.less_iff_before.mp hless)

variable [DecidableLT κ]

/-- An arrival has a greater number than all entries, and `place` puts it where it is popped. -/
theorem enqueue (hq : q.Lists h) (e : Scored κ) :
    (q.perform (.enqueue e)).Lists (h.enqueue e) := by
  rw [perform, BestFirst.enqueue, Heap.enqueue, hq.bound]
  by_cases hdeep : q.maxDepth < e.depth
  · rw [if_pos hdeep, if_pos hdeep]
    exact ⟨rfl, hq.depth, rfl, hq.waiting⟩
  · rw [if_neg hdeep, if_neg hdeep]
    obtain ⟨order, horder, hsorted, hwaiting, hlt⟩ := hq.waiting
    let c : Entry κ := { e with sequence := h.nextSequence }
    obtain ⟨order', hplace, hperm, hsorted'⟩ := exists_place (c := c) Entry.toScored
      (fun hab hbc ↦ hbc.trans hab) hsorted
      (fun b _ hlower ↦ Entry.less_iff_before.mpr (.inl hlower))
      fun b hb hnot ↦ Entry.less_iff_before.mpr (.inr ⟨Std.not_lt.mp hnot, hlt b hb⟩)
    refine ⟨rfl, hq.depth, hq.cut, order', hperm.trans (horder.cons c), hsorted', ?_, ?_⟩
    · rw [hplace, hwaiting]
    · intro b hb
      rcases List.mem_cons.mp (hperm.mem_iff.mp hb) with rfl | hb
      · exact Nat.lt_succ_self _
      · exact Nat.lt_succ_of_lt (hlt b hb)

theorem of_runs {calls : List (Call κ)} {answers : List (Option Nat)} (hq : q.Lists h)
    (hruns : h.Runs calls answers last) :
    answers = (q.run calls).1 ∧ (q.run calls).2.Lists last := by
  induction hruns generalizing q with
  | nil => exact ⟨rfl, hq⟩
  | enqueue _ ih => exact ih (hq.enqueue _)
  | next hpop _ ih =>
    obtain ⟨hanswer, hnext⟩ := hq.of_pops hpop
    obtain ⟨rfl, hlast⟩ := ih hnext
    exact ⟨congrArg (· :: _) hanswer.symm, hlast⟩

theorem exists_runs (hq : q.Lists h) (calls : List (Call κ)) :
    ∃ last, h.Runs calls (q.run calls).1 last := by
  induction calls generalizing q h with
  | nil => exact ⟨h, .nil h⟩
  | cons call calls ih =>
    rcases call with e | _
    · obtain ⟨last, hlast⟩ := ih (hq.enqueue e)
      exact ⟨last, .enqueue hlast⟩
    · obtain ⟨h', hpop⟩ := hq.exists_pops
      obtain ⟨last, hlast⟩ := ih (hq.of_pops hpop).2
      exact ⟨last, .next hpop hlast⟩

end Lists

/-- **A heap instead of a list.** However vertices are added and asked for, a heap of numbered
entries can always hand out something when there is something, and whatever it hands out is what the
list hands out. After the calls it is at the same depth, as many vertices wait, and both have been
cut or neither has. -/
theorem run_heap [DecidableEq κ] [LE κ] [LT κ] [DecidableLT κ] [Std.IsLinearOrder κ]
    [Std.LawfulOrderLT κ] (maxDepth : Nat) (calls : List (Call κ)) :
    let (answers, q) := ({ maxDepth } : BestFirst κ).run calls
    (∃ last, ({ maxDepth } : Heap κ).Runs calls answers last) ∧
      ∀ answers' last, ({ maxDepth } : Heap κ).Runs calls answers' last →
        answers' = answers ∧ last.depth = q.depth ∧ last.entries.length = q.size ∧
          last.cut = q.cut := by
  have hempty : ({ maxDepth } : BestFirst κ).Lists ({ maxDepth } : Heap κ) :=
    ⟨rfl, rfl, rfl, [], List.Perm.refl _, List.Pairwise.nil, rfl, by simp⟩
  refine ⟨hempty.exists_runs calls, fun answers' last hruns ↦ ?_⟩
  obtain ⟨hanswers, hlast⟩ := hempty.of_runs hruns
  exact ⟨hanswers, hlast.depth, hlast.length_eq, hlast.cut⟩

end BestFirst

end Joinability
