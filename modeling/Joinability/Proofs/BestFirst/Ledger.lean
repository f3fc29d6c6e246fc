import Mathlib.Data.List.Nodup
import Mathlib.Tactic.Tauto
import Joinability.Proofs.Search.Frontier

/-!
# Lowest score first, oldest first

A best-first frontier may be used in any way: vertices are added and asked for as one likes. What it
then owes is found in a ledger, which knows nothing of the frontier. The ledger numbers the arrivals
as they come and writes down the number of each one that is due. `Ledger.waiting` are the arrivals
that the bound admits and that were not due yet; what is due next is the oldest of those whose score
is lowest (`Ledger.due?`).

The frontier keeps no numbers. It holds what waits by the ledger, and it holds it sorted by score,
with the oldest first among equals: that is the stable sort of the waiting arrivals
(`Keeps.waiting`). An arrival has a greater number than all others, and `place` puts it where the
sort does. What is due is the head of the sorted list, and the rest of that list is the sort of what
is left.

Scores need not be told apart by their order. It is enough that of any two one is at most the other.
-/

namespace Joinability

variable {κ : Type}

/-! ## Calls and ledgers -/

/-- Whether the score of an entry is at most that of another one. -/
def Scored.atMost [LT κ] [DecidableLT κ] (a b : Scored κ) : Bool := !decide (b.score < a.score)

namespace BestFirst

/-- What is done with a frontier. -/
inductive Call (κ : Type)
  /-- A vertex is added, with its score and its depth. -/
  | enqueue (e : Scored κ)
  /-- A vertex is asked for. -/
  | next

/-- What a call makes of a frontier. -/
def perform [LT κ] [DecidableLT κ] (q : BestFirst κ) : Call κ → BestFirst κ
  | .enqueue e => q.enqueue (fun _ ↦ e.score) e.vertex e.depth
  | .next => q.next.2

/-- The frontier after some calls. -/
def after [LT κ] [DecidableLT κ] (maxDepth : Nat) (calls : List (Call κ)) : BestFirst κ :=
  calls.foldl perform { maxDepth }

/-- What has arrived, and what was due. -/
structure Ledger (κ : Type) where
  /-- All arrivals, in order. -/
  arrived : List (Scored κ) := []
  /-- The numbers of the arrivals that were due, in order. -/
  taken : List Nat := []

namespace Ledger

/-- The arrivals that the bound admits and that were not due yet, with their numbers. -/
def waiting (maxDepth : Nat) (l : Ledger κ) : List (Scored κ × Nat) :=
  l.arrived.zipIdx.filter fun a ↦ a.1.depth ≤ maxDepth ∧ a.2 ∉ l.taken

/-- The oldest of the waiting arrivals whose score is lowest. -/
def due? [LT κ] [DecidableLT κ] (maxDepth : Nat) (l : Ledger κ) : Option (Scored κ × Nat) :=
  (l.waiting maxDepth).find? fun a ↦ (l.waiting maxDepth).all fun b ↦ a.1.atMost b.1

/-- What a call adds to a ledger. -/
def record [LT κ] [DecidableLT κ] (maxDepth : Nat) (l : Ledger κ) : Call κ → Ledger κ
  | .enqueue e => { l with arrived := l.arrived ++ [e] }
  | .next => { l with taken := l.taken ++ ((l.due? maxDepth).map Prod.snd).toList }

end Ledger

/-- The ledger of some calls. -/
def ledger [LT κ] [DecidableLT κ] (maxDepth : Nat) (calls : List (Call κ)) : Ledger κ :=
  calls.foldl (Ledger.record maxDepth) {}

namespace Ledger

variable {maxDepth : Nat} {l : Ledger κ} {a : Scored κ × Nat}

theorem mem_waiting : a ∈ l.waiting maxDepth ↔
    l.arrived[a.2]? = some a.1 ∧ a.1.depth ≤ maxDepth ∧ a.2 ∉ l.taken := by
  rw [waiting, List.mem_filter, List.mem_zipIdx_iff_getElem?, decide_eq_true_iff]

theorem waiting_pairwise (maxDepth : Nat) (l : Ledger κ) :
    (l.waiting maxDepth).Pairwise fun a b ↦ a.2 < b.2 := by
  refine List.Pairwise.filter _ ?_
  rw [← List.pairwise_map, List.zipIdx_map_snd]
  exact List.pairwise_lt_range' 1

theorem waiting_arrive (maxDepth : Nat) (e : Scored κ) (htaken : l.arrived.length ∉ l.taken) :
    { l with arrived := l.arrived ++ [e] }.waiting maxDepth
      = l.waiting maxDepth ++ if e.depth ≤ maxDepth then [(e, l.arrived.length)] else [] := by
  simp only [waiting, List.zipIdx_append, List.filter_append]
  congr 1
  by_cases he : e.depth ≤ maxDepth <;> simp [he, htaken]

theorem waiting_take (k : Nat) : { l with taken := l.taken ++ [k] }.waiting maxDepth
    = (l.waiting maxDepth).filter fun a ↦ a.2 ≠ k := by
  rw [waiting, waiting, List.filter_filter]
  refine List.filter_congr fun a _ ↦ ?_
  simp only [List.mem_append, List.mem_singleton, not_or, ← Bool.decide_and, decide_eq_decide]
  tauto

theorem map_fst_waiting (maxDepth : Nat) (es : List (Scored κ)) :
    (waiting maxDepth { arrived := es }).map Prod.fst = es.filter fun e ↦ e.depth ≤ maxDepth := by
  have hall : (waiting maxDepth { arrived := es })
      = es.zipIdx.filter ((fun e : Scored κ ↦ decide (e.depth ≤ maxDepth)) ∘ Prod.fst) :=
    List.filter_congr fun a _ ↦ by simp
  rw [hall, ← List.filter_map, List.zipIdx_map_fst]

end Ledger

theorem ledger_concat [LT κ] [DecidableLT κ] (maxDepth : Nat) (calls : List (Call κ))
    (call : Call κ) :
    ledger maxDepth (calls ++ [call]) = (ledger maxDepth calls).record maxDepth call := by
  rw [ledger, List.foldl_concat, ledger]

theorem ledger_map_enqueue [LT κ] [DecidableLT κ] (maxDepth : Nat) (es : List (Scored κ)) :
    ledger maxDepth (es.map Call.enqueue) = { arrived := es } := by
  have hfold (l : Ledger κ) : (es.map Call.enqueue).foldl (Ledger.record maxDepth) l
      = { l with arrived := l.arrived ++ es } := by
    induction es generalizing l with
    | nil => rw [List.append_nil]; rfl
    | cons e es ih => rw [List.map_cons, List.foldl_cons, ih, Ledger.record, List.append_assoc]; rfl
  exact hfold {}

end BestFirst

/-! ## Numbered entries in order -/

namespace Scored

variable [LE κ] [LT κ] {a b c : Scored κ × Nat}

/-- A numbered entry comes before another one if its score is lower, or if it is not higher and the
entry is older. -/
def Before (a b : Scored κ × Nat) : Prop :=
  a.1.score < b.1.score ∨ (a.1.score ≤ b.1.score ∧ a.2 < b.2)

theorem Before.le [Std.LawfulOrderLT κ] (h : Before a b) : a.1.score ≤ b.1.score :=
  h.elim Std.le_of_lt And.left

variable [Std.IsLinearPreorder κ] [Std.LawfulOrderLT κ]

theorem Before.trans (hab : Before a b) (hbc : Before b c) : Before a c := by
  rcases hab with hab | ⟨hab, hlt⟩
  · exact Or.inl (Std.lt_of_lt_of_le hab hbc.le)
  · rcases hbc with hbc | ⟨hbc, hlt'⟩
    · exact Or.inl (Std.lt_of_le_of_lt hab hbc)
    · exact Or.inr ⟨Std.le_trans hab hbc, Nat.lt_trans hlt hlt'⟩

theorem Before.asymm (hab : Before a b) (hba : Before b a) : False := by
  rcases hab with hlt | ⟨hle, hlt⟩
  · exact Std.not_lt.mpr hba.le hlt
  · rcases hba with hlt' | ⟨-, hlt'⟩
    · exact Std.not_lt.mpr hle hlt'
    · exact Nat.lt_asymm hlt hlt'

variable [DecidableLT κ] {s w : List (Scored κ × Nat)}

theorem atMost_iff {a b : Scored κ} : a.atMost b = true ↔ a.score ≤ b.score := by
  rw [atMost, Bool.not_eq_true', decide_eq_false_iff_not, Std.not_lt]

/-- A sort by score is stable, and so the oldest come first among equals. -/
theorem pairwise_mergeSort_atMost (hw : w.Pairwise fun a b ↦ a.2 < b.2) :
    (w.mergeSort fun a b ↦ a.1.atMost b.1).Pairwise Before := by
  have htrans (a b c : Scored κ × Nat) (hab : a.1.atMost b.1 = true) (hbc : b.1.atMost c.1 = true) :
      a.1.atMost c.1 = true :=
    atMost_iff.mpr (Std.le_trans (atMost_iff.mp hab) (atMost_iff.mp hbc))
  have htotal (a b : Scored κ × Nat) : (a.1.atMost b.1 || b.1.atMost a.1) = true := by
    rw [Bool.or_eq_true, atMost_iff, atMost_iff]
    exact Std.le_total
  induction w with
  | nil => simp
  | cons a w ih =>
    obtain ⟨ha, hw'⟩ := List.pairwise_cons.mp hw
    -- the oldest entry stands between those with lower scores and all others
    obtain ⟨lower, others, hcons, htail, hlower⟩ := List.mergeSort_cons htrans htotal a w
    have hsorted := List.pairwise_mergeSort htrans htotal (a :: w)
    have hmem := List.mergeSort_perm w fun a b ↦ a.1.atMost b.1
    have hbefore := ih hw'
    rw [htail] at hmem hbefore
    rw [hcons] at hsorted ⊢
    obtain ⟨hlowers, hothers, hacross⟩ := List.pairwise_append.mp hbefore
    refine List.pairwise_append.mpr ⟨hlowers, List.pairwise_cons.mpr ⟨?_, hothers⟩, ?_⟩
    · intro b hb
      have hle := List.rel_of_pairwise_cons (List.pairwise_append.mp hsorted).2.1 hb
      exact Or.inr ⟨atMost_iff.mp hle, ha b (hmem.mem_iff.mp (List.mem_append_right lower hb))⟩
    · intro b hb c hc
      rcases List.mem_cons.mp hc with rfl | hc
      · have hlt := hlower b hb
        rw [Bool.not_eq_true', ← Bool.not_eq_true, atMost_iff, Std.not_le] at hlt
        exact Or.inl hlt
      · exact hacross b hb c hc

theorem eq_mergeSort_atMost (hw : w.Pairwise fun a b ↦ a.2 < b.2) (hperm : s.Perm w)
    (hs : s.Pairwise Before) : s = w.mergeSort fun a b ↦ a.1.atMost b.1 :=
  (hperm.trans (List.mergeSort_perm w _).symm).eq_of_pairwise
    (fun _ _ _ _ hab hba ↦ (hab.asymm hba).elim) hs (pairwise_mergeSort_atMost hw)

/-- The sort begins with the entry that comes before all others, and goes on with the sort of
those. -/
theorem of_mergeSort_eq_cons (hw : w.Pairwise fun a b ↦ a.2 < b.2)
    (h : (w.mergeSort fun a b ↦ a.1.atMost b.1) = a :: s) :
    a ∈ w ∧ (∀ b ∈ w, b = a ∨ Before a b) ∧
      s = (w.filter fun b ↦ b.2 ≠ a.2).mergeSort fun a b ↦ a.1.atMost b.1 := by
  have hperm : (a :: s).Perm w := h ▸ List.mergeSort_perm w _
  have hsorted := pairwise_mergeSort_atMost hw
  rw [h, List.pairwise_cons] at hsorted
  refine ⟨hperm.mem_iff.mp List.mem_cons_self, ?_, ?_⟩
  · exact fun b hb ↦ (List.mem_cons.mp (hperm.mem_iff.mpr hb)).imp id (hsorted.1 b)
  · refine eq_mergeSort_atMost (hw.filter _) ?_ hsorted.2
    have hnodup : (a :: s).Pairwise fun a b ↦ a.2 ≠ b.2 :=
      hperm.symm.pairwise (hw.imp Nat.ne_of_lt) Ne.symm
    have hother : s.filter (fun b ↦ b.2 ≠ a.2) = s :=
      List.filter_eq_self.mpr fun b hb ↦ decide_eq_true (List.rel_of_pairwise_cons hnodup hb).symm
    have hfilter := hperm.filter fun b ↦ b.2 ≠ a.2
    rwa [List.filter_cons_of_neg (by simp), hother] at hfilter

/-- The entry that comes before all others is the first one whose score is at most that of each. -/
theorem find?_atMost_eq_some (hw : w.Pairwise fun a b ↦ a.2 < b.2) (ha : a ∈ w)
    (hfirst : ∀ b ∈ w, b = a ∨ Before a b) :
    w.find? (fun b ↦ w.all fun c ↦ b.1.atMost c.1) = some a := by
  obtain ⟨older, younger, hsplit⟩ := List.append_of_mem ha
  refine List.find?_eq_some_iff_append.mpr ⟨?_, older, younger, hsplit, ?_⟩
  · refine List.all_eq_true.mpr fun b hb ↦ atMost_iff.mpr ?_
    rcases hfirst b hb with rfl | hbefore
    · exact Std.le_refl _
    · exact hbefore.le
  · -- an older entry has a higher score, or it would come first
    intro b hb
    have hlt : b.2 < a.2 :=
      (List.pairwise_append.mp (hsplit ▸ hw)).2.2 b hb a List.mem_cons_self
    have hhigher : a.1.score < b.1.score := by
      rcases hfirst b (hsplit ▸ List.mem_append_left _ hb) with rfl | hbefore | ⟨-, hlt'⟩
      · exact absurd hlt (Nat.lt_irrefl _)
      · exact hbefore
      · exact absurd hlt (Nat.lt_asymm hlt')
    rw [Bool.not_eq_true', List.all_eq_false]
    exact ⟨a, ha, fun hle ↦ Std.not_le.mpr hhigher (atMost_iff.mp hle)⟩

end Scored

/-! ## Keeping to the ledger -/

namespace BestFirst

/-- All that waits is handed out, as it stands, by a frontier that is drained. -/
theorem fst_drain_eq (q : BestFirst κ) :
    (Frontier.bestFirst q).drain.1 = q.waiting.map fun e ↦ (e.vertex, e.depth) := by
  rw [Frontier.drain, show (Frontier.bestFirst q).size = q.waiting.length from rfl]
  generalize hs : q.waiting = s
  induction s generalizing q with
  | nil => rfl
  | cons e s ih =>
    have hnext : (Frontier.bestFirst q).next
        = (some e.vertex, .bestFirst { q with depth := e.depth, waiting := s }) := by
      rw [Frontier.next, next, hs]
      rfl
    rw [List.length_cons, Frontier.drain.go, hnext, List.map_cons,
      ← ih { q with depth := e.depth, waiting := s } rfl]
    rfl

variable [LT κ] [DecidableLT κ] {maxDepth : Nat} {q : BestFirst κ} {l : Ledger κ}

/-- The waiting arrivals by score, and the oldest first among equals. -/
def Ledger.sorted (maxDepth : Nat) (l : Ledger κ) : List (Scored κ × Nat) :=
  (l.waiting maxDepth).mergeSort fun a b ↦ a.1.atMost b.1

/-- The frontier holds what waits by the ledger, sorted by score. -/
structure Keeps (maxDepth : Nat) (q : BestFirst κ) (l : Ledger κ) : Prop where
  bound : q.maxDepth = maxDepth
  waiting : q.waiting = (l.sorted maxDepth).map Prod.fst
  cut : q.cut = true ↔ ∃ e ∈ l.arrived, maxDepth < e.depth
  nodup : l.taken.Nodup
  admitted : ∀ k ∈ l.taken, ∃ e, l.arrived[k]? = some e ∧ e.depth ≤ maxDepth

theorem Keeps.length_notMem_taken (h : Keeps maxDepth q l) : l.arrived.length ∉ l.taken := by
  intro hk
  obtain ⟨e, he, -⟩ := h.admitted _ hk
  exact absurd (List.getElem?_eq_some_iff.mp he).1 (Nat.lt_irrefl _)

variable [LE κ] [Std.IsLinearPreorder κ] [Std.LawfulOrderLT κ]

/-- Unless nothing waits, what is due comes before all else that waits. The sort of what waits
begins with it, and goes on with the sort of what waits from then on. -/
theorem Ledger.due?_cases (maxDepth : Nat) (l : Ledger κ) :
    (l.sorted maxDepth = [] ∧ l.waiting maxDepth = [] ∧ l.due? maxDepth = none) ∨
    ∃ a ∈ l.waiting maxDepth, l.due? maxDepth = some a ∧
      (∀ b ∈ l.waiting maxDepth, b = a ∨ Scored.Before a b) ∧
      l.sorted maxDepth = a :: { l with taken := l.taken ++ [a.2] }.sorted maxDepth := by
  rcases hs : l.sorted maxDepth with _ | ⟨a, s⟩
  · have hnil : l.waiting maxDepth = [] := List.nil_perm.mp (hs ▸ List.mergeSort_perm _ _)
    exact Or.inl ⟨rfl, hnil, by rw [due?, hnil]; rfl⟩
  · have hw := l.waiting_pairwise maxDepth
    obtain ⟨ha, hfirst, rfl⟩ := Scored.of_mergeSort_eq_cons hw hs
    exact Or.inr
      ⟨a, ha, Scored.find?_atMost_eq_some hw ha hfirst, hfirst, by rw [sorted, waiting_take]⟩

/-- An arrival that the bound admits finds its place in the sort of what waits. -/
theorem Ledger.map_fst_sorted_arrive {e : Scored κ} (he : e.depth ≤ maxDepth)
    (htaken : l.arrived.length ∉ l.taken) :
    ({ l with arrived := l.arrived ++ [e] }.sorted maxDepth).map Prod.fst
      = place e ((l.sorted maxDepth).map Prod.fst) := by
  have hperm : (l.sorted maxDepth).Perm (l.waiting maxDepth) := List.mergeSort_perm _ _
  -- the arrival is younger than all that waits, and so it stands behind its equals
  have hyoungest (b : Scored κ × Nat) (hb : b ∈ l.sorted maxDepth) : b.2 < l.arrived.length :=
    (List.getElem?_eq_some_iff.mp (mem_waiting.mp (hperm.mem_iff.mp hb)).1).1
  obtain ⟨s, hplace, hs, hsorted⟩ := exists_place (R := Scored.Before) (c := (e, l.arrived.length))
    Prod.fst Scored.Before.trans (Scored.pairwise_mergeSort_atMost (l.waiting_pairwise maxDepth))
    (fun b _ hlt ↦ Or.inl hlt) fun b hb hle ↦ Or.inr ⟨Std.not_lt.mp hle, hyoungest b hb⟩
  have hwaiting := waiting_arrive maxDepth e htaken
  rw [if_pos he] at hwaiting
  have hs' : s.Perm (l.waiting maxDepth ++ [(e, l.arrived.length)]) :=
    hs.trans ((hperm.cons _).trans (List.perm_append_singleton _ _).symm)
  have heq := Scored.eq_mergeSort_atMost (hwaiting ▸ waiting_pairwise maxDepth _) hs' hsorted
  rw [sorted, hwaiting, ← heq, hplace]
  rfl

namespace Keeps

/-- An arrival takes the place that it has in the sort, or is turned away. -/
theorem enqueue (h : Keeps maxDepth q l) (e : Scored κ) :
    Keeps maxDepth (q.perform (.enqueue e)) (l.record maxDepth (.enqueue e)) := by
  obtain rfl := h.bound
  have hadmitted (k : Nat) (hk : k ∈ l.taken) :
      ∃ f, (l.arrived ++ [e])[k]? = some f ∧ f.depth ≤ q.maxDepth := by
    obtain ⟨f, hf, hdepth⟩ := h.admitted k hk
    exact ⟨f, List.getElem?_append_left (List.getElem?_eq_some_iff.mp hf).1 ▸ hf, hdepth⟩
  rw [perform, BestFirst.enqueue]
  split
  · next he =>
    have hdeep : e ∈ l.arrived ++ [e] := List.mem_append_right _ List.mem_cons_self
    refine ⟨rfl, ?_, iff_of_true rfl ⟨e, hdeep, he⟩, h.nodup, hadmitted⟩
    rw [Ledger.record, Ledger.sorted, Ledger.waiting_arrive q.maxDepth e h.length_notMem_taken,
      if_neg (Nat.not_le_of_lt he), List.append_nil]
    exact h.waiting
  · next he =>
    rw [Nat.not_lt] at he
    refine ⟨rfl, ?_, ?_, h.nodup, hadmitted⟩
    · rw [h.waiting]
      exact (Ledger.map_fst_sorted_arrive he h.length_notMem_taken).symm
    · rw [show (l.record q.maxDepth (.enqueue e)).arrived = l.arrived ++ [e] from rfl]
      simp only [List.mem_append, List.mem_singleton, or_and_right, exists_or, exists_eq_left,
        Nat.not_lt_of_le he, or_false]
      exact h.cut

/-- What is handed out is what is due. -/
theorem next_cases (h : Keeps maxDepth q l) :
    (l.waiting maxDepth = [] ∧ l.due? maxDepth = none ∧ q.next = (none, q)) ∨
    ∃ a ∈ l.waiting maxDepth, l.due? maxDepth = some a ∧
      (∀ b ∈ l.waiting maxDepth, b = a ∨ Scored.Before a b) ∧
      ∃ r, q.next = (some a.1.vertex, r) ∧ r.depth = a.1.depth ∧
        Keeps maxDepth r { l with taken := l.taken ++ [a.2] } := by
  have hwaiting := h.waiting
  rcases l.due?_cases maxDepth with ⟨hnil, hnone, hdue⟩ | ⟨a, ha, hdue, hfirst, hsort⟩
  · rw [hnil, List.map_nil] at hwaiting
    exact Or.inl ⟨hnone, hdue, by rw [BestFirst.next, hwaiting]⟩
  · rw [hsort, List.map_cons] at hwaiting
    obtain ⟨harrived, hdepth, htaken⟩ := Ledger.mem_waiting.mp ha
    refine Or.inr ⟨a, ha, hdue, hfirst, { q with depth := a.1.depth, waiting := _ },
      by rw [BestFirst.next, hwaiting], rfl, h.bound, rfl, h.cut, ?_, ?_⟩
    · refine List.nodup_append.mpr ⟨h.nodup, List.nodup_singleton _, ?_⟩
      rintro k hk j hj rfl
      exact htaken (List.mem_singleton.mp hj ▸ hk)
    · intro k hk
      rcases List.mem_append.mp hk with hk | hk
      · exact h.admitted k hk
      · exact ⟨a.1, List.mem_singleton.mp hk ▸ harrived, hdepth⟩

theorem next (h : Keeps maxDepth q l) :
    Keeps maxDepth (q.perform .next) (l.record maxDepth .next) := by
  rw [perform, Ledger.record]
  rcases h.next_cases with ⟨-, hdue, hnext⟩ | ⟨a, -, hdue, -, r, hnext, -, hkeeps⟩
  · rw [hdue, hnext, Option.map_none, Option.toList_none, List.append_nil]
    exact h
  · rw [hdue, hnext]
    exact hkeeps

theorem foldl (h : Keeps maxDepth q l) (calls : List (Call κ)) :
    Keeps maxDepth (calls.foldl perform q) (calls.foldl (Ledger.record maxDepth) l) := by
  induction calls generalizing q l with
  | nil => exact h
  | cons call calls ih =>
    cases call with
    | enqueue e => exact ih (h.enqueue e)
    | next => exact ih h.next

end Keeps

/-- However it was used, a frontier keeps to the ledger. -/
theorem keeps_after (maxDepth : Nat) (calls : List (Call κ)) :
    Keeps maxDepth (after maxDepth calls) (ledger maxDepth calls) := by
  have hempty : Keeps maxDepth ({ maxDepth } : BestFirst κ) {} :=
    ⟨rfl, by simp [Ledger.sorted, Ledger.waiting], by simp, List.nodup_nil,
      fun k hk ↦ absurd hk List.not_mem_nil⟩
  exact hempty.foldl calls

/-- **A best-first frontier serves by score.** However vertices are added and asked for: what is
handed out comes before all else that waits, where a lower score comes first, and among equals the
one that is older. The frontier is then at the depth of that vertex. A request is in vain exactly
when nothing waits. No arrival is due twice, none that lies too deep is ever due, and the frontier
has been cut exactly if such a one has arrived. A frontier that is drained hands out the stable sort
of what waits; after some arrivals these are the ones that the bound admits. -/
theorem after_serves_by_score (maxDepth : Nat) (calls : List (Call κ)) :
    let q := after maxDepth calls
    let l := ledger maxDepth calls
    (∀ v r, q.next = (some v, r) → ∃ a ∈ l.waiting maxDepth,
      (∀ b ∈ l.waiting maxDepth, b = a ∨ Scored.Before a b) ∧ a.1.vertex = v ∧ r.depth = a.1.depth ∧
        ledger maxDepth (calls ++ [.next]) = { l with taken := l.taken ++ [a.2] }) ∧
    (q.next.1 = none ↔ l.waiting maxDepth = []) ∧
    l.taken.Nodup ∧ (∀ k ∈ l.taken, ∃ e, l.arrived[k]? = some e ∧ e.depth ≤ maxDepth) ∧
    (q.cut = true ↔ ∃ e ∈ l.arrived, maxDepth < e.depth) ∧
    (Frontier.bestFirst q).drain.1
      = (((l.waiting maxDepth).map Prod.fst).mergeSort Scored.atMost).map
          (fun e ↦ (e.vertex, e.depth)) ∧
    ∀ es : List (Scored κ), calls = es.map .enqueue → (Frontier.bestFirst q).drain.1
      = ((es.filter fun e ↦ e.depth ≤ maxDepth).mergeSort Scored.atMost).map
          fun e ↦ (e.vertex, e.depth) := by
  intro q l
  have hkeeps : Keeps maxDepth q l := keeps_after maxDepth calls
  have hdrain : (Frontier.bestFirst q).drain.1
      = (((l.waiting maxDepth).map Prod.fst).mergeSort Scored.atMost).map
          fun e ↦ (e.vertex, e.depth) := by
    rw [fst_drain_eq, hkeeps.waiting, Ledger.sorted,
      List.map_mergeSort (s := Scored.atMost) (f := Prod.fst) fun _ _ _ _ ↦ rfl]
  refine ⟨?_, ?_, hkeeps.nodup, hkeeps.admitted, hkeeps.cut, hdrain, ?_⟩
  · intro v r hnext
    rcases hkeeps.next_cases with ⟨-, -, hnone⟩ | ⟨a, ha, hdue, hfirst, s, hsome, hdepth, -⟩
    · exact absurd (hnext.symm.trans hnone) (by simp)
    · obtain ⟨hv, rfl⟩ := Prod.mk.inj (hsome.symm.trans hnext)
      refine ⟨a, ha, hfirst, Option.some.inj hv, hdepth, ?_⟩
      rw [ledger_concat, Ledger.record, hdue]
      rfl
  · rcases hkeeps.next_cases with ⟨hnil, -, hnone⟩ | ⟨a, ha, -, -, s, hsome, -⟩
    · rw [hnil, hnone]
      exact iff_of_true rfl rfl
    · rw [hsome]
      exact iff_of_false (by simp) (List.ne_nil_of_mem ha)
  · rintro es rfl
    rw [hdrain, show l = { arrived := es } from ledger_map_enqueue maxDepth es,
      Ledger.map_fst_waiting]

/-- Of two equals the older one is handed out, after one with a lower score and before the younger
one. -/
theorem after_serves_by_score_ties :
    let es : List (Scored Nat) := [{ score := 2, vertex := 10, depth := 0 },
      { score := 1, vertex := 11, depth := 1 }, { score := 2, vertex := 12, depth := 1 },
      { score := 0, vertex := 13, depth := 2 }]
    let calls : List (Call Nat) := es.map .enqueue
    ((es.filter fun e ↦ e.depth ≤ 1).mergeSort Scored.atMost).map (fun e ↦ (e.vertex, e.depth))
      = [(11, 1), (10, 0), (12, 1)] ∧
    ∃ a ∈ (ledger 1 (calls ++ [.next])).waiting 1, a.1.vertex = 10 ∧
      ∀ b ∈ (ledger 1 (calls ++ [.next])).waiting 1, b = a ∨ Scored.Before a b := by
  intro es calls
  obtain ⟨-, -, -, -, -, -, hdrain⟩ := after_serves_by_score 1 calls
  obtain ⟨hnext, -⟩ := after_serves_by_score 1 (calls ++ [.next])
  obtain ⟨a, ha, hfirst, hv, -⟩ := hnext 10 _ rfl
  exact ⟨(hdrain es rfl).symm, a, ha, hv, hfirst⟩

end BestFirst

end Joinability
