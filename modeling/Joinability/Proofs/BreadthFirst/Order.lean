import Joinability.Proofs.BreadthFirst.Survey
import Joinability.Proofs.Tokens.History

/-!
# The vertices of a side, in order

Ids are issued in the order in which texts are found, and a breadth-first search expands the
vertices in the order of their ids. So on each side the texts of the vertices are the root and the
targets tried so far, vertex by vertex, each at its first occurrence. `Skeleton.InOrder` says so,
and this file lists what the operations of a search do to the two lists that it compares.
-/

namespace Joinability

variable {rules : List Rule} {lhs rhs : Text}

/-! ## Lists without repetitions -/

section List

variable {β : Type}

theorem eq_of_isPrefix_of_mem_iff {l m v : List β} (hl : l <+: v) (hm : m <+: v) (hv : v.Nodup)
    (h : ∀ b, b ∈ l ↔ b ∈ m) : l = m := by
  have hlength {l m : List β} (hl : l <+: v) (hlm : l ⊆ m) : l.length ≤ m.length :=
    ((hv.sublist hl.sublist).subperm hlm).length_le
  rcases List.prefix_or_prefix_of_prefix hl hm with hlm | hml
  · exact hlm.eq_of_length_le (hlength hm fun b hb ↦ (h b).mpr hb)
  · exact (hml.eq_of_length_le (hlength hl fun b hb ↦ (h b).mp hb)).symm

theorem filter_isPrefix {p : β → Bool} {l : List β}
    (h : l.Pairwise fun a b ↦ p b = true → p a = true) : l.filter p <+: l := by
  induction l with
  | nil => exact List.prefix_refl _
  | cons a l ih =>
    obtain ⟨ha, hl⟩ := List.pairwise_cons.mp h
    by_cases hp : p a = true
    · rw [List.filter_cons_of_pos hp]
      exact List.cons_prefix_cons.mpr ⟨rfl, ih hl⟩
    · rw [List.filter_cons_of_neg hp, List.filter_eq_nil_iff.mpr fun b hb hb' ↦ hp (ha b hb hb')]
      exact List.nil_prefix

end List

/-! ## The vertices of a side -/

namespace Skeleton

section Sides

variable {α τ π : Type} {k : Skeleton α τ π} {s : Side} {v : Vertex α}

/-- The vertices of a side, in the order of their ids. -/
def ofSide (k : Skeleton α τ π) (s : Side) : List (Vertex α) :=
  k.vertices.toList.filter fun v ↦ v.side = s

/-- The vertices of a side that lie at most `n` levels deep. -/
def upTo (k : Skeleton α τ π) (s : Side) (n : ℕ) : List (Vertex α) :=
  (k.ofSide s).filter fun v ↦ v.depth ≤ n

theorem IsForest.mem_ofSide_iff (h : k.IsForest) :
    v ∈ k.ofSide s ↔ k.vertices[v.id]? = some v ∧ v.side = s := by
  rw [ofSide, List.mem_filter, decide_eq_true_iff, List.mem_iff_getElem?]
  refine and_congr_left fun _ ↦ ⟨?_, fun hv ↦ ⟨v.id, ?_⟩⟩
  · rintro ⟨i, hi⟩
    rw [Array.getElem?_toList] at hi
    rwa [h.id_eq hi]
  · rwa [Array.getElem?_toList]

theorem IsForest.mem_upTo_iff (h : k.IsForest) {n : ℕ} :
    v ∈ k.upTo s n ↔ k.vertices[v.id]? = some v ∧ v.side = s ∧ v.depth ≤ n := by
  rw [upTo, List.mem_filter, h.mem_ofSide_iff, decide_eq_true_iff, and_assoc]

/-- A vertex splits the others into the older and the younger ones. -/
theorem IsForest.exists_split (h : k.IsForest) (hv : k.vertices[v.id]? = some v) :
    ∃ older younger, k.vertices.toList = older ++ v :: younger ∧
      (∀ w ∈ older, k.vertices[w.id]? = some w ∧ w.id < v.id) ∧
      (∀ w ∈ younger, k.vertices[w.id]? = some w ∧ v.id < w.id) := by
  obtain ⟨hlt, hget⟩ := Array.getElem?_eq_some_iff.mp hv
  have hat {i : Nat} {w : Vertex α} (hi : k.vertices.toList[i]? = some w) :
      k.vertices[w.id]? = some w ∧ w.id = i := by
    rw [Array.getElem?_toList] at hi
    rw [h.id_eq hi]
    exact ⟨hi, rfl⟩
  refine ⟨k.vertices.toList.take v.id, k.vertices.toList.drop (v.id + 1), ?_, ?_, ?_⟩
  · have hcons : k.vertices.toList.drop v.id = v :: k.vertices.toList.drop (v.id + 1) := by
      rw [List.drop_eq_getElem_cons (by rwa [Array.length_toList]), Array.getElem_toList, hget]
    rw [← hcons, List.take_append_drop]
  · intro w hw
    obtain ⟨i, hi⟩ := List.mem_iff_getElem?.mp hw
    have hlt : i < v.id := by
      have := (List.getElem?_eq_some_iff.mp hi).1
      rw [List.length_take] at this
      omega
    rw [List.getElem?_take_of_lt hlt] at hi
    obtain ⟨hw, hid⟩ := hat hi
    exact ⟨hw, hid ▸ hlt⟩
  · intro w hw
    obtain ⟨i, hi⟩ := List.mem_iff_getElem?.mp hw
    rw [List.getElem?_drop] at hi
    obtain ⟨hw, hid⟩ := hat hi
    exact ⟨hw, by omega⟩

end Sides

/-! ## What has been tried, in order -/

variable {k : Skeleton Payload Recipe Evidence} {p : Nat → Option (Bool × Nat)} {s : Side}
  {v : Vertex Payload} {b : Bool} {c : Nat} {t : Text}

/-- The targets of a vertex that have been tried. -/
def triedAt (rules : List Rule) (p : Nat → Option (Bool × Nat)) (v : Vertex Payload) : List Text :=
  (targets rules v.pretty).take ((p v.id).elim 0 Prod.snd)

/-- The targets that have been tried on a side, vertex by vertex. -/
def triedOn (rules : List Rule) (k : Skeleton Payload Recipe Evidence)
    (p : Nat → Option (Bool × Nat)) (s : Side) : List Text :=
  (k.ofSide s).flatMap (triedAt rules p)

/-- The texts of each side are its root and the targets tried on it, each at its first
occurrence. -/
def InOrder (rules : List Rule) (lhs rhs : Text) (k : Skeleton Payload Recipe Evidence)
    (p : Nat → Option (Bool × Nat)) : Prop :=
  ∀ s : Side, (k.ofSide s).map Vertex.pretty = (s.pick lhs rhs :: k.triedOn rules p s).eraseDups

theorem triedAt_of_eq (h : p v.id = some (b, c)) :
    triedAt rules p v = (targets rules v.pretty).take c := by
  rw [triedAt, h]
  rfl

theorem triedAt_eq_nil (h : ∀ b c, p v.id = some (b, c) → c = 0) : triedAt rules p v = [] := by
  rcases hp : p v.id with _ | ⟨b, c⟩
  · rw [triedAt, hp]
    exact List.take_zero
  · rw [triedAt_of_eq hp, h b c hp, List.take_zero]

theorem triedAt_update_of_ne {i : Nat} (hi : v.id ≠ i) (q : Option (Bool × Nat)) :
    triedAt rules (Function.update p i q) v = triedAt rules p v := by
  rw [triedAt, triedAt, Function.update_of_ne hi]

/-- Where all younger vertices have not been tried, moving the cursor of a vertex adds a target at
the end. -/
theorem IsForest.triedOn_advance (h : k.IsForest) (hv : k.vertices[v.id]? = some v)
    (hp : p v.id = some (b, c)) (ht : (targets rules v.pretty)[c]? = some t)
    (hyounger : ∀ i b c, p i = some (b, c) → v.id < i → c = 0) (s : Side) :
    k.triedOn rules (Function.update p v.id (some (b, c + 1))) s
      = k.triedOn rules p s ++ if v.side = s then [t] else [] := by
  obtain ⟨older, younger, hsplit, hold, hnew⟩ := h.exists_split hv
  have holder : (older.filter fun w ↦ w.side = s).flatMap
        (triedAt rules (Function.update p v.id (some (b, c + 1))))
      = (older.filter fun w ↦ w.side = s).flatMap (triedAt rules p) := by
    refine List.flatMap_congr ?_
    intro w hw
    exact triedAt_update_of_ne (Nat.ne_of_lt (hold w (List.mem_filter.mp hw).1).2) _
  have hnil : (younger.filter fun w ↦ w.side = s).flatMap (triedAt rules p) = [] := by
    refine List.flatMap_eq_nil_iff.mpr fun w hw ↦ triedAt_eq_nil fun b c hw' ↦ ?_
    exact hyounger w.id b c hw' (hnew w (List.mem_filter.mp hw).1).2
  have hnil' : (younger.filter fun w ↦ w.side = s).flatMap
      (triedAt rules (Function.update p v.id (some (b, c + 1)))) = [] := by
    rw [← hnil]
    refine List.flatMap_congr ?_
    intro w hw
    exact triedAt_update_of_ne (Nat.ne_of_gt (hnew w (List.mem_filter.mp hw).1).2) _
  have hself : triedAt rules (Function.update p v.id (some (b, c + 1))) v
      = triedAt rules p v ++ [t] := by
    rw [triedAt_of_eq (Function.update_self _ _ _), triedAt_of_eq hp, List.take_add_one, ht]
    rfl
  rw [triedOn, triedOn, ofSide, hsplit, List.filter_append, List.flatMap_append,
    List.flatMap_append, holder]
  by_cases hside : v.side = s
  · rw [List.filter_cons_of_pos (by simpa using hside), List.flatMap_cons, List.flatMap_cons, hnil,
      hnil', hself, if_pos hside]
    simp
  · rw [List.filter_cons_of_neg (by simpa using hside), hnil, hnil', if_neg hside, List.append_nil,
      List.append_nil]

theorem ofSide_withChild (v : Vertex Payload) (t : Term Payload) (tokens : List Nat)
    (use : RuleUse) (recipe : Option Recipe) (s : Side) :
    (k.withChild v t tokens use recipe).ofSide s
      = k.ofSide s ++ if v.side = s then [k.child v t tokens] else [] := by
  have hchild : (k.child v t tokens).side = v.side := rfl
  rw [ofSide, withChild, Array.toList_push, List.filter_append, ← ofSide]
  by_cases hside : v.side = s
  · rw [if_pos hside, List.filter_cons_of_pos (by simpa [hchild] using hside), List.filter_nil]
  · rw [if_neg hside, List.filter_cons_of_neg (by simpa [hchild] using hside), List.filter_nil]

/-- A new vertex has not been tried. -/
theorem IsForest.triedOn_withChild (h : k.IsForest) (v : Vertex Payload) (t : Term Payload)
    (tokens : List Nat) (use : RuleUse) (recipe : Option Recipe) (s : Side) :
    (k.withChild v t tokens use recipe).triedOn rules
      (Function.update p k.vertices.size (some (false, 0))) s = k.triedOn rules p s := by
  have hsame : (k.ofSide s).flatMap
        (triedAt rules (Function.update p k.vertices.size (some (false, 0))))
      = (k.ofSide s).flatMap (triedAt rules p) := by
    refine List.flatMap_congr fun w hw ↦ triedAt_update_of_ne (Nat.ne_of_lt ?_) _
    exact (Array.getElem?_eq_some_iff.mp (h.mem_ofSide_iff.mp hw).1).1
  have hfresh : Function.update p k.vertices.size (some (false, 0)) (k.child v t tokens).id
      = some (false, 0) := Function.update_self _ _ _
  rw [triedOn, ofSide_withChild, List.flatMap_append, hsame, ← triedOn]
  by_cases hside : v.side = s
  · rw [if_pos hside, List.flatMap_cons, triedAt_of_eq hfresh, List.take_zero, List.nil_append,
      List.flatMap_nil, List.append_nil]
  · rw [if_neg hside, List.flatMap_nil, List.append_nil]

/-! ## Keeping the order -/

/-- Closing a vertex changes nothing about what was tried. -/
theorem InOrder.close (h : k.InOrder rules lhs rhs p) {i : Nat} (hp : p i = some (b, c)) :
    k.InOrder rules lhs rhs (Function.update p i (some (true, c))) := by
  intro s
  have hsame : k.triedOn rules (Function.update p i (some (true, c))) s = k.triedOn rules p s := by
    refine List.flatMap_congr ?_
    intro w _
    by_cases hw : w.id = i
    · rw [← hw] at hp
      rw [triedAt_of_eq hp, ← hw, triedAt_of_eq (Function.update_self _ _ _)]
    · exact triedAt_update_of_ne hw _
  rw [hsame]
  exact h s

/-- A target that is a text of its side already changes nothing. -/
theorem InOrder.advance (h : k.InOrder rules lhs rhs p) (hk : k.IsForest)
    (hv : k.vertices[v.id]? = some v) (hp : p v.id = some (b, c))
    (ht : (targets rules v.pretty)[c]? = some t)
    (hyounger : ∀ i b c, p i = some (b, c) → v.id < i → c = 0)
    (hknown : t ∈ (k.ofSide v.side).map Vertex.pretty) :
    k.InOrder rules lhs rhs (Function.update p v.id (some (b, c + 1))) := by
  intro s
  rw [hk.triedOn_advance hv hp ht hyounger s, ← List.cons_append]
  by_cases hside : v.side = s
  · subst hside
    rw [h, List.mem_eraseDups] at hknown
    rw [if_pos rfl, eraseDups_concat, if_pos hknown]
    exact h v.side
  · rw [if_neg hside, List.append_nil]
    exact h s

/-- A target that is a new text of its side comes last. -/
theorem InOrder.withChild (h : k.InOrder rules lhs rhs p) (hk : k.IsForest)
    (hv : k.vertices[v.id]? = some v) (hp : p v.id = some (b, c))
    (ht : (targets rules v.pretty)[c]? = some t)
    (hyounger : ∀ i b c, p i = some (b, c) → v.id < i → c = 0)
    (hnew : t ∉ (k.ofSide v.side).map Vertex.pretty) (tokens : List Nat) (use : RuleUse)
    (recipe : Option Recipe) :
    (k.withChild v (.ofText t) tokens use recipe).InOrder rules lhs rhs
      (Function.update (Function.update p v.id (some (b, c + 1))) k.vertices.size
        (some (false, 0))) := by
  intro s
  rw [hk.triedOn_withChild, ofSide_withChild, hk.triedOn_advance hv hp ht hyounger s,
    ← List.cons_append]
  by_cases hside : v.side = s
  · subst hside
    rw [h, List.mem_eraseDups] at hnew
    rw [if_pos rfl, if_pos rfl, eraseDups_concat, if_neg hnew, ← h v.side, List.map_append]
    rfl
  · rw [if_neg hside, if_neg hside, List.append_nil, List.append_nil]
    exact h s

end Skeleton

end Joinability
