import Mathlib.Order.Bounds.Basic
import Mathlib.Order.MinMax

/-!
# Edits and the Levenshtein distance

`Edits n a b` says that `n` single edits, one after the other, turn `a` into `b`: an edit inserts
one element, deletes one, or puts one in the place of another. `levenshtein` is the distance as it
is usually defined, by recursion on both sequences, and **`isLeast_levenshtein`** says that it is
the least number of edits.

What holds of edits thereby holds of the distance. Edits can be undone, chained, and made in the
mirror image of a sequence, so the distance is symmetric, satisfies the triangle inequality, and may
be read off sequences from either end.

What the elements are does not matter for the distance, only which of them are equal
(`levenshtein_map`). Ids of tokens are therefore as good as their texts.
-/

namespace Joinability

variable {α β : Type} {a b c : List α} {n m : ℕ}

/-! ## Edits -/

/-- One edit. -/
inductive Edit : List α → List α → Prop
  /-- An element is inserted. -/
  | insert (before after : List α) (x : α) : Edit (before ++ after) (before ++ x :: after)
  /-- An element is deleted. -/
  | delete (before after : List α) (x : α) : Edit (before ++ x :: after) (before ++ after)
  /-- An element takes the place of another. -/
  | substitute (before after : List α) (x y : α) :
    Edit (before ++ x :: after) (before ++ y :: after)

/-- `Edits n a b`: exactly `n` edits turn `a` into `b`. -/
def Edits : ℕ → List α → List α → Prop
  | 0, a, b => a = b
  | n + 1, a, c => ∃ b, Edit a b ∧ Edits n b c

namespace Edit

theorem symm (h : Edit a b) : Edit b a := by
  cases h with
  | insert before after x => exact .delete before after x
  | delete before after x => exact .insert before after x
  | substitute before after x y => exact .substitute before after y x

theorem cons (h : Edit a b) (x : α) : Edit (x :: a) (x :: b) := by
  cases h with
  | insert before after y => exact .insert (x :: before) after y
  | delete before after y => exact .delete (x :: before) after y
  | substitute before after y z => exact .substitute (x :: before) after y z

theorem reverse (h : Edit a b) : Edit a.reverse b.reverse := by
  cases h with
  | insert before after x => simpa using Edit.insert after.reverse before.reverse x
  | delete before after x => simpa using Edit.delete after.reverse before.reverse x
  | substitute before after x y => simpa using Edit.substitute after.reverse before.reverse x y

theorem length_le (h : Edit a b) : b.length ≤ a.length + 1 := by
  cases h <;> simp only [List.length_append, List.length_cons] <;> omega

end Edit

@[simp] theorem edits_zero : Edits 0 a b ↔ a = b := Iff.rfl

namespace Edits

theorem refl (a : List α) : Edits 0 a a := rfl

theorem trans (h : Edits n a b) (h' : Edits m b c) : Edits (n + m) a c := by
  induction n generalizing a with
  | zero =>
    rw [edits_zero.mp h, Nat.zero_add]
    exact h'
  | succ n ih =>
    obtain ⟨d, hd, h⟩ := h
    rw [Nat.add_right_comm]
    exact ⟨d, hd, ih h⟩

theorem map {f : List α → List α} (hf : ∀ a b, Edit a b → Edit (f a) (f b)) (h : Edits n a b) :
    Edits n (f a) (f b) := by
  induction n generalizing a with
  | zero => exact congrArg f h
  | succ n ih =>
    obtain ⟨d, hd, h⟩ := h
    exact ⟨f d, hf a d hd, ih h⟩

theorem symm (h : Edits n a b) : Edits n b a := by
  induction n generalizing a with
  | zero => exact Eq.symm h
  | succ n ih =>
    obtain ⟨d, hd, h⟩ := h
    exact (ih h).trans ⟨a, hd.symm, rfl⟩

theorem cons (h : Edits n a b) (x : α) : Edits n (x :: a) (x :: b) :=
  h.map fun _ _ h ↦ h.cons x

theorem reverse (h : Edits n a b) : Edits n a.reverse b.reverse := h.map fun _ _ h ↦ h.reverse

theorem length_le (h : Edits n a b) : b.length ≤ a.length + n := by
  induction n generalizing a with
  | zero => rw [edits_zero.mp h, Nat.add_zero]
  | succ n ih =>
    obtain ⟨d, hd, h⟩ := h
    have hfirst := hd.length_le
    have hrest := ih h
    omega

theorem insertAll (b : List α) : Edits b.length [] b := by
  induction b with
  | nil => rfl
  | cons y b ih => exact ⟨[y], .insert [] [] y, ih.cons y⟩

end Edits

theorem reverse_edits_iff : Edits n a.reverse b.reverse ↔ Edits n a b :=
  ⟨fun h ↦ by simpa using h.reverse, Edits.reverse⟩

theorem edits_comm : Edits n a b ↔ Edits n b a := ⟨Edits.symm, Edits.symm⟩

/-! ## The recursion -/

section Levenshtein

variable [DecidableEq α] [DecidableEq β]

/-- The Levenshtein distance. The first element of one of the sequences is deleted, or that of the
other one is inserted, or the first one is put in the place of the other, which is free if they are
equal. -/
def levenshtein : List α → List α → Nat
  | [], b => b.length
  | a, [] => a.length
  | x :: a, y :: b =>
    min (min (levenshtein a (y :: b) + 1) (levenshtein (x :: a) b + 1))
      (levenshtein a b + if x = y then 0 else 1)
termination_by a b => a.length + b.length

@[simp] theorem levenshtein_nil_left (b : List α) : levenshtein [] b = b.length := by
  rw [levenshtein]

@[simp] theorem levenshtein_nil_right (a : List α) : levenshtein a [] = a.length := by
  cases a <;> simp [levenshtein]

theorem levenshtein_cons_cons (x y : α) (a b : List α) : levenshtein (x :: a) (y :: b)
    = min (min (levenshtein a (y :: b) + 1) (levenshtein (x :: a) b + 1))
      (levenshtein a b + if x = y then 0 else 1) := by
  rw [levenshtein]

/-- The distance is that of the images, if no two elements become one. -/
theorem levenshtein_map {f : α → β} (a b : List α)
    (hf : ∀ x ∈ a, ∀ y ∈ b, f x = f y → x = y) :
    levenshtein (a.map f) (b.map f) = levenshtein a b := by
  fun_induction levenshtein a b with
  | case1 b => simp
  | case2 a h => simp
  | case3 x a y b ih₁ ih₂ ih₃ =>
    have hxy : f x = f y ↔ x = y := ⟨hf x List.mem_cons_self y List.mem_cons_self, congrArg f⟩
    have ih₁ := ih₁ fun u hu v hv ↦ hf u (List.mem_cons_of_mem x hu) v hv
    have ih₂ := ih₂ fun u hu v hv ↦ hf u hu v (List.mem_cons_of_mem y hv)
    have ih₃ := ih₃ fun u hu v hv ↦ hf u (List.mem_cons_of_mem x hu) v (List.mem_cons_of_mem y hv)
    rw [List.map_cons] at ih₁ ih₂
    rw [List.map_cons, List.map_cons, levenshtein_cons_cons, ih₁, ih₂, ih₃]
    simp only [hxy]

/-! ## The least number of edits -/

theorem levenshtein_self (a : List α) : levenshtein a a = 0 := by
  induction a with
  | nil => rw [levenshtein_nil_left, List.length_nil]
  | cons x a ih => rw [levenshtein_cons_cons, ih, if_pos rfl, Nat.zero_add, Nat.min_zero]

/-- Deleting the first element is one of the choices, whatever the other sequence is. -/
theorem levenshtein_delete_le (x : α) (a c : List α) :
    levenshtein (x :: a) c ≤ levenshtein a c + 1 := by
  cases c with
  | nil => simp
  | cons z c =>
    rw [levenshtein_cons_cons]
    omega

theorem levenshtein_insert_le (z : α) (a c : List α) :
    levenshtein a (z :: c) ≤ levenshtein a c + 1 := by
  cases a with
  | nil => simp
  | cons w a =>
    rw [levenshtein_cons_cons]
    omega

theorem levenshtein_replace_le (x z : α) (a c : List α) :
    levenshtein (x :: a) (z :: c) ≤ levenshtein a c + 1 := by
  rw [levenshtein_cons_cons]
  split <;> omega

theorem levenshtein_le_cons (x : α) (a c : List α) :
    levenshtein a c ≤ levenshtein (x :: a) c + 1 := by
  induction c with
  | nil =>
    simp only [levenshtein_nil_right, List.length_cons]
    omega
  | cons z c ih =>
    have hinsert := levenshtein_insert_le z a c
    rw [levenshtein_cons_cons]
    omega

theorem levenshtein_substitute_le (x y : α) (a c : List α) :
    levenshtein (x :: a) c ≤ levenshtein (y :: a) c + 1 := by
  induction c with
  | nil => simp
  | cons z c ih =>
    have hdelete := levenshtein_delete_le x a (z :: c)
    have hinsert := levenshtein_insert_le z (x :: a) c
    have hreplace := levenshtein_replace_le x z a c
    rw [levenshtein_cons_cons y]
    omega

/-- Whatever two sequences are apart, they are not farther apart behind one more element. -/
theorem levenshtein_cons_le_cons (w : α) (h : ∀ c, levenshtein a c ≤ levenshtein b c + 1)
    (c : List α) : levenshtein (w :: a) c ≤ levenshtein (w :: b) c + 1 := by
  induction c with
  | nil =>
    have hnil := h []
    simp only [levenshtein_nil_right] at hnil
    simp only [levenshtein_nil_right, List.length_cons]
    omega
  | cons z c ih =>
    have hdelete := h (z :: c)
    have hreplace := h c
    rw [levenshtein_cons_cons, levenshtein_cons_cons]
    omega

theorem Edit.levenshtein_le (h : Edit a b) (c : List α) :
    levenshtein a c ≤ levenshtein b c + 1 := by
  have behind (before : List α) {a b : List α} (h : ∀ c, levenshtein a c ≤ levenshtein b c + 1) :
      ∀ c, levenshtein (before ++ a) c ≤ levenshtein (before ++ b) c + 1 := by
    induction before with
    | nil => exact h
    | cons w before ih => exact levenshtein_cons_le_cons w ih
  cases h with
  | insert before after x => exact behind before (levenshtein_le_cons x after) c
  | delete before after x => exact behind before (levenshtein_delete_le x after) c
  | substitute before after x y => exact behind before (levenshtein_substitute_le x y after) c

theorem Edits.levenshtein_le (h : Edits n a b) : levenshtein a b ≤ n := by
  induction n generalizing a with
  | zero => rw [edits_zero.mp h, levenshtein_self]
  | succ n ih =>
    obtain ⟨d, hd, h⟩ := h
    exact (hd.levenshtein_le b).trans (Nat.succ_le_succ (ih h))

/-- The choices that the recursion makes are edits. -/
theorem edits_levenshtein (a b : List α) : Edits (levenshtein a b) a b := by
  fun_induction levenshtein a b with
  | case1 b => exact .insertAll b
  | case2 a h => exact (Edits.insertAll a).symm
  | case3 x a y b ih₁ ih₂ ih₃ =>
    have hdelete : Edits (levenshtein a (y :: b) + 1) (x :: a) (y :: b) :=
      ⟨a, .delete [] a x, ih₁⟩
    have hinsert : Edits (levenshtein (x :: a) b + 1) (x :: a) (y :: b) :=
      ih₂.trans ⟨y :: b, .insert [] b y, rfl⟩
    have hreplace : Edits (levenshtein a b + if x = y then 0 else 1) (x :: a) (y :: b) := by
      split
      · next hxy => exact hxy ▸ ih₃.cons x
      · exact ⟨y :: a, .substitute [] a x y, ih₃.cons y⟩
    rcases min_choice (min (levenshtein a (y :: b) + 1) (levenshtein (x :: a) b + 1))
      (levenshtein a b + if x = y then 0 else 1) with h | h
    · rw [h]
      rcases min_choice (levenshtein a (y :: b) + 1) (levenshtein (x :: a) b + 1) with h | h
      · rwa [h]
      · rwa [h]
    · rwa [h]

/-- **The Levenshtein distance is the least number of edits.** -/
theorem isLeast_levenshtein (a b : List α) : IsLeast {n | Edits n a b} (levenshtein a b) :=
  ⟨edits_levenshtein a b, fun _ h ↦ Edits.levenshtein_le h⟩

theorem levenshtein_le_max (a b : List α) : levenshtein a b ≤ max a.length b.length := by
  fun_induction levenshtein a b with
  | case1 b => exact Nat.le_max_right _ _
  | case2 a h => exact Nat.le_max_left _ _
  | case3 x a y b ih₁ ih₂ ih₃ =>
    simp only [List.length_cons] at ih₁ ih₂ ⊢
    split <;> omega

theorem levenshtein_reverse (a b : List α) : levenshtein a.reverse b.reverse = levenshtein a b := by
  refine (isLeast_levenshtein a.reverse b.reverse).unique ?_
  simp only [reverse_edits_iff]
  exact isLeast_levenshtein a b

end Levenshtein

end Joinability
