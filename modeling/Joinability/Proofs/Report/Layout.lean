import Joinability.Proofs.Report.Citation

/-!
# Blanks, commas and brackets

The parts of a printed list are told apart by commas, and blanks around them do not count. Where a
part may hold commas of its own, between brackets, the commas that separate the parts are those
outside all brackets (`splitCommands`).
-/

namespace Joinability

theorem mapM_map_eq_some {α β γ : Type} {f : α → γ} {g : α → β} {as : List α} {h : γ → Option β}
    (hread : ∀ a ∈ as, h (f a) = some (g a)) : (as.map f).mapM h = some (as.map g) := by
  induction as with
  | nil => rfl
  | cons a as ih =>
    rw [List.map_cons, List.mapM_cons, hread a List.mem_cons_self,
      ih fun b hb ↦ hread b (List.mem_cons_of_mem a hb)]
    rfl

/-! ## Blanks -/

/-- A blank. -/
def isBlank (b : UInt8) : Bool := b == ' '.toUInt8

namespace Text

/-- The text without the blanks around it. -/
def bare (t : Text) : Text := t.trim isBlank

/-- The text before the byte that closes it, when nothing follows this byte. -/
def upTo? (close : UInt8) (t : Text) : Option Text :=
  match Rule.splitFirst? close t with
  | some (inside, []) => some inside
  | _ => none

/-- A text that begins and ends with bytes that are not in the class `p`. -/
structure IsTight (p : UInt8 → Bool) (t : Text) : Prop where
  ne_nil : t ≠ []
  head : ∀ b ∈ t.head?, p b = false
  last : ∀ b ∈ t.getLast?, p b = false

variable {p : UInt8 → Bool}

theorem dropWhile_append_of_tight {s t : Text} (hs : ∀ b ∈ s, p b = true)
    (ht : ∀ b ∈ t.head?, p b = false) : (s ++ t).dropWhile p = t := by
  rw [List.dropWhile_append_of_pos hs]
  rcases t with _ | ⟨b, t⟩
  · rfl
  · rw [List.dropWhile_cons_of_neg (by rw [ht b rfl]; simp)]

theorem trim_around {s t u : Text} (ht : IsTight p t) (hs : ∀ b ∈ s, p b = true)
    (hu : ∀ b ∈ u, p b = true) : (s ++ t ++ u).trim p = t := by
  have hhead : ∀ b ∈ (t ++ u).head?, p b = false := by
    rw [List.head?_append_of_ne_nil t ht.ne_nil]
    exact ht.head
  have hlast : ∀ b ∈ t.reverse.head?, p b = false := by
    rw [List.head?_reverse]
    exact ht.last
  rw [trim, List.append_assoc, dropWhile_append_of_tight hs hhead, List.reverse_append,
    dropWhile_append_of_tight (by simpa using hu) hlast, List.reverse_reverse]

theorem bare_append {s t : Text} (ht : IsTight isBlank t) (hs : ∀ b ∈ s, isBlank b = true) :
    (s ++ t).bare = t := by
  have htrim := trim_around (u := []) ht hs (by simp)
  rwa [List.append_nil] at htrim

theorem upTo?_append {close : UInt8} {t : Text} (h : close ∉ t) :
    (t ++ [close]).upTo? close = some t := by
  rw [upTo?, Rule.splitFirst?_append h]

theorem isTight_append {s t : Text} (hs : s ≠ []) (ht : t ≠ []) (hhead : ∀ b ∈ s.head?, p b = false)
    (hlast : ∀ b ∈ t.getLast?, p b = false) : IsTight p (s ++ t) := by
  refine ⟨by simp [hs], ?_, ?_⟩
  · rwa [List.head?_append_of_ne_nil s hs]
  · rwa [List.getLast?_append_of_ne_nil s ht]

theorem isTight_intercalate {sep : Text} {ts : List Text} (hne : ts ≠ [])
    (h : ∀ t ∈ ts, IsTight p t) : IsTight p (sep.intercalate ts) := by
  induction ts with
  | nil => exact absurd rfl hne
  | cons t ts ih =>
    have ht := h t List.mem_cons_self
    rcases ts with _ | ⟨u, ts⟩
    · rwa [List.intercalate_singleton]
    · have hrest := ih (by simp) fun v hv ↦ h v (List.mem_cons_of_mem t hv)
      rw [List.intercalate_cons_cons, List.append_assoc]
      refine isTight_append ht.ne_nil (by simp [hrest.ne_nil]) ht.head ?_
      rw [List.getLast?_append_of_ne_nil sep hrest.ne_nil]
      exact hrest.last

theorem notMem_intercalate {b : UInt8} {sep : Text} {ts : List Text} (hsep : b ∉ sep)
    (hts : ∀ t ∈ ts, b ∉ t) : b ∉ sep.intercalate ts := by
  induction ts with
  | nil => simp
  | cons t ts ih =>
    have ht := hts t List.mem_cons_self
    rcases ts with _ | ⟨u, ts⟩
    · rwa [List.intercalate_singleton]
    · rw [List.intercalate_cons_cons, List.mem_append, List.mem_append, not_or, not_or]
      exact ⟨⟨ht, hsep⟩, ih fun v hv ↦ hts v (List.mem_cons_of_mem t hv)⟩

theorem intercalate_comma (t : Text) (ts : List Text) : (utf8 ", ").intercalate (t :: ts)
    = [','.toUInt8].intercalate (t :: ts.map (utf8 " " ++ ·)) := by
  induction ts generalizing t with
  | nil => simp
  | cons u ts ih =>
    have hblank : utf8 " " ++ u = ' '.toUInt8 :: u := rfl
    rw [List.intercalate_cons_cons, ih, List.map_cons, List.intercalate_cons_cons, hblank,
      List.intercalate_cons_cons_left, List.append_assoc, List.append_assoc]
    rfl

end Text

/-! ## Brackets -/

/-- The number of brackets that are open after a byte. -/
def depthPast (depth : Nat) (b : UInt8) : Nat :=
  if b = '['.toUInt8 then depth + 1 else if b = ']'.toUInt8 then depth - 1 else depth

/-- The parts of a list of commands between the commas that do not stand between brackets. -/
def splitCommands (depth : Nat) : Text → List Text
  | [] => [[]]
  | b :: t =>
    if b = ','.toUInt8 ∧ depth = 0 then [] :: splitCommands 0 t
    else (splitCommands (depthPast depth b) t).modifyHead (b :: ·)

/-- The number of brackets that are open after a text without a comma outside brackets, from `depth`
on. -/
def depthAfter? (depth : Nat) : Text → Option Nat
  | [] => some depth
  | b :: t =>
    if b = ','.toUInt8 ∧ depth = 0 then none
    else depthAfter? (depthPast depth b) t

theorem splitCommands_append {s : Text} {d d' : Nat} (h : depthAfter? d s = some d') (t : Text) :
    splitCommands d (s ++ t) = (splitCommands d' t).modifyHead (s ++ ·) := by
  induction s generalizing d with
  | nil =>
    obtain rfl : d = d' := by simpa [depthAfter?] using h
    rw [List.nil_append]
    rcases splitCommands d t <;> rfl
  | cons b s ih =>
    rw [depthAfter?] at h
    by_cases hb : b = ','.toUInt8 ∧ d = 0
    · rw [if_pos hb] at h
      exact absurd h (by simp)
    · rw [if_neg hb] at h
      rw [List.cons_append, splitCommands, if_neg hb, ih h, List.modifyHead_modifyHead]
      rfl

theorem depthAfter?_append {s t : Text} {d d' : Nat} (h : depthAfter? d s = some d') :
    depthAfter? d (s ++ t) = depthAfter? d' t := by
  induction s generalizing d with
  | nil =>
    obtain rfl : d = d' := by simpa [depthAfter?] using h
    rfl
  | cons b s ih =>
    rw [depthAfter?] at h
    by_cases hb : b = ','.toUInt8 ∧ d = 0
    · rw [if_pos hb] at h
      exact absurd h (by simp)
    · rw [if_neg hb] at h
      rw [List.cons_append, depthAfter?, if_neg hb, ih h]

theorem depthAfter?_of_notMem {t : Text} {d : Nat}
    (hopen : '['.toUInt8 ∉ t) (hclose : ']'.toUInt8 ∉ t) (hcomma : d = 0 → ','.toUInt8 ∉ t) :
    depthAfter? d t = some d := by
  induction t with
  | nil => rfl
  | cons b t ih =>
    rw [List.mem_cons, not_or] at hopen hclose
    have hb : ¬(b = ','.toUInt8 ∧ d = 0) := by
      rintro ⟨rfl, hd⟩
      exact hcomma hd List.mem_cons_self
    rw [depthAfter?, if_neg hb, depthPast, if_neg (Ne.symm hopen.1), if_neg (Ne.symm hclose.1)]
    exact ih hopen.2 hclose.2 fun hd ht ↦ hcomma hd (List.mem_cons_of_mem b ht)

/-- Commands that have their commas between brackets are told apart. -/
theorem splitCommands_intercalate {t : Text} {ts : List Text}
    (h : ∀ s ∈ t :: ts, depthAfter? 0 s = some 0) :
    splitCommands 0 ([','.toUInt8].intercalate (t :: ts)) = t :: ts := by
  induction ts generalizing t with
  | nil =>
    have hsplit := splitCommands_append (h t List.mem_cons_self) []
    rw [List.append_nil] at hsplit
    rw [List.intercalate_singleton, hsplit]
    simp [splitCommands]
  | cons u ts ih =>
    rw [List.intercalate_cons_cons, List.append_assoc,
      splitCommands_append (h t List.mem_cons_self), List.singleton_append, splitCommands,
      if_pos ⟨rfl, rfl⟩, ih fun s hs ↦ h s (List.mem_cons_of_mem t hs)]
    simp

end Joinability
