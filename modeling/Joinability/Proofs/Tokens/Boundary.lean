import Mathlib.Data.List.TakeWhile
import Mathlib.Tactic.ByContra
import Joinability.Text.Token

/-!
# Where a text is split

The tokens of a text are read from the right, and a byte only looks at its neighbour. What they are
is said without an order of reading: a token is a run of word bytes that goes on at neither end, or
a single byte of neither class, and between the tokens there is nothing but blanks.

A text may be cut anywhere but within a run. `Text.Apart` says that no run goes on from one text
into the next, and **`Text.tokens_append_iff`** that the tokens of two texts are those of the texts
put together exactly if they are apart. A blank keeps apart what stands on its two sides, so that a
blank may be put between any two tokens.

## One token after the other

`Text.exists_first` takes the first token from a text, with the blanks before it. The account of a
token that stands further on (`Text.exists_cut`) repeats this, since what is left of the text is
apart from what was taken.
-/

namespace Joinability

namespace Text

/-! ## The classes of bytes -/

theorem forall_byte {p : UInt8 → Prop} (h : ∀ n < 256, p (.ofNat n)) (b : UInt8) : p b := by
  have hb := h b.toNat b.toNat_lt
  rwa [UInt8.ofNat_toNat] at hb

theorem isBlank_iff (b : UInt8) : isBlank b = true ↔ b ∈ utf8 " \t\n\x0b\x0c\r" := by
  revert b
  exact forall_byte (by decide +kernel)

theorem isWordByte_iff (b : UInt8) :
    isWordByte b = true ↔ (Char.ofUInt8 b).isAlphanum = true ∨ b ∈ utf8 "_.'" := by
  revert b
  exact forall_byte (by decide +kernel)

theorem isBlank_of_isWordByte (b : UInt8) : isWordByte b = true → isBlank b = false := by
  revert b
  exact forall_byte (by decide +kernel)

variable {s t w : Text} {b c : UInt8}

theorem isWordByte_of_isBlank (hb : isBlank b = true) : isWordByte b = false :=
  Bool.eq_false_iff.mpr fun hword ↦ absurd hb (by rw [isBlank_of_isWordByte b hword]; simp)

/-! ## The tokens of a text with one more byte -/

theorem tokens_cons_of_blank (hb : isBlank b = true) (t : Text) : tokens (b :: t) = tokens t := by
  rw [tokens, if_pos hb]

theorem tokens_cons_of_neither (hblank : isBlank b = false) (hword : isWordByte b = false)
    (t : Text) : tokens (b :: t) = [b] :: tokens t := by
  rw [tokens, if_neg (by simp [hblank]), if_neg (by simp [hword])]

theorem tokens_cons_of_word (hb : isWordByte b = true) (t : Text) :
    tokens (b :: t) = glue b t (tokens t) := by
  rw [tokens, if_neg (by simp [isBlank_of_isWordByte b hb]), if_pos hb]

theorem tokens_cons_cases (b : UInt8) : (isBlank b = true ∧ ∀ t, tokens (b :: t) = tokens t) ∨
    (isWordByte b = true ∧ isBlank b = false ∧ ∀ t, tokens (b :: t) = glue b t (tokens t)) ∨
    (isWordByte b = false ∧ isBlank b = false ∧ ∀ t, tokens (b :: t) = [b] :: tokens t) := by
  by_cases hblank : isBlank b = true
  · exact Or.inl ⟨hblank, tokens_cons_of_blank hblank⟩
  rw [Bool.not_eq_true] at hblank
  by_cases hword : isWordByte b = true
  · exact Or.inr (Or.inl ⟨hword, hblank, tokens_cons_of_word hword⟩)
  · rw [Bool.not_eq_true] at hword
    exact Or.inr (Or.inr ⟨hword, hblank, tokens_cons_of_neither hblank hword⟩)

theorem glue_ne_nil (b : UInt8) (t : Text) (ts : List Text) : glue b t ts ≠ [] := by
  unfold glue
  split
  · split <;> simp
  · simp

theorem exists_tokens_eq_cons (hc : isWordByte c = true) (t : Text) :
    ∃ w ws, tokens (c :: t) = w :: ws := by
  rw [tokens_cons_of_word hc]
  exact List.exists_cons_of_ne_nil (glue_ne_nil c t (tokens t))

theorem glue_of_word (hc : isWordByte c = true) (b : UInt8) (t w : Text) (ws : List Text) :
    glue b (c :: t) (w :: ws) = (b :: w) :: ws := if_pos hc

theorem glue_of_head (ht : ∀ c ∈ t.head?, isWordByte c = false) (b : UInt8) (ts : List Text) :
    glue b t ts = [b] :: ts := by
  unfold glue
  split
  · next c t w ws =>
    rw [if_neg (by simp [ht c rfl])]
  · rfl

/-! ## Texts that are apart -/

/-- No run of word bytes goes on from `s` into `t`. -/
def Apart (s t : Text) : Prop :=
  ∀ a ∈ s.getLast?, isWordByte a = true → ∀ b ∈ t.head?, isWordByte b = false

theorem Apart.of_cons (h : Apart (b :: s) t) : Apart s t := by
  intro a ha
  refine h a ?_
  rw [List.getLast?_cons, ha, Option.getD_some]
  rfl

theorem Apart.append (u : Text) (h : Apart s t) (hs : s ≠ []) : Apart (u ++ s) t := by
  intro a ha
  rw [List.getLast?_append, List.getLast?_eq_some_getLast hs, Option.some_or] at ha
  exact h a (by rwa [List.getLast?_eq_some_getLast hs])

theorem Apart.of_append {u : Text} (h : Apart s (t ++ u)) : Apart s t := by
  intro a ha hword b hb
  exact h a ha hword b (by rw [List.head?_append, hb, Option.some_or]; rfl)

theorem apart_of_blank (hb : isBlank b = true) (s t : Text) : Apart s (b :: t) := by
  rintro a - - c ⟨⟩
  exact isWordByte_of_isBlank hb

theorem apart_of_blanks (h : ∀ b ∈ s, isBlank b = true) (t : Text) : Apart s t := by
  intro a ha hword
  have hblank := isWordByte_of_isBlank (h a (List.mem_of_getLast? ha))
  exact absurd (hblank.symm.trans hword) Bool.false_ne_true

theorem tokens_append (h : Apart s t) : tokens (s ++ t) = tokens s ++ tokens t := by
  induction s with
  | nil => rfl
  | cons b s ih =>
    have ih := ih h.of_cons
    rw [List.cons_append]
    rcases tokens_cons_cases b with ⟨-, hb⟩ | ⟨hword, -, hb⟩ | ⟨-, -, hb⟩
    · rw [hb, hb, ih]
    · rw [hb, hb, ih]
      rcases s with _ | ⟨c, s⟩
      · exact glue_of_head (h b rfl hword) b (tokens t)
      by_cases hc : isWordByte c = true
      · obtain ⟨w, ws, hw⟩ := exists_tokens_eq_cons hc s
        rw [hw, List.cons_append, List.cons_append, glue_of_word hc, glue_of_word hc,
          List.cons_append]
      · have hhead (u : Text) : ∀ a ∈ (c :: u).head?, isWordByte a = false := by
          rintro a ⟨⟩
          exact Bool.eq_false_iff.mpr hc
        rw [List.cons_append, glue_of_head (hhead _), glue_of_head (hhead _), List.cons_append]
    · rw [hb, hb, ih, List.cons_append]

theorem length_tokens_cons_of_word (hb : isWordByte b = true) (c : UInt8) (t : Text) :
    (tokens (b :: c :: t)).length = (tokens (c :: t)).length +
      if isWordByte c = true then 0 else 1 := by
  rw [tokens_cons_of_word hb]
  by_cases hc : isWordByte c = true
  · obtain ⟨w, ws, hw⟩ := exists_tokens_eq_cons hc t
    rw [hw, glue_of_word hc, if_pos hc]
    rfl
  · rw [glue_of_head (by rintro a ⟨⟩; exact Bool.eq_false_iff.mpr hc), if_neg hc]
    rfl

/-- Where a run goes on, the two texts have one token less together than apart. -/
theorem length_tokens_append (h : ¬ Apart s t) :
    (tokens (s ++ t)).length + 1 = (tokens s).length + (tokens t).length := by
  induction s with
  | nil => exact absurd (fun a ha ↦ absurd ha (by simp)) h
  | cons b s ih =>
    rcases s with _ | ⟨c, s⟩
    · -- the run goes on from `b` into `t`
      obtain ⟨hb, c, hc, hword⟩ :
          isWordByte b = true ∧ ∃ c, t.head? = some c ∧ isWordByte c = true := by
        simpa [Apart] using h
      obtain ⟨t, rfl⟩ := List.head?_eq_some_iff.mp hc
      have hsum := length_tokens_cons_of_word hb c t
      rw [if_pos hword] at hsum
      have hone : tokens [b] = [[b]] := tokens_cons_of_word hb []
      rw [List.singleton_append, hone, hsum, List.length_singleton, Nat.add_zero, Nat.add_comm]
    · have ih := ih fun hapart ↦ h (hapart.append [b] (List.cons_ne_nil c s))
      rw [List.cons_append] at ih
      rw [List.cons_append, List.cons_append]
      rcases tokens_cons_cases b with ⟨-, hb⟩ | ⟨hword, -, -⟩ | ⟨-, -, hb⟩
      · rwa [hb, hb]
      · have htogether := length_tokens_cons_of_word hword c (s ++ t)
        have hfirst := length_tokens_cons_of_word hword c s
        omega
      · rw [hb, hb, List.length_cons, List.length_cons]
        omega

/-- **The tokens of two texts are those of the texts put together exactly if no run goes on between
them.** -/
theorem tokens_append_iff : tokens (s ++ t) = tokens s ++ tokens t ↔ Apart s t := by
  refine ⟨?_, tokens_append⟩
  intro h
  by_contra hapart
  have hlength := length_tokens_append hapart
  rw [h, List.length_append] at hlength
  exact absurd hlength (Nat.succ_ne_self _)

/-! ## Runs and single bytes -/

/-- `w` is a run of word bytes, which goes on neither in the text before it nor in the text behind
it. -/
structure IsRun (before w after : Text) : Prop where
  ne_nil : w ≠ []
  word : ∀ b ∈ w, isWordByte b = true
  before : ∀ b ∈ before.getLast?, isWordByte b = false
  after : ∀ b ∈ after.head?, isWordByte b = false

/-- `w` is a single byte that is neither a word byte nor blank. -/
def IsSingle (w : Text) : Prop := ∃ b, w = [b] ∧ isWordByte b = false ∧ isBlank b = false

/-- The bytes of `w` are those of one token. -/
def IsToken (w : Text) : Prop := (w ≠ [] ∧ ∀ b ∈ w, isWordByte b = true) ∨ IsSingle w

theorem IsRun.of_apart {before after : Text} (hne : w ≠ []) (hword : ∀ b ∈ w, isWordByte b = true)
    (hbefore : Apart before (w ++ after)) (hafter : Apart (before ++ w) after) :
    IsRun before w after := by
  refine ⟨hne, hword, ?_, ?_⟩
  · intro b hb
    obtain ⟨c, w, rfl⟩ := List.exists_cons_of_ne_nil hne
    rw [Bool.eq_false_iff]
    intro hb'
    have hc := hbefore b hb hb' c rfl
    exact absurd (hc.symm.trans (hword c List.mem_cons_self)) Bool.false_ne_true
  · have hlast : (before ++ w).getLast? = some (w.getLast hne) := by
      rw [List.getLast?_append, List.getLast?_eq_some_getLast hne, Option.some_or]
    exact hafter _ hlast (hword _ (List.getLast_mem hne))

theorem IsToken.ne_nil (h : IsToken w) : w ≠ [] := by
  rcases h with ⟨hne, -⟩ | ⟨b, rfl, -⟩
  · exact hne
  · exact List.cons_ne_nil b []

/-- A text with the bytes of one token is its only token. -/
theorem IsToken.tokens_eq (h : IsToken w) : tokens w = [w] := by
  rcases h with ⟨hne, hword⟩ | ⟨b, rfl, hword, hblank⟩
  · induction w with
    | nil => exact absurd rfl hne
    | cons b w ih =>
      rw [tokens_cons_of_word (hword b List.mem_cons_self)]
      cases w with
      | nil => rfl
      | cons c w =>
        have hword := (List.forall_mem_cons.mp hword).2
        rw [ih (List.cons_ne_nil c w) hword, glue_of_word (hword c List.mem_cons_self)]
  · rw [tokens_cons_of_neither hblank hword]
    rfl

theorem tokens_eq_nil (h : ∀ b ∈ s, isBlank b = true) : tokens s = [] := by
  induction s with
  | nil => rfl
  | cons b s ih =>
    rw [tokens_cons_of_blank (h b List.mem_cons_self), ih (List.forall_mem_cons.mp h).2]

/-- Unless there are only blanks, a text starts with some of them and a token, and what is behind
the token is apart from it. -/
theorem exists_first (s : Text) : tokens s = [] ∨ ∃ blanks w rest, s = blanks ++ w ++ rest ∧
    (∀ b ∈ blanks, isBlank b = true) ∧ IsToken w ∧ Apart w rest := by
  induction s with
  | nil => exact Or.inl rfl
  | cons b s ih =>
    rcases tokens_cons_cases b with ⟨hblank, hb⟩ | ⟨hword, -, -⟩ | ⟨hword, hblank, -⟩
    · rcases ih with hnil | ⟨blanks, w, rest, rfl, hblanks, hw, hrest⟩
      · exact Or.inl ((hb s).trans hnil)
      · exact Or.inr
          ⟨b :: blanks, w, rest, rfl, List.forall_mem_cons.mpr ⟨hblank, hblanks⟩, hw, hrest⟩
    · -- the run that starts here is as long as it can be
      have hrun : ∀ c ∈ b :: s.takeWhile isWordByte, isWordByte c = true :=
        List.forall_mem_cons.mpr ⟨hword, fun c hc ↦ List.mem_takeWhile_imp hc⟩
      refine Or.inr ⟨[], b :: s.takeWhile isWordByte, s.dropWhile isWordByte, ?_, by simp,
        Or.inl ⟨List.cons_ne_nil _ _, hrun⟩, ?_⟩
      · rw [List.nil_append, List.cons_append, List.takeWhile_append_dropWhile]
      · intro a _ _ c hc
        rw [← List.find?_not_eq_head?_dropWhile] at hc
        simpa using List.find?_some hc
    · refine Or.inr ⟨[], [b], s, rfl, by simp, Or.inr ⟨b, rfl, hword, hblank⟩, ?_⟩
      rintro a ⟨⟩ ha
      exact absurd (hword.symm.trans ha) Bool.false_ne_true

theorem tokens_first {blanks rest : Text} (hblanks : ∀ b ∈ blanks, isBlank b = true)
    (hw : IsToken w) (hrest : Apart w rest) : tokens (blanks ++ w ++ rest) = w :: tokens rest := by
  rw [tokens_append (hrest.append blanks hw.ne_nil), tokens_append (apart_of_blanks hblanks w),
    tokens_eq_nil hblanks, hw.tokens_eq]
  rfl

/-- Every token has its place in the text: what is before it has the tokens before it, what is
behind it those behind it, and the three parts are apart. -/
theorem exists_cut {before after : List Text} (h : tokens s = before ++ w :: after) :
    ∃ pre post, s = pre ++ w ++ post ∧ tokens pre = before ∧ tokens post = after ∧ IsToken w ∧
      Apart pre (w ++ post) ∧ Apart (pre ++ w) post := by
  induction before generalizing s with
  | nil =>
    obtain ⟨blanks, v, rest, rfl, hblanks, hv, hrest⟩ :=
      (exists_first s).resolve_left fun hnil ↦ by simp [hnil] at h
    rw [tokens_first hblanks hv hrest] at h
    obtain ⟨rfl, rfl⟩ := List.cons.inj h
    exact ⟨blanks, rest, rfl, tokens_eq_nil hblanks, rfl, hv, apart_of_blanks hblanks _,
      hrest.append blanks hv.ne_nil⟩
  | cons u before ih =>
    obtain ⟨blanks, v, rest, rfl, hblanks, hv, hrest⟩ :=
      (exists_first s).resolve_left fun hnil ↦ by simp [hnil] at h
    rw [tokens_first hblanks hv hrest] at h
    obtain ⟨rfl, htokens⟩ := List.cons.inj h
    obtain ⟨pre, post, rfl, hbefore, hafter, hw, hleft, hright⟩ := ih htokens
    rw [List.append_assoc] at hrest
    have hpre : Apart v pre := hrest.of_append
    refine ⟨blanks ++ v ++ pre, post, ?_, ?_, hafter, hw, ?_, ?_⟩
    · simp only [List.append_assoc]
    · rw [tokens_first hblanks hv hpre, hbefore]
    · by_cases hnil : pre = []
      · subst hnil
        rw [List.append_nil]
        exact hrest.append blanks hv.ne_nil
      · exact hleft.append _ hnil
    · rw [List.append_assoc]
      exact hright.append _ (List.append_ne_nil_of_right_ne_nil _ hw.ne_nil)

/-! ## What the tokens are made of -/

theorem flatten_glue (b : UInt8) (t : Text) (ts : List Text) :
    (glue b t ts).flatten = b :: ts.flatten := by
  unfold glue
  split
  · split <;> rfl
  · rfl

theorem flatten_tokens (s : Text) : (tokens s).flatten = s.filter fun b ↦ !isBlank b := by
  induction s with
  | nil => rfl
  | cons b s ih =>
    rcases tokens_cons_cases b with ⟨hblank, hb⟩ | ⟨-, hblank, hb⟩ | ⟨-, hblank, hb⟩
    · rw [hb, ih, List.filter_cons_of_neg (by simp [hblank])]
    · rw [hb, flatten_glue, ih, List.filter_cons_of_pos (by simp [hblank])]
    · rw [hb, List.flatten_cons, ih, List.filter_cons_of_pos (by simp [hblank]),
        List.singleton_append]

/-- Tokens that are set apart by blanks are read again. -/
theorem tokens_intercalate (hb : isBlank b = true) {ts : List Text} (h : ∀ w ∈ ts, IsToken w) :
    tokens ([b].intercalate ts) = ts := by
  induction ts with
  | nil => rfl
  | cons w ts ih =>
    have ih := ih (List.forall_mem_cons.mp h).2
    have hw := (h w List.mem_cons_self).tokens_eq
    cases ts with
    | nil => rwa [List.intercalate_singleton]
    | cons v ts =>
      rw [List.intercalate_cons_cons, List.append_assoc, List.singleton_append,
        tokens_append (apart_of_blank hb w _), tokens_cons_of_blank hb, hw, ih]
      rfl

/-- **A text is split exactly at the boundaries of its tokens.** A token stands at a place of its
own in the text, and it is a run of word bytes that goes on at neither end, or a single byte of
neither class; all tokens in their order are the text without its blanks. The tokens of two texts
are those of the texts put together exactly if no run of word bytes goes on from one into the other,
in particular if there is a blank between them; and so the tokens of the tokens, with a space
between them, are the same. -/
theorem tokens_at_boundaries (s : Text) :
    (∀ before w after, tokens s = before ++ w :: after → ∃ pre post, s = pre ++ w ++ post ∧
      tokens pre = before ∧ tokens post = after ∧ (IsRun pre w post ∨ IsSingle w)) ∧
    (tokens s).flatten = s.filter (fun b ↦ !isBlank b) ∧
    (∀ t b, isBlank b = true → tokens (s ++ b :: t) = tokens s ++ tokens t) ∧
    (∀ t, tokens (s ++ t) = tokens s ++ tokens t ↔ Apart s t) ∧
    tokens ((utf8 " ").intercalate (tokens s)) = tokens s ∧
    (∀ b, isBlank b = true ↔ b ∈ utf8 " \t\n\x0b\x0c\r") ∧
    ∀ b, isWordByte b = true ↔ (Char.ofUInt8 b).isAlphanum = true ∨ b ∈ utf8 "_.'" := by
  refine ⟨?_, flatten_tokens s, ?_, fun t ↦ tokens_append_iff, ?_, isBlank_iff, isWordByte_iff⟩
  · intro before w after h
    obtain ⟨pre, post, hs, hbefore, hafter, hw, hleft, hright⟩ := exists_cut h
    exact ⟨pre, post, hs, hbefore, hafter,
      hw.imp (fun hrun ↦ .of_apart hrun.1 hrun.2 hleft hright) id⟩
  · intro t b hb
    rw [tokens_append (apart_of_blank hb s t), tokens_cons_of_blank hb]
  · refine tokens_intercalate (b := 0x20) rfl ?_
    intro w hw
    obtain ⟨before, after, h⟩ := List.append_of_mem hw
    obtain ⟨pre, post, -, -, -, htoken, -⟩ := exists_cut h
    exact htoken

/-- The run `y_1` goes on neither into the bracket before it nor over the blank behind it. -/
theorem tokens_at_boundaries_call :
    let s := utf8 "f.x(y_1 *2)"
    (∃ pre post, s = pre ++ utf8 "y_1" ++ post ∧ tokens pre = ["f.x", "("].map utf8 ∧
      tokens post = ["*", "2", ")"].map utf8 ∧ IsRun pre (utf8 "y_1") post) ∧
    tokens (s ++ 0x09 :: utf8 "'z") = ["f.x", "(", "y_1", "*", "2", ")", "'z"].map utf8 := by
  intro s
  obtain ⟨hcut, -, hblank, -⟩ := tokens_at_boundaries s
  obtain ⟨pre, post, hs, hbefore, hafter, htoken⟩ :=
    hcut (["f.x", "("].map utf8) (utf8 "y_1") (["*", "2", ")"].map utf8) (by decide)
  have hnot : ¬ IsSingle (utf8 "y_1") := by
    rintro ⟨b, hb, -⟩
    exact absurd (show (utf8 "y_1").length = 1 from congrArg List.length hb) (by decide)
  refine ⟨⟨pre, post, hs, hbefore, hafter, htoken.resolve_right hnot⟩, ?_⟩
  rw [hblank (utf8 "'z") 0x09 rfl]
  decide

end Text

end Joinability
