import Mathlib.Data.List.Nodup
import Joinability.Proofs.Tokens.Lexicon

/-!
# What a lexicon remembers

A lexicon is used by recording token texts, one at a time or all those of a text, on either side and
in any order. Its history is the list of all the token texts that were recorded, with their sides.
`Lexicon.Recalls` says what the lexicon keeps of its history: the texts in the order in which they
first occurred, each of them once, and how often each of them occurred on either side. The order in
which the other occurrences came is forgotten.

One more record is one more entry of the history (`Recalls.record`). A call of either kind is a
number of records, one after the other.
-/

namespace Joinability

/-- An element at the end of a list is kept unless it occurs before. -/
theorem eraseDups_concat {β : Type} [BEq β] [LawfulBEq β] (l : List β) (b : β) :
    (l ++ [b]).eraseDups = if b ∈ l then l.eraseDups else l.eraseDups ++ [b] := by
  rw [List.eraseDups_append]
  by_cases hb : b ∈ l
  · have hnil : [b].removeAll l = [] := by simp [List.removeAll, hb]
    rw [if_pos hb, hnil, List.eraseDups_nil, List.append_nil]
  · have hkeep : [b].removeAll l = [b] := by simp [List.removeAll, hb]
    rw [if_neg hb, hkeep]
    rfl

namespace Lexicon

/-- What is done with a lexicon. -/
inductive Call
  /-- A token text is recorded on a side. -/
  | record (s : Side) (text : Text)
  /-- The tokens of a text are recorded on a side. -/
  | intern (s : Side) (t : Text)

/-- The token texts that a call records, with their side. -/
def Call.occurrences : Call → List (Side × Text)
  | record s text => [(s, text)]
  | intern s t => t.tokens.map fun text ↦ (s, text)

/-- What a call makes of a lexicon. -/
def perform (l : Lexicon) : Call → Lexicon
  | .record s text => (l.record s text).2
  | .intern s t => (l.intern s t).2

/-- The lexicon after some calls. -/
def after (calls : List Call) : Lexicon := calls.foldl perform {}

/-- All that some calls record, in order. -/
def history (calls : List Call) : List (Side × Text) := calls.flatMap Call.occurrences

/-- The texts of the tokens, in the order of their ids. -/
def texts (l : Lexicon) : List Text := l.items.toList.map Token.text

theorem getElem?_texts (l : Lexicon) (i : Nat) : l.texts[i]? = l.text? i := by
  rw [texts, List.getElem?_map, Array.getElem?_toList, text?]

theorem WellFormed.map_id_eq {l : Lexicon} (h : l.WellFormed) :
    l.items.toList.map Token.id = List.range l.size := by
  refine List.ext_getElem (by simp [size]) ?_
  intro i hi _
  have hlt : i < l.items.size := by simpa using hi
  rw [List.getElem_map, List.getElem_range]
  exact h.id (Array.getElem?_eq_getElem hlt)

theorem WellFormed.nodup_texts {l : Lexicon} (h : l.WellFormed) : l.texts.Nodup := by
  rw [List.nodup_iff_getElem?_ne_getElem?]
  intro i j hij hj
  rw [List.getElem?_eq_getElem hj]
  intro hi
  have hj := List.getElem?_eq_getElem hj
  rw [getElem?_texts] at hi hj
  exact absurd (h.eq_of_text? hi hj) (Nat.ne_of_lt hij)

/-- The lexicon keeps of its history which texts occurred, in the order of their first occurrences,
and how often. -/
structure Recalls (l : Lexicon) (past : List (Side × Text)) : Prop where
  wellFormed : l.WellFormed
  texts : l.texts = (past.map Prod.snd).eraseDups
  count {t : Token} : t ∈ l.items → ∀ s, t.countOn s = past.count (s, t.text)

namespace Recalls

variable {l : Lexicon} {past : List (Side × Text)}

theorem empty : Recalls {} [] where
  wellFormed := .empty
  texts := rfl
  count h := absurd h (by simp)

theorem exists_text?_iff (h : l.Recalls past) {text : Text} :
    (∃ i, l.text? i = some text) ↔ text ∈ past.map Prod.snd := by
  rw [← List.mem_eraseDups, ← h.texts, List.mem_iff_getElem?]
  simp only [getElem?_texts]

theorem isSome_find?_iff (h : l.Recalls past) {text : Text} :
    (l.find? text).isSome = true ↔ text ∈ past.map Prod.snd := by
  rw [← h.exists_text?_iff, Option.isSome_iff_ne_none, ne_eq, h.wellFormed.find?_eq_none_iff]
  simp only [ne_eq, not_forall, not_not]

theorem count_eq (h : l.Recalls past) {i : Nat} {text : Text}
    (htext : ∀ {text' : Text}, l.text? i = some text' → text' = text)
    (hid : ∀ {j : Nat}, l.text? j = some text → j = i) (s : Side) :
    l.count s i = past.count (s, text) := by
  rcases ht : l.items[i]? with _ | t
  · rw [Lexicon.count, ht, Option.elim_none, eq_comm, List.count_eq_zero]
    intro hmem
    obtain ⟨j, hj⟩ := h.exists_text?_iff.mpr (List.mem_map_of_mem (f := Prod.snd) hmem)
    rw [hid hj, text?, ht] at hj
    exact absurd hj (by simp)
  · rw [count_of ht, h.count (Array.mem_of_getElem? ht), htext (text?_of ht)]

/-- **One more record is one more entry of the history.** -/
theorem record (h : l.Recalls past) (s : Side) (text : Text) :
    (l.record s text).2.Recalls (past ++ [(s, text)]) := by
  obtain ⟨hwrites, htext⟩ := h.wellFormed.writes_record s text
  refine ⟨hwrites.wellFormed h.wellFormed, ?_, ?_⟩
  · rw [List.map_append, List.map_singleton, eraseDups_concat, ← h.texts]
    by_cases hknown : text ∈ past.map Prod.snd
    · obtain ⟨t, hfind⟩ := Option.isSome_iff_exists.mp (h.isSome_find?_iff.mpr hknown)
      obtain ⟨ht, rfl⟩ := h.wellFormed.find?_eq_some_iff.mp hfind
      rw [if_pos hknown]
      refine List.ext_getElem? fun i ↦ ?_
      rw [getElem?_texts, getElem?_texts, hwrites.text?_eq, htext, record_of_find?_eq_some hfind,
        Token.id_recordedOn]
      split
      · next hi => rw [hi, text?_of ht]
      · rfl
    · have hfind : l.find? text = none :=
        Option.not_isSome_iff_eq_none.mp (h.isSome_find?_iff.not.mpr hknown)
      rw [if_neg hknown, record_of_find?_eq_none hfind, Lexicon.texts, Array.toList_push,
        List.map_append, List.map_singleton, Token.text_recordedOn]
      rfl
  · intro t ht d
    obtain ⟨i, hi⟩ := Array.mem_iff_getElem?.mp ht
    rw [hwrites.items] at hi
    split at hi
    · -- the token that was written
      obtain rfl := Option.some.inj hi
      have hone : [(s, text)].count (d, text) = if d = s then 1 else 0 := by
        by_cases hd : d = s
        · rw [if_pos hd, hd, List.count_singleton_self]
        · rw [if_neg hd, List.count_eq_zero]
          simp [hd]
      rw [hwrites.count, h.count_eq hwrites.text hwrites.id, htext, List.count_append, hone]
    · next hne =>
      have hother : t.text ≠ text := by
        intro hsame
        rw [← htext] at hsame
        exact hne (hwrites.id (hsame ▸ text?_of hi))
      have hnone : [(s, text)].count (d, t.text) = 0 := by
        rw [List.count_eq_zero]
        simp [hother]
      rw [h.count (Array.mem_of_getElem? hi), List.count_append, hnone]
      rfl

theorem recordAll (h : l.Recalls past) (s : Side) (texts : List Text) :
    (l.recordAll s texts).2.Recalls (past ++ texts.map fun text ↦ (s, text)) := by
  induction texts generalizing l past with
  | nil => rwa [List.map_nil, List.append_nil]
  | cons text texts ih =>
    have hrest := ih (h.record s text)
    rwa [List.append_assoc, List.singleton_append] at hrest

theorem perform (h : l.Recalls past) (call : Call) :
    (l.perform call).Recalls (past ++ call.occurrences) := by
  cases call with
  | record s text => exact h.record s text
  | intern s t => exact h.recordAll s t.tokens

/-- A lexicon recalls what it recalled before and the calls since. -/
theorem foldl (h : l.Recalls past) (calls : List Call) :
    (calls.foldl Lexicon.perform l).Recalls (past ++ history calls) := by
  induction calls generalizing l past with
  | nil => rwa [history, List.flatMap_nil, List.append_nil]
  | cons call calls ih =>
    have hrest := ih (h.perform call)
    rwa [List.append_assoc] at hrest

end Recalls

theorem recalls_after (calls : List Call) : (after calls).Recalls (history calls) :=
  Recalls.empty.foldl calls

/-- **A lexicon is a faithful dictionary that counts.** However texts are recorded, one at a time or
all tokens of a text, on either side: the ids are the numbers from zero on, in the order in which
the texts first occurred, and no text has two. A text is found exactly if it has occurred, as the
token at its id, and its frequency on a side is how often it occurred there. What is answered to a
record is the token that is found from then on, and what is answered to a text are the ids of its
tokens. Whatever is recorded later, the text is found under the same id. -/
theorem after_counts_history (calls : List Call) :
    let l := after calls
    let past := history calls
    l.items.toList.map Token.id = List.range l.size ∧
    l.items.toList.map Token.text = (past.map Prod.snd).eraseDups ∧
    (l.items.toList.map Token.text).Nodup ∧
    (∀ text t, l.find? text = some t ↔ l.get t.id = .ok t ∧ t.text = text) ∧
    (∀ text, (l.find? text).isSome = true ↔ text ∈ past.map Prod.snd) ∧
    (∀ t ∈ l.items, ∀ s, t.countOn s = past.count (s, t.text)) ∧
    (∀ s text, (l.record s text).2.find? text = some (l.record s text).1) ∧
    (∀ s (t : Text), (l.intern s t).1.map (fun i ↦ (l.intern s t).2.items[i]?.map Token.text)
      = t.tokens.map some) ∧
    ∀ more text t, l.find? text = some t →
      ∃ u, (after (calls ++ more)).find? text = some u ∧ u.id = t.id := by
  intro l past
  have hl : l.Recalls past := recalls_after calls
  have hwell := hl.wellFormed
  refine ⟨hwell.map_id_eq, hl.texts, hwell.nodup_texts, ?_, fun text ↦ hl.isSome_find?_iff,
    fun t ht ↦ hl.count ht, ?_, ?_, ?_⟩
  · intro text t
    rw [get_eq_ok_iff]
    exact hwell.find?_eq_some_iff
  · intro s text
    obtain ⟨hwrites, htext⟩ := hwell.writes_record s text
    refine (hwrites.wellFormed hwell).find?_eq_some_iff.mpr ⟨?_, htext⟩
    rw [hwrites.items, if_pos rfl]
  · intro s t
    exact (hwell.records_recordAll s t.tokens).texts
  · intro more text t hfind
    have hmore : (after (calls ++ more)).Recalls (past ++ history more) := by
      rw [after, List.foldl_append]
      exact hl.foldl more
    obtain ⟨ht, rfl⟩ := hwell.find?_eq_some_iff.mp hfind
    have hkept : (after (calls ++ more)).text? t.id = some t.text := by
      rw [← getElem?_texts, hmore.texts, List.map_append, List.eraseDups_append, ← hl.texts,
        List.getElem?_append_left, getElem?_texts, text?_of ht]
      have hlt : t.id < l.items.size := (Array.getElem?_eq_some_iff.mp ht).1
      simpa [Lexicon.texts] using hlt
    obtain ⟨u, hu, htext⟩ := Option.map_eq_some_iff.mp hkept
    have hid : u.id = t.id := hmore.wellFormed.id hu
    exact ⟨u, hmore.wellFormed.find?_eq_some_iff.mpr ⟨hid ▸ hu, htext⟩, hid⟩

/-- The token `a` comes first and is met twice on the right, once alone and once in a text. -/
theorem after_counts_history_mixed :
    let calls : List Call :=
      [.record .left (utf8 "a"), .intern .right (utf8 "b a b"), .record .right (utf8 "a")]
    let l := after calls
    l.items.toList.map Token.text = [utf8 "a", utf8 "b"] ∧
    (∃ t, l.find? (utf8 "a") = some t ∧ l.get t.id = .ok t ∧ t.countOn .left = 1 ∧
      t.countOn .right = 2) ∧
    ∃ u, (after (calls ++ [.record .left (utf8 "c")])).find? (utf8 "b") = some u ∧ u.id = 1 := by
  intro calls l
  obtain ⟨-, htexts, -, hfind, hfound, hcount, -, -, hmore⟩ := after_counts_history calls
  obtain ⟨a, ha⟩ := Option.isSome_iff_exists.mp ((hfound (utf8 "a")).mpr (by decide))
  obtain ⟨hget, htext⟩ := (hfind _ a).mp ha
  have hmem : a ∈ l.items := Array.mem_of_getElem? (get_eq_ok_iff.mp hget)
  obtain ⟨u, hu, hid⟩ := hmore [.record .left (utf8 "c")] (utf8 "b")
    { id := 1, text := utf8 "b", right := 2 } (by decide +kernel)
  refine ⟨htexts.trans (by decide), ⟨a, ha, hget, ?_, ?_⟩, u, hu, hid⟩
  · rw [hcount a hmem, htext]
    decide
  · rw [hcount a hmem, htext]
    decide

end Lexicon

end Joinability
