import Mathlib.Logic.Function.Basic
import Joinability.Lexicon

/-!
# What the lexicon keeps

All that matters of a lexicon is the text of each id and how often it was recorded on either side:
`text?` and `count`. A lexicon is *well-formed* if every token stands at its own id and the map from
texts to ids inverts `text?`; then no text has two ids.

## Recording

`Records` says all that recording texts does: they get ids, ids keep their texts, and each
occurrence is counted once. It holds of a single text, and it composes, so that it holds of the
tokens of a whole text.
-/

open Std

namespace Joinability

namespace Token

@[simp] theorem id_recordedOn (s : Side) (t : Token) :
    (t.recordedOn s).id = t.id := by cases s <;> rfl

@[simp] theorem text_recordedOn (s : Side) (t : Token) : (t.recordedOn s).text = t.text := by
  cases s <;> rfl

theorem countOn_recordedOn (d s : Side) (t : Token) :
    (t.recordedOn s).countOn d = t.countOn d + if d = s then 1 else 0 := by
  cases s <;> cases d <;> rfl

end Token

namespace Lexicon

/-- The text of the token with an id. -/
def text? (l : Lexicon) (i : Nat) : Option Text := l.items[i]?.map Token.text

/-- How often the token with an id was recorded on a side; never, if there is no such token. -/
def count (l : Lexicon) (s : Side) (i : Nat) : Nat := l.items[i]?.elim 0 (Token.countOn s)

/-- Tokens stand at their own ids, and are found under their texts. -/
structure WellFormed (l : Lexicon) : Prop where
  id {i : Nat} {t : Token} : l.items[i]? = some t → t.id = i
  ids {text : Text} {i : Nat} : l.ids[text]? = some i ↔ l.text? i = some text

/-- The lexicon `m` is `l` with the token `t` at its id, after one more record of its text on the
side `s`. Before it, the id had no other text and the text no other id. -/
structure Writes (l m : Lexicon) (s : Side) (t : Token) : Prop where
  items (i : Nat) : m.items[i]? = if i = t.id then some t else l.items[i]?
  ids (text : Text) : m.ids[text]? = if text = t.text then some t.id else l.ids[text]?
  count (d : Side) : t.countOn d = l.count d t.id + if d = s then 1 else 0
  text {text : Text} : l.text? t.id = some text → text = t.text
  id {i : Nat} : l.text? i = some t.text → i = t.id

/-- Recording the texts on the side `s` turns `l` into `m` and gives the texts the ids. -/
structure Records (l m : Lexicon) (s : Side) (ids : List Nat) (texts : List Text) : Prop where
  wellFormed : m.WellFormed
  keeps {i : Nat} {text : Text} : l.text? i = some text → m.text? i = some text
  texts : ids.map m.text? = texts.map some
  count (d : Side) (i : Nat) : m.count d i = l.count d i + if d = s then ids.count i else 0

theorem text?_of {l : Lexicon} {i : Nat} {t : Token} (h : l.items[i]? = some t) :
    l.text? i = some t.text := by
  rw [text?, h, Option.map_some]

theorem count_of {l : Lexicon} {s : Side} {i : Nat} {t : Token} (h : l.items[i]? = some t) :
    l.count s i = t.countOn s := by
  rw [count, h, Option.elim_some]

theorem lt_size_of_text? {l : Lexicon} {i : Nat} {text : Text} (h : l.text? i = some text) :
    i < l.size := by
  obtain ⟨t, ht, -⟩ := Option.map_eq_some_iff.mp h
  exact (Array.getElem?_eq_some_iff.mp ht).1

theorem record_of_find?_eq_some {l : Lexicon} {text : Text} {t : Token}
    (hfind : l.find? text = some t) (s : Side) : l.record s text
      = (t.recordedOn s, { l with items := l.items.setIfInBounds t.id (t.recordedOn s) }) := by
  simp only [record, hfind, Token.id_recordedOn]

theorem record_of_find?_eq_none {l : Lexicon} {text : Text} (hfind : l.find? text = none)
    (s : Side) :
    l.record s text = (Token.recordedOn s { id := l.size, text },
      { items := l.items.push (Token.recordedOn s { id := l.size, text })
        ids := l.ids.insertIfNew text l.size }) := by
  simp only [record, hfind, Token.id_recordedOn]

/-! ## Well-formed lexica -/

namespace WellFormed

variable {l : Lexicon} {s : Side} {text : Text}

theorem empty : WellFormed {} where
  id h := absurd h (by simp)
  ids := by simp [text?]

theorem eq_of_text? (h : l.WellFormed) {i j : Nat} (hi : l.text? i = some text)
    (hj : l.text? j = some text) : i = j :=
  Option.some.inj ((h.ids.mpr hi).symm.trans (h.ids.mpr hj))

theorem getElem?_of_find? (h : l.WellFormed) {t : Token} (hfind : l.find? text = some t) :
    l.items[t.id]? = some t ∧ t.text = text := by
  obtain ⟨i, hi, ht⟩ := Option.bind_eq_some_iff.mp hfind
  obtain rfl := h.id ht
  have htext := h.ids.mp hi
  rw [text?_of ht] at htext
  exact ⟨ht, Option.some.inj htext⟩

theorem find?_eq_some_iff (h : l.WellFormed) {t : Token} :
    l.find? text = some t ↔ l.items[t.id]? = some t ∧ t.text = text := by
  refine ⟨h.getElem?_of_find?, ?_⟩
  rintro ⟨ht, rfl⟩
  rw [find?, h.ids.mpr (text?_of ht), Option.bind_some, ht]

theorem find?_eq_none_iff (h : l.WellFormed) : l.find? text = none ↔
    ∀ i, l.text? i ≠ some text := by
  constructor
  · intro hfind i hi
    obtain ⟨t, ht, rfl⟩ := Option.map_eq_some_iff.mp hi
    obtain rfl := h.id ht
    exact absurd (hfind.symm.trans (h.find?_eq_some_iff.mpr ⟨ht, rfl⟩)) (by simp)
  · intro hnone
    rcases hfind : l.find? text with _ | t
    · rfl
    · obtain ⟨ht, rfl⟩ := h.find?_eq_some_iff.mp hfind
      exact absurd (text?_of ht) (hnone t.id)

theorem ids_eq_none (h : l.WellFormed) (hfind : l.find? text = none) : l.ids[text]? = none := by
  rcases hi : l.ids[text]? with _ | i
  · rfl
  · exact absurd (h.ids.mp hi) (h.find?_eq_none_iff.mp hfind i)

/-- A known text keeps its id, and its token is counted once more. -/
theorem writes_known (h : l.WellFormed) {t : Token} (hfind : l.find? text = some t) (s : Side) :
    l.Writes { l with items := l.items.setIfInBounds t.id (t.recordedOn s) } s
      (t.recordedOn s) := by
  obtain ⟨ht, rfl⟩ := h.getElem?_of_find? hfind
  refine ⟨?_, ?_, ?_, ?_, ?_⟩
  · intro i
    show (l.items.setIfInBounds t.id (t.recordedOn s))[i]? = _
    rw [Array.getElem?_setIfInBounds, if_pos (Array.getElem?_eq_some_iff.mp ht).1,
      Token.id_recordedOn]
    simp only [eq_comm]
  · intro text
    rw [Token.text_recordedOn, Token.id_recordedOn]
    split
    · next htext =>
      rw [htext]
      exact h.ids.mpr (text?_of ht)
    · rfl
  · intro d
    rw [Token.countOn_recordedOn, Token.id_recordedOn, count_of ht]
  · intro text htext
    rw [Token.id_recordedOn, text?_of ht] at htext
    rw [Token.text_recordedOn, Option.some.inj htext]
  · intro i hi
    rw [Token.text_recordedOn] at hi
    rw [Token.id_recordedOn]
    exact h.eq_of_text? hi (text?_of ht)

/-- A new text gets the next id, under which nothing was counted so far. -/
theorem writes_new (h : l.WellFormed) (hfind : l.find? text = none) (s : Side) :
    l.Writes { items := l.items.push (Token.recordedOn s { id := l.size, text })
               ids := l.ids.insertIfNew text l.size } s
                 (Token.recordedOn s { id := l.size, text }) := by
  have hfresh : l.items[l.size]? = none := Array.getElem?_eq_none (Nat.le_refl _)
  refine ⟨?_, ?_, ?_, ?_, ?_⟩
  · intro i
    rw [Token.id_recordedOn]
    exact Array.getElem?_push
  · intro text'
    have hnew : text ∉ l.ids := by
      rw [TreeMap.mem_iff_isSome_getElem?, h.ids_eq_none hfind]
      exact Bool.false_ne_true
    rw [Token.text_recordedOn, Token.id_recordedOn]
    show (l.ids.insertIfNew text l.size)[text']? = _
    rw [TreeMap.getElem?_insertIfNew]
    by_cases htext : text' = text
    · rw [if_pos htext, htext, if_pos ⟨ReflCmp.compare_self, hnew⟩]
    · rw [if_neg htext, if_neg fun hcmp ↦ htext (LawfulEqCmp.eq_of_compare hcmp.1).symm]
  · intro d
    rw [Token.countOn_recordedOn, Token.id_recordedOn, count, hfresh, Option.elim_none]
    cases d <;> rfl
  · intro text' htext
    rw [Token.id_recordedOn, text?, hfresh] at htext
    exact absurd htext (by simp)
  · intro i hi
    rw [Token.text_recordedOn, ← h.ids, h.ids_eq_none hfind] at hi
    exact absurd hi (by simp)

theorem writes_record (h : l.WellFormed) (s : Side) (text : Text) :
    l.Writes (l.record s text).2 s (l.record s text).1 ∧ (l.record s text).1.text = text := by
  rcases hfind : l.find? text with _ | t
  · rw [record_of_find?_eq_none hfind]
    exact ⟨h.writes_new hfind s, Token.text_recordedOn _ _⟩
  · rw [record_of_find?_eq_some hfind]
    exact ⟨h.writes_known hfind s, (Token.text_recordedOn _ _).trans (h.getElem?_of_find? hfind).2⟩

end WellFormed

/-! ## Recording -/

namespace Writes

variable {l m : Lexicon} {s : Side} {t : Token}

theorem text?_eq (h : l.Writes m s t) (i : Nat) :
    m.text? i = if i = t.id then some t.text else l.text? i := by
  rw [text?, h.items]
  split <;> rfl

theorem wellFormed (h : l.Writes m s t) (hl : l.WellFormed) : m.WellFormed where
  id {i u} hu := by
    rw [h.items] at hu
    split at hu
    · next hi => rw [← Option.some.inj hu, hi]
    · exact hl.id hu
  ids {text i} := by
    rw [h.ids, h.text?_eq]
    by_cases hi : i = t.id
    · rw [if_pos hi, hi]
      constructor
      · intro hid
        split at hid
        · next hsame => rw [hsame]
        · rw [h.text (hl.ids.mp hid)]
      · intro hsame
        rw [if_pos (Option.some.inj hsame).symm]
    · rw [if_neg hi]
      split
      · next hsame =>
        subst hsame
        exact ⟨fun hid ↦ absurd (Option.some.inj hid).symm hi, fun hid ↦ absurd (h.id hid) hi⟩
      · exact hl.ids

/-- What is written for one text is a record of it. -/
theorem records (h : l.Writes m s t) (hl : l.WellFormed) : l.Records m s [t.id] [t.text] where
  wellFormed := h.wellFormed hl
  keeps {i text} hi := by
    rw [h.text?_eq]
    split
    · next hid =>
      subst hid
      rw [h.text hi]
    · exact hi
  texts := by rw [List.map_singleton, h.text?_eq, if_pos rfl, List.map_singleton]
  count d i := by
    rw [Lexicon.count, h.items, List.count_singleton]
    by_cases hi : i = t.id
    · rw [if_pos hi, hi, Option.elim_some, h.count, beq_self_eq_true, if_pos rfl]
    · rw [if_neg hi, beq_eq_false_iff_ne.mpr (Ne.symm hi)]
      simp [Lexicon.count]

end Writes

namespace Records

variable {l m n : Lexicon} {s : Side} {ids ids' : List Nat} {texts texts' : List Text}

theorem nil (h : l.WellFormed) (s : Side) : l.Records l s [] [] where
  wellFormed := h
  keeps := id
  texts := rfl
  count d i := by simp

theorem map_text? (h : l.Records m s ids texts) (hids : ids'.map l.text? = texts'.map some) :
    ids'.map m.text? = texts'.map some := by
  rw [← hids]
  refine List.map_congr_left ?_
  intro i hi
  obtain ⟨text, -, htext⟩ := List.mem_map.mp (hids ▸ List.mem_map_of_mem hi)
  rw [← htext, h.keeps htext.symm]

theorem append (h : l.Records m s ids texts) (h' : m.Records n s ids' texts') :
    l.Records n s (ids ++ ids') (texts ++ texts') where
  wellFormed := h'.wellFormed
  keeps hi := h'.keeps (h.keeps hi)
  texts := by
    rw [List.map_append, List.map_append, h'.texts, h'.map_text? h.texts]
  count d i := by
    rw [h'.count, h.count, List.count_append]
    split <;> omega

end Records

theorem WellFormed.records_recordAll {l : Lexicon} (h : l.WellFormed) (s : Side)
    (texts : List Text) : l.Records (l.recordAll s texts).2 s (l.recordAll s texts).1 texts := by
  induction texts generalizing l with
  | nil => exact .nil h s
  | cons text texts ih =>
    obtain ⟨hwrites, htext⟩ := h.writes_record s text
    have hfirst := hwrites.records h
    rw [htext] at hfirst
    exact hfirst.append (ih hfirst.wellFormed)

end Lexicon

end Joinability
