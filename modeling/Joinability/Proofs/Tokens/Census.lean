import Joinability.Engine.Rules
import Joinability.Proofs.Search.Step
import Joinability.Proofs.Tokens.Lexicon

/-!
# The lexicon counts the tokens of the trees

The tokens of a term are recorded when it becomes a vertex, and at no other time. `Lexicon.Census`
is what follows: the ids that a vertex keeps are those of the tokens of its text, and every token
was counted on a side as often as its id occurs at the vertices of that side.

Only a new vertex can disturb it, and a new vertex brings a lexicon with it in which its own tokens
were recorded (`Lexicon.Census.push`). A reduct that is discarded and one at which the sides meet
leave both lexicon and vertices alone.
-/

namespace Joinability

variable {σ α τ π : Type}

/-- The ids of the tokens of all vertices of a side, in the order of the vertices. -/
def Vertex.tokensOn (vs : Array (Vertex α)) (s : Side) : List Nat :=
  (vs.toList.filter (·.side = s)).flatMap Vertex.tokens

/-- The lexicon knows the tokens of the vertices, and counts them side by side. -/
structure Lexicon.Census (l : Lexicon) (vs : Array (Vertex α)) : Prop where
  wellFormed : l.WellFormed
  texts {v : Vertex α} : v ∈ vs → v.tokens.map l.text? = v.pretty.tokens.map some
  count (s : Side) (i : Nat) : l.count s i = (Vertex.tokensOn vs s).count i

theorem Vertex.tokensOn_push (vs : Array (Vertex α)) (v : Vertex α) (s : Side) :
    tokensOn (vs.push v) s = tokensOn vs s ++ if s = v.side then v.tokens else [] := by
  rw [tokensOn, Array.toList_push, List.filter_append, List.flatMap_append, List.filter_singleton]
  by_cases hs : s = v.side
  · rw [if_pos hs, decide_eq_true hs.symm, cond_true, List.flatMap_singleton]
    rfl
  · rw [if_neg hs, decide_eq_false (Ne.symm hs), cond_false]
    rfl

namespace Lexicon.Census

variable {l m : Lexicon} {vs : Array (Vertex α)}

theorem empty : Census {} (#[] : Array (Vertex α)) where
  wellFormed := .empty
  texts h := absurd h (by simp)
  count s i := rfl

theorem push (h : l.Census vs) {v : Vertex α} (hv : l.Records m v.side v.tokens v.pretty.tokens) :
    m.Census (vs.push v) where
  wellFormed := hv.wellFormed
  texts hu := by
    rcases Array.mem_push.mp hu with hu | rfl
    · exact hv.map_text? (h.texts hu)
    · exact hv.texts
  count s i := by
    rw [hv.count, h.count, Vertex.tokensOn_push, List.count_append]
    split <;> rfl

/-- What happens to a vertex after it was created does not matter. -/
theorem asBorn_iff : l.Census (vs.map Vertex.asBorn) ↔ l.Census vs := by
  have hon (s : Side) : Vertex.tokensOn (vs.map Vertex.asBorn) s = Vertex.tokensOn vs s := by
    rw [Vertex.tokensOn, Array.toList_map, List.filter_map, List.flatMap_map]
    rfl
  constructor
  · intro h
    refine ⟨h.wellFormed, ?_, ?_⟩
    · intro v hv
      exact h.texts (v := v.asBorn) (Array.mem_map_of_mem hv)
    · intro s i
      rw [h.count, hon]
  · intro h
    refine ⟨h.wellFormed, ?_, ?_⟩
    · intro v hv
      obtain ⟨u, hu, rfl⟩ := Array.mem_map.mp hv
      exact h.texts (v := u) hu
    · intro s i
      rw [h.count, hon]

theorem exists_text? (h : l.Census vs) {v : Vertex α} (hv : v ∈ vs) {i : Nat} (hi : i ∈ v.tokens) :
    ∃ text, l.text? i = some text := by
  obtain ⟨text, -, htext⟩ := List.mem_map.mp (h.texts hv ▸ List.mem_map_of_mem hi)
  exact ⟨text, htext.symm⟩

end Lexicon.Census

namespace Exploration

theorem census_rooted (config : Config α) (lhs rhs : Term α) :
    (rooted config lhs rhs : Exploration α τ π).lexicon.Census
      (rooted config lhs rhs : Exploration α τ π).vertices.items := by
  have hl := Lexicon.WellFormed.empty.records_recordAll .left lhs.pretty.tokens
  have hr := hl.wellFormed.records_recordAll .right rhs.pretty.tokens
  exact (Lexicon.Census.empty.push hl).push hr

theorem lexicon_grow (x : Exploration α τ π) (p : Vertex α) (t : Term α) (use : RuleUse)
    (recipe : Option τ) :
    (x.grow p t use recipe).2.2.lexicon = (x.lexicon.intern p.side t.pretty).2 := rfl

variable {e : Engine σ α τ π} {config : Config α} {lhs rhs : Term α} {x y : Exploration α τ π}
  {f g : Option Nat}

/-- **Every move keeps the census.** -/
theorem Move.census (hm : Move e x f y g) (h : x.lexicon.Census x.skeleton.vertices) :
    y.lexicon.Census y.skeleton.vertices := by
  cases hm with
  | take _ hnext =>
    rw [skeleton_next hnext, (next_eq hnext).2]
    exact h
  | dry _ hnext =>
    rw [skeleton_next hnext, (next_eq hnext).2]
    exact h
  | fail _ _ _ => exact h
  | @close v _ _ hv _ =>
    rw [skeleton_put (x := x.spend) (v := { v with visited := true }) hv rfl]
    exact h
  | @grow v _ r _ hv _ hnew =>
    have hlt : v.id < (x.spend.advance v r.next).vertices.size :=
      (Array.getElem?_eq_some_iff.mp (getElem?_advance_self hv)).1
    rw [lexicon_grow,
      skeleton_grow (x := x.spend.advance v r.next) (p := { v with cursor := r.next })
      hnew hlt, skeleton_advance (x := x.spend) hv]
    exact h.push (h.wellFormed.records_recordAll v.side r.term.pretty.tokens)
  | @discard v w _ r _ hv _ _ _ _ =>
    rw [skeleton_discard, skeleton_advance (x := x.spend) hv]
    exact h
  | @meet v w _ r _ hv _ _ hw hside =>
    rw [skeleton_meet hv hw hside]
    exact h

theorem Reached.census (h : Reached e config lhs rhs x f) : x.lexicon.Census x.vertices.items := by
  refine Lexicon.Census.asBorn_iff.mp ?_
  induction h with
  | start => exact Lexicon.Census.asBorn_iff.mpr (census_rooted config lhs rhs)
  | move _ hm ih => exact hm.census ih

end Exploration

namespace Search

/-- **Token frequencies are what the trees contain.** However many steps a search has made, with any
engine and key: the ids that a vertex keeps are issued, their texts are the tokens of the vertex in
order, and every token of the lexicon stands at its own id and was counted on either side as often
as its id occurs at the vertices of that side. -/
theorem stepped_census {e : Engine σ α τ π} {config : Config α} {lhs rhs : Term α}
    {search : Search α τ π} (h : Stepped e config lhs rhs search) {x : Exploration α τ π}
    (hx : search.graph? = some x) :
    (∀ v ∈ x.vertices.items, (∀ i ∈ v.tokens, i < x.lexicon.size) ∧
      v.tokens.map (fun i ↦ x.lexicon.items[i]?.map Token.text) = v.pretty.tokens.map some) ∧
    ∀ (i : Nat) (t : Token), x.lexicon.items[i]? = some t → t.id = i ∧
      ∀ s : Side, t.countOn s
        = ((x.vertices.items.toList.filter (·.side = s)).flatMap Vertex.tokens).count i := by
  cases search with
  | idle | agreed => exact absurd hx (by simp [graph?])
  | exploring y focus =>
    obtain rfl : y = x := Option.some.inj hx
    have hcensus := h.reached.2.census
    refine ⟨?_, ?_⟩
    · intro v hv
      refine ⟨?_, hcensus.texts hv⟩
      intro i hi
      obtain ⟨text, htext⟩ := hcensus.exists_text? hv hi
      exact Lexicon.lt_size_of_text? htext
    · intro i t ht
      refine ⟨hcensus.wellFormed.id ht, ?_⟩
      intro s
      rw [← Lexicon.count_of ht]
      exact hcensus.count s i

/-- One step adds a vertex whose three tokens are the same, and known from the left root. -/
theorem stepped_census_oneRule :
    let rules : List Rule := [{ name := utf8 "abb", lhs := utf8 "a", rhs := utf8 "b b" }]
    let first : Search Payload Recipe Evidence :=
      (start {} (.ofText (utf8 "a b")) (.ofText (utf8 "c"))).1
    let second := (first.step (.ofRules rules) 0 {}).search
    ∃ x, second.graph? = some x ∧
      x.vertices.items.map (·.tokens) = #[[0, 1], [2], [1, 1, 1]] ∧
      (∀ v ∈ x.vertices.items,
        v.tokens.map (fun i ↦ x.lexicon.items[i]?.map Token.text) = v.pretty.tokens.map some) ∧
      ∃ t, x.lexicon.items[1]? = some t ∧ t.text = utf8 "b" ∧ t.left = 4 ∧
        t.countOn .left
          = ((x.vertices.items.toList.filter (·.side = .left)).flatMap Vertex.tokens).count 1 := by
  intro rules first second
  have hfirst : Stepped (.ofRules rules) {} (.ofText (utf8 "a b")) (.ofText (utf8 "c")) first :=
    .start
  have hrun : second.graph?.map (fun x ↦ (x.vertices.items.map (·.tokens), x.lexicon.items[1]?))
      = some (#[[0, 1], [2], [1, 1, 1]], some { id := 1, text := utf8 "b", left := 4 }) := by
    decide +kernel
  obtain ⟨x, hx, hgraph⟩ := Option.map_eq_some_iff.mp hrun
  obtain ⟨htokens, hb⟩ := Prod.mk.inj hgraph
  obtain ⟨htexts, hcounts⟩ := stepped_census (hfirst.step 0 {}) hx
  exact ⟨x, hx, htokens, fun v hv ↦ (htexts v hv).2, _, hb, rfl, rfl, (hcounts 1 _ hb).2 .left⟩

end Search

end Joinability
