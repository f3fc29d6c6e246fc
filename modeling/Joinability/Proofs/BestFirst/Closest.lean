import Mathlib.Data.Prod.Lex
import Joinability.Engine.Rules
import Joinability.Proofs.Search.Record
import Joinability.Proofs.Tokens.Census
import Joinability.Proofs.Tokens.EditDistance

/-!
# The closest vertex first

A best-first search expands the vertex whose tokens are closest to those of the root of the other
side, and among equals the oldest one. `Vertex.gap` is how far away a vertex is. It is a property of
two terms that never change, and the estimates of a search are gaps
(`Exploration.Reached.estimate_eq`), because the lexicon gives equal tokens equal ids at all times
and on both sides.

A score is therefore as good when the vertex is handed out as it was when the vertex arrived. The
frontier places every arrival behind its equals, and so it stands in the lexicographic order of gaps
and ids (`BestFirst.Orders`). What the depth bound turns away does not wait, and does not disturb
the order.
-/

namespace Joinability

variable {σ α τ π : Type}

/-- The Levenshtein distance of the tokens of a vertex from those of the root of the other side. -/
def Vertex.gap (lhs rhs : Term α) (v : Vertex α) : Nat :=
  levenshtein v.pretty.tokens (v.side.opposite.pick lhs rhs).pretty.tokens

/-! ## Estimates -/

/-- Ids are as far apart as the texts for which they stand. -/
theorem Lexicon.Census.levenshtein_eq {l : Lexicon} {vs : Array (Vertex α)} (h : l.Census vs)
    {v w : Vertex α} (hv : v ∈ vs) (hw : w ∈ vs) :
    levenshtein v.tokens w.tokens = levenshtein v.pretty.tokens w.pretty.tokens := by
  have hinj : ∀ i ∈ v.tokens, ∀ j ∈ w.tokens, l.text? i = l.text? j → i = j := by
    intro i hi j _ hij
    obtain ⟨text, htext⟩ := h.exists_text? hv hi
    exact h.wellFormed.eq_of_text? htext (hij ▸ htext)
  calc levenshtein v.tokens w.tokens
      = levenshtein (v.tokens.map l.text?) (w.tokens.map l.text?) := (levenshtein_map _ _ hinj).symm
    _ = levenshtein (v.pretty.tokens.map some) (w.pretty.tokens.map some) := by
      rw [h.texts hv, h.texts hw]
    _ = levenshtein v.pretty.tokens w.pretty.tokens :=
      levenshtein_map _ _ fun _ _ _ _ ↦ Option.some.inj

namespace Exploration

variable {e : Engine σ α τ π} {config : Config α} {lhs rhs : Term α} {x : Exploration α τ π}
  {f : Option Nat} {v w : Vertex α}

theorem Reached.gap_eq (h : Reached e config lhs rhs x f) (hv : v ∈ x.vertices.items)
    (hw : x.vertices.items[v.side.opposite.root]? = some w) :
    levenshtein v.tokens w.tokens = v.gap lhs rhs := by
  obtain ⟨u, hu, hroot⟩ := h.exists_root v.side.opposite
  have hterm : w.term = v.side.opposite.pick lhs rhs := by
    rw [← hroot.term, Option.some.inj (hu.symm.trans (getElem?_skeleton_of hw)), Vertex.term_asBorn]
  rw [h.census.levenshtein_eq hv (Array.mem_of_getElem? hw), Vertex.gap, ← hterm]
  rfl

/-- **A search estimates gaps**, whenever it does so. -/
theorem Reached.estimate_eq (h : Reached e config lhs rhs x f) (hv : v ∈ x.vertices.items) :
    x.estimate v = v.gap lhs rhs := by
  obtain ⟨u, hu, -⟩ := h.exists_root v.side.opposite
  obtain ⟨w, hw, -⟩ := exists_of_getElem?_skeleton hu
  rw [estimate, hw]
  exact (editDistance_eq _ _).trans (h.gap_eq hv hw)

end Exploration

/-! ## Sorted frontiers -/

/-- What a best-first frontier compares: the scores, and then the ids. -/
def Scored.key (a : Scored Nat) : ℕ ×ₗ ℕ := toLex (a.score, a.vertex)

namespace BestFirst

/-- A vertex that is younger than all others finds its place behind its equals, so the order of ids
is kept among them. -/
theorem place_sorted {a : Scored Nat} {l : List (Scored Nat)}
    (hl : l.Pairwise fun b c ↦ b.key < c.key) (ha : ∀ b ∈ l, b.vertex < a.vertex) :
    (place a l).Pairwise fun b c ↦ b.key < c.key := by
  have hlower (b : Scored Nat) (_ : b ∈ l) (hlt : a.score < b.score) : a.key < b.key :=
    Prod.Lex.toLex_lt_toLex.mpr (Or.inl hlt)
  have hequal (b : Scored Nat) (hb : b ∈ l) (hle : ¬a.score < b.score) : b.key < a.key := by
    refine Prod.Lex.toLex_lt_toLex.mpr ?_
    rcases Nat.lt_or_eq_of_le (Nat.le_of_not_lt hle) with hlt | heq
    · exact Or.inl hlt
    · exact Or.inr ⟨heq, ha b hb⟩
  obtain ⟨w, hw, -, hsorted⟩ := exists_place (R := fun b c : Scored Nat ↦ b.key < c.key) id
    (fun hab hbc ↦ lt_trans hab hbc) hl hlower hequal
  rw [List.map_id, List.map_id] at hw
  exact hw ▸ hsorted

/-- The frontier has the vertices in the order of their gaps and ids. -/
structure Orders (lhs rhs : Term α) (vs : Array (Vertex α)) (q : BestFirst Nat) : Prop where
  sorted : q.waiting.Pairwise fun a b ↦ a.key < b.key
  score {a : Scored Nat} : a ∈ q.waiting → ∃ v, vs[a.vertex]? = some v ∧ a.score = v.gap lhs rhs

namespace Orders

variable {lhs rhs : Term α} {vs ws : Array (Vertex α)} {q r : BestFirst Nat}

theorem lt_size (h : q.Orders lhs rhs vs) {i : Nat} (hi : i ∈ q.toList) : i < vs.size := by
  obtain ⟨a, ha, rfl⟩ := List.mem_map.mp hi
  obtain ⟨v, hv, -⟩ := h.score ha
  exact (Array.getElem?_eq_some_iff.mp hv).1

theorem enqueue (h : q.Orders lhs rhs vs) (score : Unit → Nat) {i : Nat} (depth : Nat)
    {v : Vertex α} (hi : ∀ j ∈ q.toList, j < i) (hv : vs[i]? = some v)
    (hscore : score () = v.gap lhs rhs) : (q.enqueue score i depth).Orders lhs rhs vs := by
  rw [BestFirst.enqueue]
  split
  · exact ⟨h.sorted, h.score⟩
  · refine ⟨place_sorted h.sorted fun b hb ↦ hi _ (List.mem_map_of_mem hb), ?_⟩
    intro a ha
    rcases List.mem_cons.mp ((place_perm _ _).mem_iff.mp ha) with rfl | ha
    · exact ⟨v, hv, hscore⟩
    · exact h.score ha

theorem next (h : q.Orders lhs rhs vs) {i : Option Nat} (hnext : q.next = (i, r)) :
    r.Orders lhs rhs vs := by
  unfold BestFirst.next at hnext
  split at hnext
  · obtain ⟨-, rfl⟩ := Prod.mk.inj hnext
    exact h
  · next a rest hwaiting =>
    obtain ⟨-, rfl⟩ := Prod.mk.inj hnext
    have hsorted := h.sorted
    rw [hwaiting, List.pairwise_cons] at hsorted
    exact ⟨hsorted.2, fun ha ↦ h.score (hwaiting ▸ List.mem_cons_of_mem a ha)⟩

/-- What is handed out comes first. -/
theorem exists_of_next (h : q.Orders lhs rhs vs) {i : Nat} (hnext : q.next = (some i, r)) :
    ∃ a ∈ q.waiting, a.vertex = i ∧ ∀ b ∈ q.waiting, a.key ≤ b.key := by
  unfold BestFirst.next at hnext
  split at hnext
  · exact absurd (Prod.mk.inj hnext).1 (by simp)
  · next a rest hwaiting =>
    have hsorted := h.sorted
    rw [hwaiting, List.pairwise_cons] at hsorted
    rw [hwaiting]
    refine ⟨a, List.mem_cons_self, Option.some.inj (Prod.mk.inj hnext).1, ?_⟩
    intro b hb
    rcases List.mem_cons.mp hb with rfl | hb
    · exact le_refl _
    · exact (hsorted.1 b hb).le

theorem mono (h : q.Orders lhs rhs vs)
    (hext : ∀ {i : Nat} {v : Vertex α}, vs[i]? = some v → ws[i]? = some v) :
    q.Orders lhs rhs ws where
  sorted := h.sorted
  score ha := by
    obtain ⟨v, hv, hscore⟩ := h.score ha
    exact ⟨v, hext hv, hscore⟩

end Orders

end BestFirst

/-! ## Along a search -/

namespace Exploration

variable {e : Engine σ α τ π} {config : Config α} {lhs rhs : Term α} {x y : Exploration α τ π}
  {f g : Option Nat}

theorem frontier_grow_eq (x : Exploration α τ π) (p : Vertex α) (t : Term α) (use : RuleUse)
    (recipe : Option τ) : (x.grow p t use recipe).2.2.frontier = x.frontier.enqueue
      (fun _ ↦ (x.grow p t use recipe).2.2.estimate (x.grow p t use recipe).1) x.vertices.size
      (depthBelow p.depth) := rfl

theorem frontier_rooted_eq (config : Config α) (lhs rhs : Term α) : ∃ left right : Vertex α,
    (rooted config lhs rhs : Exploration α τ π).vertices.items = #[left, right] ∧
      (rooted config lhs rhs : Exploration α τ π).frontier
        = ((Frontier.ofStrategy config.strategy config.maxDepth).enqueue
            (fun _ ↦ (rooted config lhs rhs : Exploration α τ π).estimate left) 0 0).enqueue
            (fun _ ↦ (rooted config lhs rhs : Exploration α τ π).estimate right) 1 0 :=
  ⟨_, _, rfl, rfl⟩

/-- The roots wait in the order of their gaps. -/
theorem orders_rooted (e : Engine σ α τ π) (hbest : config.strategy = .bestFirst)
    (lhs rhs : Term α) :
    ∃ q, (rooted config lhs rhs : Exploration α τ π).frontier = .bestFirst q ∧
      q.Orders lhs rhs (rooted config lhs rhs : Exploration α τ π).skeleton.vertices := by
  have hstart : Reached e config lhs rhs (rooted config lhs rhs) none := .start
  obtain ⟨left, right, hitems, hfront⟩ := frontier_rooted_eq (τ := τ) (π := π) config lhs rhs
  have hleft : (rooted config lhs rhs : Exploration α τ π).vertices.items[0]? = some left := by
    rw [hitems]
    rfl
  have hright : (rooted config lhs rhs : Exploration α τ π).vertices.items[1]? = some right := by
    rw [hitems]
    rfl
  rw [hbest] at hfront
  refine ⟨_, hfront, ?_⟩
  have hempty : ({ maxDepth := config.maxDepth } : BestFirst Nat).Orders lhs rhs
      (rooted config lhs rhs : Exploration α τ π).skeleton.vertices :=
    ⟨List.Pairwise.nil, fun ha ↦ absurd ha List.not_mem_nil⟩
  refine (hempty.enqueue _ 0 (fun j hj ↦ absurd hj List.not_mem_nil) (getElem?_skeleton_of hleft)
    (hstart.estimate_eq (Array.mem_of_getElem? hleft))).enqueue _ 0 ?_ (getElem?_skeleton_of hright)
    (hstart.estimate_eq (Array.mem_of_getElem? hright))
  intro j hj
  rcases (BestFirst.mem_toList_enqueue _ _ 0 0).mp hj with hj | ⟨rfl, -⟩
  · exact absurd hj List.not_mem_nil
  · exact Nat.one_pos

theorem Reached.orders (hbest : config.strategy = .bestFirst) (h : Reached e config lhs rhs x f) :
    ∃ q, x.frontier = .bestFirst q ∧ q.Orders lhs rhs x.skeleton.vertices := by
  induction h with
  | start => exact orders_rooted e hbest lhs rhs
  | @move x y f g h hm ih =>
    obtain ⟨q, hq, horders⟩ := ih
    have hy := h.move hm
    have hext := hm.growth.extends
    cases hm with
    | take _ hnext | dry _ hnext =>
      obtain ⟨r, hr, hfront⟩ := Frontier.exists_next_bestFirst (hq ▸ (next_eq hnext).1)
      rw [skeleton_next hnext]
      exact ⟨r, hfront, horders.next hr⟩
    | fail | close | discard | meet => exact ⟨q, hq, horders.mono hext.vertex⟩
    | @grow v s r _ hv _ _ =>
      have hlt : v.id < (x.spend.advance v r.next).vertices.size :=
        (Array.getElem?_eq_some_iff.mp (getElem?_advance_self hv)).1
      have hchild := getElem?_grow (p := { v with cursor := r.next }) hlt r.term r.use r.recipe
        (x.spend.advance v r.next).vertices.size
      rw [if_pos rfl] at hchild
      refine ⟨_, (frontier_grow_eq _ _ _ _ _).trans (congrArg (Frontier.enqueue · _ _ _) hq), ?_⟩
      refine (horders.mono hext.vertex).enqueue _ _ ?_ (getElem?_skeleton_of hchild)
        (hy.estimate_eq (Array.mem_of_getElem? hchild))
      intro j hj
      have hj := horders.lt_size hj
      rw [size_vertices_skeleton] at hj
      rwa [show (x.spend.advance v r.next).vertices.size = x.vertices.size from
        Vertices.size_update _ _ _]

/-- The vertex that the frontier hands out comes first in the order of gaps and ids. -/
theorem Reached.le_of_next (hbest : config.strategy = .bestFirst) (h : Reached e config lhs rhs x f)
    {i : Nat} {entries : List (Entry α)} (hnext : x.next = (some i, y, entries)) :
    i ∈ x.frontier.toList ∧ ∃ v, x.vertices.items[i]? = some v ∧
      ∀ j ∈ x.frontier.toList, ∀ w, x.vertices.items[j]? = some w →
        toLex (v.gap lhs rhs, i) ≤ toLex (w.gap lhs rhs, j) := by
  obtain ⟨q, hq, horders⟩ := h.orders hbest
  obtain ⟨r, hr, -⟩ := Frontier.exists_next_bestFirst (hq ▸ (next_eq hnext).1)
  obtain ⟨a, ha, rfl, hfirst⟩ := horders.exists_of_next hr
  have hkey {b : Scored Nat} (hb : b ∈ q.waiting) {w : Vertex α}
      (hw : x.vertices.items[b.vertex]? = some w) : b.key = toLex (w.gap lhs rhs, b.vertex) := by
    obtain ⟨u, hu, hscore⟩ := horders.score hb
    rw [Scored.key, hscore, Option.some.inj (hu.symm.trans (getElem?_skeleton_of hw))]
    rfl
  obtain ⟨u, hu, -⟩ := horders.score ha
  obtain ⟨v, hv, -⟩ := exists_of_getElem?_skeleton hu
  rw [hq]
  refine ⟨List.mem_map_of_mem ha, v, hv, ?_⟩
  intro j hj w hw
  obtain ⟨b, hb, rfl⟩ := List.mem_map.mp hj
  rw [← hkey ha hv, ← hkey hb hw]
  exact hfirst b hb

end Exploration

namespace Search

/-- **A best-first search expands the closest vertex.** However many steps it has made, with any
engine, key and limits: the score of every vertex that waits is what its estimate is now, the
Levenshtein distance of its tokens from those of the root of the other side, be they taken as texts
or as ids. The vertex that a step takes from the frontier comes first among all that wait, in the
lexicographic order of that distance and of ids. -/
theorem stepped_takes_closest {e : Engine σ α τ π} {config : Config α}
    (hbest : config.strategy = .bestFirst) {lhs rhs : Term α} {x : Exploration α τ π}
    {focus : Option Nat} (h : Stepped e config lhs rhs (.exploring x focus)) :
    (∃ q, x.frontier = .bestFirst q ∧ ∀ a ∈ q.waiting, ∃ v, x.vertices.items[a.vertex]? = some v ∧
      a.score = x.estimate v ∧ x.estimate v = v.gap lhs rhs) ∧
    (∀ v ∈ x.vertices.items, ∀ w, x.vertices.items[v.side.opposite.root]? = some w →
      levenshtein v.tokens w.tokens = v.gap lhs rhs) ∧
    ∀ (elapsed : Nat), ∀ i ∈ (Search.exploring x focus).handedOut elapsed,
      i ∈ x.frontier.toList ∧ ∃ v, x.vertices.items[i]? = some v ∧
        ∀ j ∈ x.frontier.toList, ∀ w, x.vertices.items[j]? = some w →
          toLex (v.gap lhs rhs, i) ≤ toLex (w.gap lhs rhs, j) := by
  obtain ⟨hne, hreach⟩ := h.reached
  obtain ⟨q, hq, horders⟩ := hreach.orders hbest
  refine ⟨⟨q, hq, ?_⟩, fun v hv w hw ↦ hreach.gap_eq hv hw, ?_⟩
  · intro a ha
    obtain ⟨u, hu, hscore⟩ := horders.score ha
    obtain ⟨v, hv, rfl⟩ := Exploration.exists_of_getElem?_skeleton hu
    have hestimate := hreach.estimate_eq (Array.mem_of_getElem? hv)
    exact ⟨v, hv, hscore.trans hestimate.symm, hestimate⟩
  · intro elapsed i hi
    rcases (hreach.orderly hne).halts_or_asks elapsed with
      ⟨ending, y, entries, hhalts⟩ | ⟨y, v, entries, hasks⟩
    · rw [hhalts.handedOut_eq_nil] at hi
      exact absurd hi List.not_mem_nil
    · rw [hasks.handedOut_eq] at hi
      cases hasks with
      | kept _ _ hfocus _ =>
        rw [hfocus, if_neg (by simp)] at hi
        exact absurd hi List.not_mem_nil
      | taken _ _ hfocus hnext _ _ =>
        rw [if_pos hfocus, List.mem_singleton] at hi
        rw [hi]
        exact hreach.le_of_next hbest hnext

/-- Three steps expand the left root. Of its two reducts the later one is closer to the right root,
and it is taken before everything that came earlier. -/
theorem stepped_takes_closest_later :
    let rules : List Rule := [{ name := utf8 "ab", lhs := utf8 "a", rhs := utf8 "b" },
      { name := utf8 "ac", lhs := utf8 "a", rhs := utf8 "c" }]
    let config : Config Payload := { strategy := .bestFirst }
    let lhs := Term.ofText (utf8 "a")
    let rhs := Term.ofText (utf8 "c d")
    let step (search : Search Payload Recipe Evidence) := (search.step (.ofRules rules) 0 {}).search
    let third := step (step (step (start config lhs rhs).1))
    ∃ x focus v, third = .exploring x focus ∧ third.handedOut 0 = [3] ∧
      x.frontier.toList = [3, 1, 2] ∧ x.vertices.items[3]? = some v ∧
      ∀ j ∈ x.frontier.toList, ∀ w, x.vertices.items[j]? = some w →
        toLex (v.gap lhs rhs, 3) ≤ toLex (w.gap lhs rhs, j) := by
  intro rules config lhs rhs step third
  have hstart : Stepped (.ofRules rules) config lhs rhs (start config lhs rhs).1 := .start
  have hthird : Stepped (.ofRules rules) config lhs rhs third :=
    ((hstart.step 0 {}).step 0 {}).step 0 {}
  have hhanded : third.handedOut 0 = [3] := by decide +kernel
  have hwaiting : third.graph?.map (fun x ↦ x.frontier.toList) = some [3, 1, 2] := by decide +kernel
  obtain ⟨x, focus, hx, -⟩ := hthird.exists_reached (by decide)
  rw [hx] at hthird hwaiting
  obtain ⟨-, -, hclosest⟩ := stepped_takes_closest rfl hthird
  obtain ⟨-, v, hv, hmin⟩ := hclosest 0 3 (by rw [← hx, hhanded]; exact List.mem_singleton_self 3)
  exact ⟨x, focus, v, hx, hhanded, Option.some.inj hwaiting, hv, hmin⟩

end Search

end Joinability
