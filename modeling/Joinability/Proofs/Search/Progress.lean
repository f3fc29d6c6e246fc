import Joinability.Proofs.Search.Move

/-!
# How far a search has come with each vertex

Apart from its skeleton and its frontier, all that matters of an exploration for what it does next
is how far it has come with each vertex: whether it was visited, and where its cursor stands.
`Effect` restates every move that leaves the sides apart in these terms, so that an invariant of
such a search is checked against six short cases and never against the records themselves.
-/

namespace Joinability

variable {σ α τ π : Type}

namespace Exploration

/-- Whether the vertex with an id was visited, and where its cursor stands. -/
def progress (x : Exploration α τ π) (i : Nat) : Option (Bool × Nat) :=
  x.vertices.items[i]?.map fun v ↦ (v.visited, v.cursor)

theorem progress_of {x : Exploration α τ π} {i : Nat} {v : Vertex α}
    (h : x.vertices.items[i]? = some v) : x.progress i = some (v.visited, v.cursor) := by
  rw [progress, h, Option.map_some]

theorem exists_of_progress {x : Exploration α τ π} {i : Nat} {p : Bool × Nat}
    (h : x.progress i = some p) :
    ∃ v, x.vertices.items[i]? = some v ∧ (v.visited, v.cursor) = p :=
  Option.map_eq_some_iff.mp h

theorem exists_progress {x : Exploration α τ π} {i : Nat} {v : Vertex α}
    (hv : x.skeleton.vertices[i]? = some v) : ∃ b c, x.progress i = some (b, c) := by
  obtain ⟨u, hu, -⟩ := exists_of_getElem?_skeleton hv
  exact ⟨_, _, progress_of hu⟩

theorem progress_put {x : Exploration α τ π} {v : Vertex α} (hv : v.id < x.vertices.size) :
    (x.put v).progress = Function.update x.progress v.id (some (v.visited, v.cursor)) := by
  funext i
  rw [progress, getElem?_put]
  by_cases hi : v.id = i
  · subst hi
    obtain ⟨u, hu⟩ : ∃ u, x.vertices.items[v.id]? = some u := ⟨_, Array.getElem?_eq_getElem hv⟩
    rw [if_pos rfl, Function.update_self, hu]
    rfl
  · rw [if_neg hi, Function.update_of_ne (Ne.symm hi)]
    rfl

theorem progress_grow {x : Exploration α τ π} {p : Vertex α} (hp : p.id < x.vertices.size)
    (t : Term α) (use : RuleUse) (recipe : Option τ) :
    (x.grow p t use recipe).2.2.progress
      = Function.update x.progress x.vertices.size (some (false, 0)) := by
  funext i
  rw [progress, getElem?_grow hp]
  by_cases hi : i = x.vertices.size
  · rw [if_pos hi, hi, Function.update_self]
    rfl
  · rw [if_neg hi, Function.update_of_ne hi, progress]
    split
    · rw [Option.map_map]
      rfl
    · rfl

theorem progress_rooted {config : Config α} {lhs rhs : Term α} {i c : Nat} {b : Bool}
    (h : (rooted config lhs rhs : Exploration α τ π).progress i = some (b, c)) :
    b = false ∧ c = 0 := by
  obtain ⟨v, hv, hvc⟩ := exists_of_progress h
  obtain ⟨s, -, hroot⟩ := isRootOf_of_getElem?_rooted hv
  rw [← hroot.asBorn] at hvc
  obtain ⟨hb, hc⟩ := Prod.mk.inj hvc
  exact ⟨hb.symm, hc.symm⟩

/-- What a move does to skeleton, progress and frontier, if the sides are still apart after it. -/
inductive Effect (e : Engine σ α τ π) (x : Exploration α τ π) :
    Option Nat → Exploration α τ π → Option Nat → Prop
  | take {y : Exploration α τ π} {i : Nat} (hskel : y.skeleton = x.skeleton)
      (hprog : y.progress = x.progress) (hfront : x.frontier.next = (some i, y.frontier)) :
      Effect e x none y (some i)
  | dry {y : Exploration α τ π} (hskel : y.skeleton = x.skeleton)
      (hprog : y.progress = x.progress) (hfront : x.frontier.next = (none, y.frontier)) :
      Effect e x none y none
  | fail {y : Exploration α τ π} {i : Nat} (hskel : y.skeleton = x.skeleton)
      (hprog : y.progress = x.progress) (hfront : y.frontier = x.frontier) :
      Effect e x (some i) y (some i)
  | close {y : Exploration α τ π} {v : Vertex α} {s : σ} (hskel : y.skeleton = x.skeleton)
      (hfront : y.frontier = x.frontier) (hv : x.vertices.items[v.id]? = some v)
      (htry : (e.tryNext v v.cursor s).1 = .ok none)
      (hprog : y.progress = Function.update x.progress v.id (some (true, v.cursor))) :
      Effect e x (some v.id) y none
  | grow {y : Exploration α τ π} {v : Vertex α} {s : σ} {r : Reduct α τ} (tokens : List Nat)
      (score : Unit → Nat) (hv : x.vertices.items[v.id]? = some v)
      (htry : (e.tryNext v v.cursor s).1 = .ok (some r)) (hnew : x.findId? r.term = none)
      (hskel : y.skeleton = x.skeleton.withChild v.asBorn r.term tokens r.use r.recipe)
      (hprog : y.progress = Function.update (Function.update x.progress v.id
        (some (v.visited, r.next))) x.vertices.size (some (false, 0)))
      (hfront : y.frontier = x.frontier.enqueue score x.vertices.size (depthBelow v.depth)) :
      Effect e x (some v.id) y (some v.id)
  | discard {y : Exploration α τ π} {v w : Vertex α} {s : σ} {r : Reduct α τ}
      (hv : x.vertices.items[v.id]? = some v)
      (htry : (e.tryNext v v.cursor s).1 = .ok (some r)) (hfind : x.findId? r.term = some w.id)
      (hw : x.vertices.items[w.id]? = some w) (hside : w.side = v.side)
      (hskel : y.skeleton = x.skeleton)
      (hprog : y.progress = Function.update x.progress v.id (some (v.visited, r.next)))
      (hfront : y.frontier = x.frontier) : Effect e x (some v.id) y (some v.id)

theorem Move.effect {e : Engine σ α τ π} {x y : Exploration α τ π} {f g : Option Nat}
    (hm : Move e x f y g) (hy : y.meeting = none) : Effect e x f y g := by
  cases hm with
  | take _ hnext =>
    obtain ⟨hfront, hyx⟩ := next_eq hnext
    exact .take (skeleton_next hnext) (by rw [hyx]; rfl) hfront
  | dry _ hnext =>
    obtain ⟨hfront, hyx⟩ := next_eq hnext
    exact .dry (skeleton_next hnext) (by rw [hyx]; rfl) hfront
  | fail _ _ _ => exact .fail rfl rfl rfl
  | @close v s _ hv htry =>
    refine .close ?_ rfl hv htry ?_
    · exact skeleton_put (x := x.spend) (v := { v with visited := true }) hv rfl
    · exact progress_put (x := x.spend) (v := { v with visited := true })
        (Array.getElem?_eq_some_iff.mp hv).1
  | @grow v s r hx hv htry hnew =>
    have hadv : (x.spend.advance v r.next).skeleton = x.skeleton :=
      skeleton_advance (x := x.spend) hv
    have hprog : (x.spend.advance v r.next).progress
        = Function.update x.progress v.id (some (v.visited, r.next)) :=
      progress_put (x := x.spend) (v := { v with cursor := r.next })
        (Array.getElem?_eq_some_iff.mp hv).1
    have hlt : v.id < (x.spend.advance v r.next).vertices.size :=
      (Array.getElem?_eq_some_iff.mp (getElem?_advance_self hv)).1
    have hsize : (x.spend.advance v r.next).vertices.size = x.vertices.size :=
      Vertices.size_update _ _ _
    obtain ⟨score, hfront⟩ := frontier_grow (x.spend.advance v r.next) { v with cursor := r.next }
      r.term r.use r.recipe
    refine .grow ((x.spend.advance v r.next).lexicon.intern v.side r.term.pretty).1 score hv htry
      hnew ?_ ?_ ?_
    · rw [skeleton_grow (x := x.spend.advance v r.next) (p := { v with cursor := r.next }) hnew hlt,
        hadv]
      rfl
    · rw [progress_grow (x := x.spend.advance v r.next) (p := { v with cursor := r.next }) hlt,
        hprog, hsize]
    · rw [hfront, hsize]
      rfl
  | @discard v w s r _ hv htry hfind hw hside =>
    refine .discard hv htry hfind hw hside ?_ ?_ rfl
    · exact skeleton_advance (x := x.spend) hv
    · exact progress_put (x := x.spend) (v := { v with cursor := r.next })
        (Array.getElem?_eq_some_iff.mp hv).1
  | meet => exact absurd hy (by simp [markMeeting])

end Exploration

end Joinability
