import Joinability.Proofs.Search.Step

/-!
# Searches that differ in their limits

The limits of a search say when it stops and nothing else. So two searches that differ in their
limits, and in the number of steps that they have counted, do the same as long as neither stops. A
`Shift` is such a difference. Every operation of an exploration commutes with it, and so does a step
that finds the same vertex in focus and gets the same answer for it (`Exploration.Asks.shift`,
`Exploration.expand_shift`).

The two engines need not be the same. All that matters is what they answer for this vertex.
-/

namespace Joinability

variable {σ ρ α τ π : Type}

/-- A difference in limits and in the number of steps counted. It leaves the key alone, and a
frontier takes in a vertex in the same way before and after it. -/
structure Shift (α : Type) where
  /-- The other settings. -/
  config : Config α → Config α
  /-- The frontier with the other bound. -/
  frontier : Frontier Nat → Frontier Nat
  /-- How many more steps were counted. -/
  steps : Nat
  key_config (c : Config α) : (config c).key = c.key
  frontier_enqueue (f : Frontier Nat) (score : Unit → Nat) (v d : Nat) :
    frontier (f.enqueue score v d) = (frontier f).enqueue score v d

variable (S : Shift α)

namespace Exploration

/-- The exploration under the other limits. -/
def shift (x : Exploration α τ π) : Exploration α τ π :=
  { x with
    config := S.config x.config
    frontier := S.frontier x.frontier
    stats := { x.stats with steps := S.steps + x.stats.steps } }

variable (x : Exploration α τ π)

theorem put_shift (v : Vertex α) : (x.shift S).put v = (x.put v).shift S := rfl

theorem advance_shift (v : Vertex α) (next : Nat) :
    (x.shift S).advance v next = (x.advance v next).shift S := rfl

theorem find?_shift (t : Term α) : (x.shift S).find? t = x.find? t := by
  rw [find?, find?, findId?, findId?, show (x.shift S).config.key = x.config.key from
    S.key_config x.config]
  rfl

theorem enqueue_shift (v : Vertex α) : (x.shift S).enqueue v = (x.enqueue v).shift S := by
  have h := S.frontier_enqueue x.frontier (fun _ ↦ x.estimate v) v.id v.depth
  show _ = { x.shift S with
    frontier := S.frontier (x.frontier.enqueue (fun _ ↦ x.estimate v) v.id v.depth) }
  rw [h]
  rfl

theorem addVertex_shift (t : Term α) (side : Side) (isRoot : Bool) (depth : Nat) :
    (x.shift S).addVertex t side isRoot depth =
      ((x.addVertex t side isRoot depth).1, (x.addVertex t side isRoot depth).2.shift S) := by
  unfold addVertex
  rw [show (x.shift S).config.key = x.config.key from S.key_config x.config]
  cases side <;> rfl

theorem link_shift (source target : Nat) (use : RuleUse) (recipe : Option τ) :
    (x.shift S).link source target use recipe =
      ((x.link source target use recipe).1, (x.link source target use recipe).2.shift S) := rfl

theorem grow_eq (p : Vertex α) (t : Term α) (use : RuleUse) (recipe : Option τ) :
    x.grow p t use recipe =
      let added := x.addVertex t p.side false (depthBelow p.depth)
      let linked := added.2.link p.id added.1.id use recipe
      let child := { added.1 with parentEdge := some linked.1.id, adjacency := [linked.1.id] }
      (child, linked.1, (linked.2.put child).enqueue child) := rfl

theorem grow_shift (p : Vertex α) (t : Term α) (use : RuleUse) (recipe : Option τ) :
    ((x.shift S).grow p t use recipe).2.2 = (x.grow p t use recipe).2.2.shift S := by
  simp only [grow_eq, addVertex_shift, link_shift, put_shift, enqueue_shift]

theorem createRoots_shift (lhs rhs : Term α) :
    ((x.shift S).createRoots lhs rhs).2.2 = (x.createRoots lhs rhs).2.2.shift S := by
  unfold createRoots
  simp only [addVertex_shift, enqueue_shift]

end Exploration

/-- The search under the other limits. -/
def Search.shift (search : Search α τ π) : Search α τ π :=
  match search with
  | .exploring x focus => .exploring (x.shift S) focus
  | other => other

namespace Exploration

variable {S} {e : Engine σ α τ π} {e' : Engine ρ α τ π} {x y : Exploration α τ π} {v : Vertex α}
  {focus : Option Nat} {elapsed elapsed' : Nat} {ending : Ending} {entries : List (Entry α)}

theorem absorb_shift (x : Exploration α τ π) (v : Vertex α) (r : Reduct α τ) :
    ((x.shift S).absorb v r).1 = (x.absorb v r).1 ∧
      ((x.shift S).absorb v r).2.1 = (x.absorb v r).2.1.shift S := by
  rw [absorb_eq, absorb_eq, advance_shift, find?_shift]
  split
  · exact ⟨rfl, congrArg (Search.exploring · _) (grow_shift S _ _ _ _ _)⟩
  · split <;> exact ⟨rfl, rfl⟩

/-- **Expanding a vertex commutes with a shift**, for engines that answer the same for it. -/
theorem expand_shift (hv : x.vertices.items[v.id]? = some v) {s : σ} {s' : ρ}
    (h : (e'.tryNext v v.cursor s').1 = (e.tryNext v v.cursor s).1) :
    ((x.shift S).expand e' v.id s').answer = (x.expand e v.id s).answer ∧
      ((x.shift S).expand e' v.id s').search = (x.expand e v.id s).search.shift S := by
  have hv' : (x.shift S).vertices.items[v.id]? = some v := hv
  rw [expand_eq hv, expand_eq hv']
  rcases htry : e.tryNext v v.cursor s with ⟨answer, t⟩
  rcases htry' : e'.tryNext v v.cursor s' with ⟨answer', t'⟩
  rw [htry, htry'] at h
  obtain rfl : answer' = answer := h
  rcases answer' with fault | _ | r
  · exact ⟨rfl, rfl⟩
  · exact ⟨rfl, rfl⟩
  · obtain ⟨houtcome, hsearch⟩ := absorb_shift (S := S) x.spend v r
    exact ⟨congrArg Except.ok houtcome, hsearch⟩

/-- A frontier that hands out the same under the other limits leaves the same behind. -/
theorem exists_next_shift {i : Option Nat} (h : x.next = (i, y, entries))
    (hfront : x.frontier.next = (i, y.frontier) →
      (S.frontier x.frontier).next = (i, S.frontier y.frontier)) :
    ∃ later, (x.shift S).next = (i, y.shift S, later) := by
  obtain ⟨hnext, hy⟩ := next_eq h
  have hshift : (x.shift S).frontier.next = (i, S.frontier y.frontier) := hfront hnext
  rcases hx : (x.shift S).next with ⟨j, z, later⟩
  obtain ⟨hnext', hz⟩ := next_eq hx
  obtain ⟨rfl, hzy⟩ := Prod.mk.inj (hnext'.symm.trans hshift)
  refine ⟨later, ?_⟩
  rw [hz, hzy, hy]
  rfl

/-- A step that asks for a vertex asks for it under the other limits as well, unless these are
spent. -/
theorem Asks.exists_shift (h : x.Asks focus elapsed y v entries) (elapsed' : Nat)
    (hspent : x.meeting = none → x.isSpent elapsed = false →
      (x.shift S).isSpent elapsed' = false)
    (hfront : x.meeting = none → x.frontier.next = (some v.id, y.frontier) →
      (S.frontier x.frontier).next = (some v.id, S.frontier y.frontier)) :
    ∃ later, (x.shift S).Asks focus elapsed' (y.shift S) v later := by
  cases h with
  | kept hmeet hleft hfocus hv => exact ⟨_, .kept hmeet (hspent hmeet hleft) hfocus hv⟩
  | taken hmeet hleft hfocus hnext hv hvis =>
    obtain ⟨later, hlater⟩ := exists_next_shift hnext (hfront hmeet)
    exact ⟨_, .taken hmeet (hspent hmeet hleft) hfocus hlater hv hvis⟩

/-- A step that finds that the sides have met, or that nothing is left to expand, finds the same
under the other limits. -/
theorem Halts.exists_shift (h : x.Halts focus elapsed ending y entries) (elapsed' : Nat)
    (hending : ending ≠ .aborted)
    (hspent : x.meeting = none → x.isSpent elapsed = false →
      (x.shift S).isSpent elapsed' = false)
    (hfront : x.meeting = none → ending = .exhausted → x.frontier.next = (none, y.frontier) →
      (S.frontier x.frontier).next = (none, S.frontier y.frontier)) :
    ∃ later, (x.shift S).Halts focus elapsed' ending (y.shift S) later := by
  cases h with
  | met hmeet => exact ⟨_, .met hmeet⟩
  | spent _ _ => exact absurd rfl hending
  | dry hmeet hleft hfocus hnext =>
    obtain ⟨later, hlater⟩ := exists_next_shift hnext (hfront hmeet rfl)
    exact ⟨_, .dry hmeet (hspent hmeet hleft) hfocus hlater⟩

theorem Asks.step_shift {x' : Exploration α τ π} {focus' : Option Nat} {later : List (Entry α)}
    (h : x.Asks focus elapsed y v entries) (h' : x'.Asks focus' elapsed' (y.shift S) v later)
    (e : Engine σ α τ π) (e' : Engine ρ α τ π) (s : σ) (s' : ρ)
    (htry : (e'.tryNext v v.cursor s').1 = (e.tryNext v v.cursor s).1) :
    ((Search.exploring x' focus').step e' elapsed' s').answer
        = ((Search.exploring x focus).step e elapsed s).answer ∧
      ((Search.exploring x' focus').step e' elapsed' s').search
        = ((Search.exploring x focus).step e elapsed s).search.shift S := by
  rw [h.step_eq, h'.step_eq]
  exact expand_shift h.getElem? htry

end Exploration

end Joinability
