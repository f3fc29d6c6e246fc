import Mathlib.Logic.Function.Basic
import Mathlib.Tactic.Set
import Joinability.Search.Basic

/-!
# What a search never takes back

A search overwrites much of what it knows: cursors move on, vertices become visited, lists of
incident edges grow, the frontier changes with every vertex that is handed out. What it never
changes is the forest it has grown. `Exploration.skeleton` cuts an exploration down to that part,
and every operation of a search has one of three effects on it: none, one more child
(`Skeleton.withChild`), or the edge at which the sides meet (`Skeleton.withMeeting`).

Arrays of vertices are compared through `Vertex.asBorn`, which undoes everything that can happen to
a vertex after it was created.
-/

open Std

namespace Joinability

variable {σ α τ π : Type}

/-! ## Vertices as they were created -/

namespace Vertex

/-- The vertex without anything that happens to a vertex after it was created. -/
def asBorn (v : Vertex α) : Vertex α :=
  { v with visited := false, cursor := 0, outgoing := [], adjacency := [] }

@[simp] theorem id_asBorn (v : Vertex α) : v.asBorn.id = v.id := rfl

@[simp] theorem term_asBorn (v : Vertex α) : v.asBorn.term = v.term := rfl

@[simp] theorem side_asBorn (v : Vertex α) : v.asBorn.side = v.side := rfl

@[simp] theorem depth_asBorn (v : Vertex α) : v.asBorn.depth = v.depth := rfl

@[simp] theorem isRoot_asBorn (v : Vertex α) : v.asBorn.isRoot = v.isRoot := rfl

@[simp] theorem parentEdge_asBorn (v : Vertex α) : v.asBorn.parentEdge = v.parentEdge := rfl

@[simp] theorem pretty_asBorn (v : Vertex α) : v.asBorn.pretty = v.pretty := rfl

/-- The vertex with one more edge that leaves it. -/
def leave (edge : Nat) (use : RuleUse) (v : Vertex α) : Vertex α :=
  { v with adjacency := v.adjacency ++ [edge], outgoing := v.outgoing ++ [use] }

/-- The vertex with one more edge that leads to it. -/
def arrive (edge : Nat) (v : Vertex α) : Vertex α := { v with adjacency := v.adjacency ++ [edge] }

end Vertex

/-! ## Skeletons -/

/-- What a search never takes back. -/
structure Skeleton (α τ π : Type) where
  /-- The canonical key of a term. -/
  key : Term α → Text
  /-- The vertices as they were created. -/
  vertices : Array (Vertex α)
  /-- The edges. -/
  edges : Array (Edge τ π)
  /-- The vertex registered under a key. -/
  find : Text → Option Nat
  /-- The edge at which the two sides meet. -/
  meeting : Option Nat

namespace Skeleton

/-- The vertex that a term becomes below the vertex `p`. -/
def child (k : Skeleton α τ π) (p : Vertex α) (t : Term α) (tokens : List Nat) : Vertex α :=
  { id := k.vertices.size, term := t, tokens, side := p.side
    parentEdge := some k.edges.size, depth := depthBelow p.depth }

/-- The next edge. -/
def arc (k : Skeleton α τ π) (source target : Nat) (use : RuleUse) (recipe : Option τ) :
    Edge τ π :=
  { id := k.edges.size, source, target, use, proof := .ofRecipe? recipe }

/-- The skeleton with one more child below the vertex `p`. -/
def withChild (k : Skeleton α τ π) (p : Vertex α) (t : Term α) (tokens : List Nat) (use : RuleUse)
    (recipe : Option τ) : Skeleton α τ π :=
  { k with
    vertices := k.vertices.push (k.child p t tokens)
    edges := k.edges.push (k.arc p.id k.vertices.size use recipe)
    find := Function.update k.find (k.key t) (some k.vertices.size) }

/-- The skeleton with an edge at which the sides meet. -/
def withMeeting (k : Skeleton α τ π) (source target : Nat) (use : RuleUse) (recipe : Option τ) :
    Skeleton α τ π :=
  { k with
    edges := k.edges.push (k.arc source target use recipe)
    meeting := some k.edges.size }

end Skeleton

namespace Exploration

/-- The part of an exploration that is never taken back. -/
def skeleton (x : Exploration α τ π) : Skeleton α τ π :=
  { key := x.config.key
    vertices := x.vertices.items.map Vertex.asBorn
    edges := x.edges.items
    find := x.vertices.find?
    meeting := x.meeting }

@[simp] theorem key_skeleton (x : Exploration α τ π) : x.skeleton.key = x.config.key := rfl

theorem getElem?_skeleton {x : Exploration α τ π} {i : Nat} :
    x.skeleton.vertices[i]? = x.vertices.items[i]?.map Vertex.asBorn := Array.getElem?_map

theorem getElem?_skeleton_of {x : Exploration α τ π} {i : Nat} {v : Vertex α}
    (h : x.vertices.items[i]? = some v) : x.skeleton.vertices[i]? = some v.asBorn := by
  rw [getElem?_skeleton, h, Option.map_some]

theorem exists_of_getElem?_skeleton {x : Exploration α τ π} {i : Nat} {b : Vertex α}
    (h : x.skeleton.vertices[i]? = some b) : ∃ v, x.vertices.items[i]? = some v ∧ v.asBorn = b := by
  rw [getElem?_skeleton] at h
  exact Option.map_eq_some_iff.mp h

@[simp] theorem size_vertices_skeleton (x : Exploration α τ π) :
    x.skeleton.vertices.size = x.vertices.size := Array.size_map

/-! ## Operations that leave the skeleton alone -/

/-- The exploration with one more step counted. -/
def spend (x : Exploration α τ π) : Exploration α τ π :=
  { x with stats := { x.stats with steps := x.stats.steps + 1 } }

/-- The exploration with the vertex `v` in the place of the one with its id. -/
def put (x : Exploration α τ π) (v : Vertex α) : Exploration α τ π :=
  { x with vertices := x.vertices.update v.id fun _ ↦ v }

/-- The exploration after the engine has reported a reduct of `v`. -/
def advance (x : Exploration α τ π) (v : Vertex α) (next : Nat) : Exploration α τ π :=
  { x.put { v with cursor := next } with
    stats := { x.stats with reducts := x.stats.reducts + 1 } }

/-- The exploration after a reduct has turned out to be a vertex of the same side. -/
def discard (x : Exploration α τ π) : Exploration α τ π :=
  { x with stats := { x.stats with duplicates := x.stats.duplicates + 1 } }

theorem getElem?_put (x : Exploration α τ π) (v : Vertex α) (i : Nat) :
    (x.put v).vertices.items[i]?
      = if v.id = i then x.vertices.items[i]?.map fun _ ↦ v else x.vertices.items[i]? :=
  Vertices.getElem?_update x.vertices v.id i fun _ ↦ v

/-- What a change of one entry leaves alone is the same at all entries. -/
theorem map_modify {β γ : Type} {as : Array γ} {i : Nat} {f : γ → γ} {g : γ → β}
    (hf : ∀ a, as[i]? = some a → g (f a) = g a) : (as.modify i f).map g = as.map g := by
  refine Array.ext_getElem? ?_
  intro j
  rw [Array.getElem?_map, Array.getElem?_map, Array.getElem?_modify]
  split
  · next h =>
    subst h
    cases ha : as[i]? with
    | none => rfl
    | some a => rw [Option.map_some, Option.map_some, Option.map_some, hf a ha]
  · rfl

theorem map_put {β : Type} {x : Exploration α τ π} {u v : Vertex α} {g : Vertex α → β}
    (hu : x.vertices.items[v.id]? = some u) (hv : g v = g u) :
    (x.put v).vertices.items.map g = x.vertices.items.map g := by
  show (x.vertices.items.modify v.id fun _ ↦ v).map g = x.vertices.items.map g
  refine map_modify ?_
  intro w hw
  rw [hu] at hw
  rw [hv, Option.some.inj hw]

@[simp] theorem skeleton_spend (x : Exploration α τ π) : x.spend.skeleton = x.skeleton := rfl

@[simp] theorem skeleton_discard (x : Exploration α τ π) : x.discard.skeleton = x.skeleton := rfl

theorem skeleton_put {x : Exploration α τ π} {u v : Vertex α}
    (hu : x.vertices.items[v.id]? = some u) (hv : v.asBorn = u.asBorn) :
    (x.put v).skeleton = x.skeleton := by
  rw [skeleton, skeleton, map_put hu hv]
  rfl

theorem skeleton_advance {x : Exploration α τ π} {v : Vertex α} {next : Nat}
    (hv : x.vertices.items[v.id]? = some v) : (x.advance v next).skeleton = x.skeleton :=
  skeleton_put (x := x) (v := { v with cursor := next }) hv rfl

theorem fst_next (x : Exploration α τ π) : x.next.1 = x.frontier.next.1 := rfl

theorem snd_next (x : Exploration α τ π) :
    x.next.2.1 = { x with frontier := x.frontier.next.2 } := rfl

theorem next_eq {x y : Exploration α τ π} {v : Option Nat} {entries : List (Entry α)}
    (h : x.next = (v, y, entries)) :
    x.frontier.next = (v, y.frontier) ∧ y = { x with frontier := y.frontier } := by
  have hv : v = x.frontier.next.1 := by rw [← fst_next, h]
  have hy : y = { x with frontier := x.frontier.next.2 } := by rw [← snd_next, h]
  subst hv hy
  exact ⟨rfl, rfl⟩

theorem eq_levelsCut_of_next {x y : Exploration α τ π} {i : Option Nat} {entries : List (Entry α)}
    (h : x.next = (i, y, entries)) {entry : Entry α} (hentry : entry ∈ entries) :
    ∃ maxDepth count, entry = .levelsCut maxDepth count := by
  have hentries : entries = x.next.2.2 := by rw [h]
  rw [hentries, next] at hentry
  split at hentry
  dsimp only at hentry
  split at hentry
  · exact ⟨_, _, List.mem_singleton.mp hentry⟩
  · exact absurd hentry List.not_mem_nil

theorem skeleton_next {x y : Exploration α τ π} {v : Option Nat} {entries : List (Entry α)}
    (h : x.next = (v, y, entries)) : y.skeleton = x.skeleton := by
  rw [(next_eq h).2]
  rfl

/-! ## Links -/

theorem getElem?_link (x : Exploration α τ π) {source target : Nat} (hne : target ≠ source)
    (use : RuleUse) (recipe : Option τ) (i : Nat) :
    (x.link source target use recipe).2.vertices.items[i]?
      = if source = i then x.vertices.items[i]?.map (Vertex.leave x.edges.size use)
        else if target = i then x.vertices.items[i]?.map (Vertex.arrive x.edges.size)
        else x.vertices.items[i]? := by
  have hitems : (x.link source target use recipe).2.vertices
      = (x.vertices.update source (Vertex.leave x.edges.size use)).update target
          (Vertex.arrive x.edges.size) := by
    show (if target = source then _ else _) = _
    rw [if_neg hne]
    rfl
  rw [hitems, Vertices.getElem?_update, Vertices.getElem?_update]
  by_cases hs : source = i
  · rw [if_neg (by omega), if_pos hs, if_pos hs]
  · rw [if_neg hs, if_neg hs]

/-- A new edge changes nothing of its ends but the edges that touch them. -/
theorem map_link {β : Type} (x : Exploration α τ π) {source target : Nat} (hne : target ≠ source)
    (use : RuleUse) (recipe : Option τ) {g : Vertex α → β}
    (hleave : g ∘ Vertex.leave x.edges.size use = g)
    (harrive : g ∘ Vertex.arrive x.edges.size = g) :
    (x.link source target use recipe).2.vertices.items.map g = x.vertices.items.map g := by
  refine Array.ext_getElem? ?_
  intro i
  rw [Array.getElem?_map, Array.getElem?_map, getElem?_link x hne]
  split
  · rw [Option.map_map, hleave]
  · split
    · rw [Option.map_map, harrive]
    · rfl

theorem skeleton_link (x : Exploration α τ π) {source target : Nat} (hne : target ≠ source)
    (use : RuleUse) (recipe : Option τ) :
    ((x.link source target use recipe).2.markMeeting x.edges.size).skeleton
      = x.skeleton.withMeeting source target use recipe := by
  have hmap : ((x.link source target use recipe).2.vertices.items).map Vertex.asBorn
      = x.vertices.items.map Vertex.asBorn := map_link x hne use recipe rfl rfl
  have hkeys : (x.link source target use recipe).2.vertices.find? = x.vertices.find? := by
    show Vertices.find? (if target = source then _ else _) = _
    rw [if_neg hne]
    rfl
  rw [skeleton, markMeeting, hmap, hkeys]
  rfl

/-! ## Children -/

theorem getElem?_grow {x : Exploration α τ π} {p : Vertex α} (hp : p.id < x.vertices.size)
    (t : Term α) (use : RuleUse) (recipe : Option τ) (i : Nat) :
    (x.grow p t use recipe).2.2.vertices.items[i]?
      = if i = x.vertices.size then some (x.grow p t use recipe).1
        else if p.id = i then x.vertices.items[i]?.map (Vertex.leave x.edges.size use)
        else x.vertices.items[i]? := by
  set y := (x.addVertex t p.side false (depthBelow p.depth)).2
  have hne : x.vertices.size ≠ p.id := by omega
  have hgrow : (x.grow p t use recipe).2.2.vertices
      = ((y.link p.id x.vertices.size use recipe).2.vertices).update x.vertices.size
          fun _ ↦ (x.grow p t use recipe).1 := rfl
  have hpush : y.vertices.items[i]? = if i = x.vertices.size
      then some (x.addVertex t p.side false (depthBelow p.depth)).1
      else x.vertices.items[i]? := Array.getElem?_push
  rw [hgrow, Vertices.getElem?_update, getElem?_link y hne, hpush]
  by_cases hi : i = x.vertices.size
  · rw [if_pos hi.symm, if_pos hi, if_pos hi, if_neg (by omega), if_pos hi.symm]
    rfl
  · rw [if_neg (Ne.symm hi), if_neg hi, if_neg hi, if_neg (Ne.symm hi)]
    rfl

theorem frontier_grow (x : Exploration α τ π) (p : Vertex α) (t : Term α) (use : RuleUse)
    (recipe : Option τ) : ∃ score,
    (x.grow p t use recipe).2.2.frontier
      = x.frontier.enqueue score x.vertices.size (depthBelow p.depth) := ⟨_, rfl⟩

/-- A vertex with a new key is found under it, and nothing else changes. -/
theorem find?_addVertex {x : Exploration α τ π} {t : Term α} (h : x.findId? t = none) (side : Side)
    (isRoot : Bool) (depth : Nat) :
    (x.addVertex t side isRoot depth).2.vertices.find?
      = Function.update x.vertices.find? (x.config.key t) (some x.vertices.size) := by
  have hkeys : (x.addVertex t side isRoot depth).2.vertices.keys
      = x.vertices.keys.insertIfNew (x.config.key t) x.vertices.size := rfl
  have hnew : x.config.key t ∉ x.vertices.keys := by
    rw [TreeMap.mem_iff_isSome_getElem?]
    exact fun hsome ↦ Option.isSome_iff_ne_none.mp hsome h
  funext key
  rw [Vertices.find?, hkeys, TreeMap.getElem?_insertIfNew]
  by_cases hk : key = x.config.key t
  · subst hk
    rw [Function.update_self, if_pos ⟨ReflCmp.compare_self, hnew⟩]
  · have hcmp : ¬compare (x.config.key t) key = .eq :=
      fun hc ↦ hk (LawfulEqCmp.eq_of_compare hc).symm
    rw [Function.update_of_ne hk, if_neg fun hc ↦ hcmp hc.1]
    rfl

theorem find?_grow {x : Exploration α τ π} {t : Term α} (h : x.findId? t = none) {p : Vertex α}
    (hp : p.id < x.vertices.size) (use : RuleUse) (recipe : Option τ) :
    (x.grow p t use recipe).2.2.vertices.find?
      = Function.update x.vertices.find? (x.config.key t) (some x.vertices.size) := by
  rw [← find?_addVertex h p.side false (depthBelow p.depth)]
  show Vertices.find? (if x.vertices.size = p.id then _ else _) = _
  rw [if_neg (by omega)]
  rfl

theorem map_grow {β : Type} {x : Exploration α τ π} {p : Vertex α} (hp : p.id < x.vertices.size)
    (t : Term α) (use : RuleUse) (recipe : Option τ) {g : Vertex α → β}
    (hleave : g ∘ Vertex.leave x.edges.size use = g) :
    (x.grow p t use recipe).2.2.vertices.items.map g
      = (x.vertices.items.map g).push (g (x.grow p t use recipe).1) := by
  refine Array.ext_getElem? ?_
  intro i
  rw [Array.getElem?_map, Array.getElem?_push, Array.size_map, Array.getElem?_map,
    getElem?_grow hp, ← Vertices.size]
  by_cases hi : i = x.vertices.size
  · rw [if_pos hi, if_pos hi, Option.map_some]
  · rw [if_neg hi, if_neg hi]
    split
    · rw [Option.map_map, hleave]
    · rfl

theorem skeleton_grow {x : Exploration α τ π} {t : Term α} (h : x.findId? t = none) {p : Vertex α}
    (hp : p.id < x.vertices.size) (use : RuleUse) (recipe : Option τ) :
    (x.grow p t use recipe).2.2.skeleton
      = x.skeleton.withChild p t (x.lexicon.intern p.side t.pretty).1 use recipe := by
  have hmap : ((x.grow p t use recipe).2.2.vertices.items).map Vertex.asBorn
      = (x.vertices.items.map Vertex.asBorn).push (x.grow p t use recipe).1.asBorn :=
    map_grow hp t use recipe rfl
  rw [skeleton, hmap, find?_grow h hp, Skeleton.withChild, Skeleton.child, Skeleton.arc,
    size_vertices_skeleton]
  rfl

end Exploration

end Joinability
