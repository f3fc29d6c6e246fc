import Joinability.Proofs.Search.Building

/-!
# Growing step by step

The operations of an exploration look at the ids that they are given first, and then change several
tables in one go. Here the same operations are taken apart. They look up each vertex where it is
needed, also between two changes, and a step that fails ends them: what was changed before stays
changed.

It makes no difference. `run_initialise`, `run_addChild` and `run_connect` say that the operations
are the same, on every exploration. What is looked up after the first change is either a vertex that
has just been created or one that was looked up before, so no step fails after the first change.
-/

namespace Joinability

variable {α τ π : Type}

namespace Vertices

variable {vs : Vertices α} {i j : Nat} {f g : Vertex α → Vertex α}

theorem eq_of_getElem? {vs ws : Vertices α} (hitems : ∀ i : Nat, vs.items[i]? = ws.items[i]?)
    (hkeys : vs.keys = ws.keys) : vs = ws := by
  cases vs
  cases ws
  rw [mk.injEq]
  exact ⟨Array.ext_getElem? hitems, hkeys⟩

theorem update_update (vs : Vertices α) (i : Nat) (f g : Vertex α → Vertex α) :
    (vs.update i f).update i g = vs.update i (g ∘ f) := by
  refine eq_of_getElem? (fun j ↦ ?_) rfl
  rw [getElem?_update, getElem?_update, getElem?_update]
  split
  · rw [Option.map_map]
  · rfl

theorem update_comm (hij : i ≠ j) : (vs.update i f).update j g = (vs.update j g).update i f := by
  refine eq_of_getElem? (fun k ↦ ?_) rfl
  simp only [getElem?_update]
  split
  · next hk => rw [if_neg (hk ▸ hij), if_neg (hk ▸ hij)]
  · rfl

theorem update_congr (h : ∀ v, vs.items[i]? = some v → f v = g v) :
    vs.update i f = vs.update i g := by
  refine eq_of_getElem? (fun j ↦ ?_) rfl
  rw [getElem?_update, getElem?_update]
  split
  · next hj => exact Option.map_congr fun v hv ↦ h v (hj ▸ hv)
  · rfl

end Vertices

theorem Exploration.registerKey_of_lt {x : Exploration α τ π} {key : Text} {id : Nat}
    (h : id < x.vertices.size) :
    x.registerKey key id
      = (.ok (),
        { x with vertices := { x.vertices with keys := x.vertices.keys.insertIfNew key id } }) := by
  have hcontains : x.vertices.contains id = true := decide_eq_true h
  rw [registerKey, Vertices.register, if_pos hcontains]

theorem Exploration.snd_link (x : Exploration α τ π) (source target : Nat) (use : RuleUse)
    (recipe : Option τ) :
    (x.link source target use recipe).2 =
      { x with
        edges := (x.edges.create source target use (.ofRecipe? recipe)).2
        vertices := if target = source then x.vertices.update source (Vertex.leave x.edges.size use)
          else (x.vertices.update source (Vertex.leave x.edges.size use)).update target
            (Vertex.arrive x.edges.size)
        stats := { x.stats with edges := x.stats.edges + 1 } } := rfl

/-- Steps on an exploration, one after the other. A step that fails is the last one, and undoes
nothing. -/
abbrev ExploreM (α τ π : Type) := ExceptT Fault (StateM (Exploration α τ π))

namespace ExploreM

variable {ρ ρ' : Type} {x y : Exploration α τ π}

/-! ## Steps -/

/-- Looks something up. -/
def look (f : Exploration α τ π → Except Fault ρ) : ExploreM α τ π ρ := fun x ↦ (f x, x)

/-- Changes the exploration. -/
def change (f : Exploration α τ π → ρ × Exploration α τ π) : ExploreM α τ π ρ :=
  fun x ↦ (.ok (f x).1, (f x).2)

/-- Changes a vertex in its place. -/
def edit (id : Nat) (f : Vertex α → Vertex α) : ExploreM α τ π Unit :=
  change fun x ↦ ((), { x with vertices := x.vertices.update id f })

/-- Adds a vertex with a term. -/
def addVertex (t : Term α) (side : Side) (isRoot : Bool) (depth : Nat) :
    ExploreM α τ π (Vertex α) := do
  let key := (← get).config.key t
  let tokens ← change fun x ↦
    let (tokens, lexicon) := x.lexicon.intern side t.pretty
    (tokens, { x with lexicon })
  let v ← change fun x ↦
    let (v, vertices) := x.vertices.create t tokens isRoot side depth
    (v, { x with vertices })
  (fun x ↦ x.registerKey key v.id : ExploreM α τ π Unit)
  change fun x ↦ ((), { x with stats := x.stats.withVertex side depth })
  return v

/-- Adds an edge between two vertices. -/
def connect (source target : Nat) (use : RuleUse) (recipe : Option τ) :
    ExploreM α τ π (Edge τ π) := do
  let _ ← look (·.vertices.getForUpdate source)
  let _ ← look (·.vertices.getForUpdate target)
  let e ← change fun x ↦
    let (e, edges) := x.edges.create source target use (.ofRecipe? recipe)
    (e, { x with edges })
  edit source (Vertex.arrive e.id)
  if target ≠ source then
    edit target (Vertex.arrive e.id)
  edit source fun v ↦ { v with outgoing := v.outgoing ++ [e.use] }
  change fun x ↦ ((), { x with stats := { x.stats with edges := x.stats.edges + 1 } })
  return e

/-- Creates the two roots of an empty graph. -/
def initialise (lhs rhs : Term α) : ExploreM α τ π (Entry α) := do
  let x ← get
  if x.vertices.size ≠ 0 then
    throw .alreadyInitialised
  if x.config.key lhs = x.config.key rhs then
    throw (.sharedKey (x.config.key lhs))
  let left ← addVertex lhs .left true 0
  let right ← addVertex rhs .right true 0
  change fun x ↦ ((), x.enqueue left)
  change fun x ↦ ((), x.enqueue right)
  return .rootsCreated left right x.config.strategy

/-- Adds a child of a vertex. The child is looked up again where it is changed and before it
waits. -/
def addChild (parent : Nat) (t : Term α) (use : RuleUse) (recipe : Option τ) :
    ExploreM α τ π (Vertex α) := do
  let source ← look (·.vertices.get parent)
  let v ← addVertex t source.side false (depthBelow source.depth)
  let e ← connect parent v.id use recipe
  let _ ← look (·.vertices.getForUpdate v.id)
  edit v.id fun v ↦ { v with parentEdge := some e.id }
  let child ← look (·.vertices.get v.id)
  change fun x ↦ ((), x.enqueue child)
  return child

/-! ## The steps together -/

section Run

variable {f : ρ' → ExploreM α τ π ρ}

theorem look_bind {g : Exploration α τ π → Except Fault ρ'} {a : ρ'} (h : g x = .ok a) :
    (look g >>= f) x = f a x := run_bind_of_ok (by rw [look, h])

theorem look_bind_of_error {g : Exploration α τ π → Except Fault ρ'} {fault : Fault}
    (h : g x = .error fault) :
    (look g >>= f) x = (.error fault, x) := run_bind_of_error (by rw [look, h])

theorem get_bind (f : Exploration α τ π → ExploreM α τ π ρ) : (get >>= f) x = f x x := rfl

theorem change_bind (g : Exploration α τ π → ρ' × Exploration α τ π) :
    (change g >>= f) x = f (g x).1 (g x).2 := rfl

end Run

theorem run_addVertex (t : Term α) (side : Side) (isRoot : Bool) (depth : Nat) :
    (addVertex t side isRoot depth : ExploreM α τ π (Vertex α)) x
      = (.ok (x.addVertex t side isRoot depth).1, (x.addVertex t side isRoot depth).2) := by
  rw [addVertex, get_bind, change_bind, change_bind]
  -- the key is registered for the vertex that has just been created
  have hcreate (vs : Vertices α) (tokens : List Nat) :
      (vs.create t tokens isRoot side depth).1.id <
        (vs.create t tokens isRoot side depth).2.size := by
    rw [Vertices.size_create]
    exact Nat.lt_succ_self vs.size
  rw [run_bind_of_ok (Exploration.registerKey_of_lt (hcreate _ _))]
  rfl

theorem run_connect (source target : Nat) (use : RuleUse) (recipe : Option τ) :
    (connect source target use recipe : ExploreM α τ π (Edge τ π)) x =
      x.connect source target use recipe := by
  rw [connect, Exploration.connect]
  rcases hsource : x.vertices.getForUpdate source with fault | v
  · rw [look_bind_of_error hsource]
  rw [look_bind hsource]
  rcases htarget : x.vertices.getForUpdate target with fault | w
  · rw [look_bind_of_error htarget]
  rw [look_bind htarget, change_bind]
  dsimp only
  rw [Exploration.snd_link]
  have hleave : x.vertices.update source (Vertex.leave x.edges.size use)
      = (x.vertices.update source (Vertex.arrive x.edges.size)).update source
        fun v ↦ { v with outgoing := v.outgoing ++ [use] } := by
    rw [Vertices.update_update]
    rfl
  by_cases hne : target = source
  · rw [if_neg (not_not.mpr hne), if_pos hne, hleave]
    rfl
  · rw [if_pos hne, if_neg hne, hleave, Vertices.update_comm (Ne.symm hne)]
    rfl

theorem run_initialise (lhs rhs : Term α) :
    (initialise lhs rhs : ExploreM α τ π (Entry α)) x = x.initialise lhs rhs := by
  rw [initialise, get_bind, Exploration.initialise]
  by_cases hsize : x.vertices.size ≠ 0
  · rw [if_pos hsize, if_pos hsize]
    rfl
  rw [if_neg hsize, if_neg hsize]
  by_cases hkey : x.config.key lhs = x.config.key rhs
  · rw [if_pos hkey, if_pos hkey]
    rfl
  rw [if_neg hkey, if_neg hkey]
  dsimp only
  rw [run_bind_of_ok (run_addVertex ..), run_bind_of_ok (run_addVertex ..)]
  rfl

theorem run_addChild (parent : Nat) (t : Term α) (use : RuleUse) (recipe : Option τ) :
    (addChild parent t use recipe : ExploreM α τ π (Vertex α)) x =
      x.addChild parent t use recipe := by
  rw [addChild, Exploration.addChild]
  rcases hparent : x.vertices.get parent with fault | p
  · rw [look_bind_of_error hparent]
  rw [look_bind hparent, run_bind_of_ok (run_addVertex ..)]
  -- the child `v` stands behind the vertices that were there before, its parent among them
  have hp : x.vertices.items[parent]? = some p := Vertices.get_eq_ok_iff.mp hparent
  set v := (x.addVertex t p.side false (depthBelow p.depth)).1
  set y := (x.addVertex t p.side false (depthBelow p.depth)).2
  have hne : v.id ≠ parent := Ne.symm (Nat.ne_of_lt (Array.getElem?_eq_some_iff.mp hp).1)
  have hitems (i : Nat) :
      y.vertices.items[i]? = if i = v.id then some v else x.vertices.items[i]? :=
    Array.getElem?_push
  have hy : y.vertices.items[v.id]? = some v := by rw [hitems, if_pos rfl]
  have hsource : y.vertices.getForUpdate parent = .ok p :=
    Vertices.getForUpdate_eq_ok_iff.mpr (by rw [hitems, if_neg hne.symm, hp])
  have hconnect : y.connect parent v.id use recipe
      = (.ok (y.link parent v.id use recipe).1, (y.link parent v.id use recipe).2) := by
    rw [Exploration.connect, hsource, Vertices.getForUpdate_eq_ok_iff.mpr hy]
  rw [run_bind_of_ok ((run_connect ..).trans hconnect)]
  set z := (y.link parent v.id use recipe).2
  -- so it is found again, by now with the new edge
  have hz : z.vertices.items[v.id]? = some (v.arrive x.edges.size) := by
    have hlink := Exploration.getElem?_link y hne use recipe v.id
    rwa [if_neg hne.symm, if_pos rfl, hy] at hlink
  set child : Vertex α := { v with parentEdge := some x.edges.size, adjacency := [x.edges.size] }
  have hadopt : z.vertices.update v.id (fun v ↦ { v with parentEdge := some x.edges.size })
      = z.vertices.update v.id fun _ ↦ child := by
    refine Vertices.update_congr fun u hu ↦ ?_
    rw [hz] at hu
    obtain rfl := Option.some.inj hu
    rfl
  have hchild : (z.vertices.update v.id fun _ ↦ child).get v.id = .ok child := by
    rw [Vertices.get_eq_ok_iff, Vertices.getElem?_update, if_pos rfl, hz, Option.map_some]
  rw [look_bind (Vertices.getForUpdate_eq_ok_iff.mpr hz), edit, change_bind]
  dsimp only
  rw [show (y.link parent v.id use recipe).1.id = x.edges.size from rfl, hadopt, look_bind hchild]
  rfl

end ExploreM

end Joinability
