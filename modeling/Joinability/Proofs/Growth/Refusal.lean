import Joinability.Proofs.Growth.Stepwise

/-!
# Refused operations

An exploration can be worked on from outside: by its own operations, and by those of its tables and
of its frontier, one at a time and in any order. Little is left of what a search relies on. Two
vertices may have one key, an edge may lead to a vertex that is not there, a vertex may carry the id
of another and wait in the frontier many times.

What remains is that ids are given out in order, so `Exploration.issues_perform` says that the ids
given out so far are those of the table. That is all on which the checks depend: an operation is
refused if it is given an id that was never given out, and `initialise` also if the sides have one
key. **`Exploration.refused_iff`** says that nothing else is refused and that what is refused has
changed nothing, also when each step is checked on its own.
-/

namespace Joinability

variable {α τ π : Type}

namespace Exploration

/-- What can be done to an exploration from outside. -/
inductive Action (α τ π : Type) where
  /-- The roots are created. -/
  | initialise (lhs rhs : Term α)
  /-- A child of a vertex is added. -/
  | addChild (parent : Nat) (t : Term α) (use : RuleUse) (recipe : Option τ)
  /-- An edge between two vertices is added. -/
  | connect (source target : Nat) (use : RuleUse) (recipe : Option τ)
  /-- An edge is marked as the one at which the sides meet. -/
  | markMeeting (edge : Nat)
  /-- The statistics are overwritten. -/
  | setStats (stats : Stats)
  /-- A vertex is added to the table. -/
  | createVertex (t : Term α) (tokens : List Nat) (isRoot : Bool) (side : Side) (depth : Nat)
  /-- A vertex is overwritten. -/
  | setVertex (v : Vertex α)
  /-- A vertex is changed in its place. -/
  | editVertex (id : Nat) (f : Vertex α → Vertex α)
  /-- An id is registered under a key. -/
  | registerKey (key : Text) (id : Nat)
  /-- An edge is added to the table. -/
  | createEdge (source target : Nat) (use : RuleUse) (proof : Deferred τ π)
  /-- The proof of an edge is forced. Recipes answer what `prove` says. -/
  | force (prove : τ → Except Fault π) (id : Nat)
  /-- A token is recorded. -/
  | record (side : Side) (text : Text)
  /-- The tokens of a text are recorded. -/
  | intern (side : Side) (t : Text)
  /-- A vertex, which need not be one of the table, waits in the frontier. -/
  | enqueue (v : Vertex α)
  /-- A vertex is taken from the frontier. -/
  | next

/-- The ids of the vertices that an action creates, and the exploration after it. -/
def perform (x : Exploration α τ π) : Action α τ π → List Nat × Exploration α τ π
  | .initialise lhs rhs =>
    match x.initialise lhs rhs with
    | (.ok (.rootsCreated left right _), x) => ([left.id, right.id], x)
    | (_, x) => ([], x)
  | .addChild parent t use recipe =>
    match x.addChild parent t use recipe with
    | (.ok v, x) => ([v.id], x)
    | (.error _, x) => ([], x)
  | .connect source target use recipe => ([], (x.connect source target use recipe).2)
  | .markMeeting edge => ([], x.markMeeting edge)
  | .setStats stats => ([], { x with stats })
  | .createVertex t tokens isRoot side depth =>
    let (v, vertices) := x.vertices.create t tokens isRoot side depth
    ([v.id], { x with vertices })
  | .setVertex v => ([], (x.setVertex v).2)
  | .editVertex id f => ([], { x with vertices := x.vertices.update id f })
  | .registerKey key id => ([], (x.registerKey key id).2)
  | .createEdge source target use proof =>
    ([], { x with edges := (x.edges.create source target use proof).2 })
  | .force prove id =>
    ([], { x with edges := (x.edges.force (fun r (_ : Unit) ↦ (prove r, ())) id ()).2.1 })
  | .record side text => ([], { x with lexicon := (x.lexicon.record side text).2 })
  | .intern side t => ([], { x with lexicon := (x.lexicon.intern side t).2 })
  | .enqueue v => ([], x.enqueue v)
  | .next => ([], x.next.2.1)

/-- The ids of the vertices that some actions create, and the exploration after them. -/
def performAll (x : Exploration α τ π) : List (Action α τ π) → List Nat × Exploration α τ π
  | [] => ([], x)
  | action :: actions =>
    let (ids, x) := x.perform action
    let (more, x) := x.performAll actions
    (ids ++ more, x)

/-! ## The ids that are given out -/

/-- The settings are kept, and `ids` are the next ones in order. -/
structure Issues (x : Exploration α τ π) (ids : List Nat) (y : Exploration α τ π) : Prop where
  config : y.config = x.config
  range : List.range x.vertices.size ++ ids = List.range y.vertices.size

namespace Issues

variable {x y z : Exploration α τ π} {ids more : List Nat}

theorem of_size_eq (hconfig : y.config = x.config) (hsize : y.vertices.size = x.vertices.size) :
    Issues x [] y where
  config := hconfig
  range := by rw [List.append_nil, hsize]

theorem one (hconfig : y.config = x.config) (hsize : y.vertices.size = x.vertices.size + 1) :
    Issues x [x.vertices.size] y where
  config := hconfig
  range := by rw [hsize, List.range_succ]

theorem trans (h : Issues x ids y) (h' : Issues y more z) : Issues x (ids ++ more) z where
  config := h'.config.trans h.config
  range := by rw [← List.append_assoc, h.range, h'.range]

end Issues

@[simp] theorem size_addVertex (x : Exploration α τ π) (t : Term α) (side : Side) (isRoot : Bool)
    (depth : Nat) : (x.addVertex t side isRoot depth).2.vertices.size = x.vertices.size + 1 :=
  Vertices.size_create ..

@[simp] theorem size_link (x : Exploration α τ π) (source target : Nat) (use : RuleUse)
    (recipe : Option τ) : (x.link source target use recipe).2.vertices.size = x.vertices.size := by
  rw [snd_link]
  dsimp only
  split
  · exact Vertices.size_update ..
  · rw [Vertices.size_update, Vertices.size_update]

@[simp] theorem size_grow (x : Exploration α τ π) (p : Vertex α) (t : Term α) (use : RuleUse)
    (recipe : Option τ) : (x.grow p t use recipe).2.2.vertices.size = x.vertices.size + 1 := by
  set y := (x.addVertex t p.side false (depthBelow p.depth)).2
  have hgrow : (x.grow p t use recipe).2.2.vertices.size
      = (y.link p.id x.vertices.size use recipe).2.vertices.size := Vertices.size_update ..
  rw [hgrow, size_link]
  exact size_addVertex ..

theorem issues_perform (x : Exploration α τ π) (action : Action α τ π) :
    Issues x (x.perform action).1 (x.perform action).2 := by
  cases action with
  | initialise lhs rhs =>
    rw [perform, initialise]
    by_cases hsize : x.vertices.size ≠ 0
    · rw [if_pos hsize]
      exact .of_size_eq rfl rfl
    by_cases hkey : x.config.key lhs = x.config.key rhs
    · rw [if_neg hsize, if_pos hkey]
      exact .of_size_eq rfl rfl
    · rw [if_neg hsize, if_neg hkey]
      have hleft : Issues x [x.vertices.size] (x.addVertex lhs .left true 0).2 :=
        .one rfl (size_addVertex ..)
      exact hleft.trans (.one rfl (size_addVertex ..))
  | addChild parent t use recipe =>
    rw [perform, addChild]
    cases x.vertices.get parent with
    | error fault => exact .of_size_eq rfl rfl
    | ok p => exact .one rfl (size_grow ..)
  | connect source target use recipe =>
    rw [perform, connect]
    cases x.vertices.getForUpdate source with
    | error fault => exact .of_size_eq rfl rfl
    | ok v => cases x.vertices.getForUpdate target with
      | error fault => exact .of_size_eq rfl rfl
      | ok w => exact .of_size_eq rfl (size_link ..)
  | markMeeting edge => exact .of_size_eq rfl rfl
  | setStats stats => exact .of_size_eq rfl rfl
  | createVertex t tokens isRoot side depth => exact .one rfl (Vertices.size_create ..)
  | setVertex v =>
    rw [perform, setVertex, Vertices.set]
    cases x.vertices.getForUpdate v.id with
    | error fault => exact .of_size_eq rfl rfl
    | ok u => exact .of_size_eq rfl (Vertices.size_update ..)
  | editVertex id f => exact .of_size_eq rfl (Vertices.size_update ..)
  | registerKey key id =>
    rw [perform, registerKey, Vertices.register]
    by_cases hid : x.vertices.contains id = true
    · rw [if_pos hid]
      exact .of_size_eq rfl rfl
    · rw [if_neg hid]
      exact .of_size_eq rfl rfl
  | createEdge source target use proof => exact .of_size_eq rfl rfl
  | force prove id => exact .of_size_eq rfl rfl
  | record side text => exact .of_size_eq rfl rfl
  | intern side t => exact .of_size_eq rfl rfl
  | enqueue v => exact .of_size_eq rfl rfl
  | next => exact .of_size_eq rfl rfl

theorem issues_performAll (x : Exploration α τ π) (actions : List (Action α τ π)) :
    Issues x (x.performAll actions).1 (x.performAll actions).2 := by
  induction actions generalizing x with
  | nil => exact .of_size_eq rfl rfl
  | cons action actions ih => exact (issues_perform x action).trans (ih _)

/-! ## What is refused -/

/-- An operation on `x` is refused exactly if `p` holds: with an invariant fault, and `x` stays as
it is. Otherwise there is an answer. -/
def RefusedIff {ρ : Type} (p : Prop) (x : Exploration α τ π)
    (r : Except Fault ρ × Exploration α τ π) : Prop :=
  (p → ∃ fault, fault.kind = .invariant ∧ r = (.error fault, x)) ∧ (¬p → ∃ a, r.1 = .ok a)

section Refused

variable {ρ : Type} {p : Prop} {x y : Exploration α τ π}

theorem RefusedIff.refused {fault : Fault} (hp : p) (hkind : fault.kind = .invariant) :
    RefusedIff p x ((.error fault, x) : Except Fault ρ × Exploration α τ π) :=
  ⟨fun _ ↦ ⟨fault, hkind, rfl⟩, fun hnot ↦ absurd hp hnot⟩

theorem RefusedIff.answered {a : ρ} (hp : ¬p) :
    RefusedIff p x ((.ok a, y) : Except Fault ρ × Exploration α τ π) :=
  ⟨fun h ↦ absurd h hp, fun _ ↦ ⟨a, rfl⟩⟩

theorem refusedIff_initialise (x : Exploration α τ π) (lhs rhs : Term α) :
    RefusedIff (x.vertices.size ≠ 0 ∨ x.config.key lhs = x.config.key rhs) x
      (x.initialise lhs rhs) := by
  rw [initialise]
  by_cases hsize : x.vertices.size ≠ 0
  · rw [if_pos hsize]
    exact .refused (.inl hsize) rfl
  by_cases hkey : x.config.key lhs = x.config.key rhs
  · rw [if_neg hsize, if_pos hkey]
    exact .refused (.inr hkey) rfl
  · rw [if_neg hsize, if_neg hkey]
    exact .answered (not_or.mpr ⟨hsize, hkey⟩)

theorem refusedIff_addChild (x : Exploration α τ π) (parent : Nat) (t : Term α) (use : RuleUse)
    (recipe : Option τ) :
    RefusedIff (x.vertices.size ≤ parent) x (x.addChild parent t use recipe) := by
  rw [addChild, Vertices.get]
  rcases hp : x.vertices.items[parent]? with _ | p
  · exact .refused (Array.getElem?_eq_none_iff.mp hp) rfl
  · exact .answered (Nat.not_le.mpr (Array.getElem?_eq_some_iff.mp hp).1)

theorem refusedIff_connect (x : Exploration α τ π) (source target : Nat) (use : RuleUse)
    (recipe : Option τ) :
    RefusedIff (x.vertices.size ≤ source ∨ x.vertices.size ≤ target) x
      (x.connect source target use recipe) := by
  rw [connect, Vertices.getForUpdate, Vertices.getForUpdate]
  rcases hv : x.vertices.items[source]? with _ | v
  · exact .refused (.inl (Array.getElem?_eq_none_iff.mp hv)) rfl
  rcases hw : x.vertices.items[target]? with _ | w
  · exact .refused (.inr (Array.getElem?_eq_none_iff.mp hw)) rfl
  · exact .answered (not_or.mpr ⟨Nat.not_le.mpr (Array.getElem?_eq_some_iff.mp hv).1,
      Nat.not_le.mpr (Array.getElem?_eq_some_iff.mp hw).1⟩)

theorem refusedIff_setVertex (x : Exploration α τ π) (v : Vertex α) :
    RefusedIff (x.vertices.size ≤ v.id) x (x.setVertex v) := by
  rw [setVertex, Vertices.set, Vertices.getForUpdate]
  rcases hu : x.vertices.items[v.id]? with _ | u
  · exact .refused (Array.getElem?_eq_none_iff.mp hu) rfl
  · exact .answered (Nat.not_le.mpr (Array.getElem?_eq_some_iff.mp hu).1)

theorem refusedIff_registerKey (x : Exploration α τ π) (key : Text) (id : Nat) :
    RefusedIff (x.vertices.size ≤ id) x (x.registerKey key id) := by
  by_cases hid : id < x.vertices.size
  · rw [registerKey_of_lt hid]
    exact .answered (Nat.not_le.mpr hid)
  · have hcontains : ¬x.vertices.contains id = true := by
      rwa [Vertices.contains, decide_eq_true_iff]
    rw [registerKey, Vertices.register, if_neg hcontains]
    exact .refused (Nat.not_lt.mp hid) rfl

end Refused

/-- **What is refused has changed nothing.** Whatever was done to an exploration before, by its own
operations or by those of its tables and its frontier: it refuses its roots exactly if some vertex
is there or the two sides have one key, a child exactly if the id of the parent was never given out,
an edge exactly if one of its ends was never given out, and to overwrite a vertex or to register a
key exactly if the id was never given out. Then the fault is an invariant fault and the exploration
is the same as before. Taking the operations apart, with a check at each step, comes to the same. -/
theorem refused_iff (config : Config α) (actions : List (Action α τ π)) :
    let issued := ((ofConfig config).performAll actions).1
    let x := ((ofConfig config).performAll actions).2
    (∀ lhs rhs,
      RefusedIff (issued ≠ [] ∨ config.key lhs = config.key rhs) x (x.initialise lhs rhs) ∧
      ExploreM.initialise lhs rhs x = x.initialise lhs rhs) ∧
    (∀ parent t use recipe, RefusedIff (parent ∉ issued) x (x.addChild parent t use recipe) ∧
      ExploreM.addChild parent t use recipe x = x.addChild parent t use recipe) ∧
    (∀ source target use recipe,
      RefusedIff (source ∉ issued ∨ target ∉ issued) x (x.connect source target use recipe) ∧
      ExploreM.connect source target use recipe x = x.connect source target use recipe) ∧
    (∀ v : Vertex α, RefusedIff (v.id ∉ issued) x (x.setVertex v)) ∧
    ∀ key id, RefusedIff (id ∉ issued) x (x.registerKey key id) := by
  intro issued x
  have hissues : Issues (ofConfig config) issued x := issues_performAll (ofConfig config) actions
  have hissued : issued = List.range x.vertices.size := hissues.range
  have hconfig : x.config = config := hissues.config
  simp only [hissued, List.mem_range, Nat.not_lt, ne_eq, List.range_eq_nil]
  refine ⟨fun lhs rhs ↦ ⟨?_, ExploreM.run_initialise lhs rhs⟩,
    fun parent t use recipe ↦ ⟨refusedIff_addChild x parent t use recipe, ExploreM.run_addChild ..⟩,
    fun source target use recipe ↦
      ⟨refusedIff_connect x source target use recipe, ExploreM.run_connect ..⟩,
    refusedIff_setVertex x, refusedIff_registerKey x⟩
  rw [← hconfig]
  exact refusedIff_initialise x lhs rhs

/-- Two vertices that no search would have created, one of which carries the id of a third, and an
edge to nowhere. -/
theorem refused_iff_crooked :
    let actions : List (Action Unit Unit Unit) :=
      [.createVertex {} [] false .left 3, .createVertex {} [] false .left 3,
        .editVertex 1 fun v ↦ { v with id := 7 }, .createEdge 0 9 default .absent]
    let x := ((ofConfig {}).performAll actions).2
    (∃ fault, fault.kind = .invariant ∧ x.connect 0 9 default none = (.error fault, x)) ∧
    (∃ fault, fault.kind = .invariant ∧ x.addChild 7 {} default none = (.error fault, x)) ∧
    ∃ v, (x.addChild 1 {} default none).1 = .ok v := by
  intro actions x
  obtain ⟨-, hchild, hconnect, -, -⟩ := refused_iff {} actions
  exact ⟨(hconnect 0 9 default none).1.1 (by decide), (hchild 7 {} default none).1.1 (by decide),
    (hchild 1 {} default none).1.2 (by decide)⟩

end Exploration

end Joinability
