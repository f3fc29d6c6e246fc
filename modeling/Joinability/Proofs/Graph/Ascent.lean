import Joinability.Proofs.Search.Trail

/-!
# Climbing in any graph

The tables of a graph can be edited from outside, and then nothing is known of its parent edges.
They may be missing, name an edge that was never issued or one that does not touch the vertex, lead
over to the other side, or go round in a circle. Climbing has to end all the same, and has to find
the way to the root wherever there is one.

From each vertex at most one parent edge leads on, so there is one chain to follow (`Ascent`), and
every beginning of it is a part of it (`Ascent.split`). It comes to a vertex from which nothing
leads on, or it goes on for ever.

## The guard against circles

Climbing is given up after as many edges as there are vertices. A chain that comes to an end passes
no vertex twice: the rest of the chain from there would be the same, so it would never end. All
vertices that it passes are in the table, so that it has no more edges than there are vertices
(`Ascent.length_le`), and the guard lets it pass. What the guard stops are therefore exactly the
chains that go on for ever: **`pathFromRoot_exact`**.
-/

namespace Joinability

variable {α τ π : Type}

/-- Each vertex of the table has the id of its place. -/
def Vertices.AtOwnIds (vs : Vertices α) : Prop :=
  ∀ ⦃i : Nat⦄ ⦃v : Vertex α⦄, vs.items[i]? = some v → v.id = i

/-- Each edge of the table has the id of its place. -/
def Edges.AtOwnIds (es : Edges τ π) : Prop :=
  ∀ ⦃id : Nat⦄ ⦃e : Edge τ π⦄, es.items[id]? = some e → e.id = id

namespace Arc

/-- The edge has the ends `u` and `v`, in one direction or the other. -/
def Between (a : Arc) (u v : Nat) : Prop :=
  (a.source = u ∧ a.target = v) ∨ (a.source = v ∧ a.target = u)

theorem otherEnd?_eq_some_iff {a : Arc} {u v : Nat} : a.otherEnd? u = some v ↔ a.Between u v := by
  unfold otherEnd? Between
  grind

theorem otherEnd?_eq_none_iff_between {a : Arc} {u : Nat} :
    a.otherEnd? u = none ↔ ∀ v, ¬a.Between u v := by
  simp only [← otherEnd?_eq_some_iff, Option.eq_none_iff_forall_ne_some, ne_eq]

theorem Between.unique {a : Arc} {u v w : Nat} (hv : a.Between u v) (hw : a.Between u w) : v = w :=
  Option.some.inj ((otherEnd?_eq_some_iff.mpr hv).symm.trans (otherEnd?_eq_some_iff.mpr hw))

end Arc

/-! ## Chains of parent edges -/

section Chains

variable {vs : Vertices α} {es : Edges τ π}

/-- The parent edge `id` of the vertex `i`, which is no root, leads to `j`. -/
def Rises (vs : Vertices α) (es : Edges τ π) (i id j : Nat) : Prop :=
  ∃ v e, vs.items[i]? = some v ∧ v.isRoot = false ∧ v.parentEdge = some id ∧
    es.items[id]? = some e ∧ e.Between i j

/-- Following parent edges from the vertex `i` leads to `k`. The edges are listed from `k` on. -/
inductive Ascent (vs : Vertices α) (es : Edges τ π) : Nat → List Nat → Nat → Prop
  | here (i : Nat) : Ascent vs es i [] i
  | up {i id j k : Nat} {path : List Nat} (h : Rises vs es i id j) (rest : Ascent vs es j path k) :
      Ascent vs es i (path ++ [id]) k

/-- No parent edge leads on from the vertex `k`. -/
def IsTop (vs : Vertices α) (es : Edges τ π) (k : Nat) : Prop := ∀ id j, ¬Rises vs es k id j

variable {i j k id : Nat} {path more : List Nat}

theorem Rises.unique {id' j' : Nat} (h : Rises vs es i id j) (h' : Rises vs es i id' j') :
    id = id' ∧ j = j' := by
  obtain ⟨v, e, hv, -, hid, he, hj⟩ := h
  obtain ⟨v', e', hv', -, hid', he', hj'⟩ := h'
  obtain rfl := Option.some.inj (hv.symm.trans hv')
  obtain rfl := Option.some.inj (hid.symm.trans hid')
  obtain rfl := Option.some.inj (he.symm.trans he')
  exact ⟨rfl, hj.unique hj'⟩

theorem Rises.lt_size (h : Rises vs es i id j) : i < vs.size := by
  obtain ⟨v, -, hv, -⟩ := h
  exact (Array.getElem?_eq_some_iff.mp hv).1

theorem isTop_of_isRoot {v : Vertex α} (hv : vs.items[k]? = some v) (hroot : v.isRoot = true) :
    IsTop vs es k := by
  rintro id j ⟨v', -, hv', hnot, -⟩
  obtain rfl := Option.some.inj (hv.symm.trans hv')
  exact absurd hroot (by simp [hnot])

namespace Ascent

theorem snoc (h : Ascent vs es i path j) (hj : Rises vs es j id k) :
    Ascent vs es i (id :: path) k := by
  induction h with
  | here i => exact .up hj (.here k)
  | up h _ ih => exact .up h (ih hj)

/-- **Every beginning of a chain that ends is a part of it.** -/
theorem split (h : Ascent vs es i path k) (hk : IsTop vs es k) (hj : Ascent vs es i more j) :
    ∃ rest, Ascent vs es j rest k ∧ path = rest ++ more := by
  induction hj generalizing path with
  | here i => exact ⟨path, h, (List.append_nil path).symm⟩
  | @up i id j l more hstep _ ih =>
    rcases h with _ | ⟨hstep', hrest⟩
    · exact absurd hstep (hk id j)
    · obtain ⟨rfl, rfl⟩ := hstep.unique hstep'
      obtain ⟨rest, hl, rfl⟩ := ih hrest
      exact ⟨rest, hl, List.append_assoc rest more [id]⟩

theorem eq_of_isTop (h : Ascent vs es i path k) (hi : IsTop vs es i) : path = [] ∧ k = i := by
  rcases h with _ | ⟨hstep, -⟩
  · exact ⟨rfl, rfl⟩
  · exact absurd hstep (hi _ _)

theorem unique (h : Ascent vs es i path k) (hk : IsTop vs es k) (hj : Ascent vs es i more j)
    (htop : IsTop vs es j) : path = more ∧ k = j := by
  obtain ⟨rest, hrest, rfl⟩ := h.split hk hj
  obtain ⟨rfl, rfl⟩ := hrest.eq_of_isTop htop
  exact ⟨rfl, rfl⟩

/-- The vertices that a chain passes are different from each other, if it ends. -/
theorem exists_passed (h : Ascent vs es i path k) (hk : IsTop vs es k) : ∃ passed : List Nat,
    passed.length = path.length ∧ passed.Nodup ∧ (∀ j ∈ passed, j < vs.size) ∧
      ∀ j ∈ passed, ∃ rest, Ascent vs es j rest k ∧ rest.length ≤ path.length := by
  induction h with
  | here i => exact ⟨[], rfl, List.nodup_nil, by simp, by simp⟩
  | @up i id j k path hstep hrest ih =>
    obtain ⟨passed, hlength, hnodup, hlt, hchains⟩ := ih hk
    have hup := Ascent.up hstep hrest
    -- a chain that came back to `i` would have two lengths
    have hfresh : i ∉ passed := by
      intro hi
      obtain ⟨rest, hback, hle⟩ := hchains i hi
      obtain ⟨rfl, -⟩ := hback.unique hk hup hk
      rw [List.length_append, List.length_singleton] at hle
      omega
    refine ⟨i :: passed, by simp [hlength], List.nodup_cons.mpr ⟨hfresh, hnodup⟩, ?_, ?_⟩
    · exact List.forall_mem_cons.mpr ⟨hstep.lt_size, hlt⟩
    · refine List.forall_mem_cons.mpr ⟨⟨_, hup, Nat.le_refl _⟩, fun l hl ↦ ?_⟩
      obtain ⟨rest, hback, hle⟩ := hchains l hl
      exact ⟨rest, hback, Nat.le_trans hle (by simp)⟩

/-- **A chain that ends has no more edges than there are vertices.** -/
theorem length_le (h : Ascent vs es i path k) (hk : IsTop vs es k) : path.length ≤ vs.size := by
  obtain ⟨passed, hlength, hnodup, hlt, -⟩ := h.exists_passed hk
  have hsubset : passed ⊆ List.range vs.size := fun j hj ↦ List.mem_range.mpr (hlt j hj)
  have hle := hnodup.length_le_of_subset hsubset
  rwa [hlength, List.length_range] at hle

end Ascent

theorem exists_ascent_of_endless (h : ¬∃ path k, Ascent vs es i path k ∧ IsTop vs es k) (n : Nat) :
    ∃ path k, Ascent vs es i path k ∧ path.length = n := by
  induction n with
  | zero => exact ⟨[], i, .here i, rfl⟩
  | succ n ih =>
    obtain ⟨path, k, hpath, hlength⟩ := ih
    have hgoes : ¬IsTop vs es k := fun hk ↦ h ⟨path, k, hpath, hk⟩
    simp only [IsTop, not_forall, not_not] at hgoes
    obtain ⟨id, j, hstep⟩ := hgoes
    exact ⟨id :: path, j, hpath.snoc hstep, by rw [List.length_cons, hlength]⟩

end Chains

/-! ## Climbing a chain -/

section Climbing

variable {vs : Vertices α} {es : Edges τ π} {start : Nat} {side : Side} {i j k id : Nat}
  {path : List Nat}

theorem climb_of_ascent (hes : es.AtOwnIds) (h : Ascent vs es i path k) (n : Nat)
    (below : List Nat) :
    climb vs es start side (n + path.length) i below =
      climb vs es start side n k (path ++ below) := by
  induction h generalizing below with
  | here i => rfl
  | up hstep _ ih =>
    obtain ⟨v, e, hv, hroot, hid, he, hj⟩ := hstep
    rw [List.length_append, List.length_singleton, ← Nat.add_assoc,
      climb_child (Vertices.get_eq_ok_iff.mpr hv) hroot hid (Edges.get_eq_ok_iff.mpr he)
        (Arc.otherEnd?_eq_some_iff.mpr hj), ih, hes he, List.append_assoc]
    rfl

theorem climb_of_rises (h : Rises vs es k id j) (below : List Nat) :
    climb vs es start side 0 k below = .error (.parentCycle start) := by
  obtain ⟨v, e, hv, hroot, hid, he, hj⟩ := h
  rw [climb.eq_def]
  simp only [Vertices.get_eq_ok_iff.mpr hv, hroot, hid, Edges.get_eq_ok_iff.mpr he,
    Arc.otherEnd?_eq_some_iff.mpr hj, bind, Except.bind, Bool.false_eq_true, if_false]
  rfl

/-- What there is to say of a vertex at which the chain from `start` ends. -/
inductive Verdict (vs : Vertices α) (es : Edges τ π) (start : Nat) (side : Side) (k : Nat) :
    Option Fault → Prop
  /-- It is the root of its side. -/
  | home {v : Vertex α} (hv : vs.items[k]? = some v) (hroot : v.isRoot = true)
    (hk : k = side.root) :
      Verdict vs es start side k none
  /-- It is another root. -/
  | foreign {v : Vertex α} (hv : vs.items[k]? = some v) (hroot : v.isRoot = true)
    (hk : k ≠ side.root) :
      Verdict vs es start side k (some (.foreignRoot start k))
  /-- It was never issued. -/
  | missing (hk : vs.items[k]? = none) :
    Verdict vs es start side k (some (.vertexUnissued k vs.size))
  /-- It has no parent edge. -/
  | orphan {v : Vertex α} (hv : vs.items[k]? = some v) (hroot : v.isRoot = false)
    (hid : v.parentEdge = none) :
      Verdict vs es start side k (some (.noParentEdge k))
  /-- Its parent edge was never issued. -/
  | dangling {v : Vertex α} {id : Nat} (hv : vs.items[k]? = some v) (hroot : v.isRoot = false)
      (hid : v.parentEdge = some id) (he : es.items[id]? = none) :
      Verdict vs es start side k (some (.edgeUnissued id es.size))
  /-- Its parent edge does not touch it. -/
  | astray {v : Vertex α} {id : Nat} {e : Edge τ π} (hv : vs.items[k]? = some v)
    (hroot : v.isRoot = false)
      (hid : v.parentEdge = some id) (he : es.items[id]? = some e) (hastray : ∀ j, ¬e.Between k j) :
      Verdict vs es start side k (some (.parentEdgeAstray id k))

/-- The answer of a climb, when there is a fault or the edges on the way have been listed. -/
def answerOf (path : List Nat) : Option Fault → Except Fault (List Nat)
  | none => .ok path
  | some fault => .error fault

namespace Verdict

variable {verdict : Option Fault}

theorem isTop (h : Verdict vs es start side k verdict) : IsTop vs es k := by
  rintro id j ⟨v, e, hv, hroot, hid, he, hj⟩
  induction h with
  | home hv' hroot' | foreign hv' hroot' =>
    exact isTop_of_isRoot hv' hroot' id j ⟨v, e, hv, hroot, hid, he, hj⟩
  | missing hk => exact absurd (hk.symm.trans hv) (by simp)
  | orphan hv' _ hid' =>
    obtain rfl := Option.some.inj (hv'.symm.trans hv)
    exact absurd (hid'.symm.trans hid) (by simp)
  | dangling hv' _ hid' he' =>
    obtain rfl := Option.some.inj (hv'.symm.trans hv)
    obtain rfl := Option.some.inj (hid'.symm.trans hid)
    exact absurd (he'.symm.trans he) (by simp)
  | astray hv' _ hid' he' hastray =>
    obtain rfl := Option.some.inj (hv'.symm.trans hv)
    obtain rfl := Option.some.inj (hid'.symm.trans hid)
    obtain rfl := Option.some.inj (he'.symm.trans he)
    exact hastray j hj

theorem kind_eq {fault : Fault} (h : Verdict vs es start side k (some fault)) :
    fault.kind = .invariant := by
  rcases h <;> rfl

/-- **Where there is a verdict, climbing gives it.** -/
theorem climb_eq (h : Verdict vs es start side k verdict) (hvs : vs.AtOwnIds) (hes : es.AtOwnIds)
    (n : Nat) (below : List Nat) : climb vs es start side n k below = answerOf below verdict := by
  induction h with
  | home hv hroot hk => exact climb_root (Vertices.get_eq_ok_iff.mpr hv) hroot ((hvs hv).trans hk)
  | foreign hv hroot hk =>
    rw [climb.eq_def]
    simp only [Vertices.get_eq_ok_iff.mpr hv, hroot, hvs hv, if_neg hk, bind, Except.bind, if_true]
    rfl
  | missing hk =>
    rw [climb.eq_def, Vertices.get, hk]
    rfl
  | orphan hv hroot hid =>
    rw [climb.eq_def]
    simp only [Vertices.get_eq_ok_iff.mpr hv, hroot, hid, bind, Except.bind, Bool.false_eq_true,
      if_false]
    rfl
  | @dangling v id hv hroot hid he =>
    have herror : es.get id = .error (.edgeUnissued id es.size) := by rw [Edges.get, he]
    rw [climb.eq_def]
    simp only [Vertices.get_eq_ok_iff.mpr hv, hroot, hid, herror, bind, Except.bind,
      Bool.false_eq_true, if_false]
    rfl
  | astray hv hroot hid he hastray =>
    rw [climb.eq_def]
    simp only [Vertices.get_eq_ok_iff.mpr hv, hroot, hid, Edges.get_eq_ok_iff.mpr he,
      Arc.otherEnd?_eq_none_iff_between.mpr hastray, hes he, bind, Except.bind,
      Bool.false_eq_true, if_false]
    rfl

end Verdict

theorem IsTop.exists_verdict (hk : IsTop vs es k) (start : Nat) (side : Side) :
    ∃ verdict, Verdict vs es start side k verdict := by
  rcases hv : vs.items[k]? with _ | v
  · exact ⟨_, .missing hv⟩
  rcases hroot : v.isRoot with _ | _
  · rcases hid : v.parentEdge with _ | id
    · exact ⟨_, .orphan hv hroot hid⟩
    rcases he : es.items[id]? with _ | e
    · exact ⟨_, .dangling hv hroot hid he⟩
    · exact ⟨_, .astray hv hroot hid he fun j hj ↦ hk id j ⟨v, e, hv, hroot, hid, he, hj⟩⟩
  · by_cases hhome : k = side.root
    · exact ⟨_, .home hv hroot hhome⟩
    · exact ⟨_, .foreign hv hroot hhome⟩

/-! ## The way to the root -/

/-- The chain from `i` goes on for ever. -/
def Endless (vs : Vertices α) (es : Edges τ π) (i : Nat) : Prop :=
  ∀ n, ∃ path k, Ascent vs es i path k ∧ path.length = n

/-- The chain from `i` comes to the root of the side over the edges of `path`, and to no other root
before. -/
def ReachesRoot (vs : Vertices α) (es : Edges τ π) (i : Nat) (side : Side) (path : List Nat) :
    Prop :=
  Ascent vs es i path side.root ∧ ∃ r, vs.items[side.root]? = some r ∧ r.isRoot = true

theorem Endless.not_isTop (h : Endless vs es i) (hpath : Ascent vs es i path k) :
    ¬IsTop vs es k := by
  intro hk
  obtain ⟨more, j, hmore, hlength⟩ := h (path.length + 1)
  obtain ⟨rest, -, hsplit⟩ := hpath.split hk hmore
  have hsum := congrArg List.length hsplit
  rw [List.length_append, hlength] at hsum
  omega

theorem exists_verdict_or_endless (vs : Vertices α) (es : Edges τ π) (i : Nat) (side : Side) :
    (∃ path k verdict, Ascent vs es i path k ∧ Verdict vs es i side k verdict) ∨
      Endless vs es i := by
  by_cases hend : ∃ path k, Ascent vs es i path k ∧ IsTop vs es k
  · obtain ⟨path, k, hpath, hk⟩ := hend
    obtain ⟨verdict, hverdict⟩ := hk.exists_verdict i side
    exact .inl ⟨path, k, verdict, hpath, hverdict⟩
  · exact .inr (exists_ascent_of_endless hend)

variable {v : Vertex α}

theorem pathFromRoot_of_getElem? (hv : vs.items[i]? = some v) :
    pathFromRoot vs es i = climb vs es i v.side vs.size i [] := by
  rw [pathFromRoot, Vertices.get_eq_ok_iff.mpr hv]
  rfl

theorem pathFromRoot_of_verdict (hvs : vs.AtOwnIds) (hes : es.AtOwnIds) (hv : vs.items[i]? = some v)
    (hpath : Ascent vs es i path k) {verdict : Option Fault}
    (h : Verdict vs es i v.side k verdict) : pathFromRoot vs es i = answerOf path verdict := by
  obtain ⟨n, hn⟩ := Nat.exists_eq_add_of_le' (hpath.length_le h.isTop)
  rw [pathFromRoot_of_getElem? hv, hn, climb_of_ascent hes hpath, h.climb_eq hvs hes,
    List.append_nil]

theorem pathFromRoot_of_endless (hes : es.AtOwnIds) (hv : vs.items[i]? = some v)
    (h : Endless vs es i) : pathFromRoot vs es i = .error (.parentCycle i) := by
  obtain ⟨path, k, hpath, hlength⟩ := h vs.size
  have hgoes := h.not_isTop hpath
  simp only [IsTop, not_forall, not_not] at hgoes
  obtain ⟨id, j, hstep⟩ := hgoes
  have hclimb :
      climb vs es i v.side (0 + path.length) i [] = climb vs es i v.side 0 k (path ++ []) :=
    climb_of_ascent hes hpath 0 []
  rw [Nat.zero_add, hlength] at hclimb
  rw [pathFromRoot_of_getElem? hv, hclimb, climb_of_rises hstep]

theorem pathFromRoot_cases (hvs : vs.AtOwnIds) (hes : es.AtOwnIds) (hv : vs.items[i]? = some v) :
    (∃ path k verdict, Ascent vs es i path k ∧ Verdict vs es i v.side k verdict ∧
      pathFromRoot vs es i = answerOf path verdict) ∨
    (Endless vs es i ∧ pathFromRoot vs es i = .error (.parentCycle i)) := by
  obtain ⟨path, k, verdict, hpath, hverdict⟩ | hendless := exists_verdict_or_endless vs es i v.side
  · exact .inl ⟨path, k, verdict, hpath, hverdict,
      pathFromRoot_of_verdict hvs hes hv hpath hverdict⟩
  · exact .inr ⟨hendless, pathFromRoot_of_endless hes hv hendless⟩

theorem pathFromRoot_eq_ok_iff (hvs : vs.AtOwnIds) (hes : es.AtOwnIds)
    (hv : vs.items[i]? = some v) :
    pathFromRoot vs es i = .ok path ↔ ReachesRoot vs es i v.side path := by
  constructor
  · intro h
    obtain ⟨path', k, verdict, hpath, hverdict, hanswer⟩ | ⟨-, hanswer⟩ :=
      pathFromRoot_cases hvs hes hv
    · rw [hanswer] at h
      rcases hverdict with ⟨hr, hroot, rfl⟩ | _ | _ | _ | _ | _
      · obtain rfl := Except.ok.inj h
        exact ⟨hpath, _, hr, hroot⟩
      all_goals exact absurd h (by simp [answerOf])
    · exact absurd (hanswer.symm.trans h) (by simp)
  · rintro ⟨hpath, r, hr, hroot⟩
    exact pathFromRoot_of_verdict hvs hes hv hpath (.home hr hroot rfl)

/-- A fault is the verdict where the chain ends, or the chain goes on for ever. -/
theorem pathFromRoot_eq_error_iff (hvs : vs.AtOwnIds) (hes : es.AtOwnIds)
    (hv : vs.items[i]? = some v) {fault : Fault} : pathFromRoot vs es i = .error fault ↔
      (∃ path k, Ascent vs es i path k ∧ Verdict vs es i v.side k (some fault)) ∨
        (Endless vs es i ∧ fault = .parentCycle i) := by
  constructor
  · intro h
    obtain ⟨path, k, verdict, hpath, hverdict, hanswer⟩ | ⟨hendless, hanswer⟩ :=
      pathFromRoot_cases hvs hes hv
    · rw [hanswer] at h
      rcases verdict with _ | fault'
      · exact absurd h (by simp [answerOf])
      · obtain rfl := Except.error.inj h
        exact .inl ⟨path, k, hpath, hverdict⟩
    · exact .inr ⟨hendless, Except.error.inj (h.symm.trans hanswer)⟩
  · rintro (⟨path, k, hpath, hverdict⟩ | ⟨hendless, rfl⟩)
    · exact pathFromRoot_of_verdict hvs hes hv hpath hverdict
    · exact pathFromRoot_of_endless hes hv hendless

/-- **The way to the root is found exactly where there is one.** The tables may hold anything, as
long as each vertex and each edge stands at its own id. From a vertex there is an answer if and only
if its parent edges lead to a root, and the first root on the way is that of its own side; the
answer is then the list of these edges from the root on. In all other cases there is an invariant
fault. The fault that the chain goes round is raised only for a chain that goes on for ever, so no
chain that reaches a root is too long. -/
theorem pathFromRoot_exact (hvs : vs.AtOwnIds) (hes : es.AtOwnIds) (hv : vs.items[i]? = some v) :
    (∀ path, pathFromRoot vs es i = .ok path ↔ ReachesRoot vs es i v.side path) ∧
    ((¬∃ path, ReachesRoot vs es i v.side path) →
      ∃ fault, pathFromRoot vs es i = .error fault ∧ fault.kind = .invariant) ∧
    (pathFromRoot vs es i = .error (.parentCycle i) ↔ Endless vs es i) := by
  refine ⟨fun path ↦ pathFromRoot_eq_ok_iff hvs hes hv, fun hnot ↦ ?_, fun h ↦ ?_,
    pathFromRoot_of_endless hes hv⟩
  · rcases hanswer : pathFromRoot vs es i with fault | path
    · refine ⟨fault, rfl, ?_⟩
      obtain ⟨_, _, -, hverdict⟩ | ⟨-, rfl⟩ := (pathFromRoot_eq_error_iff hvs hes hv).mp hanswer
      · exact hverdict.kind_eq
      · rfl
    · exact absurd ⟨path, (pathFromRoot_eq_ok_iff hvs hes hv).mp hanswer⟩ hnot
  · obtain ⟨_, _, -, hverdict⟩ | ⟨hendless, -⟩ := (pathFromRoot_eq_error_iff hvs hes hv).mp h
    · rcases hverdict
    · exact hendless

/-- Two vertices hang below the left root, the second by an edge that leaves it, and two others by
each other. -/
theorem pathFromRoot_exact_circle :
    let vs : Vertices Unit :=
      { items := #[{ id := 0, isRoot := true }, { id := 1, isRoot := true, side := .right },
          { id := 2, parentEdge := some 0 }, { id := 3, parentEdge := some 1 },
          { id := 4, parentEdge := some 2 }, { id := 5, parentEdge := some 3 }] }
    let es : Edges Unit Unit :=
      { items := #[⟨⟨0, 0, 2, {}⟩, .absent⟩, ⟨⟨1, 3, 2, {}⟩, .absent⟩, ⟨⟨2, 4, 5, {}⟩, .absent⟩,
          ⟨⟨3, 5, 4, {}⟩, .absent⟩] }
    vs.AtOwnIds ∧ es.AtOwnIds ∧ ReachesRoot vs es 3 .left [0, 1] ∧ Endless vs es 4 ∧
      ∃ fault, pathFromRoot vs es 4 = .error fault ∧ fault.kind = .invariant := by
  intro vs es
  have hvs : vs.AtOwnIds := by
    intro i v hv
    obtain ⟨hi, rfl⟩ := Array.getElem?_eq_some_iff.mp hv
    revert i
    decide
  have hes : es.AtOwnIds := by
    intro id e he
    obtain ⟨hid, rfl⟩ := Array.getElem?_eq_some_iff.mp he
    revert id
    decide
  have hpath : pathFromRoot vs es 3 = .ok [0, 1] := by decide +kernel
  have hreaches : ReachesRoot vs es 3 .left [0, 1] :=
    ((pathFromRoot_exact hvs hes (i := 3) rfl).1 [0, 1]).mp hpath
  obtain ⟨hok, hfault, hendless⟩ := pathFromRoot_exact hvs hes (i := 4) rfl
  have hcircle : pathFromRoot vs es 4 = .error (.parentCycle 4) := by decide +kernel
  refine ⟨hvs, hes, hreaches, hendless.mp hcircle, hfault ?_⟩
  rintro ⟨path, hpath⟩
  exact absurd (hcircle.symm.trans ((hok path).mpr hpath)) (by simp)

end Climbing

end Joinability
