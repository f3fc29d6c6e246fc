import Joinability.Proofs.BreadthFirst.Order

/-!
# What a breadth-first search discovers, in order

`discovered` lists the texts within some distance of a text from the rules alone, level by level and
without a search. As long as the sides of a breadth-first search are apart, the vertices of a side
down to a level that has been visited are what it lists, in the order of their ids
(`Surveyed.map_upTo_eq`).
-/

namespace Joinability

variable {rules : List Rule} {lhs rhs : Text}

/-! ## Discovery -/

/-- The texts at most `n` steps away from a text, in the order in which they are discovered: the
text itself, and then the targets of those discovered before, each at its first occurrence. -/
def discovered (rules : List Rule) (s : Text) : ℕ → List Text
  | 0 => [s]
  | n + 1 => (s :: (discovered rules s n).flatMap (targets rules)).eraseDups

theorem mem_discovered_iff {s t : Text} {n : ℕ} :
    t ∈ discovered rules s n ↔ ∃ m ≤ n, Derives rules m s t := by
  induction n generalizing t with
  | zero =>
    rw [discovered, List.mem_singleton]
    constructor
    · rintro rfl
      exact ⟨0, Nat.le_refl 0, rfl⟩
    · rintro ⟨m, hm, ht⟩
      rw [Nat.le_zero.mp hm] at ht
      exact (derives_zero.mp ht).symm
  | succ n ih =>
    rw [discovered, List.mem_eraseDups, List.mem_cons, List.mem_flatMap]
    constructor
    · rintro (rfl | ⟨u, hu, ht⟩)
      · exact ⟨0, Nat.zero_le _, rfl⟩
      · obtain ⟨m, hm, hsu⟩ := ih.mp hu
        exact ⟨m + 1, Nat.succ_le_succ hm, u, hsu, mem_targets_iff.mp ht⟩
    · rintro ⟨_ | m, hm, ht⟩
      · exact Or.inl (derives_zero.mp ht).symm
      · obtain ⟨u, hsu, hstep⟩ := ht
        exact Or.inr ⟨u, ih.mpr ⟨m, Nat.le_of_succ_le_succ hm, hsu⟩, mem_targets_iff.mpr hstep⟩

/-! ## Along a search -/

namespace Exploration

variable {x y : Exploration Payload Recipe Evidence} {f g : Option Nat} {maxDepth k r : Nat}
  {q : BreadthFirst}

theorem inOrder_rooted (config : Config Payload) (lhs rhs : Text) :
    (rooted config (.ofText lhs) (.ofText rhs)).skeleton.InOrder rules lhs rhs
      (rooted config (.ofText lhs) (.ofText rhs) :
        Exploration Payload Recipe Evidence).progress := by
  intro s
  obtain ⟨left, right, hitems, hl, hr⟩ :=
    items_rooted (τ := Recipe) (π := Evidence) config (.ofText lhs) (.ofText rhs)
  set x : Exploration Payload Recipe Evidence := rooted config (.ofText lhs) (.ofText rhs)
  have hvertices : x.skeleton.vertices = #[left, right] := by
    rw [skeleton, hitems]
    simp [hl.asBorn, hr.asBorn]
  have hside : x.skeleton.ofSide s = [s.pick left right] := by
    rw [Skeleton.ofSide, hvertices]
    cases s <;> simp [hl.side, hr.side, Side.pick]
  have htried : x.skeleton.triedOn rules x.progress s = [] := by
    refine List.flatMap_eq_nil_iff.mpr fun v hv ↦ Skeleton.triedAt_eq_nil fun b c hp ↦ ?_
    exact (progress_rooted hp).2
  rw [hside, htried]
  cases s with
  | left => rw [List.map_singleton, Vertex.pretty, Side.pick, hl.term]; rfl
  | right => rw [List.map_singleton, Vertex.pretty, Side.pick, hr.term]; rfl

/-- The texts of a side are those of its vertices. -/
theorem Surveyed.mem_map_ofSide_iff (h : Surveyed rules lhs rhs x f maxDepth k q) {s : Side}
    {t : Text} : t ∈ (x.skeleton.ofSide s).map Vertex.pretty ↔
      ∃ (i : Nat) (v : Vertex Payload), x.skeleton.vertices[i]? = some v ∧ v.side = s ∧
        v.pretty = t := by
  rw [List.mem_map]
  constructor
  · rintro ⟨v, hv, rfl⟩
    obtain ⟨hv, hside⟩ := h.orderly.forest.mem_ofSide_iff.mp hv
    exact ⟨v.id, v, hv, hside, rfl⟩
  · rintro ⟨i, v, hv, hside, rfl⟩
    obtain rfl := h.orderly.forest.id_eq hv
    exact ⟨v, h.orderly.forest.mem_ofSide_iff.mpr ⟨hv, hside⟩, rfl⟩

/-- **Every move that leaves the sides apart keeps the order of discovery.** -/
theorem Surveyed.inOrder (hs : Surveyed rules lhs rhs x f maxDepth k q)
    (hm : Effect (.ofRules rules) x f y g) (h : x.skeleton.InOrder rules lhs rhs x.progress) :
    y.skeleton.InOrder rules lhs rhs y.progress := by
  have hyounger {v : Vertex Payload} (hf : f = some v.id) (i : Nat) (b : Bool) (c : Nat)
      (hp : x.progress i = some (b, c)) (hi : v.id < i) : c = 0 := by
    have hk := hs.levelled.inFocus hf
    exact (hs.levelled.handed.fresh hp (by omega)).2
  cases hm with
  | take hskel hprog _ => rwa [hskel, hprog]
  | dry hskel hprog _ => rwa [hskel, hprog]
  | fail hskel hprog _ => rwa [hskel, hprog]
  | @close _ v tally hskel hfront hv htry hprog =>
    rw [hskel, hprog]
    exact h.close (progress_of hv)
  | @grow _ v tally r tokens score hv htry hnew hskel hprog hfront =>
    obtain ⟨site, hsite, rfl⟩ :=
      (Engine.tryNext_ofRules_eq_some_iff (term_eq_ofText hs.labelled hv)).mp htry
    -- the text has no vertex yet, so it is none of those in the list
    have hfresh : site.result v.pretty ∉ (x.skeleton.ofSide v.side).map Vertex.pretty := by
      intro hmem
      obtain ⟨i, w, hw, -, hpretty⟩ := hs.mem_map_ofSide_iff.mp hmem
      have hfind := hs.orderly.forest.find_iff.mpr ⟨w, hw, rfl⟩
      have hkeys : x.skeleton.key w.term = x.skeleton.key (.ofText (site.result v.pretty)) := by
        rw [key_skeleton, hs.key]
        exact hpretty
      rw [hkeys] at hfind
      exact absurd (hnew.symm.trans hfind) (by simp)
    rw [hskel, hprog, ← size_vertices_skeleton]
    exact h.withChild (v := v.asBorn) hs.orderly.forest (getElem?_skeleton_of hv) (progress_of hv)
      (getElem?_targets hsite) (hyounger rfl) hfresh tokens _ _
  | @discard _ v w tally r hv htry hfind hw hside hskel hprog hfront =>
    obtain ⟨site, hsite, rfl⟩ :=
      (Engine.tryNext_ofRules_eq_some_iff (term_eq_ofText hs.labelled hv)).mp htry
    -- the text is that of a vertex of the same side
    have hknown : site.result v.pretty ∈ (x.skeleton.ofSide v.side).map Vertex.pretty := by
      have hpretty := pretty_eq_of_findId? hs.orderly.forest hs.key hfind hw
      exact hs.mem_map_ofSide_iff.mpr ⟨w.id, w.asBorn, getElem?_skeleton_of hw, hside, hpretty⟩
    rw [hskel, hprog]
    exact h.advance (v := v.asBorn) hs.orderly.forest (getElem?_skeleton_of hv) (progress_of hv)
      (getElem?_targets hsite) (hyounger rfl) hknown

/-- **A breadth-first search with rules discovers texts in order.** -/
theorem Reached.inOrder {config : Config Payload} (hkey : config.key = Term.pretty)
    (hne : lhs ≠ rhs) (hbfs : config.strategy = .breadthFirst)
    (h : Reached (.ofRules rules) config (.ofText lhs) (.ofText rhs) x f)
    (hapart : x.meeting = none) : x.skeleton.InOrder rules lhs rhs x.progress := by
  induction h with
  | start => exact inOrder_rooted config lhs rhs
  | move h hm ih =>
    obtain ⟨k, q, hs⟩ := h.surveyed hkey hne hbfs hm.isOpen.meeting
    exact hs.inOrder (hm.effect hapart) (ih hm.isOpen.meeting)

/-! ## Levels that have been visited -/

namespace Surveyed

/-- Deeper vertices of a side come later. -/
theorem upTo_isPrefix (h : Surveyed rules lhs rhs x f maxDepth k q) (s : Side) (n : ℕ) :
    x.skeleton.upTo s n <+: x.skeleton.ofSide s := by
  have hsorted : x.skeleton.vertices.toList.Pairwise fun v w ↦ v.rank ≤ w.rank := by
    refine List.pairwise_iff_getElem.mpr ?_
    intro i j hi hj hij
    rw [Array.length_toList] at hi hj
    exact h.levelled.ranked.mono (Array.getElem?_eq_getElem hi) (Array.getElem?_eq_getElem hj)
      (Nat.le_of_lt hij)
  refine filter_isPrefix ((hsorted.filter _).imp_of_mem ?_)
  intro v w hv hw hrank hdepth
  have hvs : v.side = s := by simpa using (List.mem_filter.mp hv).2
  have hws : w.side = s := by simpa using (List.mem_filter.mp hw).2
  rw [Vertex.rank, Vertex.rank, hvs, hws] at hrank
  rw [decide_eq_true_iff] at hdepth ⊢
  omega

theorem nodup_map_ofSide (h : Surveyed rules lhs rhs x f maxDepth k q) (s : Side) :
    ((x.skeleton.ofSide s).map Vertex.pretty).Nodup := by
  have hdistinct : x.skeleton.vertices.toList.Pairwise fun v w ↦ v.pretty ≠ w.pretty := by
    refine List.pairwise_iff_getElem.mpr fun i j hi hj hij heq ↦ Nat.ne_of_lt hij ?_
    rw [Array.length_toList] at hi hj
    refine h.orderly.forest.eq_of_key_eq (Array.getElem?_eq_getElem hi)
      (Array.getElem?_eq_getElem hj) ?_
    rw [key_skeleton, h.key]
    exact heq
  exact List.pairwise_map.mpr (hdistinct.filter _)

/-- The texts of a side down to a level that has been visited are those discovered from its root. -/
theorem mem_map_upTo_iff (h : Surveyed rules lhs rhs x f maxDepth k q) (hr : x.VisitedBelow r)
    {s : Side} {n : ℕ} (hn : 2 * n + s.root < r + 2) {t : Text} :
    t ∈ (x.skeleton.upTo s n).map Vertex.pretty ↔ t ∈ discovered rules (s.pick lhs rhs) n := by
  rw [mem_discovered_iff, List.mem_map]
  constructor
  · rintro ⟨v, hv, rfl⟩
    obtain ⟨hget, hside, hdepth⟩ := h.orderly.forest.mem_upTo_iff.mp hv
    exact ⟨v.depth, hdepth, hside ▸ h.grown.derives hget⟩
  · rintro ⟨m, hm, ht⟩
    obtain ⟨i, v, hv, hside, hpretty, hdepth⟩ := h.exists_of_derives hr ht (by omega)
    obtain rfl := h.orderly.forest.id_eq hv
    exact ⟨v, h.orderly.forest.mem_upTo_iff.mpr ⟨hv, hside, by omega⟩, hpretty⟩

/-- The texts discovered come in the order in which the vertices of the side were created. -/
theorem map_upTo_eq (h : Surveyed rules lhs rhs x f maxDepth k q)
    (ho : x.skeleton.InOrder rules lhs rhs x.progress) (hr : x.VisitedBelow r) {s : Side} {n : ℕ}
    (hn : 2 * n + s.root < r + 2) :
    (x.skeleton.upTo s n).map Vertex.pretty = discovered rules (s.pick lhs rhs) n := by
  have hbegins (n : ℕ) : (x.skeleton.upTo s n).map Vertex.pretty
      <+: (x.skeleton.ofSide s).map Vertex.pretty := (h.upTo_isPrefix s n).map _
  refine eq_of_isPrefix_of_mem_iff (hbegins n) ?_ (h.nodup_map_ofSide s)
    fun t ↦ h.mem_map_upTo_iff hr hn
  induction n with
  | zero =>
    rw [ho s, List.eraseDups_cons, discovered]
    exact List.cons_prefix_cons.mpr ⟨rfl, List.nil_prefix⟩
  | succ n ih =>
    have heq : (x.skeleton.upTo s n).map Vertex.pretty = discovered rules (s.pick lhs rhs) n :=
      eq_of_isPrefix_of_mem_iff (hbegins n) (ih (by omega)) (h.nodup_map_ofSide s)
        fun t ↦ h.mem_map_upTo_iff hr (by omega)
    -- all vertices of the level have been visited, so all their targets have been tried
    have hall : (x.skeleton.upTo s n).flatMap (Skeleton.triedAt rules x.progress)
        = (discovered rules (s.pick lhs rhs) n).flatMap (targets rules) := by
      rw [← heq, List.flatMap_map]
      refine List.flatMap_congr ?_
      intro v hv
      obtain ⟨hv, hside, hdepth⟩ := h.orderly.forest.mem_upTo_iff.mp hv
      obtain ⟨c, hc⟩ := hr v.id v hv (by rw [Vertex.rank, hside]; omega)
      rw [Skeleton.triedAt_of_eq hc]
      exact List.take_of_length_le (h.tried.all hv hc)
    obtain ⟨rest, hrest⟩ := h.upTo_isPrefix s n
    rw [ho s, Skeleton.triedOn, ← hrest, List.flatMap_append, hall, discovered,
      ← List.cons_append, List.eraseDups_append]
    exact List.prefix_append _ _

end Surveyed

end Exploration

end Joinability
