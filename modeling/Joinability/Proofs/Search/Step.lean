import Joinability.Proofs.Search.Move
import Joinability.Search.Proof

/-!
# Steps are sequences of moves

In an orderly state a step halts, or it asks the engine once (`Exploration.Orderly.halts_or_asks`).
So a step is at most two moves: the frontier hands out a vertex, and the engine answers for it.
Whatever a step leaves behind was reached by moves, and `Fits` says what its answer adds to that: a
fault is one of the engine at the vertex in focus, sides that have met have marked the edge, and an
exhausted search has just asked an empty frontier.
-/

namespace Joinability

variable {σ α τ π : Type}

namespace Exploration

/-! ## The parts of a step -/

theorem select_of_next_none {x y : Exploration α τ π} {entries : List (Entry α)}
    (h : x.next = (none, y, entries)) : x.select = (.ok none, y, entries) := by
  rw [select, select.go, h]

theorem select_of_unvisited {x y : Exploration α τ π} {v : Vertex α} {entries : List (Entry α)}
    (h : x.next = (some v.id, y, entries)) (hv : y.vertices.items[v.id]? = some v)
    (hvis : v.visited = false) : x.select = (.ok (some v.id), y, entries) := by
  have hget : y.vertices.get v.id = .ok v := Vertices.get_eq_ok_iff.mpr hv
  rw [select, select.go, h]
  simp only [hget, hvis]
  rfl

theorem findId?_of_find? {x : Exploration α τ π} {focus : Option Nat} (hx : x.Orderly focus)
    {t : Term α} {w : Vertex α} (h : x.find? t = some w) :
    x.findId? t = some w.id ∧ x.vertices.items[w.id]? = some w := by
  obtain ⟨i, hi, hw⟩ := Option.bind_eq_some_iff.mp h
  obtain rfl : w.id = i := hx.id_eq hw
  exact ⟨hi, hw⟩

theorem find?_eq_none_iff {x : Exploration α τ π} {focus : Option Nat} (hx : x.Orderly focus)
    {t : Term α} : x.find? t = none ↔ x.findId? t = none := by
  constructor
  · intro h
    rcases hid : x.findId? t with _ | i
    · rfl
    · obtain ⟨b, hb, -⟩ := hx.forest.find_iff.mp hid
      obtain ⟨u, hu, -⟩ := exists_of_getElem?_skeleton hb
      rw [find?, hid, Option.bind_some, hu] at h
      exact absurd h (by simp)
  · intro h
    rw [find?, h, Option.bind_none]

/-- What the answer of a step says of the exploration and the focus that it leaves behind. -/
def Fits (e : Engine σ α τ π) (x : Exploration α τ π) (focus : Option Nat) :
    Except Fault Outcome → Prop
  | .error fault => ∃ v s, focus = some v.id ∧ x.vertices.items[v.id]? = some v ∧
      (e.tryNext v v.cursor s).1 = .error fault
  | .ok (.ended (.met m)) => x.meeting = some m
  | .ok (.ended .exhausted) => x.meeting = none ∧ focus = none ∧
      ∃ (y : Exploration α τ π) (entries : List (Entry α)), y.next = (none, x, entries)
  | .ok _ => x.meeting = none

/-- What becomes of a reduct, by the vertex that is found under its key. -/
theorem absorb_eq (x : Exploration α τ π) (v : Vertex α) (r : Reduct α τ) :
    x.absorb v r = match (x.advance v r.next).find? r.term with
      | none =>
        let grown := (x.advance v r.next).grow { v with cursor := r.next } r.term r.use r.recipe
        (.progressed, .exploring grown.2.2 (some v.id), .vertexAdded grown.1 grown.2.1.toArc)
      | some w =>
        if w.side = v.side then
          (.repeated, .exploring (x.advance v r.next).discard (some v.id),
            .duplicateDiscarded { v with cursor := r.next } w r.use)
        else
          let linked := (x.advance v r.next).link v.id w.id r.use r.recipe
          (.ended (.met x.edges.size), .exploring (linked.2.markMeeting x.edges.size) none,
            .sidesMet { v with cursor := r.next } w linked.1.toArc) := rfl

theorem absorb_of_new {x : Exploration α τ π} {v : Vertex α} {r : Reduct α τ}
    (h : (x.advance v r.next).find? r.term = none) :
    (x.absorb v r).1 = .progressed ∧ (x.absorb v r).2.1 = .exploring
      ((x.advance v r.next).grow { v with cursor := r.next } r.term r.use r.recipe).2.2
      (some v.id) := by
  rw [absorb_eq, h]
  exact ⟨rfl, rfl⟩

theorem absorb_of_same_side {x : Exploration α τ π} {v w : Vertex α} {r : Reduct α τ}
    (h : (x.advance v r.next).find? r.term = some w) (hside : w.side = v.side) :
    (x.absorb v r).1 = .repeated ∧
      (x.absorb v r).2.1 = .exploring (x.advance v r.next).discard (some v.id) := by
  rw [absorb_eq, h]
  simp only [if_pos hside, and_self]

theorem absorb_of_other_side {x : Exploration α τ π} {v w : Vertex α} {r : Reduct α τ}
    (h : (x.advance v r.next).find? r.term = some w) (hside : w.side ≠ v.side) :
    (x.absorb v r).1 = .ended (.met x.edges.size) ∧ (x.absorb v r).2.1 = .exploring
      (((x.advance v r.next).link v.id w.id r.use r.recipe).2.markMeeting x.edges.size) none := by
  rw [absorb_eq, h]
  simp only [if_neg hside, and_self]

theorem expand_eq {e : Engine σ α τ π} {x : Exploration α τ π} {v : Vertex α}
    (hv : x.vertices.items[v.id]? = some v) (s : σ) :
    x.expand e v.id s = match e.tryNext v v.cursor s with
      | (.error fault, s) =>
        { answer := .error fault, search := .exploring x.spend (some v.id), engine := s }
      | (.ok none, s) =>
        { answer := .ok .progressed
          search := .exploring (x.spend.put { v with visited := true }) none, engine := s
          journal := [.vertexExhausted { v with visited := true }] }
      | (.ok (some r), s) =>
        { answer := .ok (x.spend.absorb v r).1, search := (x.spend.absorb v r).2.1, engine := s
          journal := [(x.spend.absorb v r).2.2] } := by
  have hget : x.vertices.getForUpdate v.id = .ok v := Vertices.getForUpdate_eq_ok_iff.mpr hv
  rw [expand]
  simp only [hget]
  rfl

/-- Expanding a vertex ends a search only where its sides meet. -/
theorem exists_met_of_expand {e : Engine σ α τ π} {x : Exploration α τ π} {v : Vertex α} {s : σ}
    {ending : Ending} (hv : x.vertices.items[v.id]? = some v)
    (h : (x.expand e v.id s).answer = .ok (.ended ending)) : ∃ m, ending = .met m := by
  rw [expand_eq hv] at h
  rcases htry : e.tryNext v v.cursor s with ⟨_ | _ | r, t⟩
  · simp [htry] at h
  · simp [htry] at h
  · simp only [htry, Except.ok.injEq] at h
    rw [absorb_eq] at h
    split at h
    · simp at h
    · split at h
      · simp at h
      · exact ⟨_, (Outcome.ended.inj h).symm⟩

/-! ## What a step comes to -/

/-- A step that ends the search without asking the engine: how it ends, the exploration that it
leaves behind, and what it has done. The focus stays as it was. -/
inductive Halts (x : Exploration α τ π) (focus : Option Nat) (elapsed : Nat) :
    Ending → Exploration α τ π → List (Entry α) → Prop
  /-- The sides have met. -/
  | met {m : Nat} (h : x.meeting = some m) : Halts x focus elapsed (.met m) x []
  /-- The budget is spent. -/
  | spent (hmeet : x.meeting = none) (h : x.isSpent elapsed = true) :
      Halts x focus elapsed .aborted x [.budgetSpent x.stats.steps]
  /-- There is no focus, and the frontier has nothing to hand out. -/
  | dry {y : Exploration α τ π} {entries : List (Entry α)} (hmeet : x.meeting = none)
      (hspent : x.isSpent elapsed = false) (hfocus : focus = none)
      (h : x.next = (none, y, entries)) : Halts x focus elapsed .exhausted y
        (entries ++ [.frontierExhausted y.frontier.depth y.frontier.isCut])

/-- A step that asks the engine for a reduct of the vertex `v`: the exploration in which it does so,
and what it has done before. -/
inductive Asks (x : Exploration α τ π) (focus : Option Nat) (elapsed : Nat) :
    Exploration α τ π → Vertex α → List (Entry α) → Prop
  /-- The vertex was in focus. -/
  | kept {v : Vertex α} (hmeet : x.meeting = none) (hspent : x.isSpent elapsed = false)
      (hfocus : focus = some v.id) (hv : x.vertices.items[v.id]? = some v) :
      Asks x focus elapsed x v []
  /-- The vertex comes from the frontier. -/
  | taken {y : Exploration α τ π} {v : Vertex α} {entries : List (Entry α)}
      (hmeet : x.meeting = none) (hspent : x.isSpent elapsed = false) (hfocus : focus = none)
      (h : x.next = (some v.id, y, entries)) (hv : y.vertices.items[v.id]? = some v)
      (hvis : v.visited = false) : Asks x focus elapsed y v entries

section Turn

variable {x y : Exploration α τ π} {focus : Option Nat} {elapsed : Nat} {ending : Ending}
  {v : Vertex α} {entries : List (Entry α)}

theorem isOpen_of_not_spent (hmeet : x.meeting = none) (hspent : x.isSpent elapsed = false) :
    x.IsOpen := by
  rw [isSpent, Bool.or_eq_false_iff, decide_eq_false_iff_not] at hspent
  exact ⟨hmeet, Nat.lt_of_not_le hspent.1⟩

theorem Halts.step_eq (h : x.Halts focus elapsed ending y entries) (e : Engine σ α τ π) (s : σ) :
    (Search.exploring x focus).step e elapsed s
      = { answer := .ok (.ended ending), search := .exploring y focus, engine := s
          journal := entries } := by
  unfold Search.step
  cases h with
  | met h => simp only [h]
  | spent hmeet h => simp only [hmeet, h, if_true]
  | dry hmeet hspent hfocus h =>
    subst hfocus
    simp only [hmeet, hspent, select_of_next_none h, Bool.false_eq_true, if_false]

theorem Asks.step_eq (h : x.Asks focus elapsed y v entries) (e : Engine σ α τ π) (s : σ) :
    (Search.exploring x focus).step e elapsed s = (y.expand e v.id s).after entries := by
  unfold Search.step
  cases h with
  | kept hmeet hspent hfocus hv =>
    subst hfocus
    simp only [hmeet, hspent, Bool.false_eq_true, if_false]
    rfl
  | taken hmeet hspent hfocus h hv hvis =>
    subst hfocus
    simp only [hmeet, hspent, select_of_unvisited h hv hvis, Bool.false_eq_true, if_false]

theorem Asks.getElem? (h : x.Asks focus elapsed y v entries) :
    y.vertices.items[v.id]? = some v := by
  cases h <;> assumption

theorem Halts.stats_eq (h : x.Halts focus elapsed ending y entries) : y.stats = x.stats := by
  cases h with
  | met _ | spent _ _ => rfl
  | dry _ _ _ h => rw [(next_eq h).2]

theorem Asks.stats_eq (h : x.Asks focus elapsed y v entries) : y.stats = x.stats := by
  cases h with
  | kept _ _ _ _ => rfl
  | taken _ _ _ h _ _ => rw [(next_eq h).2]

theorem Asks.isOpen (h : x.Asks focus elapsed y v entries) : y.IsOpen := by
  cases h with
  | kept hmeet hspent _ _ => exact isOpen_of_not_spent hmeet hspent
  | taken hmeet hspent _ h _ _ =>
    have hx := isOpen_of_not_spent hmeet hspent
    rw [(next_eq h).2]
    exact ⟨hx.meeting, hx.steps⟩

/-- **A step halts, or asks the engine once.** -/
theorem Orderly.halts_or_asks (hx : x.Orderly focus) (elapsed : Nat) :
    (∃ ending y entries, x.Halts focus elapsed ending y entries) ∨
      ∃ y v entries, x.Asks focus elapsed y v entries := by
  rcases hmeet : x.meeting with _ | m
  · cases hspent : x.isSpent elapsed with
    | true => exact Or.inl ⟨_, _, _, .spent hmeet hspent⟩
    | false =>
      rcases focus with _ | i
      · rcases hnext : x.next with ⟨_ | i, y, entries⟩
        · exact Or.inl ⟨_, _, _, .dry hmeet hspent rfl hnext⟩
        · have hy := hx.take hnext
          obtain ⟨v, hv, hvis⟩ := hy.unvisited i List.mem_cons_self
          obtain rfl := hy.id_eq hv
          exact Or.inr ⟨_, v, _, .taken hmeet hspent rfl hnext hv hvis⟩
      · obtain ⟨v, hv, -⟩ := hx.unvisited i List.mem_cons_self
        obtain rfl := hx.id_eq hv
        exact Or.inr ⟨_, v, _, .kept hmeet hspent rfl hv⟩
  · exact Or.inl ⟨_, _, _, .met hmeet⟩

end Turn

/-- A reply leaves a reached pair behind, and its answer fits it. -/
def Accounts (e : Engine σ α τ π) (config : Config α) (lhs rhs : Term α)
    (search : Search α τ π) (answer : Except Fault Outcome) : Prop :=
  ∃ y g, search = .exploring y g ∧ Reached e config lhs rhs y g ∧ Fits e y g answer

variable {e : Engine σ α τ π} {config : Config α} {lhs rhs : Term α} {x : Exploration α τ π}

theorem Reached.halts {y : Exploration α τ π} {focus : Option Nat} {elapsed : Nat}
    {ending : Ending} {entries : List (Entry α)} (h : Reached e config lhs rhs x focus)
    (hhalts : x.Halts focus elapsed ending y entries) :
    Reached e config lhs rhs y focus ∧ Fits e y focus (.ok (.ended ending)) := by
  cases hhalts with
  | met hmeet => exact ⟨h, hmeet⟩
  | spent hmeet _ => exact ⟨h, hmeet⟩
  | dry hmeet hspent hfocus hnext =>
    subst hfocus
    refine ⟨h.move (.dry (isOpen_of_not_spent hmeet hspent) hnext), ?_, rfl, _, _, hnext⟩
    rw [(next_eq hnext).2]
    exact hmeet

theorem Reached.asks {y : Exploration α τ π} {focus : Option Nat} {elapsed : Nat} {v : Vertex α}
    {entries : List (Entry α)} (h : Reached e config lhs rhs x focus)
    (hasks : x.Asks focus elapsed y v entries) :
    Reached e config lhs rhs y (some v.id) ∧ y.IsOpen := by
  refine ⟨?_, hasks.isOpen⟩
  cases hasks with
  | kept _ _ hfocus _ =>
    subst hfocus
    exact h
  | taken hmeet hspent hfocus hnext _ _ =>
    subst hfocus
    exact h.move (.take (isOpen_of_not_spent hmeet hspent) hnext)

/-- Expanding a vertex is one move, the one that the engine makes in the state in which it is
asked. -/
theorem Orderly.exists_move {v : Vertex α} (hord : x.Orderly (some v.id)) (hx : x.IsOpen)
    (hv : x.vertices.items[v.id]? = some v) (s : σ) : ∃ y g,
    (x.expand e v.id s).search = .exploring y g ∧ Move (e.frozen s) x (some v.id) y g ∧
      Fits e y g (x.expand e v.id s).answer := by
  rw [expand_eq hv]
  rcases htry : e.tryNext v v.cursor s with ⟨fault | _ | r, t⟩
  · have hfail : (e.tryNext v v.cursor s).1 = .error fault := by rw [htry]
    exact ⟨_, _, rfl, .fail (s := s) hx hv hfail, v, s, rfl, hv, hfail⟩
  · have hnone : (e.tryNext v v.cursor s).1 = .ok none := by rw [htry]
    exact ⟨_, _, rfl, .close (s := s) hx hv hnone, hx.meeting⟩
  · have hsome : (e.tryNext v v.cursor s).1 = .ok (some r) := by rw [htry]
    have hadv := (hord.spend.advance hv r.next)
    show ∃ y g, (x.spend.absorb v r).2.1 = .exploring y g ∧ Move (e.frozen s) x (some v.id) y g ∧
      Fits e y g (.ok (x.spend.absorb v r).1)
    rcases hfind : (x.spend.advance v r.next).find? r.term with _ | w
    · obtain ⟨hout, hsearch⟩ := absorb_of_new hfind
      rw [hout, hsearch]
      have hnew : x.findId? r.term = none := (find?_eq_none_iff hadv).mp hfind
      exact ⟨_, _, rfl, .grow (s := s) hx hv hsome hnew, hx.meeting⟩
    · obtain ⟨hid, hw⟩ := findId?_of_find? hadv hfind
      obtain ⟨u, hu, huside, hold⟩ := getElem?_of_advance hv hw
      rw [← hu] at hid hold
      by_cases hside : w.side = v.side
      · obtain ⟨hout, hsearch⟩ := absorb_of_same_side hfind hside
        rw [hout, hsearch]
        exact ⟨_, _, rfl, .discard (s := s) hx hv hsome hid hold (huside.trans hside), hx.meeting⟩
      · obtain ⟨hout, hsearch⟩ := absorb_of_other_side hfind hside
        rw [hout, hsearch, ← hu]
        refine ⟨_, _, rfl, .meet (s := s) hx hv hsome hid hold ?_, rfl⟩
        rwa [huside]

theorem Reached.expand (hne : config.key lhs ≠ config.key rhs) {v : Vertex α}
    (h : Reached e config lhs rhs x (some v.id)) (hx : x.IsOpen)
    (hv : x.vertices.items[v.id]? = some v) (s : σ) :
    Accounts e config lhs rhs (x.expand e v.id s).search (x.expand e v.id s).answer := by
  obtain ⟨y, g, hsearch, hm, hfits⟩ := (h.orderly hne).exists_move (e := e) hx hv s
  exact ⟨y, g, hsearch, h.move hm.of_frozen, hfits⟩

/-- **What a step leaves behind was reached by moves, and its answer fits.** -/
theorem Reached.step (hne : config.key lhs ≠ config.key rhs) {focus : Option Nat}
    (h : Reached e config lhs rhs x focus) (elapsed : Nat) (s : σ) :
    Accounts e config lhs rhs ((Search.exploring x focus).step e elapsed s).search
      ((Search.exploring x focus).step e elapsed s).answer := by
  rcases (h.orderly hne).halts_or_asks elapsed with
    ⟨ending, y, entries, hhalts⟩ | ⟨y, v, entries, hasks⟩
  · rw [hhalts.step_eq]
    exact ⟨_, _, rfl, h.halts hhalts⟩
  · rw [hasks.step_eq]
    obtain ⟨hy, hopen⟩ := h.asks hasks
    exact hy.expand hne hopen hasks.getElem? s

theorem start_of_key_ne (hne : config.key lhs ≠ config.key rhs) :
    (Search.start config lhs rhs : Search α τ π × List (Entry α)).1
      = .exploring (rooted config lhs rhs) none := by
  rw [Search.start, if_neg hne]
  rfl

/-- A search over two terms with the same key has nothing to explore. -/
theorem solve_of_key_eq (hkey : config.key lhs = config.key rhs) (clock : Nat → Nat) (s : σ) :
    (Search.solve e clock config lhs rhs s).answer
        = (e.reflexivity lhs).map (fun p ↦ .proved p [] {}) ∧
      (Search.solve e clock config lhs rhs s).search = .agreed lhs ∧
      (Search.solve e clock config lhs rhs s).engine = s := by
  have hstart : (Search.start config lhs rhs : Search α τ π × List (Entry α))
      = (.agreed lhs, [.sidesAgree lhs rhs]) := by rw [Search.start, if_pos hkey]
  have hrun : (Search.agreed lhs : Search α τ π).run e clock s
      = ([.ended (.met unissued)],
        { answer := .ok (.met unissued), search := .agreed lhs, engine := s }) := by
    rw [Search.run, Search.run.go]
    rfl
  unfold Search.solve
  simp only [hstart, hrun, Search.conclude, Search.prove, if_true]
  cases e.reflexivity lhs with
  | error fault => exact ⟨rfl, rfl, rfl⟩
  | ok p => exact ⟨rfl, rfl, rfl⟩

end Exploration

/-! ## Any number of steps -/

namespace Search

/-- What starting a search and then stepping any number of times leaves behind. Each step may find
any time elapsed and the engine in any state. -/
inductive Stepped (e : Engine σ α τ π) (config : Config α) (lhs rhs : Term α) :
    Search α τ π → Prop
  | start : Stepped e config lhs rhs (start config lhs rhs).1
  | step {search : Search α τ π} (h : Stepped e config lhs rhs search) (elapsed : Nat) (s : σ) :
      Stepped e config lhs rhs (search.step e elapsed s).search

variable {e : Engine σ α τ π} {config : Config α} {lhs rhs : Term α} {search : Search α τ π}

theorem Stepped.eq_agreed (h : Stepped e config lhs rhs search)
    (hkey : config.key lhs = config.key rhs) : search = .agreed lhs := by
  induction h with
  | start => rw [Search.start, if_pos hkey]
  | step _ elapsed s ih => rw [ih]; rfl

theorem Stepped.exists_reached (h : Stepped e config lhs rhs search)
    (hne : config.key lhs ≠ config.key rhs) :
    ∃ x focus, search = .exploring x focus ∧ Exploration.Reached e config lhs rhs x focus := by
  induction h with
  | start => exact ⟨_, _, Exploration.start_of_key_ne hne, .start⟩
  | step _ elapsed s ih =>
    obtain ⟨x, focus, rfl, hx⟩ := ih
    obtain ⟨y, g, hy, hreach, -⟩ := hx.step hne elapsed s
    exact ⟨y, g, hy, hreach⟩

theorem Stepped.agreed_or_reached (h : Stepped e config lhs rhs search) :
    (config.key lhs = config.key rhs ∧ search = .agreed lhs) ∨
      (config.key lhs ≠ config.key rhs ∧
        ∃ x focus, search = .exploring x focus ∧ Exploration.Reached e config lhs rhs x focus) := by
  by_cases hkey : config.key lhs = config.key rhs
  · exact Or.inl ⟨hkey, h.eq_agreed hkey⟩
  · exact Or.inr ⟨hkey, h.exists_reached hkey⟩

theorem Stepped.reached {x : Exploration α τ π} {focus : Option Nat}
    (h : Stepped e config lhs rhs (.exploring x focus)) :
    config.key lhs ≠ config.key rhs ∧ Exploration.Reached e config lhs rhs x focus := by
  rcases h.agreed_or_reached with ⟨-, hagreed⟩ | ⟨hkey, _, _, ⟨⟩, hx⟩
  · exact absurd hagreed (by simp)
  · exact ⟨hkey, hx⟩

end Search

end Joinability
