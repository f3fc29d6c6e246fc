import Joinability.Proofs.Events.Chronicle
import Joinability.Proofs.Search.Building
import Joinability.Proofs.Search.Graph
import Joinability.Session

/-!
# What an observer hears of a search

Every operation of a search leaves a journal, and the observers are notified of the events behind
its entries. An observer that is attached hears all of them, in their order, whoever else is
attached (`heard_notifications`).

The events of one step are a beat over the portrait of the graph before the step, and lead to the
portrait of the graph after it (`Exploration.Reached.exists_beat_step`). So the events of a run are
a chronicle, whichever way it ends. Concluding a search builds a proof at most, of which observers
are not told and which changes no arc. **`Search.solve_narrated`** puts this together: an observer
hears of the roots first and of the result last, and what it hears in between gives the graph.
-/

namespace Joinability

variable {σ α τ π : Type}

/-! ## Notifications -/

/-- What an observer is notified of, in order. -/
def heard (observer : Text) (notifications : List (Text × Event α)) : List (Event α) :=
  notifications.filterMap fun n ↦ if n.1 = observer then some n.2 else none

theorem heard_map (observer other : Text) (events : List (Event α)) :
    heard observer (events.map fun event ↦ (other, event)) =
      if other = observer then events else [] := by
  rw [heard, List.filterMap_map]
  by_cases h : other = observer
  · rw [if_pos h]
    simp [h]
  · rw [if_neg h]
    simp [h]

/-- Of the turns that the observers take for an entry, an observer that is attached once gets
one. -/
theorem heard_turns {observers : List Text} (hnodup : observers.Nodup) {observer : Text}
    (hmem : observer ∈ observers) (events : List (Event α)) :
    heard observer (observers.flatMap fun other ↦ events.map fun event ↦ (other, event)) =
      events := by
  have hothers {others : List Text} (h : observer ∉ others) :
      (others.flatMap fun other ↦ if other = observer then events else []) = [] := by
    rw [List.flatMap_eq_nil_iff]
    intro other hother
    exact if_neg (ne_of_mem_of_not_mem hother h)
  have hturns : heard observer (observers.flatMap fun other ↦ events.map fun event ↦ (other, event))
      = observers.flatMap fun other ↦ if other = observer then events else [] :=
    List.filterMap_flatMap.trans
      (congrArg (observers.flatMap ·) (funext fun other ↦ heard_map observer other events))
  obtain ⟨before, after, rfl⟩ := List.append_of_mem hmem
  have hapart := (List.nodup_cons.mp (List.nodup_middle.mp hnodup)).1
  rw [List.mem_append, not_or] at hapart
  rw [hturns, List.flatMap_append, List.flatMap_cons, hothers hapart.1, hothers hapart.2,
    if_pos rfl, List.nil_append, List.append_nil]

theorem heard_notifications {observers : List Text} (hnodup : observers.Nodup) {observer : Text}
    (hmem : observer ∈ observers) (journal : List (Entry α)) :
    heard observer (Session.notifications observers journal) = journal.flatMap Entry.events :=
  List.filterMap_flatMap.trans
    (congrArg (journal.flatMap ·) (funext fun entry ↦ heard_turns hnodup hmem entry.events))

namespace Session

variable {s : Session}

theorem mem_attach (s : Session) (observer : Text) : observer ∈ (s.attach observer).observers := by
  unfold attach
  by_cases hmem : observer ∈ s.observers
  · rwa [if_pos (by simpa using hmem)]
  · rw [if_neg (by simpa using hmem)]
    exact List.mem_append_right _ List.mem_cons_self

theorem nodup_attach (h : s.observers.Nodup) (observer : Text) :
    (s.attach observer).observers.Nodup := by
  unfold attach
  by_cases hmem : observer ∈ s.observers
  · rwa [if_pos (by simpa using hmem)]
  · rw [if_neg (by simpa using hmem)]
    have hnodup := List.Nodup.concat hmem h
    rwa [List.concat_eq_append] at hnodup

end Session

/-! ## One step -/

namespace Exploration

variable {e : Engine σ α τ π} {config : Config α} {lhs rhs : Term α} {x y : Exploration α τ π}
  {focus : Option Nat} {v : Vertex α} {elapsed : Nat} {ending : Ending} {entries : List (Entry α)}

theorem events_of_next {i : Option Nat} (h : x.next = (i, y, entries)) :
    entries.flatMap Entry.events = [] := by
  rw [List.flatMap_eq_nil_iff]
  intro entry hentry
  obtain ⟨maxDepth, count, rfl⟩ := eq_levelsCut_of_next h hentry
  rfl

/-- Taking in a reduct is one beat. -/
theorem Orderly.exists_beat_absorb (h : x.Orderly (some v.id)) (hs : x.skeleton.Spanned)
    (hopen : x.meeting = none) (hv : x.vertices.items[v.id]? = some v) (r : Reduct α τ) :
    ∃ y g, (x.absorb v r).2.1 = .exploring y g ∧
      x.portrait.Beat (x.absorb v r).2.2.events y.portrait := by
  have hadv := h.advance hv r.next
  have hself : (x.advance v r.next).vertices.items[v.id]? = some { v with cursor := r.next } :=
    getElem?_advance_self hv
  rw [← portrait_advance hv r.next, absorb_eq]
  rcases hfind : (x.advance v r.next).find? r.term with _ | w
  · refine ⟨_, _, rfl, ?_⟩
    rw [portrait_grow (p := { v with cursor := r.next }) hself]
    exact .child hopen (size_portrait _).symm Array.size_map.symm rfl rfl rfl
  · by_cases hside : w.side = v.side
    · simp only [if_pos hside]
      exact ⟨_, _, rfl, .duplicate { v with cursor := r.next } w r.use⟩
    · obtain ⟨-, hw⟩ := findId?_of_find? hadv hfind
      have hspan : (x.advance v r.next).skeleton.Spanned := skeleton_advance hv ▸ hs
      have hfresh : w.parentEdge ≠ some (x.advance v r.next).edges.size :=
        fun hparent ↦ Nat.lt_irrefl _ (hadv.parentEdge_lt hspan hw hparent)
      simp only [if_neg hside]
      refine ⟨_, _, rfl, ?_⟩
      rw [show x.edges.size = (x.advance v r.next).edges.size from rfl,
        portrait_meet (v := { v with cursor := r.next }) hself hw hside hfresh]
      exact .meeting hopen Array.size_map.symm

/-- Expanding a vertex is one beat. -/
theorem Orderly.exists_beat_expand (h : x.Orderly (some v.id)) (hs : x.skeleton.Spanned)
    (hopen : x.meeting = none) (hv : x.vertices.items[v.id]? = some v) (s : σ) :
    ∃ y g, (x.expand e v.id s).search = .exploring y g ∧
      x.portrait.Beat ((x.expand e v.id s).journal.flatMap Entry.events) y.portrait := by
  rw [expand_eq hv]
  rcases e.tryNext v v.cursor s with ⟨fault | _ | r, t⟩
  · exact ⟨_, _, rfl, .silence⟩
  · obtain ⟨u, hu, hvisited⟩ := h.unvisited v.id List.mem_cons_self
    obtain rfl : v = u := Option.some.inj (hv.symm.trans hu)
    have hdrawn : x.portrait.vertices[v.id]? = some v.rewound := by
      rw [getElem?_portrait, hv, Option.map_some]
    refine ⟨_, _, rfl, ?_⟩
    rw [portrait_close (x := x.spend) hv]
    exact .exhausted (v := { v with visited := true }) hdrawn hvisited
  · obtain ⟨y, g, hsearch, hbeat⟩ := h.spend.exists_beat_absorb hs hopen hv r
    refine ⟨y, g, hsearch, ?_⟩
    dsimp only
    rwa [List.flatMap_singleton]

theorem Halts.silent (h : x.Halts focus elapsed ending y entries) :
    entries.flatMap Entry.events = [] ∧ y.portrait = x.portrait := by
  cases h with
  | met _ | spent _ _ => exact ⟨rfl, rfl⟩
  | dry _ _ _ hnext =>
    rw [List.flatMap_append, events_of_next hnext]
    exact ⟨rfl, portrait_next hnext⟩

theorem Asks.silent (h : x.Asks focus elapsed y v entries) :
    entries.flatMap Entry.events = [] ∧ y.portrait = x.portrait := by
  cases h with
  | kept _ _ _ _ => exact ⟨rfl, rfl⟩
  | taken _ _ _ hnext _ _ => exact ⟨events_of_next hnext, portrait_next hnext⟩

/-- **The events of a step are one beat**, which leads from the graph before it to the graph after
it. -/
theorem Reached.exists_beat_step (hne : config.key lhs ≠ config.key rhs)
    (h : Reached e config lhs rhs x focus) (elapsed : Nat) (s : σ) :
    let reply := (Search.exploring x focus).step e elapsed s
    ∃ y g, reply.search = .exploring y g ∧ Reached e config lhs rhs y g ∧
      x.portrait.Beat (reply.journal.flatMap Entry.events) y.portrait := by
  intro reply
  obtain ⟨y, g, hsearch, hreach, -⟩ := h.step hne elapsed s
  refine ⟨y, g, hsearch, hreach, ?_⟩
  rcases (h.orderly hne).halts_or_asks elapsed with
    ⟨ending, z, entries, hhalts⟩ | ⟨z, v, entries, hasks⟩
  · obtain ⟨hevents, hportrait⟩ := hhalts.silent
    rw [hhalts.step_eq] at hsearch
    obtain ⟨rfl, rfl⟩ := Search.exploring.inj hsearch
    rw [show reply = _ from hhalts.step_eq e s, hevents, hportrait]
    exact .silence
  · obtain ⟨hevents, hportrait⟩ := hasks.silent
    obtain ⟨hz, hopen⟩ := h.asks hasks
    obtain ⟨y', g', hsearch', hbeat⟩ :=
      (hz.orderly hne).exists_beat_expand (e := e) hz.spanned hopen.meeting hasks.getElem? s
    rw [hasks.step_eq] at hsearch
    obtain ⟨rfl, rfl⟩ := Search.exploring.inj (hsearch'.symm.trans hsearch)
    rw [show reply = _ from hasks.step_eq e s]
    show x.portrait.Beat ((entries ++ _).flatMap Entry.events) _
    rw [List.flatMap_append, hevents, List.nil_append, ← hportrait]
    exact hbeat

end Exploration

/-! ## Runs and conclusions -/

theorem Edges.Forces.arcs_eq {prove : τ → σ → Except Fault π × σ} {ids : List Nat}
    {s t : Edges τ π × σ} (h : Forces prove ids s t) :
    t.1.items.map Edge.toArc = s.1.items.map Edge.toArc := by
  induction h with
  | nil s => rfl
  | snoc _ hforce ih =>
    obtain ⟨e, -, ⟨-, hsame, -⟩ | ⟨recipe, -, -, hkept⟩⟩ := force_eq_ok_iff.mp hforce
    · rw [hsame, ih]
    · rw [hkept, ← ih, keepProof]
      dsimp only
      exact Exploration.map_modify fun _ _ ↦ rfl

namespace Search

open Exploration

variable {e : Engine σ α τ π} {config : Config α} {lhs rhs : Term α} {search : Search α τ π}
  {clock : Nat → Nat} {left right : Vertex α} {events : List (Event α)}

/-- The events tell of everything that a search has found since it was started. -/
def Narrated (e : Engine σ α τ π) (config : Config α) (lhs rhs : Term α) (left right : Vertex α)
    (events : List (Event α)) (search : Search α τ π) : Prop :=
  ∃ x focus, search = .exploring x focus ∧ Reached e config lhs rhs x focus ∧
    Chronicle left right events x.portrait

/-- Of a search over two different keys, observers are told of the roots first, and of nothing
else. -/
theorem exists_opening (hne : config.key lhs ≠ config.key rhs) : ∃ left right : Vertex α,
    left.IsRootOf .left lhs ∧ right.IsRootOf .right rhs ∧
    (start config lhs rhs : Search α τ π × List (Entry α)).2.flatMap Entry.events
      = [.started left right] ∧
    Narrated e config lhs rhs left right [] (start config lhs rhs).1 := by
  let roots : Vertex α × Vertex α × Exploration α τ π := (ofConfig config).createRoots lhs rhs
  have hjournal : (start config lhs rhs : Search α τ π × List (Entry α)).2
      = [.rootsCreated roots.1 roots.2.1 config.strategy,
         .searchStarted config.maxDepth config.maxSteps config.strategy roots.1 roots.2.1] := by
    rw [start, if_neg hne]
  have hportrait : (rooted config lhs rhs : Exploration α τ π).portrait
      = { vertices := #[roots.1, roots.2.1] } :=
    Portrait.ext List.map_toArray Array.map_empty rfl rfl
  refine ⟨roots.1, roots.2.1, ⟨rfl, rfl, rfl, rfl, rfl, rfl⟩, ⟨rfl, rfl, rfl, rfl, rfl, rfl⟩, ?_,
    rooted config lhs rhs, none, start_of_key_ne hne, .start, ?_⟩
  · rw [hjournal]
    rfl
  · rw [hportrait]
    exact .opening rfl rfl

theorem Narrated.step (hne : config.key lhs ≠ config.key rhs)
    (h : Narrated e config lhs rhs left right events search) (elapsed : Nat) (s : σ) :
    Narrated e config lhs rhs left right
      (events ++ (search.step e elapsed s).journal.flatMap Entry.events)
      (search.step e elapsed s).search := by
  obtain ⟨x, focus, rfl, hx, hevents⟩ := h
  obtain ⟨y, g, hsearch, hreach, hbeat⟩ := hx.exists_beat_step hne elapsed s
  exact ⟨y, g, hsearch, hreach, hevents.beat hbeat⟩

/-- **So does a run**, whichever way it ends. -/
theorem Narrated.run (hne : config.key lhs ≠ config.key rhs) {s : σ} {k : Nat}
    {r : List Outcome × Reply σ α τ π Ending} (hr : Rounds e clock search s k r)
    (h : Narrated e config lhs rhs left right events search) :
    Narrated e config lhs rhs left right
      (events ++ r.2.journal.flatMap Entry.events) r.2.search := by
  induction hr generalizing events with
  | fault _ => exact h.step hne _ _
  | ended _ => exact h.step hne _ _
  | next _ _ _ ih =>
    have hrest := ih (h.step hne _ _)
    rw [List.append_assoc, ← List.flatMap_append] at hrest
    exact hrest

/-- No observer is told of the proof that is built. -/
theorem events_conclude (ending : Ending) (search : Search α τ π) (s : σ) :
    (search.conclude e ending s).journal.flatMap Entry.events = [] := by
  cases ending with
  | aborted | exhausted => rfl
  | met m =>
    rw [conclude]
    cases search with
    | idle => rfl
    | agreed lhs =>
      rw [prove]
      split <;> rfl
    | exploring x focus =>
      rw [prove]
      rcases x.buildProof e m (x.edges, s) with ⟨fault | ⟨proof, left, right⟩, edges, t⟩
      · rfl
      · rfl

/-- Concluding a search changes nothing of which observers are told, and its result has the
statistics of the search. -/
theorem exists_portrait_conclude {x : Exploration α τ π} {focus : Option Nat} {ending : Ending}
    {s : σ} {result : Result π}
    (h : ((exploring x focus).conclude e ending s).answer = .ok result) :
    ∃ y, ((exploring x focus).conclude e ending s).search = .exploring y focus ∧
      y.portrait = x.portrait ∧ result.stats = y.stats := by
  cases ending with
  | aborted | exhausted =>
    obtain rfl := Except.ok.inj h
    exact ⟨x, rfl, rfl, rfl⟩
  | met m =>
    obtain ⟨p, l, r, edges, t, hbuild, rfl, hsearch, -⟩ := exists_buildProof_of_prove h
    obtain ⟨ids, hforces, -⟩ := forces_of_buildProof hbuild
    exact ⟨{ x with edges }, hsearch, Portrait.ext rfl hforces.arcs_eq rfl rfl, rfl⟩

/-- What a search that has a result leaves in its journal. -/
theorem journal_solve (clock : Nat → Nat) (s : σ) {ending : Ending}
    (h : ((start config lhs rhs).1.run e clock s).2.answer = .ok ending) {result : Result π}
    (hresult : (solve e clock config lhs rhs s).answer = .ok result) :
    let last := ((start config lhs rhs).1.run e clock s).2
    (solve e clock config lhs rhs s).journal
      = (start config lhs rhs : Search α τ π × List (Entry α)).2 ++ last.journal ++
        (last.search.conclude e ending last.engine).journal ++ [finished result] := by
  intro last
  have hlast : (last.search.conclude e ending last.engine).answer = .ok result :=
    (solve_eq_of_run clock s h).1.symm.trans hresult
  rw [solve]
  simp only [h]
  simp only [Reply.after, last, hlast]

end Search

/-! ## Whole searches -/

/-- What the events between the start and the end of a search say of the graph that it has grown. -/
structure Recounts (left right : Vertex α) (events : List (Event α)) (x : Exploration α τ π) :
    Prop where
  /-- Drawn from the roots on, they give the graph. -/
  replay_eq : replay left right events = x.portrait
  /-- All vertices but the roots are reported, in the order of their ids. -/
  added : (events.filterMap Event.vertex?).map Vertex.id = List.range' 2 (x.vertices.size - 2)
  /-- Each of them is followed by its parent edge at once. -/
  followed {before after : List (Event α)} {v : Vertex α} :
    events = before ++ .vertexAdded v :: after →
      ∃ a rest, after = .edgeAdded a :: rest ∧ v.parentEdge = some a.id ∧ a.target = v.id
  /-- All edges are reported. -/
  arcs : events.filterMap Event.arc? = (x.edges.items.map Edge.toArc).toList
  /-- They are reported in the order of their ids. -/
  arc_ids : (events.filterMap Event.arc?).map Arc.id = List.range x.edges.size
  /-- The edge at which the sides meet is the last of them. -/
  meeting {m : Nat} : x.meeting = some m →
    ∃ a, (events.filterMap Event.arc?).getLast? = some a ∧ a.id = m
  /-- No vertex is reported to be visited twice. -/
  nodup_exhausted : (events.filterMap Event.exhausted?).Nodup
  /-- The vertices that are reported to be visited are those that have been. -/
  mem_exhausted_iff {i : Nat} : i ∈ events.filterMap Event.exhausted? ↔
    ∃ v, x.vertices.items[i]? = some v ∧ v.visited = true
  /-- Every duplicate is reported. -/
  duplicates : events.countP Event.isDuplicate = x.stats.duplicates

theorem Chronicle.recounts {left right : Vertex α} {events : List (Event α)}
    {x : Exploration α τ π} (h : Chronicle left right events x.portrait) :
    Recounts left right events x where
  replay_eq := h.replay_eq
  added := by rw [h.added.2, Exploration.size_portrait]
  followed := h.followed
  arcs := h.arcs.1
  arc_ids := h.arcs.2.trans (congrArg List.range Array.size_map)
  meeting := h.meeting
  nodup_exhausted := h.nodup_exhausted
  mem_exhausted_iff := by
    intro i
    rw [h.mem_exhausted_iff, Portrait.visited, Exploration.getElem?_portrait, Option.any_map,
      Option.any_eq_true]
    rfl
  duplicates := h.duplicates

namespace Search

variable {e : Engine σ α τ π} {config : Config α} {lhs rhs : Term α}

/-- Of a search over two terms with the same key, observers are told of two roots that belong to no
graph, and of the result. -/
theorem events_solve_of_key_eq (hkey : config.key lhs = config.key rhs) (clock : Nat → Nat) (s : σ)
    {result : Result π} (h : (solve e clock config lhs rhs s).answer = .ok result) :
    ∃ left right : Vertex α, left.IsRootOf .left lhs ∧ right.IsRootOf .right rhs ∧
      (solve e clock config lhs rhs s).journal.flatMap Entry.events
        = [.started left right, .finished result.status result.proofLength] := by
  have hstart : (start config lhs rhs : Search α τ π × List (Entry α))
      = (.agreed lhs, [.sidesAgree lhs rhs]) := by rw [start, if_pos hkey]
  have hrun : (agreed lhs : Search α τ π).run e clock s = ([.ended (.met unissued)],
      { answer := .ok (.met unissued), search := .agreed lhs, engine := s }) := by
    rw [run, run.go]
    rfl
  have hlast : ((start config lhs rhs).1.run e clock s).2.answer = .ok (.met unissued) := by
    rw [hstart, hrun]
  have hroots : ∃ left right : Vertex α, (Entry.sidesAgree lhs rhs).events = [.started left right] ∧
      left.IsRootOf .left lhs ∧ right.IsRootOf .right rhs :=
    ⟨_, _, rfl, ⟨rfl, rfl, rfl, rfl, rfl, rfl⟩, ⟨rfl, rfl, rfl, rfl, rfl, rfl⟩⟩
  obtain ⟨left, right, hevents, hleft, hright⟩ := hroots
  refine ⟨left, right, hleft, hright, ?_⟩
  rw [journal_solve clock s hlast h]
  simp only [List.flatMap_append, events_conclude, hstart, hrun, List.flatMap_singleton, hevents]
  rfl

/-- What a search over two terms with different keys leaves in its journal. -/
theorem exists_recounts_solve (hne : config.key lhs ≠ config.key rhs) (clock : Nat → Nat) (s : σ)
    {result : Result π} (h : (solve e clock config lhs rhs s).answer = .ok result) :
    ∃ (left right : Vertex α) (events : List (Event α)) (x : Exploration α τ π)
      (focus : Option Nat), left.IsRootOf .left lhs ∧ right.IsRootOf .right rhs ∧
      (solve e clock config lhs rhs s).journal.flatMap Entry.events
        = .started left right :: (events ++ [.finished result.status result.proofLength]) ∧
      (solve e clock config lhs rhs s).search = .exploring x focus ∧ result.stats = x.stats ∧
      Chronicle left right events x.portrait := by
  obtain ⟨left, right, hleft, hright, hopening, hstart⟩ := exists_opening (e := e) hne
  obtain ⟨k, -, hrounds⟩ := (Stepped.start (e := e)).rounds_run clock s
  obtain ⟨x, focus, hsearch, -, hevents⟩ := hstart.run hne hrounds
  rcases hlast : ((start config lhs rhs).1.run e clock s).2.answer with fault | ending
  · rw [Exploration.answer_solve, hlast] at h
    exact absurd h (by simp [Except.bind])
  · have hjournal := journal_solve clock s hlast h
    obtain ⟨hanswer, hleft', -⟩ := Exploration.solve_eq_of_run (e := e) clock s hlast
    rw [hsearch] at hanswer hleft'
    obtain ⟨y, hy, hportrait, hstats⟩ := exists_portrait_conclude (hanswer.symm.trans h)
    refine ⟨left, right, _, y, focus, hleft, hright, ?_, hleft'.trans hy, hstats,
      hportrait ▸ hevents⟩
    rw [hjournal]
    simp only [List.flatMap_append, hopening, events_conclude, List.append_nil, List.nil_append]
    rfl

/-- **What an observer hears of a search determines its graph.** An observer that is attached hears
of the roots first and of the result last, once each. When the sides have different keys, the events
in between recount the graph that the search has grown, and nothing else; when their keys are the
same, there are none. -/
theorem solve_narrated (e : Engine σ α τ π) (clock : Nat → Nat) (config : Config α)
    (lhs rhs : Term α) (s : σ) {observers : List Text} (hnodup : observers.Nodup) {observer : Text}
    (hmem : observer ∈ observers) {result : Result π}
    (hresult : (solve e clock config lhs rhs s).answer = .ok result) :
    let reply := solve e clock config lhs rhs s
    ∃ (left right : Vertex α) (events : List (Event α)),
      heard observer (Session.notifications observers reply.journal)
        = .started left right :: (events ++ [.finished result.status result.proofLength]) ∧
      left.IsRootOf .left lhs ∧ right.IsRootOf .right rhs ∧
      (∀ event ∈ events, event.isInner = true) ∧
      (config.key lhs = config.key rhs → events = []) ∧
      (config.key lhs ≠ config.key rhs → ∃ x focus, reply.search = .exploring x focus ∧
        Recounts left right events x ∧
        events.countP Event.isDuplicate = result.stats.duplicates) := by
  intro reply
  rw [heard_notifications hnodup hmem]
  by_cases hkey : config.key lhs = config.key rhs
  · obtain ⟨left, right, hleft, hright, hevents⟩ := events_solve_of_key_eq hkey clock s hresult
    exact ⟨left, right, [], hevents, hleft, hright, by simp, fun _ ↦ rfl, fun hne ↦ absurd hkey hne⟩
  · obtain ⟨left, right, events, x, focus, hleft, hright, hevents, hsearch, hstats, hchronicle⟩ :=
      exists_recounts_solve hkey clock s hresult
    exact ⟨left, right, events, hevents, hleft, hright, hchronicle.isInner,
      fun heq ↦ absurd heq hkey, fun _ ↦ ⟨x, focus, hsearch, hchronicle.recounts,
        hstats ▸ hchronicle.duplicates⟩⟩

/-- The second of two observers hears of one new vertex, of a reduct that was known, and of the edge
at which the sides meet. -/
theorem solve_narrated_second_observer :
    let rules : List Rule := [{ name := utf8 "r", lhs := utf8 "a", rhs := utf8 "c" },
      { name := utf8 "q", lhs := utf8 "c", rhs := utf8 "b", symmetric := false }]
    let session := (({} : Session).attach (utf8 "first")).attach (utf8 "second")
    let reply := solve (.ofRules rules) (fun _ ↦ 0) {} (.ofText (utf8 "a")) (.ofText (utf8 "b")) {}
    ∃ left right events x focus,
      heard (utf8 "second") (Session.notifications session.observers reply.journal)
        = .started left right :: (events ++ [.finished .success 2]) ∧
      reply.search = .exploring x focus ∧ replay left right events = x.portrait ∧
      (events.filterMap Event.vertex?).map Vertex.id = [2] ∧
      (events.filterMap Event.arc?).map Arc.id = [0, 1] ∧ x.meeting = some 1 ∧
      events.countP Event.isDuplicate = 1 := by
  intro rules session reply
  have hnodup : session.observers.Nodup :=
    Session.nodup_attach (Session.nodup_attach List.nodup_nil (utf8 "first")) (utf8 "second")
  have hfigures : reply.answer.toOption.map (fun r ↦ (r.status, r.proofLength, r.stats.duplicates))
      = some (.success, 2, 1) := by decide +kernel
  have hgraph : reply.search.graph?.map (fun x ↦ (x.vertices.size, x.edges.size, x.meeting))
      = some (3, 2, some 1) := by decide +kernel
  rcases hanswer : reply.answer with fault | result
  · rw [hanswer] at hfigures
    exact absurd hfigures (by simp [Except.toOption])
  · obtain ⟨left, right, events, hheard, -, -, -, -, hdiffer⟩ :=
      solve_narrated (.ofRules rules) (fun _ ↦ 0) {} (.ofText (utf8 "a")) (.ofText (utf8 "b")) {}
        hnodup (Session.mem_attach _ (utf8 "second")) hanswer
    obtain ⟨x, focus, hsearch, hrecounts, hduplicates⟩ := hdiffer (by decide)
    rw [hanswer] at hfigures
    obtain ⟨hstatus, hlength, hcount⟩ : result.status = .success ∧ result.proofLength = 2 ∧
        result.stats.duplicates = 1 := by simpa [Except.toOption] using hfigures
    obtain ⟨hvertices, hedges, hmeeting⟩ : x.vertices.size = 3 ∧ x.edges.size = 2 ∧
        x.meeting = some 1 := by
      rw [show reply.search = _ from hsearch] at hgraph
      simpa [graph?] using hgraph
    rw [hstatus, hlength] at hheard
    refine ⟨left, right, events, x, focus, hheard, hsearch, hrecounts.replay_eq, ?_, ?_, hmeeting,
      hduplicates.trans hcount⟩
    · rw [hrecounts.added, hvertices]
      rfl
    · rw [hrecounts.arc_ids, hedges]
      rfl

end Search

end Joinability
