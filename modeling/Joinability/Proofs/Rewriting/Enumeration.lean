import Joinability.Engine.Rules
import Joinability.Proofs.Rewriting.Site

/-!
# What is listed for a text

`listing rules t` says in full, and without a scan of the text, what the uses of rules on a text
are: rule by rule, forward before backward, one entry for each position at which the pattern stands,
in increasing order. The result of an entry has the replacement in the place of the pattern and is
the same text everywhere else. The number of the match counts the smaller positions, and the count
of matches counts all of them.

The engine scans the text from the left and numbers the matches as it finds them.
**`reducts_eq_listing`** says that this comes to the same list, and that the cursors of a vertex
walk through it to its end.

## Cursors

A cursor is the number of an entry, so following the cursors from any of them on gives the entries
that are left (`follow_ofRules`). The engine lists them anew each time, and only reads the text that
the vertex carries.
-/

namespace Joinability

/-! ## The list in full -/

namespace Rule

/-- The directions in which a rule is read, each by whether it is read from right to left. -/
def directions (r : Rule) : List Bool :=
  if r.symmetric = true ∧ r.lhs ≠ r.rhs then [false, true] else [false]

/-- The uses of a rule on a text in one direction, one for each position at which the pattern
stands. -/
def usesOf (r : Rule) (index : Nat) (t : Text) (reversed : Bool) : List (Text × RuleUse) :=
  let pattern := if reversed then r.rhs else r.lhs
  let replacement := if reversed then r.lhs else r.rhs
  ((List.range (t.length + 1)).filter (Text.matchesAt pattern t)).map fun p ↦
    (t.take p ++ replacement ++ t.drop (p + pattern.length),
      { name := r.name, index, reversed, occurrence := Text.matchesBefore pattern t p
        matchCount := Text.matchesBefore pattern t (t.length + 1) })

end Rule

/-- The uses of rules on a text, with their results. -/
def listing (rules : List Rule) (t : Text) : List (Text × RuleUse) :=
  rules.zipIdx.flatMap fun (r, index) ↦ r.directions.flatMap (r.usesOf index t)

/-! ## The scan -/

namespace Text

theorem length_positions (t pattern : Text) :
    (t.positions pattern).length = matchesBefore pattern t (t.length + 1) := by
  rw [positions_eq_filter, matchesBefore, List.countP_eq_length_filter]

theorem zipIdx_positions (t pattern : Text) :
    (t.positions pattern).zipIdx
      = (t.positions pattern).map fun p ↦ (p, matchesBefore pattern t p) := by
  refine List.ext_getElem? ?_
  intro k
  rw [List.getElem?_zipIdx, List.getElem?_map]
  cases hp : (t.positions pattern)[k]? with
  | none => rfl
  | some p =>
    obtain ⟨-, -, hk⟩ := getElem?_positions_iff.mp hp
    rw [Option.map_some, Option.map_some, hk, Nat.zero_add]

end Text

theorem Rule.map_ofPattern (r : Rule) (index : Nat) (t : Text) (reversed : Bool) :
    (Site.ofPattern { name := r.name, index, reversed } (if reversed then r.rhs else r.lhs)
      (if reversed then r.lhs else r.rhs) t).map (fun s ↦ (s.result t, s.use))
      = r.usesOf index t reversed := by
  rw [Site.ofPattern, Text.zipIdx_positions, List.map_map, List.map_map, Text.length_positions,
    Text.positions_eq_filter]
  rfl

theorem Rule.map_sites (r : Rule) (index : Nat) (t : Text) :
    (r.sites index t).map (fun s ↦ (s.result t, s.use))
      = r.directions.flatMap (r.usesOf index t) := by
  rw [Rule.sites, directions]
  by_cases h : r.symmetric = true ∧ r.lhs ≠ r.rhs
  · rw [if_pos h, if_pos (by simpa using h), List.map_append, List.flatMap_cons,
      List.flatMap_singleton, ← map_ofPattern, ← map_ofPattern]
    rfl
  · rw [if_neg h, if_neg (by simpa using h), List.flatMap_singleton, ← map_ofPattern]
    rfl

theorem reducts_eq (rules : List Rule) (t : Text) : reducts rules t = listing rules t := by
  rw [reducts, sites, List.map_flatMap, listing]
  exact List.flatMap_congr fun _ _ ↦ Rule.map_sites _ _ _

/-! ## Cursors -/

namespace Engine

variable {rules : List Rule} {v : Vertex Payload} {t : Text}

theorem tryNext_of_text (htext : v.term.text = .ok t) (cursor : Nat) (tally : Tally) :
    (ofRules rules).tryNext v cursor tally
      = (.ok ((sites rules t)[cursor]?.map fun s ↦ reductAt t s (cursor + 1)), tally) := by
  show (v.term.text.map _, tally) = _
  rw [htext]
  rfl

/-- The reducts of a text from a cursor on. -/
def reductsFrom (rules : List Rule) (t : Text) (cursor : Nat) : List (Reduct Payload Recipe) :=
  (((sites rules t).drop cursor).zipIdx (cursor + 1)).map fun (s, next) ↦ reductAt t s next

theorem follow_of_length_le (htext : v.term.text = .ok t) {cursor : Nat}
    (h : (sites rules t).length ≤ cursor) (n : Nat) (tally : Tally) :
    (ofRules rules).follow v (n + 1) cursor tally =
      (.ok (reductsFrom rules t cursor, true), tally) := by
  rw [follow, tryNext_of_text htext, List.getElem?_eq_none h, reductsFrom, List.drop_eq_nil_of_le h]
  rfl

/-- **Following the cursors from one of them on gives the reducts that are left.** -/
theorem follow_ofRules (htext : v.term.text = .ok t) (tally : Tally) {n cursor : Nat}
    (hn : (sites rules t).length ≤ cursor + n) :
    (ofRules rules).follow v (n + 1) cursor tally =
      (.ok (reductsFrom rules t cursor, true), tally) := by
  induction n generalizing cursor with
  | zero => exact follow_of_length_le htext hn 0 tally
  | succ n ih =>
    by_cases hlt : cursor < (sites rules t).length
    · have hsplit : reductsFrom rules t cursor = reductAt t (sites rules t)[cursor] (cursor + 1) ::
          reductsFrom rules t (cursor + 1) := by
        rw [reductsFrom, List.drop_eq_getElem_cons hlt, List.zipIdx_cons, List.map_cons]
        rfl
      have hrest : (ofRules rules).follow v (n + 1) (cursor + 1) tally
          = (.ok (reductsFrom rules t (cursor + 1), true), tally) := ih (by omega)
      rw [follow, tryNext_of_text htext, List.getElem?_eq_getElem hlt, hsplit]
      simp only [Option.map_some, reductAt, hrest]
    · exact follow_of_length_le htext (Nat.le_of_not_lt hlt) (n + 1) tally

theorem map_reductsFrom_zero (rules : List Rule) (t : Text) :
    (reductsFrom rules t 0).map (fun r ↦ (r.term, r.use))
      = (reducts rules t).map fun (result, use) ↦ (.ofText result, use) := by
  have hsites : ((sites rules t).zipIdx 1).map Prod.fst = sites rules t := List.zipIdx_map_fst ..
  rw [reducts, List.map_map, reductsFrom, List.drop_zero, List.map_map]
  conv_rhs => rw [← hsites, List.map_map]
  rfl

theorem map_next_reductsFrom_zero (rules : List Rule) (t : Text) :
    (reductsFrom rules t 0).map (·.next) = List.range' 1 (reducts rules t).length := by
  rw [reducts, List.length_map, reductsFrom, List.drop_zero, List.map_map, ← List.zipIdx_map_snd 1]
  rfl

end Engine

/-- **Every use of a rule is listed once, and the cursors walk through the list.** What the engine
lists for a text is its listing. On a vertex that carries the text, following the cursors from the
start gives the entries of the listing in their order, each with the number of the next one as its
cursor, and then finds that none is left; so does every cursor from there on. -/
theorem reducts_eq_listing (rules : List Rule) {v : Vertex Payload} {t : Text}
    (htext : v.term.text = .ok t) (tally : Tally) :
    reducts rules t = listing rules t ∧
      (∀ n, (listing rules t).length < n → ∃ rs,
        (Engine.ofRules rules).follow v n 0 tally = (.ok (rs, true), tally) ∧
        rs.map (fun r ↦ (r.term, r.use))
          = (listing rules t).map (fun (result, use) ↦ (.ofText result, use)) ∧
        rs.map (·.next) = List.range' 1 (listing rules t).length) ∧
      ∀ cursor, (listing rules t).length ≤ cursor →
        (Engine.ofRules rules).tryNext v cursor tally = (.ok none, tally) := by
  have hlength : (sites rules t).length = (listing rules t).length := by
    rw [← reducts_eq, reducts, List.length_map]
  refine ⟨reducts_eq rules t, ?_, ?_⟩
  · intro n hn
    obtain ⟨m, rfl⟩ := Nat.exists_eq_succ_of_ne_zero (Nat.ne_zero_of_lt hn)
    refine ⟨_, Engine.follow_ofRules htext tally (by omega), ?_, ?_⟩
    · rw [Engine.map_reductsFrom_zero, reducts_eq]
    · rw [Engine.map_next_reductsFrom_zero, reducts_eq]
  · intro cursor hcursor
    rw [Engine.tryNext_of_text htext, List.getElem?_eq_none (hlength ▸ hcursor)]
    rfl

/-- Matches that overlap, a match at the very end, and a rule that is read in both directions. -/
theorem reducts_eq_listing_overlapping :
    let rules : List Rule := [{ name := utf8 "r", lhs := utf8 "aa", rhs := utf8 "ab" }]
    let v : Vertex Payload := { term := .ofText (utf8 "aaab") }
    let listed : List (Text × RuleUse) :=
      [(utf8 "abab", { name := utf8 "r", occurrence := 0, matchCount := 2 }),
       (utf8 "aabb", { name := utf8 "r", occurrence := 1, matchCount := 2 }),
       (utf8 "aaaa", { name := utf8 "r", reversed := true })]
    v.term.text = .ok (utf8 "aaab") ∧ reducts rules (utf8 "aaab") = listed ∧
      (∃ rs, (Engine.ofRules rules).follow v 4 0 {} = (.ok (rs, true), {}) ∧
        rs.map (fun r ↦ (r.term, r.use))
          = listed.map (fun (result, use) ↦ (.ofText result, use))) ∧
      (Engine.ofRules rules).tryNext v 3 {} = (.ok none, {}) := by
  intro rules v listed
  obtain ⟨hlist, hfollow, hnone⟩ :=
    reducts_eq_listing rules (v := v) rfl {}
  have hlisted : listing rules (utf8 "aaab") = listed := by decide
  rw [hlisted] at hlist hfollow hnone
  obtain ⟨rs, hrs, hentries, -⟩ := hfollow 4 (by decide)
  exact ⟨rfl, hlist, ⟨rs, hrs, hentries⟩, hnone 3 (by decide)⟩

end Joinability
