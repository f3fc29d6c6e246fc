import Joinability.Frontier.BestFirst
import Joinability.Frontier.BreadthFirst
import Joinability.Fault

/-!
# Frontiers

The frontier holds the vertices that were discovered and not yet expanded, and decides which of them
is expanded next. A strategy names one of the two orders in which that can be done.

Scores are only computed where the order needs them, so a vertex is added together with a way to
score it rather than with its score.
-/

namespace Joinability

/-- The order in which discovered vertices are expanded. -/
inductive Strategy where
  /-- Level by level. -/
  | breadthFirst
  /-- The vertex closest to the other side first. -/
  | bestFirst
deriving DecidableEq, Repr, Inhabited

namespace Strategy

/-- The name of a strategy. -/
def name : Strategy → Text
  | breadthFirst => utf8 "breadth-first"
  | bestFirst => utf8 "best-first"

/-- The strategy with a numeric code, if there is one. -/
def ofCode? : Int → Option Strategy
  | 0 => some breadthFirst
  | 1 => some bestFirst
  | _ => none

/-- The numeric code of a strategy. -/
def code : Strategy → Int
  | breadthFirst => 0
  | bestFirst => 1

/-- The name of the strategy with a numeric code. -/
def nameOfCode (n : Int) : Text := (ofCode? n).elim (utf8 "unknown") name

@[simp] theorem ofCode?_code (s : Strategy) : ofCode? s.code = some s := by cases s <;> rfl

end Strategy

/-- The vertices that wait to be expanded, with scores of type `κ`. -/
inductive Frontier (κ : Type) where
  /-- Level by level. -/
  | breadthFirst (queue : BreadthFirst)
  /-- The lowest score first. -/
  | bestFirst (queue : BestFirst κ)
deriving DecidableEq, Repr

namespace Frontier

variable {κ : Type}

/-- The empty frontier of a strategy with a depth bound. -/
def ofStrategy (s : Strategy) (maxDepth : Nat) : Frontier κ :=
  match s with
  | .breadthFirst => .breadthFirst { maxDepth }
  | .bestFirst => .bestFirst { maxDepth }

/-- The empty frontier of a strategy, which is refused if it needs scores and there are none. -/
def request (s : Strategy) (maxDepth : Nat) (hasScores : Bool) : Except Fault (Frontier κ) :=
  if s = .bestFirst ∧ !hasScores then .error .noHeuristic else .ok (.ofStrategy s maxDepth)

/-- The strategy that the frontier follows. -/
def strategy : Frontier κ → Strategy
  | breadthFirst _ => .breadthFirst
  | bestFirst _ => .bestFirst

/-- The depth that the search has come to. -/
def depth : Frontier κ → Nat
  | breadthFirst q => q.depth
  | bestFirst q => q.depth

/-- The vertices that wait to be expanded. -/
def toList : Frontier κ → List Nat
  | breadthFirst q => q.toList
  | bestFirst q => q.toList

/-- The number of vertices that wait to be expanded. -/
def size : Frontier κ → Nat
  | breadthFirst q => q.size
  | bestFirst q => q.size

/-- Whether vertices were left out because of the depth bound. -/
def isCut : Frontier κ → Bool
  | breadthFirst q => q.cut
  | bestFirst q => q.cut

/-- The vertex to expand next, if any. -/
def next : Frontier κ → Option Nat × Frontier κ
  | breadthFirst q => q.next.map id .breadthFirst
  | bestFirst q => q.next.map id .bestFirst

/-- Adds a vertex. -/
def enqueue [LT κ] [DecidableLT κ] (f : Frontier κ) (score : Unit → κ) (vertex depth : Nat) :
    Frontier κ :=
  match f with
  | breadthFirst q => .breadthFirst (q.enqueue vertex)
  | bestFirst q => .bestFirst (q.enqueue score vertex depth)

/-- Takes vertices until none is left, each with the depth that the search has come to by then. -/
def drain (f : Frontier κ) : List (Nat × Nat) × Frontier κ :=
  go f.size f
where
  /-- Takes at most `n` vertices, and then finds that none is left. -/
  go : Nat → Frontier κ → List (Nat × Nat) × Frontier κ
    | 0, f => ([], f.next.2)
    | n + 1, f =>
      match f.next with
      | (none, f) => ([], f)
      | (some v, f) =>
        let (rest, last) := go n f
        ((v, f.depth) :: rest, last)

@[simp] theorem length_toList (f : Frontier κ) : f.toList.length = f.size := by
  cases f <;> simp [toList, size]

theorem toList_of_next {f g : Frontier κ} {v : Nat} (h : f.next = (some v, g)) :
    f.toList = v :: g.toList := by
  cases f with
  | breadthFirst q =>
    obtain ⟨h₁, rfl⟩ := Prod.mk.inj h
    exact BreadthFirst.toList_of_next (Prod.ext h₁ rfl)
  | bestFirst q =>
    obtain ⟨h₁, rfl⟩ := Prod.mk.inj h
    exact BestFirst.toList_of_next (Prod.ext h₁ rfl)

end Frontier

end Joinability
