import Std.Data.TreeMap
import Joinability.Fault
import Joinability.Side
import Joinability.Text.Token

/-!
# The lexicon

The lexicon numbers the tokens that occur in the two trees, in order of their first appearance, and
counts for each of them how often it was recorded on either side. Tokens are never removed, so a
number once given keeps its text.

The entries stand in an array at their own ids; a map from texts to ids finds them again.
-/

open Std

namespace Joinability

/-- A token with its number and its frequencies. -/
structure Token where
  /-- The number of the token. -/
  id : Nat
  /-- The text of the token. -/
  text : Text
  /-- How often the token was recorded on the left. -/
  left : Nat := 0
  /-- How often the token was recorded on the right. -/
  right : Nat := 0
deriving DecidableEq, Repr, Inhabited

namespace Token

/-- How often the token was recorded on a side. -/
def countOn (s : Side) (t : Token) : Nat :=
  match s with
  | .left => t.left
  | .right => t.right

/-- The token with one more record on a side. -/
def recordedOn (s : Side) (t : Token) : Token :=
  match s with
  | .left => { t with left := t.left + 1 }
  | .right => { t with right := t.right + 1 }

end Token

/-- The tokens seen so far. -/
structure Lexicon where
  /-- The tokens, each at its own id. -/
  items : Array Token := #[]
  /-- The id of each text. -/
  ids : TreeMap Text Nat := ∅

namespace Lexicon

instance : Inhabited Lexicon := ⟨{}⟩

/-- The number of tokens. -/
def size (l : Lexicon) : Nat := l.items.size

/-- The token with a given text. -/
def find? (l : Lexicon) (text : Text) : Option Token :=
  l.ids[text]?.bind fun id ↦ l.items[id]?

/-- The token with a given id. -/
def get (l : Lexicon) (id : Nat) : Except Fault Token :=
  match l.items[id]? with
  | some t => .ok t
  | none => .error (.tokenUnissued id l.size)

/-- Records one occurrence of a token text on a side. A new text gets the next id. -/
def record (l : Lexicon) (s : Side) (text : Text) : Token × Lexicon :=
  match l.find? text with
  | some t =>
    let t := t.recordedOn s
    (t, { l with items := l.items.setIfInBounds t.id t })
  | none =>
    let t := Token.recordedOn s { id := l.size, text }
    (t, { items := l.items.push t, ids := l.ids.insertIfNew text t.id })

/-- Records token texts one after the other and returns their ids. -/
def recordAll (l : Lexicon) (s : Side) : List Text → List Nat × Lexicon
  | [] => ([], l)
  | text :: texts =>
    let (t, l) := l.record s text
    let (ids, l) := l.recordAll s texts
    (t.id :: ids, l)

/-- Records the tokens of a text and returns their ids. -/
def intern (l : Lexicon) (s : Side) (t : Text) : List Nat × Lexicon := l.recordAll s t.tokens

theorem get_eq_ok_iff {l : Lexicon} {id : Nat} {t : Token} :
    l.get id = .ok t ↔ l.items[id]? = some t := by
  unfold get
  split <;> simp_all

end Lexicon

end Joinability
