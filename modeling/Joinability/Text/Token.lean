import Joinability.Text.Basic

/-!
# Tokens

A token is a maximal run of word bytes, or a single byte that is neither a word byte nor blank.
Blank bytes only separate. Two texts are compared token by token when the search estimates how far
apart they are.

## Reading from the right

`tokens` is structural recursion on the text: the tokens of `b :: t` are those of `t` with `b` put
in front. A word byte is glued to the first token of `t` exactly when `t` starts with a word byte,
since that first token is then the run which `b` extends; in all other cases `b` starts a token of
its own.
-/

namespace Joinability

namespace Text

/-- Space, tab, line feed, vertical tab, form feed and carriage return. -/
def isBlank (b : UInt8) : Bool := b == 0x20 || (0x09 ≤ b && b ≤ 0x0D)

/-- The ASCII letters and digits, the underscore, the full stop and the apostrophe. -/
def isWordByte (b : UInt8) : Bool :=
  (0x30 ≤ b && b ≤ 0x39) || (0x41 ≤ b && b ≤ 0x5A) || (0x61 ≤ b && b ≤ 0x7A) ||
    b == 0x5F || b == 0x2E || b == 0x27

/-- Puts the word byte `b` in front of the tokens `ts` of the text `t`. -/
def glue (b : UInt8) (t : Text) (ts : List Text) : List Text :=
  match t, ts with
  | c :: _, w :: ws => if isWordByte c then (b :: w) :: ws else [b] :: w :: ws
  | _, _ => [b] :: ts

/-- The tokens of a text, in order. -/
def tokens : Text → List Text
  | [] => []
  | b :: t =>
    if isBlank b then tokens t
    else if isWordByte b then glue b t (tokens t)
    else [b] :: tokens t

example : tokens (utf8 "f.x + (y_1*2)") =
    ["f.x", "+", "(", "y_1", "*", "2", ")"].map utf8 := by decide

end Text

end Joinability
