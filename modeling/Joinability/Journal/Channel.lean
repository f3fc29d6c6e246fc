import Joinability.Text.Basic

/-!
# The trace channel

Trace lines go through a channel that can be switched off. A line is cut to a fixed length, gets a
mark in front, and goes to the listener of the channel if there is one and to the standard output
otherwise.
-/

namespace Joinability

/-- The greatest length of a trace line without its mark. -/
def maxLineLength : Nat := 1023

/-- A line of the trace: the mark of this library and the text, cut to the greatest length. -/
def traceLine (t : Text) : Text := utf8 "[rewrite_search] " ++ t.take maxLineLength

/-- The state of a trace channel. -/
structure Channel where
  /-- Whether lines are let through. -/
  enabled : Bool := true
  /-- Whether somebody listens. -/
  listening : Bool := false
deriving DecidableEq, Repr, Inhabited

/-- What a channel has put out: the lines that its listener got and what went to the standard
output. -/
structure Channel.Output where
  /-- The lines that the listener got. -/
  lines : List Text := []
  /-- What went to the standard output. -/
  standard : Text := []
deriving DecidableEq, Repr, Inhabited

/-- What the trace says of a vertex with the given id, depth and printed form. -/
def vertexNote (id : Nat) (depth : Int) (pretty : Text) : Text :=
  utf8 "vertex " ++ decimal id ++ utf8 " at depth " ++ signedDecimal depth ++ utf8 ": " ++
    pretty.untilNul.quoted

/-- Sends a text, which ends before a zero byte, through the channel. -/
def Channel.send (c : Channel) (t : Text) : Channel.Output :=
  let t := t.untilNul
  if !c.enabled then {}
  else if c.listening then { lines := [traceLine t] }
  else { standard := traceLine t ++ utf8 "\n" }

end Joinability
