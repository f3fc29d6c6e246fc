import Joinability.Fault
import Joinability.Rule.Basic

/-!
# The written form of a rule

A rule is written `name : lhs = rhs`, or `name : lhs => rhs` when it may only be read from left to
right. The name ends at the first colon; the body after it has exactly one equals sign, which
separates the sides together with a `>` that follows it directly. Blanks around the three parts do
not belong to them, and no part may be empty.

Reading and writing are inverse on rules whose parts survive: those are trimmed and non-empty, the
name holds no colon and the sides hold no equals sign. A side may well hold a colon or a `>`.
-/

namespace Joinability

namespace Rule

/-- Space, tab, carriage return and line feed, which may surround the parts of a written rule. -/
def isPadding (b : UInt8) : Bool := b == 0x20 || b == 0x09 || b == 0x0D || b == 0x0A

/-- The text before the first `sep` and the text after it, or nothing if there is none. -/
def splitFirst? (sep : UInt8) (t : Text) : Option (Text × Text) :=
  match t.dropWhile (· ≠ sep) with
  | [] => none
  | _ :: after => some (t.takeWhile (· ≠ sep), after)

/-- Reads a rule. -/
def parse (t : Text) : Except Fault Rule :=
  match splitFirst? ':'.toUInt8 t with
  | none => .error (.ruleWithoutColon t)
  | some (name, body) =>
    match splitFirst? '='.toUInt8 body with
    | none => .error (.ruleWithoutEquals t)
    | some (lhs, after) =>
      if after.contains '='.toUInt8 then .error (.ruleWithManyEquals t)
      else
        let oneWay := after.head? == some '>'.toUInt8
        let rule : Rule :=
          { name := name.trim isPadding
            lhs := lhs.trim isPadding
            rhs := Text.trim isPadding (if oneWay then after.tail else after)
            symmetric := !oneWay }
        if rule.name.isEmpty || !rule.isUsable then .error (.rulePartEmpty t) else .ok rule

/-- The separator between the sides of a written rule. -/
def separator (r : Rule) : Text := if r.symmetric then utf8 "=" else utf8 "=>"

/-- Writes a rule. -/
def render (r : Rule) : Text :=
  r.name ++ utf8 " : " ++ r.lhs ++ utf8 " " ++ r.separator ++ utf8 " " ++ r.rhs

example : parse (utf8 "comm : a = b") =
    .ok { name := utf8 "comm", lhs := utf8 "a", rhs := utf8 "b" } := by rfl

end Rule

end Joinability
