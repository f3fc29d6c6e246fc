import Joinability.Proofs.Report.Citation
import Joinability.Proofs.Tokens.Boundary
import Joinability.Report.Dot

/-!
# The lexical units of a drawing

A drawing is read in two passes, and this is the first. It takes the text apart into words, quoted
strings and single signs, going from one byte to the next. All that it keeps of the bytes before is
a *mode*: it stands between two units, inside a word, inside a string, or inside a string behind a
backslash.

## Labels delimit themselves

Inside a string only two bytes mean anything. A quotation mark ends it, and a backslash takes the
meaning from the byte behind it. A label has a backslash in front of exactly these two, so the
reader is inside the same string when the label is over, and has read the label
(`Dot.Mode.scan_escape`). This holds of every label: one that ends in a backslash, one with a line
break, and one that reads like the end of its line and the beginning of the next.

## Putting scans together

What a scan does to a text depends on the mode before it, and the mode after it is all that the rest
of the text gets to see. So the scan of a line is put together from those of its parts
(`Dot.Mode.scan_append`). The parts that are always the same are scanned by evaluation.
-/

namespace Joinability

namespace Dot

/-- A lexical unit of a drawing. -/
inductive Lexeme where
  /-- A run of letters, digits and the like. -/
  | word (t : Text)
  /-- What stands between quotation marks, without the escapes. -/
  | quoted (t : Text)
  /-- Any other byte that is not blank. -/
  | sign (b : UInt8)
deriving DecidableEq, Repr

/-- The unit of a word that is always the same. -/
def Lexeme.keyword (s : String) : Lexeme := .word (utf8 s)

/-- The unit of a sign that is always the same. -/
def Lexeme.mark (c : Char) : Lexeme := .sign c.toUInt8

/-- Where the reader stands. What it has read of a unit that is not yet complete belongs to this. -/
inductive Mode where
  /-- Between two units. -/
  | between
  /-- Inside a word. -/
  | inWord (soFar : Text)
  /-- Inside a string. -/
  | inString (soFar : Text)
  /-- Inside a string, behind a backslash that takes the meaning from the next byte. -/
  | escaping (soFar : Text)
deriving DecidableEq, Repr

namespace Mode

/-- Reads a byte that goes on with nothing before it. -/
def opening (b : UInt8) : List Lexeme × Mode :=
  if b = '"'.toUInt8 then ([], inString [])
  else if Text.isBlank b then ([], between)
  else if Text.isWordByte b then ([], inWord [b])
  else ([.sign b], between)

/-- Reads a byte. The units that are complete now come first. -/
def step : Mode → UInt8 → List Lexeme × Mode
  | between, b => opening b
  | inWord w, b =>
    if Text.isWordByte b then ([], inWord (w ++ [b])) else (.word w :: (opening b).1, (opening b).2)
  | inString w, b =>
    if b = '"'.toUInt8 then ([.quoted w], between)
    else if b = '\\'.toUInt8 then ([], escaping w)
    else ([], inString (w ++ [b]))
  | escaping w, b => ([], inString (w ++ [b]))

/-- Reads a text byte by byte. -/
def scan (m : Mode) : Text → List Lexeme × Mode
  | [] => ([], m)
  | b :: t =>
    let (here, next) := m.step b
    let (later, last) := next.scan t
    (here ++ later, last)

/-- What is left to be read when the text is over. A string must not be open. -/
def finish? : Mode → Option (List Lexeme)
  | between => some []
  | inWord w => some [.word w]
  | inString _ => none
  | escaping _ => none

end Mode

/-- The lexical units of a text. -/
def lexemes? (t : Text) : Option (List Lexeme) :=
  let (lexemes, last) := Mode.between.scan t
  last.finish?.map (lexemes ++ ·)

example : lexemes? (utf8 "x [y=\"\\\"];\\\\\"]") =
    some [.keyword "x", .mark '[', .keyword "y", .mark '=', .quoted (utf8 "\"];\\"), .mark ']'] :=
      by decide

/-! ## Scanning -/

namespace Mode

variable {m m' m'' : Mode} {s t : Text} {here later : List Lexeme}

theorem scan_cons (m : Mode) (b : UInt8) (t : Text) : m.scan (b :: t) =
    ((m.step b).1 ++ ((m.step b).2.scan t).1, ((m.step b).2.scan t).2) := rfl

theorem scan_append (h : m.scan s = (here, m')) (h' : m'.scan t = (later, m'')) :
    m.scan (s ++ t) = (here ++ later, m'') := by
  induction s generalizing m here with
  | nil =>
    obtain ⟨rfl, rfl⟩ := Prod.mk.inj h
    exact h'
  | cons b s ih =>
    rw [scan_cons] at h
    obtain ⟨rfl, hlast⟩ := Prod.mk.inj h
    rw [List.cons_append, scan_cons, ih (Prod.ext rfl hlast), List.append_assoc]

theorem scan_flatMap {β : Type} {line : β → Text} {lexemes : β → List Lexeme}
    (h : ∀ a, m.scan (line a) = (lexemes a, m)) (as : List β) :
    m.scan (as.flatMap line) = (as.flatMap lexemes, m) := by
  induction as with
  | nil => rfl
  | cons a as ih =>
    rw [List.flatMap_cons, List.flatMap_cons]
    exact scan_append (h a) ih

/-- A word goes on as long as there are word bytes. -/
theorem scan_inWord (w : Text) (ht : ∀ b ∈ t, Text.isWordByte b = true) :
    (inWord w).scan t = ([], inWord (w ++ t)) := by
  induction t generalizing w with
  | nil => rw [scan, List.append_nil]
  | cons b t ih =>
    have hstep : (inWord w).step b = ([], inWord (w ++ [b])) := if_pos (ht b List.mem_cons_self)
    rw [scan_cons, hstep, ih _ fun c hc ↦ ht c (List.mem_cons_of_mem b hc), List.append_assoc]
    rfl

/-- **A label is read back.** Inside a string, what is written for a label is read as the label, and
the string goes on. -/
theorem scan_escape (w t : Text) : (inString w).scan (escape t) = ([], inString (w ++ t)) := by
  have hbyte (w : Text) (b : UInt8) : (inString w).scan
      (if b = '"'.toUInt8 || b = '\\'.toUInt8 then ['\\'.toUInt8, b] else [b]) =
        ([], inString (w ++ [b])) := by
    by_cases hb : (b = '"'.toUInt8 || b = '\\'.toUInt8) = true
    · rw [if_pos hb]
      rfl
    · rw [if_neg hb]
      have hplain : b ≠ '"'.toUInt8 ∧ b ≠ '\\'.toUInt8 := by simpa using hb
      rw [scan, step, if_neg hplain.1, if_neg hplain.2]
      rfl
  induction t generalizing w with
  | nil => rw [escape, List.flatMap_nil, scan, List.append_nil]
  | cons b t ih =>
    have htail := scan_append (hbyte w b) (ih (w ++ [b]))
    rwa [List.append_assoc] at htail

theorem isWordByte_of_isDigit (b : UInt8) : isDigit b = true → Text.isWordByte b = true := by
  revert b
  exact Text.forall_byte (by decide +kernel)

theorem scan_decimal (w : Text) (n : Nat) :
    (inWord w).scan (decimal n) = ([], inWord (w ++ decimal n)) :=
  scan_inWord w fun b hb ↦ isWordByte_of_isDigit b (isDigit_of_mem_decimal hb)

end Mode

end Dot

end Joinability
