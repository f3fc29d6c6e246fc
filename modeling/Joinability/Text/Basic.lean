/-!
# Texts

Everything to which this library applies rules, and everything it names and prints, is a finite
sequence of bytes. Working with bytes rather than characters keeps every text representable: a rule
may cut through the middle of an encoded character, and the pieces are texts like any other.

Texts are plain lists, so the whole list library speaks about them: concatenation is `++`, a pattern
starts a text when it is a prefix of it, and lengths and positions count bytes.

## Literals and numerals

`utf8` turns a string literal into the bytes of its UTF-8 encoding and `decimal` prints a number in
base ten. Both are structural, so closed texts can be evaluated inside a proof.
-/

namespace Joinability

/-- A sequence of bytes. -/
abbrev Text := List UInt8

/-- The bytes of the UTF-8 encoding of a string. -/
def utf8 (s : String) : Text := s.toList.flatMap String.utf8EncodeChar

/-- The decimal numeral of a natural number, without leading zeros. -/
def decimal (n : Nat) : Text := (Nat.toDigits 10 n).map fun c ↦ c.toUInt8

/-- The decimal numeral of an integer, with a minus sign in front of a negative one. -/
def signedDecimal : Int → Text
  | .ofNat n => decimal n
  | .negSucc n => utf8 "-" ++ decimal (n + 1)

namespace Text

/-- The part of a text before its first zero byte. -/
def untilNul (t : Text) : Text := t.takeWhile (· ≠ 0)

/-- The text between two single quotation marks. -/
def quoted (t : Text) : Text := utf8 "'" ++ t ++ utf8 "'"

/-- The text without the bytes of the class `p` at either end. -/
def trim (p : UInt8 → Bool) (t : Text) : Text :=
  ((t.dropWhile p).reverse.dropWhile p).reverse

end Text

example : utf8 "← x" = [0xE2, 0x86, 0x90, 0x20, 0x78] := by decide

example : decimal 1024 = utf8 "1024" := by decide

end Joinability
