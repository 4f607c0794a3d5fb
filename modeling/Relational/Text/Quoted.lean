/-!
# Quoted text

Characters and strings as they are written inside quotation marks.  The mark itself and the
backslash are escaped by a backslash, the common blanks have letters of their own, and every other
control character is written by its number (`Text.escape`); all else stands for itself.
-/

namespace Relational

namespace Text

/-- The digits of `n` in base sixteen, in lower case and without padding. -/
def hex (n : Nat) : String := String.ofList (Nat.toDigits 16 n)

/-- A control character: one of the two control blocks of the code chart, or `DEL`. -/
def isControl (c : Char) : Bool :=
  c.toNat < 0x20 || (0x7f ≤ c.toNat && c.toNat < 0xa0)

/-- The form of `c` between two quotation marks `mark`. -/
def escape (mark c : Char) : String :=
  if c == mark || c == '\\' then "\\".push c
  else if c == '\t' then "\\t"
  else if c == '\r' then "\\r"
  else if c == '\n' then "\\n"
  else if c.toNat == 0 then "\\0"
  else if isControl c then "\\u\x7b" ++ hex c.toNat ++ "\x7d"
  else c.toString

/-- The text `s` between double quotation marks. -/
def quoted (s : String) : String :=
  (s.foldl (fun out c => out ++ escape '"' c) "\"").push '"'

/-- The character `c` between single quotation marks. -/
def quotedChar (c : Char) : String := ("'" ++ escape '\'' c).push '\''

end Text

end Relational
