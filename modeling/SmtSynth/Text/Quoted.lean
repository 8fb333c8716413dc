/-!
# Quoted text

How the host language writes a string literal: between single quotes,
unless the text holds a single quote and no double quote, when double quotes
are used. Backslashes, the chosen quote, and line breaks, tabs and other
control characters are escaped; other characters stand as they are.
-/

namespace SmtSynth
namespace Quoted

/-- The hexadecimal digits of `n`, padded to `k` places. -/
def hex (n k : Nat) : String :=
  let ds := Nat.toDigits 16 n
  String.ofList (List.replicate (k - ds.length) '0' ++ ds)

/-- Whether a character is written as itself inside a literal. -/
def printable (c : Char) : Bool :=
  let n := c.toNat
  (n ≥ 32 && n < 127) || (n ≥ 161 && n != 173)

/-- The escaped form of one character, given the quote in use. -/
def escape (q : Char) (c : Char) : String :=
  if c = '\\' then "\\\\"
  else if c = q then "\\" ++ c.toString
  else if c = '\n' then "\\n"
  else if c = '\t' then "\\t"
  else if c = '\r' then "\\r"
  else if printable c then c.toString
  else if c.toNat < 256 then "\\x" ++ hex c.toNat 2
  else if c.toNat < 65536 then "\\u" ++ hex c.toNat 4
  else "\\U" ++ hex c.toNat 8

/-- A string as a literal. -/
def literal (s : String) : String :=
  let q : Char := if s.contains '\'' && !s.contains '"' then '"' else '\''
  q.toString ++ String.join (s.toList.map (escape q)) ++ q.toString

end Quoted
end SmtSynth
