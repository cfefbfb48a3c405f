import SyntaxToC.Text.Printable

/-!
# Quoted text

`quoted s` writes `s` between double quotes on one line: a quote and a backslash take a backslash,
the four common controls have letters, and every other character without a visible form is spelled
`\u` and its code point in braces.
-/

namespace SyntaxToC.Text

/-- The lower-case hexadecimal digits of a number. -/
def hex (n : Nat) : String := String.ofList (Nat.toDigits 16 n)

/-- One character as it stands in a quoted text. -/
def escaped (c : Char) : String :=
  match c with
  | '"' => "\\\""
  | '\\' => "\\\\"
  | '\n' => "\\n"
  | '\r' => "\\r"
  | '\t' => "\\t"
  | '\x00' => "\\0"
  | c => if isPrintable c then c.toString else "\\u\x7b" ++ hex c.toNat ++ "\x7d"

def quoted (s : String) : String :=
  s.foldl (fun written c => written ++ escaped c) "\"" ++ "\""

end SyntaxToC.Text
