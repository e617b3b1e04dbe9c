import StateSynthesis.Text.Printable

/-!
Quoted text: single quotes, or double quotes around a text that has a single one and no double one.
What can not be printed is escaped by its code.
-/
namespace StateSynthesis.Text

def hexDigits (width n : Nat) : String :=
  let ds := Nat.toDigits 16 n
  String.ofList (List.replicate (width - ds.length) '0' ++ ds)

def escape (quote c : Char) : String :=
  if c == '\\' || c == quote then String.ofList ['\\', c]
  else if c == '\t' then "\\t"
  else if c == '\n' then "\\n"
  else if c == '\r' then "\\r"
  else if isPrintable c then c.toString
  else if c.toNat ≤ 0xff then "\\x" ++ hexDigits 2 c.toNat
  else if c.toNat ≤ 0xffff then "\\u" ++ hexDigits 4 c.toNat
  else "\\U" ++ hexDigits 8 c.toNat

def quoteMark (s : List Char) : Char :=
  if s.contains '\'' && !s.contains '"' then '"' else '\''

def quoted (s : String) : String :=
  let mark := quoteMark s.toList
  mark.toString ++ String.join (s.toList.map (escape mark)) ++ mark.toString

end StateSynthesis.Text
