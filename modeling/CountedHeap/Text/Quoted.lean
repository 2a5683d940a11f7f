import CountedHeap.Hex
import CountedHeap.Text.Hidden

/-!
Quoted text: quotes, backslashes and line ends are escaped by a backslash, and a character that
cannot be seen is written by its code point.
-/

namespace CountedHeap.Text

def escape (c : Char) : String :=
  match c with
  | '\x00' => "\\0"
  | '\t' => "\\t"
  | '\r' => "\\r"
  | '\n' => "\\n"
  | '\\' => "\\\\"
  | '"' => "\\\""
  | c =>
      if ' ' ≤ c && c ≤ '~' then c.toString
      else if isHidden c then "\\u\x7b" ++ hexDigits c.toNat ++ "\x7d"
      else c.toString

def quote (s : String) : String := "\"" ++ String.join (s.toList.map escape) ++ "\""

end CountedHeap.Text
