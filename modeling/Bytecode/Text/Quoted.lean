import Bytecode.Text.Hex
import Bytecode.Text.Hidden

/-!
# Quoted text

A text between double quotes.  The quote and the backslash are escaped, four control characters
have short escapes, every other hidden character is written by its code point.
-/

namespace Bytecode
namespace Text

def quoteChar (c : Char) : String :=
  if c = '"' then "\\\""
  else if c = '\\' then "\\\\"
  else if c = '\n' then "\\n"
  else if c = '\r' then "\\r"
  else if c = '\t' then "\\t"
  else if c.toNat = 0 then "\\0"
  else if isHidden c then "\\u\x7b" ++ hex c.toNat ++ "\x7d"
  else c.toString

def quote (s : String) : String :=
  "\"" ++ String.join (s.toList.map quoteChar) ++ "\""

def quoteList (items : List String) : String :=
  "[" ++ ", ".intercalate (items.map quote) ++ "]"

end Text
end Bytecode
