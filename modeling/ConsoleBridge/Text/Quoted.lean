import ConsoleBridge.Text.Hex
import ConsoleBridge.Text.Unprintable

/-! # Text between quotes as it is shown in a message -/
namespace ConsoleBridge.Quoted

def escape (c : Char) : List Char :=
  if c.toNat = 0 then ['\\', '0']
  else if c = '\t' then ['\\', 't']
  else if c = '\r' then ['\\', 'r']
  else if c = '\n' then ['\\', 'n']
  else if c = '\\' then ['\\', '\\']
  else if c = '"' then ['\\', '"']
  else if Unprintable.holds c then "\\u\x7b".toList ++ Hex.digits c.toNat ++ "\x7d".toList
  else [c]

/-- The text between quotes, with what would end or blur it escaped. -/
def quote (s : String) : String :=
  String.ofList ('"' :: (s.toList.flatMap escape ++ ['"']))

end ConsoleBridge.Quoted
