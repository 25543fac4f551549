import FormulaCode.Text.Hidden

namespace FormulaCode.Text

def escape (c : Char) : List Char :=
  match c with
  | '\x00' => ['\\', '0']
  | '\t' => ['\\', 't']
  | '\n' => ['\\', 'n']
  | '\r' => ['\\', 'r']
  | '"' => ['\\', '"']
  | '\\' => ['\\', '\\']
  | c =>
    if isHidden c then '\\' :: 'u' :: '\x7b' :: Nat.toDigits 16 c.toNat ++ ['\x7d'] else [c]

def quoted (cs : List Char) : String := String.ofList ('"' :: cs.flatMap escape ++ ['"'])

end FormulaCode.Text
