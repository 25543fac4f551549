namespace FormulaCode

/-- A value. A number is kept as it is spelled, so that `1` and `1.0` stay apart. -/
inductive Json
  | null
  | bool (b : Bool)
  | number (spelling : String)
  | string (s : String)
  | array (items : List Json)
  | object (members : List (String × Json))

namespace Json

def ofNat (n : Nat) : Json := .number (toString n)

def ofInt (n : Int) : Json := .number (toString n)

def hexDigit (n : Nat) : Char := (Nat.toDigits 16 (n % 16)).headD '0'

def escape (c : Char) : List Char :=
  match c with
  | '"' => ['\\', '"']
  | '\\' => ['\\', '\\']
  | '\n' => ['\\', 'n']
  | '\r' => ['\\', 'r']
  | '\t' => ['\\', 't']
  | '\x08' => ['\\', 'b']
  | '\x0c' => ['\\', 'f']
  | c =>
    if c.toNat < 32 then ['\\', 'u', '0', '0', hexDigit (c.toNat / 16), hexDigit c.toNat] else [c]

def quote (s : String) : List Char := '"' :: s.toList.flatMap escape ++ ['"']

mutual

def compactText : Json → List Char
  | .null => "null".toList
  | .bool b => (if b then "true" else "false").toList
  | .number s => s.toList
  | .string s => quote s
  | .array items => '[' :: compactItems items ++ [']']
  | .object members => '\x7b' :: compactMembers members ++ ['\x7d']

def compactItems : List Json → List Char
  | [] => []
  | [v] => compactText v
  | v :: w :: vs => compactText v ++ ',' :: compactItems (w :: vs)

def compactMembers : List (String × Json) → List Char
  | [] => []
  | [(k, v)] => quote k ++ ':' :: compactText v
  | (k, v) :: m :: ms => quote k ++ ':' :: compactText v ++ ',' :: compactMembers (m :: ms)

end

def newline (level : Nat) : List Char := '\n' :: List.replicate (2 * level) ' '

mutual

def prettyText (level : Nat) : Json → List Char
  | .null => "null".toList
  | .bool b => (if b then "true" else "false").toList
  | .number s => s.toList
  | .string s => quote s
  | .array [] => ['[', ']']
  | .array (v :: vs) => '[' :: prettyItems (level + 1) (v :: vs) ++ newline level ++ [']']
  | .object [] => ['\x7b', '\x7d']
  | .object (m :: ms) =>
    '\x7b' :: prettyMembers (level + 1) (m :: ms) ++ newline level ++ ['\x7d']

def prettyItems (level : Nat) : List Json → List Char
  | [] => []
  | [v] => newline level ++ prettyText level v
  | v :: w :: vs => newline level ++ prettyText level v ++ ',' :: prettyItems level (w :: vs)

def prettyMembers (level : Nat) : List (String × Json) → List Char
  | [] => []
  | [(k, v)] => newline level ++ quote k ++ ':' :: ' ' :: prettyText level v
  | (k, v) :: m :: ms =>
    newline level ++ quote k ++ ':' :: ' ' :: prettyText level v ++ ',' :: prettyMembers level (m :: ms)

end

def compact (v : Json) : String := String.ofList v.compactText

def pretty (v : Json) : String := String.ofList (v.prettyText 0)

end Json

end FormulaCode
