import RuleLogic.Json.Value

/-!
# JSON texts of values

`compact` writes a value without spaces, `pretty` with two spaces for each level.  Strings escape
the quote, the backslash and the characters below U+0020; all others stand for themselves.

    compact (.arr [x, y]) = '[' :: compact x ++ ',' :: compact y ++ [']']
-/

namespace RuleLogic.Value

/-! ## Strings -/

def hexDigit (n : Nat) : Char := Nat.digitChar n

/-- How a character is written inside a quoted string. -/
def escape (c : Char) : List Char :=
  match c with
  | '"' => ['\\', '"']
  | '\\' => ['\\', '\\']
  | '\x08' => ['\\', 'b']
  | '\x0c' => ['\\', 'f']
  | '\n' => ['\\', 'n']
  | '\r' => ['\\', 'r']
  | '\t' => ['\\', 't']
  | c =>
    if c.toNat < 0x20 then ['\\', 'u', '0', '0', hexDigit (c.toNat / 16), hexDigit (c.toNat % 16)]
    else [c]

def quoted (s : String) : List Char := '"' :: s.toList.flatMap escape ++ ['"']

def boolText (b : Bool) : List Char := if b then "true".toList else "false".toList

/-! ## Compact texts -/

mutual

def compact : Value → List Char
  | .null => "null".toList
  | .bool b => boolText b
  | .num n => n.text
  | .str s => quoted s
  | .arr [] => ['[', ']']
  | .arr (v :: rest) => '[' :: compact v ++ moreItems rest
  | .obj [] => ['{', '}']
  | .obj ((k, v) :: rest) => '{' :: quoted k ++ ':' :: compact v ++ moreEntries rest

/-- The items behind the first, and the closing bracket. -/
def moreItems : List Value → List Char
  | [] => [']']
  | v :: rest => ',' :: compact v ++ moreItems rest

/-- The entries behind the first, and the closing brace. -/
def moreEntries : List (String × Value) → List Char
  | [] => ['}']
  | (k, v) :: rest => ',' :: quoted k ++ ':' :: compact v ++ moreEntries rest

end

/-- The compact text of a value. -/
def toText (v : Value) : String := String.ofList (compact v)

/-! ## Indented texts -/

/-- A new line at a level of nesting. -/
def lineAt (level : Nat) : List Char := '\n' :: List.replicate (2 * level) ' '

mutual

def pretty (level : Nat) : Value → List Char
  | .null => "null".toList
  | .bool b => boolText b
  | .num n => n.text
  | .str s => quoted s
  | .arr [] => ['[', ']']
  | .arr (v :: rest) =>
    '[' :: lineAt (level + 1) ++ pretty (level + 1) v ++ prettyItems level rest
  | .obj [] => ['{', '}']
  | .obj ((k, v) :: rest) =>
    '{' :: lineAt (level + 1) ++ quoted k ++ [':', ' '] ++ pretty (level + 1) v
      ++ prettyEntries level rest

/-- The items behind the first of an array at the level, and its closing bracket. -/
def prettyItems (level : Nat) : List Value → List Char
  | [] => lineAt level ++ [']']
  | v :: rest => ',' :: lineAt (level + 1) ++ pretty (level + 1) v ++ prettyItems level rest

/-- The entries behind the first of an object at the level, and its closing brace. -/
def prettyEntries (level : Nat) : List (String × Value) → List Char
  | [] => lineAt level ++ ['}']
  | (k, v) :: rest =>
    ',' :: lineAt (level + 1) ++ quoted k ++ [':', ' '] ++ pretty (level + 1) v
      ++ prettyEntries level rest

end

/-- The indented text of a value. -/
def toPrettyText (v : Value) : String := String.ofList (pretty 0 v)

end RuleLogic.Value
