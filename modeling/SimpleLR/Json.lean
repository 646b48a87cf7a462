import SimpleLR.Text.Quoted
/-!
# JSON documents and their indented layout

A JSON document whose objects keep their members in the order given. The indented layout puts
each member of a non-empty array or object on a line of its own, indented by two spaces per
level, members parted by a comma, and a key followed by `: `; an empty array or object is `[]`
or `{}`. In a string only the quote, the backslash and the characters below the space are
escaped: the usual short forms for backspace, form feed, line feed, carriage return and tab,
`\u` and four lower-case hexadecimal digits for the others. All other characters are written
as they are.
-/

namespace SimpleLR

/-- A JSON document with members in order. -/
inductive JsonValue where
  | null
  | bool (b : Bool)
  | num (n : Int)
  | str (s : String)
  | arr (xs : List JsonValue)
  | obj (members : List (String × JsonValue))
deriving Repr

namespace JsonValue

/-- The escaped form of one character inside a JSON string. -/
def escapeChar (c : Char) : List Char :=
  if c = '"' then ['\\', '"']
  else if c = '\\' then ['\\', '\\']
  else if c = '\n' then ['\\', 'n']
  else if c = '\r' then ['\\', 'r']
  else if c = '\t' then ['\\', 't']
  else if c = '\x08' then ['\\', 'b']
  else if c = '\x0c' then ['\\', 'f']
  else if c.toNat < 0x20 then '\\' :: 'u' :: Text.hexDigits 4 c.toNat
  else [c]

/-- A string as a JSON string literal. -/
def quoteString (s : String) : String :=
  String.ofList ('"' :: s.toList.flatMap escapeChar ++ ['"'])

/-- The indentation of a level. -/
def indent (depth : Nat) : String := String.ofList (List.replicate (2 * depth) ' ')

mutual

/-- The indented layout of a document at nesting level `depth`. -/
def layout (depth : Nat) : JsonValue → String
  | .null => "null"
  | .bool b => if b then "true" else "false"
  | .num n => toString n
  | .str s => quoteString s
  | .arr xs =>
    if xs.isEmpty then "[]"
    else "[\n" ++ ",\n".intercalate (layoutItems (depth + 1) xs) ++ "\n" ++ indent depth ++ "]"
  | .obj ms =>
    if ms.isEmpty then "\x7b\x7d"
    else
      "\x7b\n" ++ ",\n".intercalate (layoutMembers (depth + 1) ms) ++ "\n" ++ indent depth ++
        "\x7d"

/-- The lines of the items of an array. -/
def layoutItems (depth : Nat) : List JsonValue → List String
  | [] => []
  | x :: xs => (indent depth ++ layout depth x) :: layoutItems depth xs

/-- The lines of the members of an object. -/
def layoutMembers (depth : Nat) : List (String × JsonValue) → List String
  | [] => []
  | m :: ms => layoutMember depth m :: layoutMembers depth ms

/-- The line of one member of an object. -/
def layoutMember (depth : Nat) : String × JsonValue → String
  | (k, v) => indent depth ++ quoteString k ++ ": " ++ layout depth v

end

/-- The indented text of a document. -/
def render (v : JsonValue) : String := layout 0 v

/-- A list of names as an array of strings. -/
def strings (xs : List String) : JsonValue := .arr (xs.map .str)

/-- A natural number. -/
def nat (n : Nat) : JsonValue := .num n

end JsonValue

end SimpleLR
