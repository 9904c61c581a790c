/-!
# Structured values

## Main definitions

- `Json` — values of arrays and objects; the fields of an object are in order
- `Json.quote` — a string between quotes
- `Json.pretty` — a value over several lines

## Design notes

Only whole numbers occur. Characters outside ASCII are written as they are, and
control characters below the space as escapes.
-/

namespace PipelineLang

/-- A structured value. -/
inductive Json where
  | null
  | bool (value : Bool)
  | number (value : Nat)
  | string (value : String)
  | array (items : List Json)
  | object (fields : List (String × Json))

namespace Json

/-- The characters whose escapes are a backslash and a letter, with that letter. -/
def letterEscapes : List (Char × Char) :=
  [('\x08', 'b'), ('\t', 't'), ('\n', 'n'), ('\x0c', 'f'), ('\r', 'r'),
   ('\x22', '\x22'), ('\\', '\\')]

/-- The lowest `count` hexadecimal digits of a number. -/
def hexDigits (count : Nat) (n : Nat) : List Char :=
  let digits := Nat.toDigits 16 n
  List.replicate (count - digits.length) '0' ++ digits

/-- A character as it is written between quotes. -/
def quoteChar (c : Char) : List Char :=
  match letterEscapes.lookup c with
  | some letter => ['\\', letter]
  | none => if c < ' ' then '\\' :: 'u' :: hexDigits 4 c.toNat else [c]

/-- A string between quotes. -/
def quote (text : String) : String :=
  "\x22" ++ String.ofList (text.toList.flatMap quoteChar) ++ "\x22"

/-- The start of a line that is within `depth` arrays and objects. -/
def newLine (depth : Nat) : String := "\n" ++ String.join (List.replicate depth "  ")

mutual

/-- A value over several lines, within `depth` arrays and objects. -/
def prettyAt (depth : Nat) : Json → String
  | null => "null"
  | bool true => "true"
  | bool false => "false"
  | number value => toString value
  | string value => quote value
  | array [] => "[]"
  | array (item :: rest) =>
    "[" ++ newLine (depth + 1) ++ prettyAt (depth + 1) item ++ prettyItems (depth + 1) rest
      ++ newLine depth ++ "]"
  | object [] => "\x7b\x7d"
  | object ((name, value) :: rest) =>
    "\x7b" ++ newLine (depth + 1) ++ quote name ++ ": " ++ prettyAt (depth + 1) value
      ++ prettyFields (depth + 1) rest ++ newLine depth ++ "\x7d"

/-- The items behind the first one of an array. -/
def prettyItems (depth : Nat) : List Json → String
  | [] => ""
  | item :: rest => "," ++ newLine depth ++ prettyAt depth item ++ prettyItems depth rest

/-- The fields behind the first one of an object. -/
def prettyFields (depth : Nat) : List (String × Json) → String
  | [] => ""
  | (name, value) :: rest =>
    "," ++ newLine depth ++ quote name ++ ": " ++ prettyAt depth value ++ prettyFields depth rest

end

/-- A value over several lines: two spaces for each array and object around a line. -/
def pretty (value : Json) : String := prettyAt 0 value

/-- A string, or null if there is none. -/
def ofText? : Option String → Json
  | some text => string text
  | none => null

end Json

end PipelineLang
