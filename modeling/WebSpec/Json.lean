import WebSpec.Table

/-!
# Structured output

The values that are written out: null, truth values, whole numbers, texts, lists, and objects whose
fields keep their order.

`Json.flag`, `Json.textField` and `Json.listField` are fields that are left out where there is nothing
to say, and `Json.render` writes a value in one of two layouts: on one line, or with one item a line
and two spaces a level. All text is written in ASCII, other characters as the `\u` escapes of their
UTF-16 units.
-/

namespace WebSpec

/-- A value to be written out. -/
inductive Json where
  | null
  | bool (value : Bool)
  | int (value : Int)
  | str (value : String)
  | arr (items : List Json)
  | obj (fields : List (String × Json))
  deriving Inhabited, Repr, BEq

namespace Json

/-- The fields of an object, in order. -/
abbrev Fields := List (String × Json)

/-- The field `name` with the value `true`, where the condition holds. -/
def flag (name : String) (condition : Bool) : Fields :=
  if condition then [(name, .bool true)] else []

/-- The field `name` with the given text, unless the text is empty. -/
def textField (name text : String) : Fields :=
  if text = "" then [] else [(name, .str text)]

/-- The field `name` with the given items, unless there are none. -/
def listField (name : String) (items : List Json) : Fields :=
  if items.isEmpty then [] else [(name, .arr items)]

/-- The four hexadecimal digits of a UTF-16 unit. -/
def unitDigits (n : Nat) : List Char :=
  [Nat.digitChar (n / 4096 % 16), Nat.digitChar (n / 256 % 16), Nat.digitChar (n / 16 % 16),
    Nat.digitChar (n % 16)]

/-- A character between the quotes of a text. -/
def escapeChar (c : Char) : List Char :=
  if c = '"' || c = '\\' then ['\\', c]
  else if c = '\n' then ['\\', 'n']
  else if c = '\r' then ['\\', 'r']
  else if c = '\t' then ['\\', 't']
  else if c.toNat = 0x08 then ['\\', 'b']
  else if c.toNat = 0x0C then ['\\', 'f']
  else if 0x20 ≤ c.toNat && c.toNat < 0x7F then [c]
  else if c.toNat < 0x10000 then '\\' :: 'u' :: unitDigits c.toNat
  else
    let n := c.toNat - 0x10000
    '\\' :: 'u' :: unitDigits (0xD800 + n / 0x400) ++
      '\\' :: 'u' :: unitDigits (0xDC00 + n % 0x400)

/-- A text between its quotes. -/
def renderText (s : String) : String :=
  String.ofList ('"' :: s.toList.flatMap escapeChar ++ ['"'])

/-- How a value is laid out. -/
inductive Layout where
  /-- Everything on one line. -/
  | compact
  /-- One item a line, two spaces for each level. -/
  | indented
  deriving DecidableEq, Repr

/-- What stands between an opening bracket and the items at `level`, and after the last of them with
the level of the bracket. -/
def Layout.lineBreak (layout : Layout) (level : Nat) : String :=
  match layout with
  | .compact => ""
  | .indented => String.ofList ('\n' :: List.replicate (2 * level) ' ')

/-- What stands between two items at `level`. -/
def Layout.itemBreak (layout : Layout) (level : Nat) : String :=
  match layout with
  | .compact => ", "
  | .indented => "," ++ layout.lineBreak level

/-- Already written items between their brackets; without items the brackets touch. -/
def bracketed (layout : Layout) (level : Nat) (opening closing : String) (items : List String) :
    String :=
  if items.isEmpty then opening ++ closing
  else
    opening ++ layout.lineBreak (level + 1) ++
      (layout.itemBreak (level + 1)).intercalate items ++ layout.lineBreak level ++ closing

mutual

/-- A value as it is written at the given level. -/
def renderAt (layout : Layout) (level : Nat) : Json → String
  | .null => "null"
  | .bool b => if b then "true" else "false"
  | .int n => toString n
  | .str s => renderText s
  | .arr items => bracketed layout level "[" "]" (renderItems layout (level + 1) items)
  | .obj fields => bracketed layout level "\x7b" "\x7d" (renderFields layout (level + 1) fields)

/-- The items of a list, each as it is written. -/
def renderItems (layout : Layout) (level : Nat) : List Json → List String
  | [] => []
  | item :: rest => renderAt layout level item :: renderItems layout level rest

/-- The fields of an object, each as it is written. -/
def renderFields (layout : Layout) (level : Nat) : Fields → List String
  | [] => []
  | (name, value) :: rest =>
    (renderText name ++ ": " ++ renderAt layout level value) :: renderFields layout level rest

end

/-- A value as text. -/
def render (layout : Layout) (value : Json) : String :=
  value.renderAt layout 0

end Json

end WebSpec
