/-!
# JSON values and their text

Values as they are written: numbers are natural, the members of an object keep their order. The
text comes as a list of pieces, so that a reader of the text can stop between them.
-/

namespace Collectives.Json

inductive Value where
  | null
  | number (n : Nat)
  | text (s : String)
  | array (items : List Value)
  | object (members : List (String × Value))

/-- The digit with the value `n`, for `n < 16`. -/
def hexDigit (n : Nat) : Char :=
  if n < 10 then .ofNat ('0'.toNat + n) else .ofNat ('a'.toNat + (n - 10))

/-- A character as it stands between quotes: quotes, backslashes and control characters are
escaped. -/
def escape (c : Char) : List Char :=
  if c = '"' then ['\\', '"']
  else if c = '\\' then ['\\', '\\']
  else if c = '\x08' then ['\\', 'b']
  else if c = '\x0c' then ['\\', 'f']
  else if c = '\n' then ['\\', 'n']
  else if c = '\r' then ['\\', 'r']
  else if c = '\t' then ['\\', 't']
  else if c.toNat < 0x20 then
    ['\\', 'u', '0', '0', hexDigit (c.toNat / 16), hexDigit (c.toNat % 16)]
  else [c]

def quote (s : String) : String := .ofList ('"' :: s.toList.flatMap escape ++ ['"'])

inductive Layout where
  | compact
  /-- Every item on a line of its own, two blanks further in than its container. -/
  | pretty
  deriving DecidableEq, Repr

def Layout.lineBreak (layout : Layout) (depth : Nat) : String :=
  match layout with
  | .compact => ""
  | .pretty => .ofList ('\n' :: List.replicate (2 * depth) ' ')

def Layout.colon : Layout → String
  | .compact => ":"
  | .pretty => ": "

namespace Value

mutual

/-- The text of a value whose lines are `depth` levels in. -/
def pieces (layout : Layout) (depth : Nat) : Value → List String
  | .null => ["null"]
  | .number n => [n.repr]
  | .text s => [quote s]
  | .array [] => ["[]"]
  | .array (item :: items) =>
    "[" :: layout.lineBreak (depth + 1) :: pieces layout (depth + 1) item ++
      itemPieces layout depth items
  | .object [] => ["\x7b\x7d"]
  | .object ((key, value) :: members) =>
    "\x7b" :: layout.lineBreak (depth + 1) :: quote key :: layout.colon ::
      pieces layout (depth + 1) value ++ memberPieces layout depth members

def itemPieces (layout : Layout) (depth : Nat) : List Value → List String
  | [] => [layout.lineBreak depth, "]"]
  | item :: items =>
    "," :: layout.lineBreak (depth + 1) :: pieces layout (depth + 1) item ++
      itemPieces layout depth items

def memberPieces (layout : Layout) (depth : Nat) : List (String × Value) → List String
  | [] => [layout.lineBreak depth, "\x7d"]
  | (key, value) :: members =>
    "," :: layout.lineBreak (depth + 1) :: quote key :: layout.colon ::
      pieces layout (depth + 1) value ++ memberPieces layout depth members

end

def render (layout : Layout) (value : Value) : String := .join (value.pieces layout 0)

end Value
end Collectives.Json
