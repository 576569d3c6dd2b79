/-!
# JSON documents

The part of JSON that reports are made of: strings, arrays, and objects whose members keep their
order. A document is written over several lines, each level two spaces deeper than the one around
it.

* `Json.escape`: how a character stands inside a string. Only the quote, the backslash and the
  control characters below U+0020 change.
* `Json.write`: a value at some depth, in front of the text that follows it. Writing in front of
  a given text lets a reader of the format be compared with it place by place.
* `Json.pretty`: the whole document.
-/

namespace ReversePolish

/-- A JSON value without numbers, booleans and null. -/
inductive Json where
  | string (text : String)
  | array (items : List Json)
  | object (members : List (String × Json))
  deriving Repr, Inhabited

namespace Json

/-! ## Strings -/

/-- The hexadecimal digit of a number below 16, in lower case. -/
def hexDigit (n : Nat) : Char :=
  Char.ofNat (if n < 10 then '0'.toNat + n else 'a'.toNat + (n - 10))

/-- The form of a character inside a string. -/
def escape (c : Char) : List Char :=
  if c = '"' then ['\\', '"']
  else if c = '\\' then ['\\', '\\']
  else if c = '\x08' then ['\\', 'b']
  else if c = '\x0c' then ['\\', 'f']
  else if c = '\n' then ['\\', 'n']
  else if c = '\r' then ['\\', 'r']
  else if c = '\t' then ['\\', 't']
  else if c.toNat < 0x20 then
    ['\\', 'u', '0', '0', hexDigit (c.toNat / 16), hexDigit (c.toNat % 16)]
  else [c]

/-- Writes a string in quotes, in front of `rest`. -/
def quote (text : List Char) (rest : List Char) : List Char :=
  '"' :: text.foldr (fun c rest => escape c ++ rest) ('"' :: rest)

/-! ## Values -/

/-- A new line at some depth, in front of `rest`. -/
def newline (depth : Nat) (rest : List Char) : List Char :=
  '\n' :: (List.replicate (2 * depth) ' ' ++ rest)

mutual

/-- Writes a value whose first line stands at `depth`, in front of `rest`. -/
def write (depth : Nat) : Json → List Char → List Char
  | .string text, rest => quote text.toList rest
  | .array [], rest => '[' :: ']' :: rest
  | .array (item :: items), rest =>
    '[' :: newline (depth + 1) (write (depth + 1) item
      (writeItems (depth + 1) items (newline depth (']' :: rest))))
  | .object [], rest => '\x7b' :: '\x7d' :: rest
  | .object (m :: ms), rest =>
    '\x7b' :: newline (depth + 1) (writeMember (depth + 1) m
      (writeMembers (depth + 1) ms (newline depth ('\x7d' :: rest))))

/-- Writes the items of an array after the first, each behind a comma and on a line of its own. -/
def writeItems (depth : Nat) : List Json → List Char → List Char
  | [], rest => rest
  | item :: items, rest =>
    ',' :: newline depth (write depth item (writeItems depth items rest))

/-- Writes the members of an object after the first, each behind a comma and on a line of its
own. -/
def writeMembers (depth : Nat) : List (String × Json) → List Char → List Char
  | [], rest => rest
  | m :: ms, rest => ',' :: newline depth (writeMember depth m (writeMembers depth ms rest))

/-- Writes a member of an object: its name, a colon and its value. -/
def writeMember (depth : Nat) : String × Json → List Char → List Char
  | (key, value), rest => quote key.toList (':' :: ' ' :: write depth value rest)

end

/-- The document that holds the value, without a final line feed. -/
def pretty (value : Json) : String := String.ofList (value.write 0 [])

end Json

end ReversePolish
