/-
**JSON documents and how they are written.**

A document is written either on one line without blanks or over several lines with an indent of two.
The order of the fields of an object is kept.
-/

set_option autoImplicit false

namespace Resumable

/-- A JSON document whose numbers are natural numbers. -/
inductive Document where
  | null
  | bool (b : Bool)
  | number (n : Nat)
  | text (s : String)
  | list (items : List Document)
  | object (fields : List (String × Document))
deriving Inhabited

namespace Document

/-! ### Quoted text -/

/-- The digits of a code below 32 after `\u`. -/
def hexCode (n : Nat) : String :=
  let digit (d : Nat) : Char := (Nat.digitChar d)
  String.ofList ['0', '0', digit (n / 16), digit (n % 16)]

/-- The written form of a character: quotes, backslashes and control characters are escaped, all
else stands for itself. -/
def escaped (c : Char) : String :=
  if c = '"' then "\\\""
  else if c = '\\' then "\\\\"
  else if c = '\n' then "\\n"
  else if c = '\r' then "\\r"
  else if c = '\t' then "\\t"
  else if c.toNat = 8 then "\\b"
  else if c.toNat = 12 then "\\f"
  else if c.toNat < 32 then "\\u" ++ hexCode c.toNat
  else c.toString

/-- A text between quotes. -/
def quoted (s : String) : String := "\"" ++ String.join (s.toList.map escaped) ++ "\""

/-! ### One line -/

mutual

/-- The document on one line. -/
def compact : Document → String
  | .null => "null"
  | .bool b => if b then "true" else "false"
  | .number n => toString n
  | .text s => quoted s
  | .list items => "[" ++ ",".intercalate (compactItems items) ++ "]"
  | .object fields => "\x7b" ++ ",".intercalate (compactFields fields) ++ "\x7d"

/-- The items of a list on one line each. -/
def compactItems : List Document → List String
  | [] => []
  | d :: ds => d.compact :: compactItems ds

/-- The fields of an object on one line each. -/
def compactFields : List (String × Document) → List String
  | [] => []
  | (k, d) :: fs => (quoted k ++ ":" ++ d.compact) :: compactFields fs

end

/-! ### Several lines -/

/-- A line break followed by the indent of a nesting depth. -/
def lineBreak (depth : Nat) : String := "\n" ++ String.ofList (List.replicate (2 * depth) ' ')

/-- Entries between brackets, each on a line of its own; brackets without entries stay together. -/
def bracketed (opening closing : String) (depth : Nat) (entries : List String) : String :=
  if entries.isEmpty then opening ++ closing
  else
    opening ++ ",".intercalate (entries.map (lineBreak (depth + 1) ++ ·)) ++ lineBreak depth ++
      closing

mutual

/-- The document over several lines, at a nesting depth. -/
def prettyAt (depth : Nat) : Document → String
  | .null => "null"
  | .bool b => if b then "true" else "false"
  | .number n => toString n
  | .text s => quoted s
  | .list items => bracketed "[" "]" depth (prettyItems (depth + 1) items)
  | .object fields => bracketed "\x7b" "\x7d" depth (prettyFields (depth + 1) fields)

/-- The items of a list over several lines each. -/
def prettyItems (depth : Nat) : List Document → List String
  | [] => []
  | d :: ds => d.prettyAt depth :: prettyItems depth ds

/-- The fields of an object over several lines each. -/
def prettyFields (depth : Nat) : List (String × Document) → List String
  | [] => []
  | (k, d) :: fs => (quoted k ++ ": " ++ d.prettyAt depth) :: prettyFields depth fs

end

/-- The document over several lines. -/
def pretty (d : Document) : String := d.prettyAt 0

end Document

end Resumable
