/-
**Reading JSON.**

The reader is strict: no comments, no trailing commas, no leading zeros, no control characters
inside quotes, nothing but blanks after the document.  It works in two folds, one over the
characters that yields tokens and one over the tokens that yields the document.

A quoted text may hold escapes for halves of surrogate pairs that do not match up.  Such a text has
no value, which matters only to those who want its value; the reader therefore gives texts as
options.  The values of numbers are not kept.
-/

set_option autoImplicit false

namespace Resumable

/-- A document as it was read.  A text or a key is `none` when its surrogates do not match up. -/
inductive Source where
  | null
  | bool (b : Bool)
  | number
  | text (s : Option String)
  | list (items : List Source)
  | object (fields : List (Option String × Source))
deriving Inhabited

/-- The smallest pieces of a document. -/
inductive Token where
  | null
  | bool (b : Bool)
  | number
  | text (s : Option String)
  | beginList
  | endList
  | beginObject
  | endObject
  | comma
  | colon
deriving DecidableEq, Inhabited

namespace Lexer

/-! ### Numbers -/

/-- How far into a number the reader is. -/
inductive NumberState where
  | minus | zero | whole | point | fraction | exponent | exponentSign | exponentDigits
deriving DecidableEq

/-- Whether a number may end here. -/
def NumberState.mayEnd : NumberState → Bool
  | .zero | .whole | .fraction | .exponentDigits => true
  | .minus | .point | .exponent | .exponentSign => false

/-- The state after one more character of the number; `none` if the character is no part of it. -/
def NumberState.next? (s : NumberState) (c : Char) : Option NumberState :=
  match s with
  | .minus => if c = '0' then some .zero else if c.isDigit then some .whole else none
  | .zero =>
    if c = '.' then some .point else if c = 'e' ∨ c = 'E' then some .exponent else none
  | .whole =>
    if c.isDigit then some .whole
    else if c = '.' then some .point
    else if c = 'e' ∨ c = 'E' then some .exponent
    else none
  | .point => if c.isDigit then some .fraction else none
  | .fraction =>
    if c.isDigit then some .fraction else if c = 'e' ∨ c = 'E' then some .exponent else none
  | .exponent =>
    if c.isDigit then some .exponentDigits
    else if c = '+' ∨ c = '-' then some .exponentSign
    else none
  | .exponentSign => if c.isDigit then some .exponentDigits else none
  | .exponentDigits => if c.isDigit then some .exponentDigits else none

/-! ### Texts -/

/-- The part of a text between quotes that was read: its characters, the last one first, and the
first half of a surrogate pair that waits for the other. -/
structure Spelled where
  chars : List Char := []
  half : Option Nat := none
  valid : Bool := true
deriving DecidableEq

namespace Spelled

/-- Takes in a character. -/
def add (s : Spelled) (c : Char) : Spelled :=
  { chars := c :: s.chars, half := none, valid := s.valid && s.half.isNone }

/-- Takes in a code unit given by an escape. -/
def addUnit (s : Spelled) (unit : Nat) : Spelled :=
  if 0xD800 ≤ unit ∧ unit < 0xDC00 then
    { s with half := some unit, valid := s.valid && s.half.isNone }
  else if 0xDC00 ≤ unit ∧ unit < 0xE000 then
    match s.half with
    | some high =>
      { chars := Char.ofNat (0x10000 + (high - 0xD800) * 0x400 + (unit - 0xDC00)) :: s.chars
        half := none, valid := s.valid }
    | none => { s with valid := false }
  else s.add (Char.ofNat unit)

/-- The text, if its surrogates match up. -/
def text? (s : Spelled) : Option String :=
  if s.valid && s.half.isNone then some (String.ofList s.chars.reverse) else none

end Spelled

/-- The character that a one-letter escape stands for. -/
def escape? (c : Char) : Option Char :=
  if c = '"' then some '"'
  else if c = '\\' then some '\\'
  else if c = '/' then some '/'
  else if c = 'b' then some (Char.ofNat 8)
  else if c = 'f' then some (Char.ofNat 12)
  else if c = 'n' then some '\n'
  else if c = 'r' then some '\r'
  else if c = 't' then some '\t'
  else none

/-- The value of a hexadecimal digit. -/
def hexDigit? (c : Char) : Option Nat :=
  if '0' ≤ c ∧ c ≤ '9' then some (c.toNat - '0'.toNat)
  else if 'a' ≤ c ∧ c ≤ 'f' then some (c.toNat - 'a'.toNat + 10)
  else if 'A' ≤ c ∧ c ≤ 'F' then some (c.toNat - 'A'.toNat + 10)
  else none

/-! ### The fold over characters -/

/-- What the reader is in the middle of. -/
inductive Mode where
  | between
  | word (letters : List Char)
  | number (s : NumberState)
  | text (s : Spelled)
  /-- After a backslash. -/
  | escape (s : Spelled)
  /-- After `\u` and some of its digits. -/
  | unit (s : Spelled) (digits value : Nat)
deriving DecidableEq

/-- The mode and the tokens so far, the last one first. -/
structure State where
  mode : Mode
  tokens : List Token

/-- Whether the character is a blank. -/
def isBlank (c : Char) : Bool := c = ' ' || c = '\n' || c = '\t' || c = '\r'

/-- A character that does not continue anything. -/
def begin? (tokens : List Token) (c : Char) : Option State :=
  if isBlank c then some ⟨.between, tokens⟩
  else if c = '[' then some ⟨.between, .beginList :: tokens⟩
  else if c = ']' then some ⟨.between, .endList :: tokens⟩
  else if c = '\x7b' then some ⟨.between, .beginObject :: tokens⟩
  else if c = '\x7d' then some ⟨.between, .endObject :: tokens⟩
  else if c = ',' then some ⟨.between, .comma :: tokens⟩
  else if c = ':' then some ⟨.between, .colon :: tokens⟩
  else if c = '"' then some ⟨.text {}, tokens⟩
  else if c = '-' then some ⟨.number .minus, tokens⟩
  else if c = '0' then some ⟨.number .zero, tokens⟩
  else if c.isDigit then some ⟨.number .whole, tokens⟩
  else if c.isLower then some ⟨.word [c], tokens⟩
  else none

/-- The token that a word stands for. -/
def word? (letters : List Char) : Option Token :=
  if letters = ['l', 'l', 'u', 'n'] then some .null
  else if letters = ['e', 'u', 'r', 't'] then some (.bool true)
  else if letters = ['e', 's', 'l', 'a', 'f'] then some (.bool false)
  else none

/-- The tokens once a word or a number has ended. -/
def finish? (s : State) : Option (List Token) :=
  match s.mode with
  | .between => some s.tokens
  | .word letters => (word? letters).map (· :: s.tokens)
  | .number n => if n.mayEnd then some (.number :: s.tokens) else none
  | .text _ | .escape _ | .unit _ _ _ => none

/-- Takes in one character. -/
def step? (s : State) (c : Char) : Option State :=
  match s.mode with
  | .between => begin? s.tokens c
  | .word letters =>
    if c.isLower then some { s with mode := .word (c :: letters) }
    else (finish? s).bind (begin? · c)
  | .number n =>
    match n.next? c with
    | some n' => some { s with mode := .number n' }
    | none => (finish? s).bind (begin? · c)
  | .text t =>
    if c = '"' then some ⟨.between, .text t.text? :: s.tokens⟩
    else if c = '\\' then some { s with mode := .escape t }
    else if c.toNat < 32 then none
    else some { s with mode := .text (t.add c) }
  | .escape t =>
    if c = 'u' then some { s with mode := .unit t 0 0 }
    else (escape? c).map fun e => { s with mode := .text (t.add e) }
  | .unit t digits value =>
    (hexDigit? c).map fun d =>
      if digits = 3 then { s with mode := .text (t.addUnit (16 * value + d)) }
      else { s with mode := .unit t (digits + 1) (16 * value + d) }

/-- The tokens of a text. -/
def tokens? (text : String) : Option (List Token) :=
  ((text.toList.foldlM step? ⟨.between, []⟩).bind finish?).map List.reverse

end Lexer

namespace Assembly

/-! ### The fold over tokens -/

/-- A list or an object that is not closed yet, its members so far the last one first. -/
inductive Open where
  | list (items : List Source)
  | object (fields : List (Option String × Source)) (key : Option String)

/-- What may come next. -/
inductive Expect where
  | value
  /-- A value or the end of the list. -/
  | first
  | key
  /-- A key or the end of the object. -/
  | firstKey
  | colon
  /-- A comma or the end. -/
  | more
deriving DecidableEq

/-- The documents still open and what may come next, or the finished document. -/
inductive State where
  | running (opened : List Open) (expect : Expect)
  | finished (s : Source)

/-- A value is complete. -/
def complete (v : Source) : List Open → State
  | [] => .finished v
  | .list items :: opened => .running (.list (v :: items) :: opened) .more
  | .object fields key :: opened => .running (.object ((key, v) :: fields) none :: opened) .more

/-- The list or object on top is closed. -/
def close? : List Open → Token → Option State
  | .list items :: opened, .endList => some (complete (.list items.reverse) opened)
  | .object fields _ :: opened, .endObject => some (complete (.object fields.reverse) opened)
  | _, _ => none

/-- A token that begins a value. -/
def value? (opened : List Open) : Token → Option State
  | .null => some (complete .null opened)
  | .bool b => some (complete (.bool b) opened)
  | .number => some (complete .number opened)
  | .text s => some (complete (.text s) opened)
  | .beginList => some (.running (.list [] :: opened) .first)
  | .beginObject => some (.running (.object [] none :: opened) .firstKey)
  | .endList | .endObject | .comma | .colon => none

/-- Takes in the key of a field. -/
def key? : List Open → Token → Option State
  | .object fields _ :: opened, .text s => some (.running (.object fields s :: opened) .colon)
  | _, _ => none

/-- A comma between members. -/
def comma? : List Open → Option State
  | .list items :: opened => some (.running (.list items :: opened) .value)
  | .object fields key :: opened => some (.running (.object fields key :: opened) .key)
  | [] => none

/-- Takes in one token. -/
def step? : State → Token → Option State
  | .finished _, _ => none
  | .running opened .value, t => value? opened t
  | .running opened .first, t => if t = .endList then close? opened t else value? opened t
  | .running opened .key, t => key? opened t
  | .running opened .firstKey, t => if t = .endObject then close? opened t else key? opened t
  | .running opened .colon, t => if t = .colon then some (.running opened .value) else none
  | .running opened .more, t => if t = .comma then comma? opened else close? opened t

/-- The document that the tokens spell. -/
def document? (ts : List Token) : Option Source :=
  match ts.foldlM step? (.running [] .value) with
  | some (.finished s) => some s
  | _ => none

end Assembly

/-- **Reads a document.** -/
def Source.read? (text : String) : Option Source :=
  (Lexer.tokens? text).bind Assembly.document?

end Resumable
