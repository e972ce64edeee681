import AddonPlanner.Text.Symbol

/-!
# Quoted text

The contents of a JSON string between its quotes, and the text that they stand for. A character may be written as an escape;
one outside the first plane is then written as a pair of surrogates. Surrogates that form no pair, and bytes that are no part
of a character, stand for no text.
-/

namespace AddonPlanner.Json

/-- What one symbol or escape in a string stands for. -/
inductive Piece
  /-- A character. -/
  | char (c : Char)
  /-- The first half of a pair of surrogates. -/
  | high (unit : Nat)
  /-- The second half of a pair of surrogates. -/
  | low (unit : Nat)
  /-- A byte that is no part of a character. -/
  | stray

/-- The value of a hexadecimal digit. -/
def hexDigit? (c : Char) : Option Nat :=
  if c.isDigit then some (c.toNat - '0'.toNat)
  else if 'a' ≤ c ∧ c ≤ 'f' then some (c.toNat - 'a'.toNat + 10)
  else if 'A' ≤ c ∧ c ≤ 'F' then some (c.toNat - 'A'.toNat + 10)
  else none

/-- The number written with four hexadecimal digits. -/
def hexUnit? (a b c d : Char) : Option Nat := do
  return (((← hexDigit? a) * 16 + (← hexDigit? b)) * 16 + (← hexDigit? c)) * 16 + (← hexDigit? d)

/-- What a 16-bit unit stands for. -/
def Piece.ofUnit (unit : Nat) : Piece :=
  if 0xD800 ≤ unit ∧ unit < 0xDC00 then high unit
  else if 0xDC00 ≤ unit ∧ unit < 0xE000 then low unit
  else char (Char.ofNat unit)

/-- The character that a backslash and a letter stand for. -/
def shortEscape? : Char → Option Char
  | '"' => some '"'
  | '\\' => some '\\'
  | '/' => some '/'
  | 'b' => some '\x08'
  | 'f' => some '\x0c'
  | 'n' => some '\n'
  | 'r' => some '\r'
  | 't' => some '\t'
  | _ => none

/-- The pieces of the contents of a string; nothing when they hold a control character or an escape that does not exist. -/
def pieces? : List Symbol → Option (List Piece)
  | [] => some []
  | none :: rest => (pieces? rest).map (.stray :: ·)
  | some '\\' :: some 'u' :: some a :: some b :: some c :: some d :: rest =>
    match hexUnit? a b c d with
    | some unit => (pieces? rest).map (.ofUnit unit :: ·)
    | none => none
  | some '\\' :: some letter :: rest =>
    match shortEscape? letter with
    | some c => (pieces? rest).map (.char c :: ·)
    | none => none
  | some c :: rest => if c = '\\' ∨ c.toNat < 0x20 then none else (pieces? rest).map (.char c :: ·)

/-- The character that a pair of surrogates stands for. -/
def pairedChar (high low : Nat) : Char :=
  Char.ofNat (0x10000 + (high - 0xD800) * 0x400 + (low - 0xDC00))

/-- The text that pieces stand for. -/
def textOf? : List Piece → Option (List Char)
  | [] => some []
  | .char c :: rest => (textOf? rest).map (c :: ·)
  | .high h :: .low l :: rest => (textOf? rest).map (pairedChar h l :: ·)
  | _ => none

/-- A hexadecimal digit of a number below sixteen. -/
def hexDigit (n : Nat) : Char :=
  Nat.digitChar n

/-- The letter that stands for a character after a backslash, where there is one and the character has to be escaped. -/
def escapeLetter? : Char → Option Char
  | '"' => some '"'
  | '\\' => some '\\'
  | '\x08' => some 'b'
  | '\x0c' => some 'f'
  | '\n' => some 'n'
  | '\r' => some 'r'
  | '\t' => some 't'
  | _ => none

/-- A character as it is written inside a string: quotes, backslashes and control characters as escapes, the short ones where
they exist. -/
def escaped (c : Char) : List Char :=
  match escapeLetter? c with
  | some letter => ['\\', letter]
  | none =>
    if c.toNat < 0x20 then ['\\', 'u', '0', '0', hexDigit (c.toNat / 16), hexDigit (c.toNat % 16)]
    else [c]

/-- A text as a string, with its quotes. -/
def quoted (text : List Char) : List Char :=
  '"' :: text.flatMap escaped ++ ['"']

end AddonPlanner.Json
