/-!
# Symbols

Text that may be damaged: a sequence of characters and of bytes that are no part of any character.
-/

namespace AddonPlanner

/-- A character, or nothing in the place of a byte that is no part of one. -/
abbrev Symbol := Option Char

/-- The symbols of a sound text. -/
def symbolsOfText (text : String) : List Symbol :=
  text.toList.map some

/-- The symbols of UTF-8 bytes from a position on. Where no character starts, one byte is passed over. -/
def symbolsFrom (bytes : ByteArray) (position : Nat) : List Symbol :=
  if position < bytes.size then
    match bytes.utf8DecodeChar? position with
    | some c => some c :: symbolsFrom bytes (position + c.utf8Size)
    | none => none :: symbolsFrom bytes (position + 1)
  else []
termination_by bytes.size - position
decreasing_by
  · have := c.utf8Size_pos
    omega
  · omega

/-- The symbols of UTF-8 bytes. -/
def symbolsOfBytes (bytes : ByteArray) : List Symbol :=
  symbolsFrom bytes 0

end AddonPlanner
