import AddonPlanner.Error
import AddonPlanner.Text.Blank
import AddonPlanner.Text.Decimal

/-!
# Package versions

The version of a package: an epoch, which ranks above everything else and is written only when it is not zero, and a text.
-/

namespace AddonPlanner

/-- The version of a package. -/
structure Version where
  /-- Ranks above the text; raised when a package changes how it numbers its versions. -/
  epoch : UInt32
  /-- The version proper. -/
  text : String
  /-- No version is empty. -/
  nonempty : text ≠ ""

namespace Version

/-- Splits a written version at its first colon when a number stands before it, which is then the epoch; a colon after
anything else belongs to the text. -/
def splitEpoch (written : List Char) : UInt32 × List Char :=
  match written.dropWhile (· != ':') with
  | [] => (0, written)
  | _ :: rest =>
    match Decimal.word? (written.takeWhile (· != ':')) with
    | some epoch => (epoch, rest)
    | none => (0, written)

/-- Reads a version; blank characters around it do not count, and at least one character must be left for the text. -/
def read (written : String) : Except Fault Version :=
  let (epoch, text) := splitEpoch (trim written.toList)
  if h : String.ofList text ≠ "" then .ok ⟨epoch, String.ofList text, h⟩ else .error .emptyVersion

/-- The written form of a version. -/
def display (v : Version) : String :=
  if v.epoch = 0 then v.text else Decimal.written v.epoch ++ ":" ++ v.text

instance : ToString Version := ⟨display⟩

end Version

end AddonPlanner
