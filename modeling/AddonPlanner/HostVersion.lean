import AddonPlanner.Error
import AddonPlanner.Text.Blank
import AddonPlanner.Text.Decimal

/-!
# Host versions

The version of the host that packages run on: one to three numbers. A number that is not given counts as zero in comparisons,
but stays out of the written form.
-/

namespace AddonPlanner

/-- The version of a host. -/
structure HostVersion where
  /-- The first number. -/
  major : UInt32
  /-- The second number, when given. -/
  minor? : Option UInt32
  /-- The third number, when given. -/
  patch? : Option UInt32
  /-- The third number is given only after the second. -/
  minor_of_patch : patch?.isSome → minor?.isSome

namespace HostVersion

/-- The text cut at every dot. -/
def components (text : List Char) : List (List Char) :=
  match text with
  | [] => [[]]
  | c :: rest =>
    if c = '.' then [] :: components rest
    else
      match components rest with
      | first :: others => (c :: first) :: others
      | [] => [[c]]

/-- Reads a number of a version; what is no number is the fault given. -/
def component (text : List Char) (fault : Fault) : Except Fault UInt32 :=
  match Decimal.word? text with
  | some n => .ok n
  | none => .error fault

/-- Reads a host version; blank characters around it do not count. -/
def read (written : String) : Except Fault HostVersion :=
  let text := trim written.toList
  let shown := String.ofList text
  if text = [] then .error .emptyHost
  else
    match components text with
    | [major] => do
      return ⟨← component major (.badMajor shown), none, none, nofun⟩
    | [major, minor] => do
      return ⟨← component major (.badMajor shown), some (← component minor (.badMinor shown)), none, nofun⟩
    | [major, minor, patch] => do
      return ⟨← component major (.badMajor shown), some (← component minor (.badMinor shown)),
        some (← component patch (.badPatch shown)), fun _ => rfl⟩
    | _ => .error (.tooManyComponents shown)

/-- Reads the host version that a setting gives as UTF-8 bytes; a setting that is absent, or no text, gives way to the
fallback. -/
def ofSetting (setting? : Option ByteArray) (fallback : HostVersion) : Except Fault HostVersion :=
  match setting?.bind String.fromUTF8? with
  | some written => read written
  | none => .ok fallback

/-- The written form of a host version: the numbers that were given, with dots between them. -/
def display (v : HostVersion) : String :=
  String.intercalate "." ((v.major :: v.minor?.toList ++ v.patch?.toList).map Decimal.written)

instance : ToString HostVersion := ⟨display⟩

/-- The three numbers that decide a comparison. -/
def weight (v : HostVersion) : List UInt32 :=
  [v.major, v.minor?.getD 0, v.patch?.getD 0]

instance : Ord HostVersion where
  compare v w := compare v.weight w.weight

/-- Host versions are equal when neither comes before the other. -/
instance : BEq HostVersion where
  beq v w := (compare v w).isEq

end HostVersion

end AddonPlanner
