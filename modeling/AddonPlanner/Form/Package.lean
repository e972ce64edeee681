import AddonPlanner.Catalog
import AddonPlanner.Form.Record

/-!
# The written form of packages

Versions are written as texts, bounds and statuses as choices, requirements, packages and listings as records, and a set of
packages as the list of its members. Reading a set keeps the first package of each identifier.
-/

namespace AddonPlanner

open Json (Document)
open Form

/-! ## Versions and bounds -/

namespace Version

/-- The written form of a version. -/
def toForm (v : Version) : Document :=
  .text v.display

/-- Reads a version. -/
def ofForm : Document → Except FormError Version :=
  readWritten read

end Version

namespace HostVersion

/-- The written form of a host version. -/
def toForm (v : HostVersion) : Document :=
  .text v.display

/-- Reads a host version. -/
def ofForm : Document → Except FormError HostVersion :=
  readWritten read

end HostVersion

namespace Bounds

variable {α : Type}

/-- The written form of bounds, given that of versions. -/
def toForm (write : α → Document) : Bounds α → Document
  | any => .text "Any"
  | exactly version => .record [("Explicit", write version)]
  | atLeast least => .record [("MinOnly", write least)]
  | atMost greatest => .record [("MaxOnly", write greatest)]
  | between least greatest => .record [("MinMax", .list [write least, write greatest])]

/-- The variants of bounds, given how versions are read. -/
def variants (read : Document → Except FormError α) : List (Variant (Bounds α)) :=
  [⟨"Any", .inl any⟩,
    ⟨"Explicit", .inr fun d => exactly <$> read d⟩,
    ⟨"MinOnly", .inr fun d => atLeast <$> read d⟩,
    ⟨"MaxOnly", .inr fun d => atMost <$> read d⟩,
    ⟨"MinMax", .inr fun d => (fun (least, greatest) => between least greatest) <$> readPair read d⟩]

/-- Reads bounds, given how versions are read. -/
def ofForm (read : Document → Except FormError α) : Document → Except FormError (Bounds α) :=
  readChoice (variants read)

end Bounds

/-! ## Packages -/

namespace Requirement

/-- The written form of a requirement. -/
def toForm (d : Requirement) : Document :=
  .record [("id", .text d.id), ("version", d.bounds.toForm Version.toForm)]

/-- The fields of a requirement read so far. -/
structure Draft where
  /-- The identifier, once it is read. -/
  id? : Option String := none
  /-- The bounds; every version will do when none are given. -/
  bounds : Bounds Version := .any

/-- The fields of a requirement. -/
def fields : List (RecordField Draft) :=
  [⟨"id", fun s d => do return { s with id? := some (← readText d) }⟩,
    ⟨"version", fun s d => do return { s with bounds := ← Bounds.ofForm Version.ofForm d }⟩]

/-- Reads a requirement. -/
def ofForm : Document → Except FormError Requirement :=
  readRecord fields {} fun s => do return ⟨← needed "id" s.id?, s.bounds⟩

end Requirement

namespace Status

/-- The name of a status. -/
def name : Status → String
  | unknown => "Unknown"
  | available => "Available"
  | downloading => "Downloading"
  | installed => "Installed"
  | removalFailed => "UninstallationFailed"
  | softRemovalFailed => "SoftUninstallationFailed"
  | notInstalled => "NotInstalled"

/-- Every status. -/
def all : List Status :=
  [unknown, available, downloading, installed, removalFailed, softRemovalFailed, notInstalled]

/-- The written form of a status. -/
def toForm (s : Status) : Document :=
  .text s.name

/-- Reads a status. -/
def ofForm : Document → Except FormError Status :=
  readChoice (all.map fun s => ⟨s.name, .inl s⟩)

end Status

namespace Package

/-- The written form of a package. -/
def toForm (p : Package) : Document :=
  .record [("id", .text p.id), ("version", p.version.toForm),
    ("min_runtime_version", writeOptional HostVersion.toForm p.minHost?),
    ("depends", .list (p.requirements.map Requirement.toForm)), ("status", p.status.toForm)]

/-- The fields of a package read so far. -/
structure Draft where
  /-- The identifier, once it is read. -/
  id? : Option String := none
  /-- The version, once it is read. -/
  version? : Option Version := none
  /-- The least host version, when one is given. -/
  minHost? : Option HostVersion := none
  /-- The requirements; none when they are not given. -/
  requirements : List Requirement := []
  /-- The status; unknown when it is not given. -/
  status : Status := .unknown

/-- The fields of a package. -/
def fields : List (RecordField Draft) :=
  [⟨"id", fun s d => do return { s with id? := some (← readText d) }⟩,
    ⟨"version", fun s d => do return { s with version? := some (← Version.ofForm d) }⟩,
    ⟨"min_runtime_version", fun s d => do return { s with minHost? := ← readOptional HostVersion.ofForm d }⟩,
    ⟨"depends", fun s d => do return { s with requirements := ← readList Requirement.ofForm d }⟩,
    ⟨"status", fun s d => do return { s with status := ← Status.ofForm d }⟩]

/-- Reads a package. -/
def ofForm : Document → Except FormError Package :=
  readRecord fields {} fun s => do
    return ⟨← needed "id" s.id?, ← needed "version" s.version?, s.minHost?, s.requirements, s.status⟩

end Package

namespace PackageSet

/-- The written form of a set: its members in the order of their identifiers. -/
def toForm (s : PackageSet) : Document :=
  .list (s.toList.map Package.toForm)

/-- Reads a set; the first package of each identifier stays. -/
def ofForm (d : Document) : Except FormError PackageSet := do
  return .ofList (← readList Package.ofForm d)

end PackageSet

namespace Listing

/-- The written form of a listing. -/
def toForm (l : Listing) : Document :=
  .record [("installed", .list (l.installed.map Package.toForm)), ("available", .list (l.available.map Package.toForm))]

/-- The fields of a listing. -/
def fields : List (RecordField Listing) :=
  [⟨"installed", fun l d => do return { l with installed := ← readList Package.ofForm d }⟩,
    ⟨"available", fun l d => do return { l with available := ← readList Package.ofForm d }⟩]

/-- Reads a listing; a role that is not given has no packages. -/
def ofForm : Document → Except FormError Listing :=
  readRecord fields ⟨[], []⟩ .ok

end Listing

end AddonPlanner
