/-!
# What can go wrong

The causes for which a value, a document or a request is refused, each with its wording.
Dependencies that cannot be met are no errors: they are part of a resolution.
-/

namespace AddonPlanner

/-- Why a text, or a combination of limits, does not make a value. -/
inductive Fault
  /-- A package version has no text. -/
  | emptyVersion
  /-- A host version has no text. -/
  | emptyHost
  /-- A host version has more than three components. -/
  | tooManyComponents (text : String)
  /-- The first component of a host version is no number. -/
  | badMajor (text : String)
  /-- The second component of a host version is no number. -/
  | badMinor (text : String)
  /-- The third component of a host version is no number. -/
  | badPatch (text : String)
  /-- An exact version was given together with a limit. -/
  | mixedLimits
  deriving DecidableEq, Repr

/-- The wording of a fault. -/
def Fault.message : Fault → String
  | .emptyVersion => "parsing error: package version can't be empty"
  | .emptyHost => "parsing error: runtime version can't be empty"
  | .tooManyComponents text => s!"parsing error: too many runtime version components in `{text}`"
  | .badMajor text => s!"parsing error: major version of `{text}` can't be parsed"
  | .badMinor text => s!"parsing error: minor version of `{text}` can't be parsed"
  | .badPatch text => s!"parsing error: patch of `{text}` can't be parsed"
  | .mixedLimits =>
    "parsing error: Attempted to create bounds with both explicit and min or max version constraint"

/-- Why a document is not the written form of a value. -/
inductive FormError
  /-- The text is no document, or a value in it has the wrong kind or length. -/
  | malformed
  /-- A record lacks a field that it needs. -/
  | missingField (name : String)
  /-- A record gives a field twice. -/
  | duplicateField (name : String)
  /-- A choice names none of the variants it has. -/
  | unknownVariant (name : String) (variants : List String)
  /-- A text in the document is not the value that it should be. -/
  | fault (cause : Fault)
  deriving DecidableEq, Repr

/-- The variants of a choice as prose: two are joined by "or", more are listed. -/
def FormError.expected (variants : List String) : String :=
  match variants.map (fun name => s!"`{name}`") with
  | [only] => only
  | [first, second] => s!"{first} or {second}"
  | names => "one of " ++ String.intercalate ", " names

/-- The wording of a form error; what is merely malformed has none of its own. -/
def FormError.message? : FormError → Option String
  | .malformed => none
  | .missingField name => some s!"JSON error: missing field `{name}`"
  | .duplicateField name => some s!"JSON error: duplicate field `{name}`"
  | .unknownVariant name variants =>
    some s!"JSON error: unknown variant `{name}`, expected {FormError.expected variants}"
  | .fault cause => some ("JSON error: " ++ cause.message)

/-- Why a request is refused. -/
inductive Error
  /-- A text given directly is not the value that it should be. -/
  | fault (cause : Fault)
  /-- A document is not the written form of a value. -/
  | form (cause : FormError)
  /-- A selected package is in neither part of the catalog. -/
  | unknownPackage (id : String)
  /-- A selected package is not installed. -/
  | notInstalled (id : String)
  /-- A part of a catalog lists a package twice. -/
  | duplicatePackage (id : String)
  /-- A step builds on a plan or removal, and none has been made. -/
  | nothingPlanned
  deriving DecidableEq, Repr

/-- The wording of an error, for those that have one. -/
def Error.message? : Error → Option String
  | .fault cause => some cause.message
  | .form cause => cause.message?
  | .unknownPackage id => some s!"package `{id}` is neither installed nor available"
  | .notInstalled id => some s!"package `{id}` is not installed"
  | .duplicatePackage id => some s!"package `{id}` appears more than once in the same collection"
  | .nothingPlanned => none

end AddonPlanner
