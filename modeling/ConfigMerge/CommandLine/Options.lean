/-!
# CommandLine/Options — reading options from arguments and the environment

An `Option` of a command is a `Setting`: a long name, an environment variable and what a value
does. Arguments are read from left to right.  A value is looked at when the argument after it has
been recognised, so an unknown argument is reported before the fault of the value in front of it.
What the arguments do not set is taken from the environment, in the order of the settings.
-/

namespace ConfigMerge

/-- Why a command line is not carried out. -/
inductive UsageError where
  /-- No command was given. -/
  | missingCommand
  /-- The usage is asked for. -/
  | helpAsked
  /-- The version is asked for. -/
  | versionAsked
  /-- There is no such command. -/
  | unknownCommand
  /-- There is no such option, or an argument is not expected. -/
  | unknownArgument
  /-- An option lacks its value, or the value is not one of those allowed. -/
  | invalidValue
  /-- A value is not of the form that the option needs. -/
  | malformedValue
  /-- An option is given twice. -/
  | repeatedOption
  /-- A flag is given a value. -/
  | valueForFlag
deriving DecidableEq

/-- What is told about a command line that is not carried out. -/
def UsageError.message : UsageError → String
  | .missingCommand => "a command is required"
  | .helpAsked => "usage: <run|info|version> [options]"
  | .versionAsked => "the version is printed"
  | .unknownCommand => "unknown command"
  | .unknownArgument => "unexpected argument"
  | .invalidValue => "missing or unlisted value"
  | .malformedValue => "malformed value"
  | .repeatedOption => "option given more than once"
  | .valueForFlag => "unexpected value for a flag"

/-- Environment variables. -/
abbrev Environment := String → Option String

/-- An option of a command whose options make up an `α`.  A flag is set by the value `true`. -/
structure Setting (α : Type) where
  name : String
  environmentName : String
  isFlag : Bool := false
  set : String → α → Except UsageError α

/-! ## Arguments -/

/-- The form of an argument. -/
inductive Argument where
  | separator
  | long (name : String) (value : Option String)
  | short (letters : List Char)
  | word (text : String)
deriving DecidableEq

/-- The form that an argument has. -/
def Argument.ofText (text : String) : Argument :=
  match text.toList with
  | ['-', '-'] => .separator
  | '-' :: '-' :: cs =>
    let value := (cs.dropWhile (· ≠ '=')).tail?
    .long (String.ofList (cs.takeWhile (· ≠ '='))) (value.map String.ofList)
  | '-' :: c :: cs => .short (c :: cs)
  | _ => .word text

/-! ## Options -/

/-- The options read so far, the names of those that were given, and the one whose value has not
been looked at. -/
structure OptionState (α : Type) where
  options : α
  given : List String := []
  pending : Option (Setting α × Option String) := none

namespace OptionState

variable {α : Type}

/-- Looks at the value of the last option. -/
def settle (p : OptionState α) : Except UsageError (OptionState α) :=
  match p.pending with
  | none => .ok p
  | some (_, none) => .error .invalidValue
  | some (s, some value) => do
    if s.name ∈ p.given then throw .repeatedOption
    return { options := ← s.set value p.options, given := s.name :: p.given }

/-- Begins with an option after the one before it. -/
def start (p : OptionState α) (s : Setting α) (value : Option String) :
    Except UsageError (OptionState α) := do
  return { ← p.settle with pending := some (s, value) }

/-- Reads an option given by its long name. -/
def long (settings : List (Setting α)) (p : OptionState α) (name : String)
    (value : Option String) : Except UsageError (OptionState α) :=
  match settings.find? (·.name = name) with
  | some s =>
    match s.isFlag, value with
    | true, some _ => .error .valueForFlag
    | true, none => do (← p.start s (some "true")).settle
    | false, some value => do (← p.start s (some value)).settle
    | false, none => p.start s none
  | none =>
    if name = "help" then
      if value.isSome then .error .valueForFlag else p.settle.bind fun _ => .error .helpAsked
    else .error .unknownArgument

/-- Reads arguments. -/
def read (settings : List (Setting α)) (p : OptionState α) :
    List String → Except UsageError (OptionState α)
  | [] => p.settle
  | text :: rest =>
    match Argument.ofText text with
    | .separator => if rest.isEmpty then p.settle else .error .unknownArgument
    | .long name value => do read settings (← p.long settings name value) rest
    | .short letters =>
      if letters.head? = some 'h' then p.settle.bind fun _ => .error .helpAsked
      else .error .unknownArgument
    | .word text =>
      match p.pending with
      | some (s, none) => read settings { p with pending := some (s, some text) } rest
      | _ => .error .unknownArgument

/-- Sets from the environment what was not given. -/
def complete (settings : List (Setting α)) (environment : Environment) (p : OptionState α) :
    Except UsageError α :=
  settings.foldlM (fun options s =>
    if s.name ∈ p.given then .ok options
    else
      match environment s.environmentName with
      | some value => s.set value options
      | none => .ok options) p.options

end OptionState

/-- The options that arguments and environment give, on top of defaults. -/
def readOptions {α : Type} (settings : List (Setting α)) (environment : Environment) (defaults : α)
    (arguments : List String) : Except UsageError α := do
  (← OptionState.read settings { options := defaults } arguments).complete settings environment

end ConfigMerge
