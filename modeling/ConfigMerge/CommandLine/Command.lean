import ConfigMerge.CommandLine.Options
import ConfigMerge.Net.Address
import ConfigMerge.Reconcile.Schedule

/-!
# CommandLine/Command — the commands of the operator

The operator runs, tells its version or counts the fragments of a namespace.
-/

namespace ConfigMerge

/-- How log lines are written. -/
inductive LogFormat where
  | text
  | json
deriving DecidableEq

/-- The options of a running operator. -/
structure RunOptions where
  config : Config := {}
  leaderElection : Bool := false
  leaseNamespace : String := "default"
  metricsAddress : SocketAddress := .v4 ⟨0, 0, 0, 0⟩ 8080
  logFormat : LogFormat := .text
deriving DecidableEq

/-- What the operator is told to do. -/
inductive Command where
  | run (options : RunOptions)
  | info (nameSpace : String)
  | version
deriving DecidableEq

/-! ## Values -/

namespace Setting

/-- A number of seconds: decimal digits, perhaps after a plus sign, below `2 ^ 64`. -/
def seconds? (s : String) : Option Nat :=
  let digits :=
    match s.toList with
    | '+' :: cs => cs
    | cs => cs
  let n := digits.foldl (fun n c => n * 10 + (c.toNat - '0'.toNat)) 0
  if !digits.isEmpty && digits.all Char.isDigit && n < Nat.pow 2 64 then some n else none

/-- Either `true` or `false`. -/
def truth? (s : String) : Option Bool :=
  if s = "true" then some true else if s = "false" then some false else none

/-- One of the log formats. -/
def logFormat? (s : String) : Option LogFormat :=
  if s = "text" then some .text else if s = "json" then some .json else none

/-- A setting whose value is read, with the error for a value that cannot be. -/
def reading {α β : Type} (name environmentName : String) (isFlag : Bool)
    (read? : String → Option β) (error : UsageError) (store : β → α → α) : Setting α where
  name
  environmentName
  isFlag
  set value options :=
    match read? value with
    | some b => .ok (store b options)
    | none => .error error

/-- A setting whose value is any text. -/
def text {α : Type} (name environmentName : String) (store : String → α → α) : Setting α :=
  reading name environmentName false some .malformedValue store

/-- A number of seconds in the configuration. -/
def seconds (name environmentName : String) (store : Nat → Config → Config) :
    Setting RunOptions :=
  reading name environmentName false seconds? .malformedValue
    (fun n o => { o with config := store n o.config })

end Setting

/-! ## Commands -/

/-- The settings of a running operator. -/
def RunOptions.settings : List (Setting RunOptions) := [
  .text "namespace" "WATCH_NAMESPACE"
    (fun v o => { o with config := { o.config with nameSpace := some v } }),
  .seconds "requeue-secs" "REQUEUE_SECS" (fun n c => { c with requeueSeconds := n }),
  .seconds "error-requeue-secs" "ERROR_REQUEUE_SECS"
    (fun n c => { c with errorRequeueSeconds := n }),
  .seconds "reconcile-timeout-secs" "RECONCILE_TIMEOUT_SECS"
    (fun n c => { c with reconcileTimeoutSeconds := n }),
  .reading "leader-election" "LEADER_ELECTION" true Setting.truth? .invalidValue
    (fun b o => { o with leaderElection := b }),
  .text "lease-namespace" "POD_NAMESPACE" (fun v o => { o with leaseNamespace := v }),
  .reading "metrics-addr" "METRICS_ADDR" false SocketAddress.ofText? .malformedValue
    (fun a o => { o with metricsAddress := a }),
  .reading "log-format" "LOG_FORMAT" false Setting.logFormat? .invalidValue
    (fun f o => { o with logFormat := f })]

namespace Command

/-- The one setting of a count. -/
def infoSettings : List (Setting String) := [.text "namespace" "WATCH_NAMESPACE" (fun v _ => v)]

/-- The words that begin a command line. -/
def names : List String := ["run", "version", "info", "help"]

/-- What comes of asking for help: there is help for a command, not for more than one. -/
def help : List String → UsageError
  | [] => .helpAsked
  | [name] => if name ∈ names then .helpAsked else .unknownCommand
  | _ => .unknownCommand

/-- A command with its arguments. -/
def ofWord (environment : Environment) (word : String) (arguments : List String) :
    Except UsageError Command :=
  match word with
  | "run" => .run <$> readOptions RunOptions.settings environment {} arguments
  | "info" => .info <$> readOptions infoSettings environment "default" arguments
  | "version" => (fun _ => .version) <$> readOptions [] environment () arguments
  | "help" => .error (help arguments)
  | _ => .error .unknownCommand

/-- An option in front of the command. -/
def ofOption (name : String) (value : Option String) : UsageError :=
  if name = "help" ∨ name = "version" then
    if value.isSome then .valueForFlag
    else if name = "help" then .helpAsked
    else .versionAsked
  else .unknownArgument

/-- The command that a command line gives. -/
def parse (environment : Environment) : List String → Except UsageError Command
  | [] => .error .missingCommand
  | text :: rest =>
    match Argument.ofText text with
    | .separator =>
      .error (match rest with
        | [] => .missingCommand
        | word :: _ => if word ∈ names then .unknownArgument else .unknownCommand)
    | .long name value => .error (ofOption name value)
    | .short letters =>
      .error (match letters.head? with
        | some 'h' => .helpAsked
        | some 'V' => .versionAsked
        | _ => .unknownArgument)
    | .word word => ofWord environment word rest

end Command

end ConfigMerge
