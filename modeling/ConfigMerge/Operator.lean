import ConfigMerge.Api.Client
import ConfigMerge.CommandLine.Command
import ConfigMerge.Error.Details
import ConfigMerge.Resource.Definition
import ConfigMerge.Service.Health
import ConfigMerge.Yaml.Block

/-!
# Operator — what the program does with a command line

A command ends with lines of output or with an error; what is asked of the API server on the way is
an exchange.  A running operator first makes sure that both kinds of fragments are served.
-/

namespace ConfigMerge

/-- How many fragments of each kind a namespace holds. -/
structure Census where
  routes : Nat
  intentions : Nat
deriving DecidableEq

/-- When and from which revision the program was built. -/
structure Build where
  date : String
  revision : String
deriving DecidableEq

/-- How the program ends. -/
structure Outcome where
  exitCode : Nat
  output : List String := []
  failure : Option String := none
deriving DecidableEq

namespace Operator

/-- The name of the program. -/
def programName : String := "consul-merge-k8s"

/-- What the program says about its version. -/
def versionLines (b : Build) : List String := [
  "Consul Merge Operator v" ++ operatorVersion,
  "Build Date: " ++ b.date,
  "Git SHA: " ++ b.revision]

/-! ## Counting fragments -/

/-- The number of objects in a namespace that have a label. -/
def count {σ τ : Type} (t : ResourceType σ τ) (nameSpace label : String) :
    Exchange (Except ClientError Nat) := do
  return (← t.listing (some nameSpace) (some label)).map List.length

/-- Counts the fragments of a namespace that are meant for a composite. -/
def census (nameSpace : String) : Exchange (Except ClientError Census) := ExceptT.run do
  let routes ← ExceptT.mk (count Family.routes.fragments nameSpace Family.routes.keyLabel)
  let intentions ←
    ExceptT.mk (count Family.intentions.fragments nameSpace Family.intentions.keyLabel)
  return ⟨routes, intentions⟩

/-- What the program says about the fragments of a namespace. -/
def censusLines (nameSpace : String) (c : Census) : List String := [
  "Namespace: " ++ nameSpace,
  "ConsulServiceRoutes: " ++ toString c.routes,
  "ConsulServiceIntentionsSources: " ++ toString c.intentions]

/-! ## Running -/

/-- Makes sure that both kinds of fragments are served. -/
def ready : Exchange (Except Error Unit) := ExceptT.run do
  ExceptT.mk Family.routes.fragments.ensureServed
  ExceptT.mk Family.intentions.fragments.ensureServed

/-- Carries out a command.  A running operator goes on after it is ready. -/
def execute (b : Build) : Command → Exchange (Except Error (List String))
  | .version => return .ok (versionLines b)
  | .info nameSpace => do
    return match ← census nameSpace with
      | .ok c => .ok (censusLines nameSpace c)
      | .error e => .error (.client e)
  | .run _ => do
    return match ← ready with
      | .ok () => .ok []
      | .error e => .error e

/-- How the program ends for a command line that is not carried out: it is only a fault if neither
help nor version was asked for. -/
def rejected : UsageError → Outcome
  | .helpAsked => { exitCode := 0 }
  | .versionAsked => { exitCode := 0, output := [programName ++ " " ++ operatorVersion] }
  | _ => { exitCode := 2 }

/-- How the program ends for a command line. -/
def outcome (b : Build) (environment : Environment) (arguments : List String) :
    Exchange Outcome :=
  match Command.parse environment arguments with
  | .error e => return rejected e
  | .ok command => do
    return match ← execute b command with
      | .ok output => { exitCode := 0, output }
      | .error e => { exitCode := 1, failure := some e.details }

/-- The definitions of both kinds of fragments, ready to be applied to a cluster. -/
def definitions : String := Yaml.documents (Definition.all.map Definition.toJson)

end Operator

end ConfigMerge
