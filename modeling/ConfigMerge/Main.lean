import ConfigMerge.Json.Reader
import ConfigMerge.Operator
import ConfigMerge.Reconcile.Controller

/-!
# Main — the operator as a program

The program holds no credentials of a cluster.  It writes every request as a line of JSON to
standard output and reads the reply, a line of JSON too, from standard input; whoever may talk to
the API server stands at the other end.  Once the operator is ready, every line of input names a
fragment to make a pass over and tells the time; what follows the pass is written as a line.  Under
the name `crdgen` the program writes the definitions instead.
-/

namespace ConfigMerge.Console

/-- A request as a line. -/
def requestLine (r : Request) : String :=
  (Json.obj ([("method", .str r.method.text), ("target", .str r.target)]
    ++ (r.contentType.map (fun t => ("contentType", Json.str t))).toList
    ++ (r.body.map (fun b => ("body", b))).toList)).canonicalText

/-- The reply that a line stands for. -/
def replyOfLine (line : String) : Reply :=
  let j := (Json.ofText? line).getD .null
  match (j.member? "status").bind (·.int?) with
  | some status =>
    let body := ((j.member? "body").bind (·.text?)).getD ""
    .response status.toNat body.toUTF8.toList
  | none => .failed "no reply"

/-- Carries on an exchange with the other end. -/
def converse {ρ : Type} (input output : IO.FS.Stream) : Exchange ρ → IO ρ
  | .done r => return r
  | .ask request next => do
    output.putStrLn (requestLine request)
    output.flush
    let line ← input.getLine
    converse input output (next (replyOfLine line))

/-- The values of the environment variables that the program knows. -/
def readEnvironment : IO Environment := do
  let names := RunOptions.settings.map (·.environmentName)
  let values ← names.mapM (fun name => return (name, ← IO.getEnv name))
  return fun name => (values.lookup name).join

/-- Makes a pass over the fragment that an event names, at the time that it tells. -/
def pass (event : Json) : Exchange (Except Error Report) :=
  let member (name : String) := ((event.member? name).bind (·.text?)).getD ""
  let now := (Rfc3339.instant? (member "now")).getD ⟨0, 0⟩
  if member "kind" = Family.intentions.fragments.kind.name then
    (Family.intentions.reconcile now (member "namespace") (member "name")).exchange .intentions
  else (Family.routes.reconcile now (member "namespace") (member "name")).exchange .routes

/-- What follows a pass, as a line. -/
def resultLine : EventResult → String
  | .action a | .error _ a =>
    match a with
    | .awaitChange => (Json.obj [("awaitChange", .bool true)]).canonicalText
    | .requeueAfter seconds => (Json.obj [("requeueAfter", .int seconds)]).canonicalText

/-- Makes passes until the input ends. -/
partial def serve (config : Config) (input output : IO.FS.Stream) : IO Unit := do
  let line ← input.getLine
  if line.isEmpty then return ()
  let result ← converse input output (pass ((Json.ofText? line).getD .null))
  if let .error e := result then IO.eprintln e.message
  output.putStrLn (resultLine (config.eventResult result))
  output.flush
  serve config input output

end ConfigMerge.Console

open ConfigMerge Console in
/-- Carries out the command line. -/
def main (arguments : List String) : IO UInt32 := do
  if (← IO.appPath).fileStem = some "crdgen" then
    IO.print Operator.definitions
    return 0
  let input ← IO.getStdin
  let output ← IO.getStdout
  let environment ← readEnvironment
  let build : Build := ⟨"unknown", "unknown"⟩
  let outcome ← converse input output (Operator.outcome build environment arguments)
  for line in outcome.output do
    output.putStrLn line
  if let some e := outcome.failure then
    IO.eprintln ("Error: " ++ e)
  match Command.parse environment arguments with
  | .error e => IO.eprintln e.message
  | .ok (.run options) =>
    if outcome.failure.isNone then serve options.config input output
  | .ok _ => pure ()
  return outcome.exitCode.toUInt32
