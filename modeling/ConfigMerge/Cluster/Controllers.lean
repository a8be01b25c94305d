import ConfigMerge.Cluster.Server
import ConfigMerge.Operator
import ConfigMerge.Reconcile.Controller
import ConfigMerge.Reconcile.Watch

/-!
# Cluster/Controllers — the operator at work on a cluster

A change to a fragment is an event for the fragment, and a change to a composite is one for each of
its owners.  Events are handled until none is left: what a pass writes makes events in its turn, and
a pass that asks to be repeated is repeated as long as something changes, and once more whenever the
operator resumes its work.

Changes to composites count only from the time that all composites could be listed.  As long as one
of them cannot be read that fails, and it is tried again when the operator resumes its work.
-/

namespace ConfigMerge

/-- How the operator works on a cluster. -/
structure Controllers where
  config : Config := {}
  leader : Bool := true
  now : Instant

/-- What the controller of a family has before it apart from new changes: the fragments that it is
to look at again, and whether it has listed the composites. -/
structure Backlog where
  retries : List ObjectKey := []
  listed : Bool := false

/-- A cluster with the operator at work on it. -/
structure Operation where
  cluster : Cluster
  routes : Backlog := {}
  intentions : Backlog := {}

namespace Controllers

/-- Whether an object lies in the watched namespace, if there is only one. -/
def watches (c : Controllers) (key : ObjectKey) : Bool :=
  c.config.nameSpace.all (· = key.nameSpace)

section family

variable {φ κ ι : Type} [DecidableEq κ] (F : Family φ κ ι) (c : Controllers)

/-- The fragments that a composite is an event for. -/
def owners (composite : Composite κ) : List ObjectKey :=
  (F.ownersOf composite).map (fun r => ⟨r.nameSpace.getD "default", r.name⟩)

/-- The fragment that a change to it is an event for. -/
def ofFragment (change : Change) : List ObjectKey :=
  if change.plural = F.fragments.kind.plural ∧ !change.removed ∧ c.watches change.object.place then
    [change.object.place]
  else []

/-- The fragments that a change to a composite is an event for. -/
def ofComposite (change : Change) : List ObjectKey :=
  if change.plural = F.composites.kind.plural ∧ c.watches change.object.place then
    ((F.composites.decode change.object).map (owners F)).getD []
  else []

/-- The fragments that a change is an event for, once the composites have been listed. -/
def concerned (change : Change) : List ObjectKey :=
  ofFragment F c change ++ ofComposite F c change

/-- Handles an event for a fragment, if it is there; whether the fragment is to be looked at again.
-/
def visit (s : Cluster) (key : ObjectKey) : Bool × Cluster :=
  match (s.get? F.fragments.kind.plural key).bind F.fragments.decode with
  | none => (false, s)
  | some f =>
    let pass (nameSpace name : String) (s : Cluster) :=
      let (r, s) := s.run ((F.reconcile c.now nameSpace name).exchange F)
      (some r, 0.0, s)
    let (result, s, _) := c.config.handle F.controller c.leader f pass s {}
    match result with
    | .action (.requeueAfter _) | .error _ (.requeueAfter _) => (true, s)
    | .action .awaitChange | .error _ .awaitChange => (false, s)

/-- Handles events in turn; the fragments that are to be looked at again. -/
def visitEach : List ObjectKey → Cluster → List ObjectKey × Cluster
  | [], s => ([], s)
  | key :: rest, s =>
    let (again, s) := visit F c s key
    let (later, s) := visitEach rest s
    (if again then key :: later else later, s)

/-- Handles events, and those that come of them, until none is left; the fragments that are still
to be looked at again then.  `rounds` bounds the number of rounds. -/
def settleEvents (listed : Bool) : Nat → List ObjectKey → Cluster → List ObjectKey × Cluster
  | 0, events, s => (events, s)
  | _ + 1, [], s => ([], s)
  | rounds + 1, events, s =>
    let (again, s) := visitEach F c events { s with changes := [] }
    if s.changes.isEmpty then (again, s)
    else
      let event := if listed then concerned F c else ofFragment F c
      settleEvents listed rounds (s.changes.flatMap event ++ again).eraseDups s

/-- Handles what changes mean for a family, after what was left before. -/
def settleFamily (b : Backlog) (changes : List Change) (s : Cluster) : Backlog × Cluster :=
  let fragments := b.retries ++ changes.flatMap (ofFragment F c)
  let (listed, composites, s) :=
    if b.listed then (true, changes.flatMap (ofComposite F c), s)
    else
      match s.run (F.composites.listing c.config.nameSpace none) with
      | (.ok all, s) => (true, all.flatMap (owners F), s)
      | (.error _, s) => (false, [], s)
  let (retries, s) := settleEvents F c listed 100 (fragments ++ composites).eraseDups s
  ({ retries, listed }, s)

end family

/-- Handles changes for both families. -/
def settle (c : Controllers) (changes : List Change) (o : Operation) : Operation :=
  let (routes, s) := settleFamily Family.routes c o.routes changes o.cluster
  let (intentions, s) := settleFamily Family.intentions c o.intentions changes s
  { cluster := { s with changes := [] }, routes, intentions }

/-- Starts the operator, which fails when a kind of fragments is not served.  It begins with every
object that is there. -/
def start (c : Controllers) (s : Cluster) : Except Error Operation :=
  let (ready, cluster) := s.run Operator.ready
  ready.map (fun () => c.settle cluster.all { cluster })

/-- Lets a started operator handle the changes that have been made since. -/
def resume (c : Controllers) (o : Operation) : Operation := c.settle o.cluster.changes o

end Controllers

end ConfigMerge
