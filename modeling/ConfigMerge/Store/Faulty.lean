import ConfigMerge.Store.Basic

/-!
# Store/Faulty — a store that counts its calls and can be told to refuse some

A `FaultyStore` is a store with the means to observe and disturb those who call it: it counts the
calls of each kind, refuses calls as told in advance, and can list in reverse.
-/

namespace ConfigMerge

/-- A store with counters and planned refusals. -/
structure FaultyStore (σ τ : Type) where
  store : Store σ τ := {}
  calls : Call.Verb → Nat := fun _ => 0
  refusals : Call.Verb → List Refusal := fun _ => []
  reversed : Bool := false

namespace FaultyStore

variable {σ τ : Type}

/-- Plans to refuse the next call of a kind for which nothing else is planned. -/
def planRefusal (s : FaultyStore σ τ) (v : Call.Verb) (r : Refusal) : FaultyStore σ τ :=
  { s with refusals := fun v' => if v' = v then s.refusals v ++ [r] else s.refusals v' }

/-- How many calls were made that change something. -/
def writes (s : FaultyStore σ τ) : Nat :=
  ((Call.Verb.all.filter (·.isWrite)).map s.calls).foldl (· + ·) 0

/-- Counts a call and takes the refusal that is planned for it, if any. -/
def enter (s : FaultyStore σ τ) (v : Call.Verb) : Option Refusal × FaultyStore σ τ :=
  ((s.refusals v).head?,
    { s with
      calls := fun v' => if v' = v then s.calls v + 1 else s.calls v'
      refusals := fun v' => if v' = v then (s.refusals v).tail else s.refusals v' })

/-- Turns the answer of a listing by label around. -/
def arrange (reversed : Bool) :
    (c : Call (Object σ τ)) → Except Refusal c.Result → Except Refusal c.Result
  | .listByLabel .., .ok objects => .ok (if reversed then objects.reverse else objects)
  | _, answer => answer

/-- The answer to a call, and the store after it. -/
def perform (now : Instant) (s : FaultyStore σ τ) (c : Call (Object σ τ)) :
    Except Refusal c.Result × FaultyStore σ τ :=
  let (refusal, s) := s.enter c.verb
  match refusal with
  | some r => (.error r, s)
  | none =>
    let (answer, store) := s.store.perform now c
    (arrange s.reversed c answer, { s with store })

end FaultyStore

/-- A refusal of a call, classified. -/
def Refusal.toError {σ τ : Type} (kind : ResourceKind) (c : Call (Object σ τ)) (r : Refusal) :
    Error :=
  .classify kind.name c.subject r.toClientError

end ConfigMerge
