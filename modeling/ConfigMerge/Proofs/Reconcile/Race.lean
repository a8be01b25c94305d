import ConfigMerge.Proofs.Interleaving
import ConfigMerge.Proofs.Reconcile.Convergence
import ConfigMerge.Proofs.Store.Version

/-!
# Proofs/Reconcile/Race — passes over fragments of one key, call by call, with edits in between

A `Race` runs any number of passes over the fragments of one key.  Each move lets one pass make its
next call, or lets a user edit the content of a fragment.  Beside the stores a race keeps track of
what is needed to speak of its order: how many edits were made, when each fragment was last edited,
when each pass began, which fragments each pass has listed for the key, and the listing of the pass
that was the last to write the composite of the key.
-/

namespace ConfigMerge

variable {φ κ ι π : Type}

/-! ## Calls and what they show -/

/-- The live fragments that a call has listed for a key. -/
def PassCall.listed? (key : String) :
    (q : PassCall φ κ) → q.Answer → Option (List (Fragment φ))
  | .fragments (.listByLabel _ _ value), .ok found =>
    if value = key then some (found.filter (!·.metadata.isBeingDeleted)) else none
  | _, _ => none

/-- A call has written the composite that is stored under `k`. -/
def PassCall.HasWritten (k : ObjectKey) : (q : PassCall φ κ) → q.Answer → Prop
  | .composites c, .ok _ => c.target? = some k
  | _, _ => False

instance (k : ObjectKey) (q : PassCall φ κ) (a : q.Answer) : Decidable (q.HasWritten k a) :=
  match q, a with
  | .composites c, .ok _ => inferInstanceAs (Decidable (c.target? = some k))
  | .composites _, .error _ | .fragments _, _ => inferInstanceAs (Decidable False)

/-! ## Races -/

/-- What the passes of a race share, with the record of what has happened. -/
structure Scene (φ κ π : Type) where
  stores : Stores φ κ
  edits : Nat := 0
  lastEdit : String → Nat := fun _ => 0
  begun : π → Option Nat := fun _ => none
  listing : π → List (Fragment φ) := fun _ => []
  basis : Option (List (Fragment φ)) := none

/-- The passes that are made in a scene, and what is left of each. -/
abbrev Race (φ κ π : Type) :=
  Pool (PassCall.Answer (φ := φ) (κ := κ)) (Scene φ κ π) π (Except Error Report)

/-- A pass has ended and asks for no other one. -/
def HasEnded :
    Program (PassCall.Answer (φ := φ) (κ := κ)) (Except Error Report) → Prop
  | .done result => IsDone result
  | .ask .. => False

instance : DecidablePred (HasEnded (φ := φ) (κ := κ))
  | .done result => inferInstanceAs (Decidable (IsDone result))
  | .ask .. => inferInstanceAs (Decidable False)

/-- What happens next: a pass makes its next call, or a user edits the content of a fragment. -/
inductive Move (φ π : Type) where
  | call (i : π) (now : Instant)
  | edit (name : String) (spec : φ)

namespace Scene

variable [DecidableEq π] (F : Family φ κ ι) (ns key : String)

/-- A call of pass `i`. -/
def call (s : Scene φ κ π) (i : π) (now : Instant) (q : PassCall φ κ) :
    q.Answer × Scene φ κ π :=
  let (a, stores) := Stores.answer F now q s.stores
  (a, { s with
    stores
    begun := Function.update s.begun i (some ((s.begun i).getD s.edits))
    listing := Function.update s.listing i ((q.listed? key a).getD (s.listing i))
    basis := if q.HasWritten ⟨ns, key⟩ a then some (s.listing i) else s.basis })

/-- An edit; nothing happens when there is no such fragment. -/
def edit (s : Scene φ κ π) (name : String) (spec : φ) : Scene φ κ π :=
  match s.stores.fragments.store.edit ⟨ns, name⟩ ({ · with spec }) with
  | none => s
  | some (_, fragments) =>
    { s with
      stores := { s.stores with fragments := { s.stores.fragments with store := fragments } }
      edits := s.edits + 1
      lastEdit := Function.update s.lastEdit name (s.edits + 1) }

end Scene

namespace Race

/-- What the passes share. -/
abbrev scene (r : Race φ κ π) : Scene φ κ π := r.world

/-- What is left of each pass. -/
abbrev passes (r : Race φ κ π) :
    π → Program (PassCall.Answer (φ := φ) (κ := κ)) (Except Error Report) := r.programs

variable [DecidableEq κ] [DecidableEq π] (F : Family φ κ ι) (ns key : String)

/-- Passes over the fragments of these names, each with the time that it writes. -/
def start (s : Stores φ κ) (name : π → String) (time : π → Instant) : Race φ κ π where
  world := { stores := s }
  programs i := (F.reconcile (time i) ns (name i)).run

/-- One move; a pass that has ended makes no call. -/
def step (r : Race φ κ π) : Move φ π → Race φ κ π
  | .call i now => r.ask (fun q s => s.call F ns key i now q) i
  | .edit name spec => { r with world := r.scene.edit ns name spec }

/-- Several moves. -/
def run (r : Race φ κ π) (moves : List (Move φ π)) : Race φ κ π := moves.foldl (step F ns key) r

/-- Every pass has ended and asks for no other one. -/
def AllDone (r : Race φ κ π) : Prop := ∀ i, HasEnded (r.passes i)

/-- Every fragment that was edited has a pass that began after its last edit. -/
def EditsSeen (r : Race φ κ π) (name : π → String) : Prop :=
  ∀ n, 0 < r.scene.lastEdit n →
    ∃ i b, name i = n ∧ r.scene.begun i = some b ∧ r.scene.lastEdit n ≤ b

end Race

end ConfigMerge
