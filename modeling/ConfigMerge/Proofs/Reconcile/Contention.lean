import ConfigMerge.Proofs.Interleaving
import ConfigMerge.Proofs.Reconcile.Refusal
import ConfigMerge.Proofs.Store.Operation

/-!
# Proofs/Reconcile/Contention — passes call by call, while users do anything to composites

A `Contention` runs any number of passes over any fragments, while users do anything to fragments and
to composites between two calls: create them, change them, request their deletion, remove them
outright, and create them anew.  Of each pass it keeps a `Note`: what the merge that the pass is in
has read, and whether somebody has put something else in its place since.

`Swaps` says what becomes of a write to a composite in the light of that note.
-/

namespace ConfigMerge

variable {φ κ ι π : Type}

/-! ## What is kept of a pass -/

/-- What the merge that a pass is in has read, and under which key; whether somebody has put
something else there since; and whether the pass has written to fragments. -/
structure Note (κ : Type) where
  read : Option (ObjectKey × Option (Composite κ)) := none
  overtaken : Bool := false
  wrote : Bool := false

namespace Note

/-- The note after a call of the pass.  A merge reads its composite right before it writes it, so
what was read counts for the next call alone. -/
def after (n : Note κ) : (q : PassCall φ κ) → q.Answer → Note κ
  | .composites (.get nameSpace name), .ok x =>
    { n with read := some (⟨nameSpace, name⟩, x), overtaken := false }
  | .composites _, _ => { n with read := none, overtaken := false }
  | .fragments c, _ => { read := none, wrote := n.wrote || c.verb.isWrite }

variable [DecidableEq κ]

/-- The note after somebody else has made of the composites `s` the composites `s'`. -/
def beside (n : Note κ) (s s' : Store κ Empty) : Note κ :=
  { n with
    overtaken := n.overtaken || n.read.any fun r => s.objects.get? r.1 ≠ s'.objects.get? r.1 }

end Note

/-! ## What a write may do -/

/-- What a write of a merge that has read `x` may be. -/
def Call.BasedOn : Call (Composite κ) → Option (Composite κ) → Prop
  | .create _, x => x = none
  | .update o, x => ∃ stored expected, x = some stored ∧ o = Family.renewed stored expected
  | .delete o, x => x = some o
  | .get .., _ | .list _, _ | .listByLabel .., _ | .updateStatus _, _ => False

/-- The composites after such a write has gone through. -/
def Store.written (s : Store κ Empty) (now : Instant) :
    Call (Composite κ) → Option (Composite κ) → Store κ Empty
  | .create o, _ => (s.seed now o).2
  | .update o, some stored => s.replaced o stored
  | .delete o, _ => s.requestDeletion now o.key
  | _, _ => s

/-- What becomes of a write `c` under `k` by a merge that has read `x` there, with the answer `a`
and with what is left of its pass.

* It is what a merge makes of `x`; when `x` is a composite, something else is stored now exactly
  when somebody has changed, removed or replaced it since it was read.
* When `x` is what is stored, the write is made on it.
* When something else is stored, nothing changes.  The pass ends with a request for another one, and
  has not written to fragments. -/
structure Swaps (n : Note κ) (now : Instant) (s s' : Collections φ κ) (c : Call (Composite κ))
    (k : ObjectKey) (x : Option (Composite κ)) (a : Except Error c.Result)
    (rest : Program (PassCall.Answer (φ := φ) (κ := κ)) (Except Error Report)) : Prop where
  read : n.read = some (k, x)
  based : c.BasedOn x
  overtaken : x.isSome → (n.overtaken ↔ s.composites.objects.get? k ≠ x)
  accepted : s.composites.objects.get? k = x →
    (∃ r, a = .ok r) ∧ s' = { s with composites := s.composites.written now c x }
  refused : s.composites.objects.get? k ≠ x →
    (∃ e, a = .error e) ∧ s' = s ∧ n.wrote = false ∧
      ∃ intent, rest = .done (.ok (.requeue intent))

/-! ## Contention -/

/-- What passes share with users: the stores, and the note of each pass. -/
structure Contention.World (φ κ π : Type) where
  stores : Stores φ κ
  notes : π → Note κ := fun _ => {}

/-- Passes that share such a world, and what is left of each. -/
abbrev Contention (φ κ π : Type) :=
  Pool (PassCall.Answer (φ := φ) (κ := κ)) (Contention.World φ κ π) π (Except Error Report)

namespace Contention

/-- The stores. -/
abbrev stores (t : Contention φ κ π) : Stores φ κ := t.world.stores

/-- The note of each pass. -/
abbrev notes (t : Contention φ κ π) : π → Note κ := t.world.notes

/-- What is left of each pass. -/
abbrev passes (t : Contention φ κ π) :
    π → Program (PassCall.Answer (φ := φ) (κ := κ)) (Except Error Report) := t.programs

/-- What happens next: a pass makes its next call, or a user does something to a fragment or to a
composite. -/
inductive Move (φ κ π : Type) where
  | call (i : π) (now : Instant)
  | onFragments (operation : Store.Operation φ FragmentStatus) (now : Instant)
  | onComposites (operation : Store.Operation κ Empty) (now : Instant)

/-- The changes that users make to composites are proper. -/
def Move.Proper : Move φ κ π → Prop
  | .onComposites operation _ => operation.Proper
  | .call .. | .onFragments .. => True

variable [DecidableEq κ] [DecidableEq π] (F : Family φ κ ι)

/-- The answer to a call of pass `i`, which the pass notes.  The others note what the call has done
to the composites. -/
def World.answer (i : π) (now : Instant) (q : PassCall φ κ) (w : World φ κ π) :
    q.Answer × World φ κ π :=
  let answer := Stores.answer F now q w.stores
  (answer.1, {
    stores := answer.2
    notes := Function.update
      (fun j => (w.notes j).beside w.stores.composites.store answer.2.composites.store) i
      ((w.notes i).after q answer.1) })

theorem World.notes_answer_self (i : π) (now : Instant) (q : PassCall φ κ) (w : World φ κ π) :
    (w.answer F i now q).2.notes i = (w.notes i).after q (w.answer F i now q).1 := by
  simp only [answer, Function.update_self]

theorem World.notes_answer_of_ne {i j : π} (hj : j ≠ i) (now : Instant) (q : PassCall φ κ)
    (w : World φ κ π) :
    (w.answer F i now q).2.notes j = (w.notes j).beside w.stores.composites.store
      (w.answer F i now q).2.stores.composites.store := by
  simp only [answer, Function.update_of_ne hj]

omit [DecidableEq π] in
/-- Passes over the fragments at these keys, each with the time that it writes. -/
def start (s : Stores φ κ) (target : π → ObjectKey) (time : π → Instant) : Contention φ κ π where
  world := { stores := s }
  programs i := (F.reconcile (time i) (target i).nameSpace (target i).name).run

/-- One move; a pass that has ended makes no call. -/
def step (t : Contention φ κ π) : Move φ κ π → Contention φ κ π
  | .call i now => t.ask (World.answer F i now) i
  | .onFragments operation now =>
    { t with world.stores.fragments.store := operation.apply now t.stores.fragments.store }
  | .onComposites operation now =>
    let composites := operation.apply now t.stores.composites.store
    { t with world := { t.world with
        stores.composites.store := composites
        notes := fun j => (t.notes j).beside t.stores.composites.store composites } }

theorem step_call {t : Contention φ κ π} {i : π} {q : PassCall φ κ}
    {next : q.Answer → Program (PassCall.Answer (φ := φ) (κ := κ)) (Except Error Report)}
    (h : t.passes i = .ask q next) (now : Instant) :
    t.step F (.call i now) =
      t.goOn i (next (World.answer F i now q t.world).1) (World.answer F i now q t.world).2 :=
  Pool.ask_of_ask (World.answer F i now) h

/-- Several moves. -/
def run (t : Contention φ κ π) (moves : List (Move φ κ π)) : Contention φ κ π :=
  moves.foldl (step F) t

end Contention

end ConfigMerge
