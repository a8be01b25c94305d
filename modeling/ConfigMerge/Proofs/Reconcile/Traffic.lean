import ConfigMerge.Proofs.Interleaving
import ConfigMerge.Proofs.Merge.Expected
import ConfigMerge.Proofs.Reconcile.Refusal
import ConfigMerge.Proofs.Store.Operation

/-!
# Proofs/Reconcile/Traffic — passes call by call, while users do anything to fragments

A `Traffic` runs any number of passes over any fragments, also several over one, and lets users
create, edit, relabel, mark, remove and re-create fragments between any two calls.  Of each pass it
keeps a `Diary`: the live fragments that it has listed last, the merges that it has begun, those of
them that it has completed, and whether it has written its fragment.  A merge begins when its
composite is read.  It is completed when that is found to be what the listing calls for, or when a
write that makes it so has succeeded.

`PassCall.Faithful` says what a call may do in the light of that diary.
-/

namespace ConfigMerge

variable {φ κ ι π : Type}

/-! ## What is kept of a pass -/

/-- The live fragments that a pass has listed last; its merges, each the place of a composite with
the listing that is merged there, the latest first: those that it has begun, and those of them that
it has completed; and whether the pass has written to fragments. -/
structure Diary (φ : Type) where
  listing : List (Fragment φ) := []
  begun : List (ObjectKey × List (Fragment φ)) := []
  merged : List (ObjectKey × List (Fragment φ)) := []
  merged_begun : merged ⊆ begun := by simp
  wrote : Bool := false

/-- What a call that succeeds finds as a composite, or leaves as one, and where.  A composite whose
deletion was requested counts as gone, also while a finalizer holds it back. -/
def PassCall.leaves? : (q : PassCall φ κ) → q.Answer → Option (ObjectKey × Option (Composite κ))
  | .composites (.get nameSpace name), .ok x => some (⟨nameSpace, name⟩, x)
  | .composites (.create c), .ok _ => some (c.key, some c)
  | .composites (.update c), .ok _ => some (c.key, some c)
  | .composites (.delete c), .ok _ => some (c.key, none)
  | _, _ => none

section Completes

variable [DecidableEq κ] (F : Family φ κ ι)

/-- A call completes a merge when it finds or leaves in its place what its listing calls for. -/
def PassCall.Completes (q : PassCall φ κ) (a : q.Answer) (m : ObjectKey × List (Fragment φ)) :
    Prop :=
  ∃ left ∈ q.leaves? a, left.1 = m.1 ∧ F.Matches m.1.name m.1.nameSpace m.2 left.2

instance (q : PassCall φ κ) (a : q.Answer) (m : ObjectKey × List (Fragment φ)) :
    Decidable (q.Completes F a m) :=
  inferInstanceAs (Decidable (∃ left ∈ q.leaves? a, _ ∧ _))

namespace Diary

/-- Notes a listing, a merge that begins, and a write to fragments. -/
def noting (r : Diary φ) : (q : PassCall φ κ) → q.Answer → Diary φ
  | .fragments (.listByLabel ..), .ok found =>
    { r with listing := found.filter (!·.metadata.isBeingDeleted) }
  | .fragments c, _ => { r with wrote := r.wrote || c.verb.isWrite }
  | .composites (.get nameSpace name), _ =>
    { r with
      begun := (⟨nameSpace, name⟩, r.listing) :: r.begun
      merged_begun := List.subset_cons_of_subset _ r.merged_begun }
  | .composites _, _ => r

/-- The diary after a call, which may complete the merge that was begun last. -/
def after (r : Diary φ) (q : PassCall φ κ) (a : q.Answer) : Diary φ :=
  let noted := r.noting q a
  { noted with
    merged := (noted.begun.head?.filter (q.Completes F a)).toList ++ noted.merged
    merged_begun := List.append_subset.mpr
      ⟨fun _ hm => List.mem_of_mem_head? (Option.eq_some_of_filter_eq_some
        (Option.mem_toList.mp hm)), noted.merged_begun⟩ }

variable {F} {r : Diary φ} {q : PassCall φ κ} {a : q.Answer} {m : ObjectKey × List (Fragment φ)}

theorem mem_merged_after : m ∈ (r.after F q a).merged ↔
    ((r.noting q a).begun.head? = some m ∧ q.Completes F a m) ∨ m ∈ r.merged := by
  have hsame : (r.noting q a).merged = r.merged := by
    unfold noting
    split <;> rfl
  simp [after, hsame, Option.filter_eq_some_iff]

/-- What is completed stays on record. -/
theorem merged_subset_after : r.merged ⊆ (r.after F q a).merged :=
  fun _ hm => mem_merged_after.mpr (Or.inr hm)

end Diary

end Completes

/-- A listing holds the fragment at `k` with the very content that `f` has. -/
def Object.IsListed (f : Fragment φ) (k : ObjectKey) (l : List (Fragment φ)) : Prop :=
  ∃ g ∈ l, g.key = k ∧ g.metadata.uid = f.metadata.uid ∧ g.spec = f.spec

/-- What a call of a pass over the fragment at `k` may do, given its diary and the fragments before
and after the call.

* A status that is written is the fingerprint of the stored content, and the fragment is not being
  deleted.  All merges that were begun are completed.  One of them is into the composite of the
  fragment's key, and every listing that was merged there holds the fragment with that very content.
* A write that takes the finalizer off finds all merges completed as well, one of them into the
  composite of the fragment's key, and no listing that was merged anywhere holds the fragment.
* The composites are left alone once the pass has written to fragments, so those are all its merges.
  A composite is written where the merge is that was begun last, as its listing calls for.
* Fragments are neither created nor deleted. -/
def PassCall.Faithful (F : Family φ κ ι) (k : ObjectKey) (r : Diary φ)
    (s s' : Store φ FragmentStatus) : (q : PassCall φ κ) → q.Answer → Prop
  | .fragments (.updateStatus o), .ok _ => ∃ f f' key, s.objects.get? k = some f ∧ o.key = k ∧
      s'.objects.get? k = some f' ∧ f'.spec = f.spec ∧
      Family.recorded? f' = some (F.fingerprint f') ∧ f'.metadata.isBeingDeleted = false ∧
      f'.metadata.label? F.keyLabel = some key ∧ r.begun ⊆ r.merged ∧
      (∃ l, (⟨k.nameSpace, key⟩, l) ∈ r.merged ∧ f.IsListed k l) ∧
      ∀ l, (⟨k.nameSpace, key⟩, l) ∈ r.begun → f.IsListed k l
  | .fragments (.update o), .ok _ => ∃ f key, s.objects.get? k = some f ∧ o.key = k ∧
      f.metadata.label? F.keyLabel = some key ∧ r.begun ⊆ r.merged ∧
      (∃ l, (⟨k.nameSpace, key⟩, l) ∈ r.merged) ∧
      (f.metadata.hasFinalizer fragmentFinalizer = true →
        o.metadata.hasFinalizer fragmentFinalizer = false →
        ∀ m ∈ r.begun, ∀ g ∈ m.2, g.key ≠ k)
  | .composites (.create c), _ => r.wrote = false ∧ ∃ key l,
      r.begun.head? = some (⟨k.nameSpace, key⟩, l) ∧ l ≠ [] ∧ c = F.expected key k.nameSpace l
  | .composites (.update c), _ => r.wrote = false ∧ ∃ key l,
      r.begun.head? = some (⟨k.nameSpace, key⟩, l) ∧ l ≠ [] ∧ c.key = ⟨k.nameSpace, key⟩ ∧
      c.spec = (F.expected key k.nameSpace l).spec ∧
      c.metadata.owners = (F.expected key k.nameSpace l).metadata.owners
  | .composites (.delete c), _ => r.wrote = false ∧ ∃ key,
      r.begun.head? = some (⟨k.nameSpace, key⟩, []) ∧ c.key = ⟨k.nameSpace, key⟩
  | .composites (.get ..), _ | .composites (.list _), _ | .composites (.listByLabel ..), _ =>
      r.wrote = false
  | .fragments (.create _), _ | .fragments (.delete _), _
  | .composites (.updateStatus _), _ => False
  | .fragments (.get ..), _ | .fragments (.list _), _ | .fragments (.listByLabel ..), _
  | .fragments (.updateStatus _), .error _ | .fragments (.update _), .error _ => True

/-! ## Traffic -/

/-- What passes share with users: the stores, and the diary of each pass. -/
structure Traffic.World (φ κ π : Type) where
  stores : Stores φ κ
  diaries : π → Diary φ := fun _ => {}

/-- Passes that share such a world, and what is left of each. -/
abbrev Traffic (φ κ π : Type) :=
  Pool (PassCall.Answer (φ := φ) (κ := κ)) (Traffic.World φ κ π) π (Except Error Report)

namespace Traffic

/-- The stores. -/
abbrev stores (t : Traffic φ κ π) : Stores φ κ := t.world.stores

/-- The diary of each pass. -/
abbrev diaries (t : Traffic φ κ π) : π → Diary φ := t.world.diaries

/-- What is left of each pass. -/
abbrev passes (t : Traffic φ κ π) :
    π → Program (PassCall.Answer (φ := φ) (κ := κ)) (Except Error Report) := t.programs

/-- What happens next: a pass makes its next call, or a user does something to a fragment. -/
inductive Move (φ π : Type) where
  | call (i : π) (now : Instant)
  | operate (operation : Store.Operation φ FragmentStatus) (now : Instant)

/-- The changes that users make are proper. -/
def Move.Proper : Move φ π → Prop
  | .call .. => True
  | .operate operation _ => operation.Proper

variable [DecidableEq κ] [DecidableEq π] (F : Family φ κ ι)

/-- The answer to a call of pass `i`, which goes into its diary. -/
def World.answer (i : π) (now : Instant) (q : PassCall φ κ) (w : World φ κ π) :
    q.Answer × World φ κ π :=
  let answer := Stores.answer F now q w.stores
  (answer.1, {
    stores := answer.2
    diaries := Function.update w.diaries i ((w.diaries i).after F q answer.1) })

theorem World.diaries_answer_self (i : π) (now : Instant) (q : PassCall φ κ) (w : World φ κ π) :
    (w.answer F i now q).2.diaries i = (w.diaries i).after F q (w.answer F i now q).1 := by
  simp only [answer, Function.update_self]

theorem World.diaries_answer_of_ne {i j : π} (hj : j ≠ i) (now : Instant) (q : PassCall φ κ)
    (w : World φ κ π) : (w.answer F i now q).2.diaries j = w.diaries j := by
  simp only [answer, Function.update_of_ne hj]

omit [DecidableEq π] in
/-- Passes over the fragments at these keys, each with the time that it writes. -/
def start (s : Stores φ κ) (target : π → ObjectKey) (time : π → Instant) : Traffic φ κ π where
  world := { stores := s }
  programs i := (F.reconcile (time i) (target i).nameSpace (target i).name).run

/-- One move; a pass that has ended makes no call. -/
def step (t : Traffic φ κ π) : Move φ π → Traffic φ κ π
  | .call i now => t.ask (World.answer F i now) i
  | .operate operation now =>
    { t with world.stores.fragments.store := operation.apply now t.stores.fragments.store }

theorem step_call {t : Traffic φ κ π} {i : π} {q : PassCall φ κ}
    {next : q.Answer → Program (PassCall.Answer (φ := φ) (κ := κ)) (Except Error Report)}
    (h : t.passes i = .ask q next) (now : Instant) :
    t.step F (.call i now) =
      t.goOn i (next (World.answer F i now q t.world).1) (World.answer F i now q t.world).2 :=
  Pool.ask_of_ask (World.answer F i now) h

/-- Several moves. -/
def run (t : Traffic φ κ π) (moves : List (Move φ π)) : Traffic φ κ π := moves.foldl (step F) t

end Traffic

end ConfigMerge
