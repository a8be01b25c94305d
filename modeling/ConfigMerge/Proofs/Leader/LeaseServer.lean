import ConfigMerge.Cluster.Server
import ConfigMerge.Proofs.Leader.LeaseJson

/-!
# Proofs/Leader/LeaseServer — the API server that replicas compete at

A `LeaseServer` keeps one lease as JSON.  It refuses to create a lease that is there and a patch
that insists on another version than the stored one, applies every other patch, and stamps whatever
it writes with a version of its own choice.  It also records which replicas have taken the lease
over.

`LeaseServer.Moves id s s'` says all that a call of the replica `id` can do (`moves_serve`).
-/

namespace ConfigMerge

/-- What a server adds to the metadata of a lease that it writes: a version, and whatever else. -/
structure Stamp where
  version : String
  others : List (String × Json) := []

/-- What becomes of a call: it is answered, it is carried out but the answer is lost, or it never
arrives. -/
inductive Fate where
  | answered
  | lost (e : ClientError)
  | failed (e : ClientError)

/-- The lease as a server keeps it, the versions that were given out, and the replicas that have
taken the lease over, the latest first. -/
structure LeaseServer where
  stored : Option Json := none
  given : List String := []
  takeovers : List String := []

namespace LeaseServer

/-! ## Answers -/

/-- A lease as it is read from what is stored. -/
def read (j : Json) : Except ClientError Lease :=
  match Lease.decode j with
  | some l => .ok l
  | none => .error .undecodable

/-- Refuses a call. -/
def refusal (code : Nat) (reason : String) : ClientError :=
  .api { status := "Failure", message := "", reason, code }

/-- A lease with the stamp of the server. -/
def stamped (m : Stamp) (j : Json) : Json :=
  (j.withMetadata m.others).withMetadata [("resourceVersion", .str m.version)]

/-- Stores a lease. -/
def write (s : LeaseServer) (m : Stamp) (j : Json) : LeaseServer :=
  { s with stored := some (stamped m j), given := m.version :: s.given }

/-- Records a take-over. -/
def noting (s : LeaseServer) : LeasePatch → LeaseServer
  | .renew _ => s
  | .takeOver id _ _ => { s with takeovers := id :: s.takeovers }

/-- The answer to a call, and the lease after it. -/
def reply (m : Stamp) : (c : LeaseCall) → LeaseServer → c.Answer × LeaseServer
  | .get, s =>
    match s.stored with
    | none => (.ok none, s)
    | some j => ((read j).map some, s)
  | .create l, s =>
    match s.stored with
    | some _ => (.error (refusal 409 "AlreadyExists"), s)
    | none => (read (stamped m l.encode), s.write m l.encode)
  | .patch p, s =>
    match s.stored with
    | none => (.error (refusal 404 "NotFound"), s)
    | some j =>
      if Cluster.disagrees (p.toJson.metadata? "resourceVersion") (j.metadata? "resourceVersion")
      then (.error (refusal 409 "Conflict"), s)
      else (read (stamped m (j.patched p.toJson)), (s.write m (j.patched p.toJson)).noting p)

/-- The same for a call that meets its fate. -/
def serve (m : Stamp) (c : LeaseCall) (s : LeaseServer) : Fate → c.Answer × LeaseServer
  | .answered => s.reply m c
  | .lost e => (c.unsent e, (s.reply m c).2)
  | .failed e => (c.unsent e, s)

/-- The stored lease names a replica. -/
def Names (id : String) (s : LeaseServer) : Prop := s.stored.bind (·.leaseHolder?) = some id

instance (id : String) (s : LeaseServer) : Decidable (s.Names id) :=
  inferInstanceAs (Decidable (_ = _))

/-- A stored lease has a version that was given out. -/
def Versioned (s : LeaseServer) : Prop :=
  ∀ j, s.stored = some j → ∃ v ∈ s.given, j.version? = some v

/-- What insists on a version, and is not refused, finds it stored. -/
theorem eq_of_not_disagrees {wanted stored : Option Json} {v : String}
    (h : ¬ Cluster.disagrees wanted stored) (hv : wanted.bind (·.text?) = some v) :
    stored.bind (·.text?) = some v := by
  simpa [Cluster.disagrees, hv] using h

/-! ## What calls can do -/

/-- A lease was written under a new version. -/
structure Wrote (s s' : LeaseServer) (j : Json) : Prop where
  stored : s'.stored = some j
  version : ∃ v, j.version? = some v ∧ v ∉ s.given ∧ s'.given = v :: s.given

/-- What a call of the replica `id` can do: nothing, create the lease, change it but for its holder,
or take it over. -/
inductive Moves (id : String) (s s' : LeaseServer) : Prop where
  | idle (h : s' = s)
  | created (j : Json) (h : s.Wrote s' j) (absent : s.stored = none)
      (takeovers : s'.takeovers = s.takeovers)
  | renewed (j j' : Json) (h : s.Wrote s' j') (stored : s.stored = some j)
      (holder : j'.leaseHolder? = j.leaseHolder?) (takeovers : s'.takeovers = s.takeovers)
  | takenOver (j j' : Json) (h : s.Wrote s' j') (stored : s.stored = some j)
      (holder : j'.leaseHolder? = some id) (takeovers : s'.takeovers = id :: s.takeovers)

variable {id : String} {s s' : LeaseServer} {m : Stamp}

theorem wrote_write (hm : m.version ∉ s.given) (j : Json) :
    s.Wrote (s.write m j) (stamped m j) where
  stored := rfl
  version := ⟨m.version, by rw [stamped, Json.version?_withMetadata], hm, rfl⟩

@[simp] theorem leaseHolder?_stamped (m : Stamp) (j : Json) :
    (stamped m j).leaseHolder? = j.leaseHolder? := by
  rw [stamped, Json.leaseHolder?_withMetadata, Json.leaseHolder?_withMetadata]

/-- What is stored names the replica that was written. -/
@[simp] theorem names_write {j : Json} : (s.write m j).Names id ↔ j.leaseHolder? = some id := by
  rw [Names, write, Option.bind_some, leaseHolder?_stamped]

@[simp] theorem names_noting {p : LeasePatch} : (s.noting p).Names id ↔ s.Names id := by
  cases p <;> rfl

/-- A call that takes the lease over for no other replica than `id`. -/
def IsBy (id : String) : LeaseCall → Prop
  | .patch (.takeOver id' _ _) => id' = id
  | .get | .create _ | .patch (.renew _) => True

theorem moves_reply (hm : m.version ∉ s.given) {c : LeaseCall} (hc : IsBy id c) :
    Moves id s (s.reply m c).2 := by
  cases c with
  | get =>
    simp only [reply]
    cases s.stored <;> exact .idle rfl
  | create l =>
    simp only [reply]
    cases hs : s.stored with
    | some j => exact .idle rfl
    | none => exact .created _ (wrote_write hm l.encode) hs rfl
  | patch p =>
    simp only [reply]
    cases hs : s.stored with
    | none => exact .idle rfl
    | some j =>
      simp only
      split
      · exact .idle rfl
      · cases p with
        | renew now =>
          refine .renewed j _ (wrote_write hm _) hs ?_ rfl
          rw [leaseHolder?_stamped, Json.leaseHolder?_renew]
        | takeOver id' now observed =>
          obtain rfl : id' = id := hc
          have hwrote := wrote_write hm (j.patched (LeasePatch.takeOver id' now observed).toJson)
          refine .takenOver j _ ⟨hwrote.stored, hwrote.version⟩ hs ?_ rfl
          rw [leaseHolder?_stamped, Json.leaseHolder?_takeOver]

/-- **Whatever becomes of a call of a replica**, it is one of its moves. -/
theorem moves_serve (hm : m.version ∉ s.given) {c : LeaseCall} (hc : IsBy id c) (fate : Fate) :
    Moves id s (s.serve m c fate).2 := by
  cases fate with
  | answered | lost e => exact moves_reply hm hc
  | failed e => exact .idle rfl

/-- A move does nothing, or writes a lease. -/
theorem Moves.eq_or_wrote (h : Moves id s s') : s' = s ∨ ∃ j, s.Wrote s' j := by
  cases h with
  | idle h => exact Or.inl h
  | created j h => exact Or.inr ⟨j, h⟩
  | renewed j j' h => exact Or.inr ⟨j', h⟩
  | takenOver j j' h => exact Or.inr ⟨j', h⟩

/-- A call adds the version of its stamp, or none. -/
theorem given_serve (s : LeaseServer) (m : Stamp) (c : LeaseCall) (fate : Fate) :
    (s.serve m c fate).2.given = s.given ∨ (s.serve m c fate).2.given = m.version :: s.given := by
  have hreply : (s.reply m c).2.given = s.given ∨ (s.reply m c).2.given = m.version :: s.given := by
    cases c with
    | get =>
      simp only [reply]
      cases s.stored <;> exact Or.inl rfl
    | create l =>
      simp only [reply]
      cases s.stored with
      | some j => exact Or.inl rfl
      | none => exact Or.inr rfl
    | patch p =>
      simp only [reply]
      cases s.stored with
      | none => exact Or.inl rfl
      | some j =>
        simp only
        split
        · exact Or.inl rfl
        · cases p <;> exact Or.inr rfl
  cases fate with
  | answered | lost e => exact hreply
  | failed e => exact Or.inl rfl

/-- **Moves keep a stored lease under a version that was given out.** -/
theorem Versioned.moves (hs : s.Versioned) (h : Moves id s s') : s'.Versioned := by
  obtain rfl | ⟨j, hw⟩ := h.eq_or_wrote
  · exact hs
  · intro j' hj'
    obtain rfl : j = j' := Option.some.inj (hw.stored.symm.trans hj')
    obtain ⟨v, hv, -, hgiven⟩ := hw.version
    exact ⟨v, hgiven ▸ List.mem_cons_self, hv⟩

end LeaseServer

end ConfigMerge
