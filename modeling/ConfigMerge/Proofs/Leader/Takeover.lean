import ConfigMerge.Proofs.Leader.Contest
import Mathlib.Data.List.Chain

/-!
# Proofs/Leader/Takeover — a live lease is never taken over

Replicas compete by a clock that does not go back.  An attempt makes one call after it has read the
lease, and `Election.Stage` says which: a take-over only of a lease that had expired when the attempt
began, under the version that was read.  While that version is stored, so is that very lease
(`LeaseServer.Known`), and what has expired stays so.  So the holder changes by creations and by
take-overs of expired leases alone, and of several take-overs of one version one is accepted
(`TimedContest.holder_changes_rightfully`).
-/

namespace ConfigMerge

/-! ## Time -/

/-- `t` is not after `t'`. -/
def Instant.NoLaterThan (t t' : Instant) : Prop := t.isAfter t' = false

instance (t t' : Instant) : Decidable (t.NoLaterThan t') := inferInstanceAs (Decidable (_ = _))

theorem Instant.NoLaterThan.refl (t : Instant) : t.NoLaterThan t := by
  simp [NoLaterThan, isAfter]

theorem Instant.NoLaterThan.trans {t t' t'' : Instant} (h : t.NoLaterThan t')
    (h' : t'.NoLaterThan t'') : t.NoLaterThan t'' := by
  simp only [NoLaterThan, isAfter, Bool.or_eq_false_iff, Bool.and_eq_false_imp,
    decide_eq_false_iff_not, decide_eq_true_eq] at h h' ⊢
  omega

/-- What an instant is after, every later one is. -/
theorem Instant.NoLaterThan.isAfter {t t' r : Instant} (h : t.NoLaterThan t')
    (ht : t.isAfter r) : t'.isAfter r := by
  simp only [NoLaterThan, Instant.isAfter, Bool.or_eq_false_iff, Bool.and_eq_false_imp,
    decide_eq_false_iff_not, decide_eq_true_eq, Bool.or_eq_true, Bool.and_eq_true] at h ht ⊢
  omega

/-- **What has expired stays so**, whatever the lease says of its duration. -/
theorem Lease.isExpired_mono {l : Lease} {now now' : Instant} (h : now.NoLaterThan now')
    (hl : l.isExpired now) : l.isExpired now' := by
  unfold isExpired expired at hl ⊢
  cases hrenewed : l.spec.bind (·.renewTime) with
  | none => rfl
  | some renewed =>
    rw [hrenewed] at hl
    exact h.isAfter hl

/-! ## The stages of an attempt -/

namespace Election

/-- What an attempt does once it has read the lease. -/
def proceed (ns id : String) (now : Instant) : Option Lease → Election Bool
  | none => do
    let _ ← create (newLease ns id now)
    return true
  | some l =>
    if l.holder? = some id then do
      let _ ← patch (.renew now)
      return true
    else if l.isExpired now then takeOver id now l
    else return false

theorem attempt_eq (ns id : String) (now : Instant) :
    attempt ns id now = get >>= proceed ns id now := by
  refine congrArg (get >>= ·) (funext fun found => ?_)
  cases found <;> rfl

/-- What the answer to a take-over tells its replica: a conflict means that another one was
faster. -/
def claimed : Except ClientError Lease → Except ClientError Bool
  | .ok _ => .ok true
  | .error (.api e) => if e.code = 409 then .ok false else .error (.api e)
  | .error e => .error e

theorem run_takeOver (id : String) (now : Instant) (l : Lease) :
    (takeOver id now l).run = .ask (.patch (.takeOver id now l.metadata.resourceVersion))
      (fun a => .done (claimed a)) := by
  refine congrArg (Program.ask _) (funext fun a => ?_)
  cases a with
  | ok l' => rfl
  | error e => cases e <;> rfl

/-- A creation that succeeds makes the replica the leader… -/
theorem run_create (l : Lease) : (do let _ ← create l; return true : Election Bool).run =
    .ask (.create l) (fun a => .done (a.map fun _ => true)) :=
  congrArg (Program.ask (A := LeaseCall.Answer) (.create l)) (funext fun a => by cases a <;> rfl)

/-- …and so does a renewal. -/
theorem run_patch (p : LeasePatch) : (do let _ ← patch p; return true : Election Bool).run =
    .ask (.patch p) (fun a => .done (a.map fun _ => true)) :=
  congrArg (Program.ask (A := LeaseCall.Answer) (.patch p)) (funext fun a => by cases a <;> rfl)

/-- What is left of an attempt of the replica `id` at a time, when `read` is what it has read of the
lease: it has ended, is to read the lease, or makes its last call. -/
inductive Stage (ns id : String) (clock : Instant) (read : Option Json) : Rest → Prop
  | ended (result : Except ClientError Bool) : Stage ns id clock read (.done result)
  | reading {now : Instant} (hnow : now.NoLaterThan clock) :
      Stage ns id clock read (.ask .get (ExceptT.bindCont (proceed ns id now)))
  | creating (now : Instant) :
      Stage ns id clock read (.ask (.create (newLease ns id now)) fun a => .done (a.map fun _ => true))
  | renewing (now : Instant) :
      Stage ns id clock read (.ask (.patch (.renew now)) fun a => .done (a.map fun _ => true))
  | takingOver {now : Instant} (hnow : now.NoLaterThan clock) {j : Json} (hread : read = some j)
      {l : Lease} (hl : Lease.decode j = some l) (hexpired : l.isExpired now) :
      Stage ns id clock read
        (.ask (.patch (.takeOver id now j.version?)) fun a => .done (claimed a))

variable {ns id : String} {clock clock' : Instant} {read : Option Json}

theorem Stage.mono {p : Rest} (h : Stage ns id clock read p) (hclock : clock.NoLaterThan clock') :
    Stage ns id clock' read p := by
  cases h with
  | ended result => exact .ended result
  | reading hnow => exact .reading (hnow.trans hclock)
  | creating now => exact .creating now
  | renewing now => exact .renewing now
  | takingOver hnow hread hl hexpired =>
    exact .takingOver (hnow.trans hclock) hread hl hexpired

theorem Stage.attempt (ns id : String) (now : Instant) (read : Option Json) :
    Stage ns id now read (attempt ns id now).run := by
  rw [attempt_eq]
  exact .reading (.refl now)

/-- **What a replica does once it has read the lease** is settled by what is stored then. -/
theorem Stage.serve_get {now : Instant} (hnow : now.NoLaterThan clock) (s : LeaseServer) (m : Stamp)
    (fate : Fate) :
    Stage ns id clock s.stored (ExceptT.bindCont (proceed ns id now) (s.serve m .get fate).1) := by
  cases fate with
  | lost e | failed e => exact .ended _
  | answered =>
    simp only [LeaseServer.serve, LeaseServer.reply]
    cases hs : s.stored with
    | none =>
      change Stage ns id clock none (proceed ns id now none).run
      rw [proceed, run_create]
      exact .creating now
    | some j =>
      simp only [LeaseServer.read]
      cases hl : Lease.decode j with
      | none => exact .ended _
      | some l =>
        change Stage ns id clock (some j) (proceed ns id now (some l)).run
        rw [proceed]
        by_cases hholder : l.holder? = some id
        · rw [if_pos hholder, run_patch]
          exact .renewing now
        · rw [if_neg hholder]
          by_cases hexpired : l.isExpired now
          · rw [if_pos hexpired, run_takeOver, (Lease.of_decode hl).1]
            exact .takingOver hnow rfl hl hexpired
          · rw [if_neg hexpired]
            exact .ended _

/-- The lease as a replica has read it last, once the attempt has asked its next question. -/
def Rest.readNext (s : LeaseServer) (read : Option Json) : Rest → Option Json
  | .ask .get _ => s.stored
  | .ask (.create _) _ | .ask (.patch _) _ | .done _ => read

/-- **The next call takes an attempt to its next stage.** -/
theorem Stage.serve {q : LeaseCall} {next : q.Answer → Rest}
    (h : Stage ns id clock read (.ask q next)) (s : LeaseServer) (m : Stamp) (fate : Fate) :
    Stage ns id clock (Rest.readNext s read (.ask q next)) (next (s.serve m q fate).1) := by
  cases h with
  | reading hnow => exact .serve_get hnow s m fate
  | creating | renewing | takingOver => exact .ended _

/-- An attempt takes the lease over for its own replica alone. -/
theorem Stage.isBy {q : LeaseCall} {next : q.Answer → Rest}
    (h : Stage ns id clock read (.ask q next)) : LeaseServer.IsBy id q := by
  cases h with
  | reading | creating | renewing => exact trivial
  | takingOver => exact rfl

end Election

/-! ## What has been read, and what has been replaced -/

namespace LeaseServer

variable {id : String} {s s' : LeaseServer} {m : Stamp}

/-- A lease was stored under a version that was given out: while a lease of that version is stored,
it is the same. -/
def Known (j : Json) (s : LeaseServer) : Prop :=
  ∃ v ∈ s.given, j.version? = some v ∧
    ∃ j', s.stored = some j' ∧ (j'.version? = some v → j' = j)

theorem Versioned.known (hs : s.Versioned) {j : Json} (hj : s.stored = some j) : Known j s := by
  obtain ⟨v, hgiven, hv⟩ := hs j hj
  exact ⟨v, hgiven, hv, j, hj, fun _ => rfl⟩

theorem Known.moves {j : Json} (h : Known j s) (hm : Moves id s s') : Known j s' := by
  obtain rfl | ⟨j', hw⟩ := hm.eq_or_wrote
  · exact h
  · obtain ⟨v, hgiven, hv, -⟩ := h
    exact ⟨v, hw.mem_given hgiven, hv, j', hw.stored, fun heq => absurd heq (hw.version_ne hgiven)⟩

/-- What a replica has read, before its next question or in answer to it, is known. -/
theorem Versioned.known_readNext (hs : s.Versioned) {read : Option Json}
    (hread : ∀ j, read = some j → Known j s) {p : Election.Rest} {j : Json}
    (hj : p.readNext s read = some j) : Known j s := by
  cases p with
  | done result => exact hread j hj
  | ask q next =>
    cases q with
    | get => exact hs.known hj
    | create | patch => exact hread j hj

/-- The versions that take-overs have replaced, the latest first, once a call has made `s'` of
`s`. -/
def replacedAfter (s s' : LeaseServer) (replaced : List String) : List String :=
  if s'.takeovers = s.takeovers then replaced
  else (s.stored.bind (·.version?)).toList ++ replaced

/-- Versions that were replaced, each once. -/
structure Replaced (s : LeaseServer) (replaced : List String) : Prop where
  nodup : replaced.Nodup
  given : ∀ v ∈ replaced, v ∈ s.given
  gone : ∀ v ∈ replaced, s.stored.bind (·.version?) ≠ some v

/-- A lease that is written replaces a version, which is not replaced again. -/
theorem Replaced.wrote {replaced : List String} (h : s.Replaced replaced) {j : Json}
    (hw : s.Wrote s' j) : s'.Replaced replaced where
  nodup := h.nodup
  given v hv := hw.mem_given (h.given v hv)
  gone v hv := by
    rw [hw.stored]
    exact hw.version_ne (h.given v hv)

/-- **Every version is replaced by one take-over at most.** -/
theorem Replaced.moves {replaced : List String} (hs : s.Versioned) (h : s.Replaced replaced)
    (hm : Moves id s s') : s'.Replaced (s.replacedAfter s' replaced) := by
  cases hm with
  | idle heq =>
    subst heq
    rw [replacedAfter, if_pos rfl]
    exact h
  | created j hw habsent htakeovers | renewed j j' hw hstored hholder htakeovers =>
    rw [replacedAfter, if_pos htakeovers]
    exact h.wrote hw
  | takenOver j j' hw hstored hholder htakeovers =>
    obtain ⟨v, hgiven, hv⟩ := hs j hstored
    have hversion : s.stored.bind (·.version?) = some v := by rw [hstored]; exact hv
    have hnew : v ∉ replaced := fun hmem => h.gone v hmem hversion
    rw [replacedAfter, if_neg (htakeovers ▸ List.cons_ne_self id s.takeovers), hversion]
    refine ⟨List.nodup_cons.mpr ⟨hnew, h.nodup⟩, fun u hu => ?_, fun u hu => ?_⟩
    · rcases List.mem_cons.mp hu with rfl | hu
      · exact hw.mem_given hgiven
      · exact (h.wrote hw).given u hu
    · rcases List.mem_cons.mp hu with rfl | hu
      · rw [hw.stored]
        exact hw.version_ne hgiven
      · exact (h.wrote hw).gone u hu

/-- A call changes the lease as its answer says, or not at all. -/
theorem serve_eq_or (s : LeaseServer) (m : Stamp) (q : LeaseCall) (fate : Fate) :
    (s.serve m q fate).2 = s ∨ (s.serve m q fate).2 = (s.reply m q).2 := by
  cases fate with
  | answered | lost e => exact Or.inr rfl
  | failed e => exact Or.inl rfl

/-! ## Which calls change the holder -/

variable {y : String}

/-- A lease that is created names the replica that it was written for. -/
theorem names_of_create {l : Lease} (hnew : (s.reply m (.create l)).2.Names y)
    (hold : ¬ s.Names y) : s.stored = none ∧ l.encode.leaseHolder? = some y := by
  simp only [reply] at hnew
  cases hs : s.stored with
  | some j =>
    rw [hs] at hnew
    exact absurd hnew hold
  | none =>
    rw [hs] at hnew
    exact ⟨rfl, names_write.mp hnew⟩

/-- A lease that is changed names the replica that the patch puts there, unless it is refused. -/
theorem names_of_patch {p : LeasePatch} (hnew : (s.reply m (.patch p)).2.Names y)
    (hold : ¬ s.Names y) : ∃ j, s.stored = some j ∧
      ¬ Cluster.disagrees (p.toJson.metadata? "resourceVersion") (j.metadata? "resourceVersion") ∧
      (j.patched p.toJson).leaseHolder? = some y := by
  simp only [reply] at hnew
  cases hs : s.stored with
  | none =>
    rw [hs] at hnew
    exact absurd hnew hold
  | some j =>
    rw [hs] at hnew
    dsimp only at hnew
    split at hnew
    · exact absurd hnew hold
    next haccepted => exact ⟨j, rfl, haccepted, names_write.mp (names_noting.mp hnew)⟩

/-- A renewal leaves the holder as it is. -/
theorem not_names_of_renew {now : Instant} (hold : ¬ s.Names y) :
    ¬ (s.reply m (.patch (.renew now))).2.Names y := by
  intro hnew
  obtain ⟨j, hs, -, hholder⟩ := names_of_patch hnew hold
  rw [Json.leaseHolder?_renew] at hholder
  exact hold (by rwa [Names, hs])

/-- **A take-over that changes the holder** is one for the new holder, and replaces a lease of the
version that it insists on. -/
theorem names_of_takeOver {now : Instant} {v : String}
    (hnew : (s.reply m (.patch (.takeOver id now (some v)))).2.Names y) (hold : ¬ s.Names y) :
    y = id ∧ ∃ j, s.stored = some j ∧ j.version? = some v := by
  obtain ⟨j, hs, haccepted, hholder⟩ := names_of_patch hnew hold
  rw [Json.leaseHolder?_takeOver] at hholder
  exact ⟨(Option.some.inj hholder).symm, j, hs,
    eq_of_not_disagrees haccepted (LeasePatch.version?_toJson_takeOver id now (some v))⟩

end LeaseServer

/-! ## The last call of an attempt -/

namespace Election

/-- The next call is to create the lease of the replica `id`, and there is none. -/
def Rest.Creates (ns id : String) (s : LeaseServer) : Rest → Prop
  | .ask (.create l) _ => s.stored = none ∧ ∃ now, l = newLease ns id now
  | _ => False

/-- The next call is to take the lease over for the replica `id`: the stored one is just the one
that it has read, the patch insists on its version, and it has expired. -/
def Rest.TakesOver (id : String) (now : Instant) (read : Option Json) (s : LeaseServer) :
    Rest → Prop
  | .ask (.patch (.takeOver id' _ observed)) _ => id' = id ∧ ∃ j, s.stored = some j ∧
      read = some j ∧ observed.isSome ∧ j.version? = observed ∧
      ∃ l, Lease.decode j = some l ∧ l.isExpired now
  | _ => False

/-- The next call is a take-over that has lost the race: the stored lease has another version than
the patch insists on. -/
def Rest.Late (s : LeaseServer) : Rest → Prop
  | .ask (.patch (.takeOver _ _ observed)) _ => s.stored.bind (·.version?) ≠ observed
  | _ => False

instance (s : LeaseServer) : DecidablePred (Rest.Late s)
  | .ask (.patch (.takeOver _ _ observed)) _ => inferInstanceAs (Decidable (_ ≠ observed))
  | .ask (.patch (.renew _)) _ | .ask .get _ | .ask (.create _) _ | .done _ =>
    inferInstanceAs (Decidable False)

variable {ns id : String} {clock : Instant} {read : Option Json} {s : LeaseServer} {q : LeaseCall}
  {next : q.Answer → Rest}

theorem Rest.Creates.absent {p : Rest} (h : p.Creates ns id s) : s.stored = none := by
  cases p with
  | done result => exact h.elim
  | ask q next =>
    cases q with
    | create l => exact h.1
    | get | patch => exact h.elim

/-- **How a call changes the holder**: it creates the lease or takes it over for its own replica. -/
theorem Stage.of_names (h : Stage ns id clock read (.ask q next))
    (hknown : ∀ j, read = some j → LeaseServer.Known j s) {m : Stamp} {fate : Fate} {y : String}
    (hnew : (s.serve m q fate).2.Names y) (hold : ¬ s.Names y) :
    y = id ∧ (Rest.Creates ns id s (.ask q next) ∨
      Rest.TakesOver id clock read s (.ask q next)) := by
  have hreply : (s.reply m q).2.Names y := by
    rcases s.serve_eq_or m q fate with hsame | hreply
    · rw [hsame] at hnew
      exact absurd hnew hold
    · exact hreply ▸ hnew
  cases h with
  | reading hnow =>
    have hsame : (s.reply m .get).2 = s := by
      simp only [LeaseServer.reply]
      split <;> rfl
    exact absurd (hsame ▸ hreply) hold
  | creating now =>
    obtain ⟨habsent, hholder⟩ := LeaseServer.names_of_create hreply hold
    rw [Lease.leaseHolder?_encode_newLease] at hholder
    exact ⟨(Option.some.inj hholder).symm, Or.inl ⟨habsent, now, rfl⟩⟩
  | renewing now => exact absurd hreply (LeaseServer.not_names_of_renew hold)
  | @takingOver now hnow j hread l hl hexpired =>
    obtain ⟨v, -, hv, j', hs, hsame⟩ := hknown j hread
    rw [hv] at hreply
    obtain ⟨rfl, j'', hs', hv'⟩ := LeaseServer.names_of_takeOver hreply hold
    obtain rfl : j' = j'' := Option.some.inj (hs.symm.trans hs')
    obtain rfl : j' = j := hsame hv'
    exact ⟨rfl, Or.inr ⟨rfl, j', hs, hread, hv ▸ rfl, rfl, l, hl,
      Lease.isExpired_mono hnow hexpired⟩⟩

/-- **A take-over that is late is refused**, and its replica does not lead. -/
theorem Stage.of_late (h : Stage ns id clock read (.ask q next))
    (hknown : ∀ j, read = some j → LeaseServer.Known j s) (hlate : Rest.Late s (.ask q next))
    (m : Stamp) :
    (s.serve m q .answered).2 = s ∧ next (s.serve m q .answered).1 = .done (.ok false) := by
  cases h with
  | reading | creating | renewing => exact hlate.elim
  | @takingOver now hnow j hread l hl hexpired =>
    obtain ⟨v, -, hv, j', hs, -⟩ := hknown j hread
    have hrefused : Cluster.disagrees
        ((LeasePatch.takeOver id now j.version?).toJson.metadata? "resourceVersion")
        (j'.metadata? "resourceVersion") = true := by
      by_contra haccepted
      refine hlate ?_
      rw [hs, hv]
      exact LeaseServer.eq_of_not_disagrees haccepted
        ((LeasePatch.version?_toJson_takeOver id now _).trans hv)
    simp only [LeaseServer.serve, LeaseServer.reply, hs, hrefused]
    exact ⟨rfl, rfl⟩

end Election

/-! ## Contests by a clock -/

variable {π : Type}

/-- A contest by a shared clock, with the lease as each replica has read it last, and the versions
that take-overs have replaced, the latest first. -/
structure TimedContest (π : Type) where
  contest : Contest π
  clock : Instant
  read : π → Option Json
  replaced : List String

/-- What happens next at the time that the clock shows: a replica that is not trying tries, or one
makes its next call. -/
inductive Turn (π : Type) where
  | begin (i : π)
  | call (i : π) (m : Stamp) (fate : Fate)

/-- The same as a move of a contest. -/
def Turn.at (now : Instant) : Turn π → Contest.Move π
  | .begin i => .begin i now
  | .call i m fate => .call i m fate

namespace TimedContest

/-- The server. -/
abbrev server (c : TimedContest π) : LeaseServer := c.contest.server

/-- What is left of the attempt of each replica. -/
abbrev attempts (c : TimedContest π) : π → Election.Rest := c.contest.attempts

/-- Nobody has begun. -/
def start (s : LeaseServer) (now : Instant) : TimedContest π where
  contest := Contest.start s
  clock := now
  read _ := none
  replaced := []

variable [DecidableEq π] (ns : String) (identity : π → String)

/-- One turn at a time. -/
def step (c : TimedContest π) (now : Instant) (turn : Turn π) : TimedContest π :=
  let next := c.contest.step ns identity (turn.at now)
  { contest := next
    clock := now
    read :=
      match turn with
      | .begin _ => c.read
      | .call i _ _ => Function.update c.read i ((c.attempts i).readNext c.server (c.read i))
    replaced := c.server.replacedAfter next.server c.replaced }

/-- Several turns. -/
def run (c : TimedContest π) (turns : List (Instant × Turn π)) : TimedContest π :=
  turns.foldl (fun c turn => c.step ns identity turn.1 turn.2) c

/-- The versions that the server chooses in several turns. -/
def versions (turns : List (Instant × Turn π)) : List String :=
  Contest.versions (turns.map fun turn => turn.2.at turn.1)

/-! ## Any run -/

variable {ns identity} {c : TimedContest π} {now : Instant}

/-- What is kept of what has been read and replaced, and where each attempt stands. -/
structure Sound (ns : String) (identity : π → String) (c : TimedContest π) : Prop where
  versioned : c.server.Versioned
  replaced : c.server.Replaced c.replaced
  known : ∀ i j, c.read i = some j → LeaseServer.Known j c.server
  stage : ∀ i, Election.Stage ns (identity i) c.clock (c.read i) (c.attempts i)

omit [DecidableEq π] in
theorem sound_start (ns : String) (identity : π → String) {s : LeaseServer} (hs : s.Versioned)
    (now : Instant) : (start s now).Sound ns identity where
  versioned := hs
  replaced := ⟨.nil, fun _ hv => absurd hv List.not_mem_nil, fun _ hv => absurd hv List.not_mem_nil⟩
  known i j hj := by cases hj
  stage i := .ended _

/-- A turn that makes no call. -/
theorem Sound.of_server_eq (h : c.Sound ns identity) {turn : Turn π}
    (hserver : (c.step ns identity now turn).server = c.server)
    (hread : (c.step ns identity now turn).read = c.read)
    (hstage : ∀ i, Election.Stage ns (identity i) now (c.read i)
      ((c.contest.step ns identity (turn.at now)).attempts i)) :
    (c.step ns identity now turn).Sound ns identity where
  versioned := by
    rw [hserver]
    exact h.versioned
  replaced := by
    change (c.step ns identity now turn).server.Replaced
      (c.server.replacedAfter (c.step ns identity now turn).server c.replaced)
    rw [hserver, LeaseServer.replacedAfter, if_pos rfl]
    exact h.replaced
  known i j hj := by
    rw [hread] at hj
    rw [hserver]
    exact h.known i j hj
  stage i := hread ▸ hstage i

/-- What a replica's call makes of a contest. -/
theorem step_call (ns : String) (identity : π → String) (now : Instant) {i : π} {q : LeaseCall}
    {next : q.Answer → Election.Rest} (hp : c.attempts i = .ask q next) (m : Stamp) (fate : Fate) :
    (c.step ns identity now (.call i m fate)).server = (c.server.serve m q fate).2 ∧
    (c.step ns identity now (.call i m fate)).attempts =
      Function.update c.attempts i (next (c.server.serve m q fate).1) ∧
    (c.step ns identity now (.call i m fate)).read =
      Function.update c.read i (Election.Rest.readNext c.server (c.read i) (.ask q next)) ∧
    (c.step ns identity now (.call i m fate)).replaced =
      c.server.replacedAfter (c.server.serve m q fate).2 c.replaced := by
  simp only [step, Turn.at, Contest.step_call ns identity hp m fate, hp]
  exact ⟨rfl, rfl, trivial, rfl⟩

/-- Only a call changes anything at the server. -/
theorem exists_call {turn : Turn π} (h : (c.step ns identity now turn).server ≠ c.server) :
    ∃ i m fate q next, turn = .call i m fate ∧ c.attempts i = .ask q next := by
  cases turn with
  | begin i =>
    refine absurd ?_ h
    change (c.contest.step ns identity (.begin i now)).server = _
    cases hp : c.attempts i with
    | ask q next => rw [Contest.step_begin_of_ask ns identity hp]
    | done result => rw [Contest.step_begin ns identity hp]; rfl
  | call i m fate =>
    cases hp : c.attempts i with
    | ask q next => exact ⟨i, m, fate, q, next, rfl, hp⟩
    | done result =>
      exact absurd (congrArg Contest.server (Contest.step_call_of_done ns identity hp m fate)) h

/-- A replica that is not trying is to read the lease when it begins; one that is goes on. -/
theorem Sound.begin (h : c.Sound ns identity) (hnow : c.clock.NoLaterThan now) (i : π) :
    (c.step ns identity now (.begin i)).Sound ns identity := by
  have hothers (j : π) := (h.stage j).mono hnow
  cases hp : c.attempts i with
  | ask q next =>
    have hbusy : c.contest.step ns identity ((Turn.begin i).at now) = c.contest :=
      Contest.step_begin_of_ask ns identity hp now
    refine h.of_server_eq (congrArg Contest.server hbusy) rfl ?_
    rw [hbusy]
    exact hothers
  | done result =>
    have hbegun := Contest.step_begin ns identity hp now
    refine h.of_server_eq (congrArg Contest.server hbegun :) rfl ?_
    rw [Turn.at, hbegun]
    refine (Function.forall_update_iff c.attempts fun j rest =>
      Election.Stage ns (identity j) now (c.read j) rest).mpr ⟨?_, fun j _ => hothers j⟩
    exact .attempt ns (identity i) now (c.read i)

/-- A replica's call is one of its moves, and takes its attempt to the next stage. -/
theorem Sound.call (h : c.Sound ns identity) (hnow : c.clock.NoLaterThan now) (i : π) {m : Stamp}
    (hfresh : m.version ∉ c.server.given) (fate : Fate) :
    (c.step ns identity now (.call i m fate)).Sound ns identity := by
  have hothers (j : π) := (h.stage j).mono hnow
  cases hp : c.attempts i with
  | done result =>
    have hidle : c.contest.step ns identity ((Turn.call i m fate).at now) = c.contest :=
      Contest.step_call_of_done ns identity hp m fate
    refine h.of_server_eq (congrArg Contest.server hidle) ?_ ?_
    · simp only [TimedContest.step, hp, Election.Rest.readNext, Function.update_eq_self]
    · rw [hidle]
      exact hothers
  | ask q next =>
    have hstage := hothers i
    rw [hp] at hstage
    have hmoves := LeaseServer.moves_serve hfresh hstage.isBy fate
    obtain ⟨hserver, hattempts, hread, hreplaced⟩ := step_call ns identity now hp m fate
    refine ⟨?_, ?_, ?_, fun j => ?_⟩
    · exact hserver ▸ h.versioned.moves hmoves
    · rw [hserver, hreplaced]
      exact h.replaced.moves h.versioned hmoves
    · rw [hserver, hread]
      refine (Function.forall_update_iff c.read fun _ read =>
        ∀ j, read = some j → LeaseServer.Known j _).mpr ⟨fun j hj => ?_, fun j _ x hx => ?_⟩
      · exact (h.versioned.known_readNext (h.known i) hj).moves hmoves
      · exact (h.known j x hx).moves hmoves
    · change Election.Stage ns (identity j) now _ _
      rw [hattempts, hread]
      by_cases hji : j = i
      · subst hji
        rw [Function.update_self, Function.update_self]
        exact hstage.serve c.server m fate
      · rw [Function.update_of_ne hji, Function.update_of_ne hji]
        exact hothers j

/-- **Every turn keeps a contest sound** while the clock does not go back. -/
theorem Sound.step (h : c.Sound ns identity) {turn : Turn π} (hnow : c.clock.NoLaterThan now)
    (hfresh : ∀ v, (turn.at now).version? = some v → v ∉ c.server.given) :
    (c.step ns identity now turn).Sound ns identity := by
  cases turn with
  | begin i => exact h.begin hnow i
  | call i m fate => exact h.call hnow i (hfresh m.version rfl) fate

/-- **Every run keeps a contest sound**, and leaves the versions to come new and the clock behind
the times to come. -/
theorem Sound.run (h : c.Sound ns identity) {turns rest : List (Instant × Turn π)}
    (hclock : (c.clock :: (turns ++ rest).map Prod.fst).IsChain Instant.NoLaterThan)
    (hfresh : (versions (turns ++ rest) ++ c.server.given).Nodup) :
    (c.run ns identity turns).Sound ns identity ∧
      ((c.run ns identity turns).clock :: rest.map Prod.fst).IsChain Instant.NoLaterThan ∧
      (versions rest ++ (c.run ns identity turns).server.given).Nodup := by
  induction turns generalizing c with
  | nil => exact ⟨h, hclock, hfresh⟩
  | cons turn more ih =>
    obtain ⟨hnow, hlater⟩ := List.isChain_cons_cons.mp hclock
    exact ih (h.step hnow (Contest.fresh_of_nodup_versions hfresh)) hlater
      (Contest.nodup_versions_step hfresh)

/-! ## Who becomes the holder -/

/-- A turn after which the lease names a replica that it did not name before is a call of that
replica, which creates the lease or takes it over. -/
theorem Sound.of_names (h : c.Sound ns identity) {turn : Turn π} (hnow : c.clock.NoLaterThan now)
    {y : String} (hnew : (c.step ns identity now turn).server.Names y) (hold : ¬ c.server.Names y) :
    ∃ i m fate, turn = .call i m fate ∧ y = identity i ∧ ((c.attempts i).Creates ns y c.server ∨
      (c.attempts i).TakesOver y now (c.read i) c.server) := by
  obtain ⟨i, m, fate, q, next, rfl, hp⟩ := exists_call fun hserver => hold (hserver ▸ hnew)
  obtain ⟨hserver, -⟩ := step_call ns identity now hp m fate
  have hstage := (h.stage i).mono hnow
  rw [hp] at hstage
  obtain ⟨rfl, hcall⟩ := hstage.of_names (h.known i) (hserver ▸ hnew) hold
  exact ⟨i, m, fate, rfl, rfl, hp ▸ hcall⟩

/-- A take-over that is late changes nothing, and its replica does not lead. -/
theorem Sound.of_late (h : c.Sound ns identity) {i : π} (hlate : (c.attempts i).Late c.server)
    (m : Stamp) :
    (c.step ns identity now (.call i m .answered)).server = c.server ∧
      (c.step ns identity now (.call i m .answered)).attempts i = .done (.ok false) := by
  cases hp : c.attempts i with
  | done result =>
    rw [hp] at hlate
    exact hlate.elim
  | ask q next =>
    have hstage := h.stage i
    rw [hp] at hstage hlate
    obtain ⟨hserver, hattempts, -⟩ := step_call ns identity now hp m .answered
    obtain ⟨hsame, hdone⟩ := hstage.of_late (h.known i) hlate m
    refine ⟨hserver.trans hsame, ?_⟩
    rw [hattempts, Function.update_self, hdone]

/-- **The holder changes rightfully.**  At every turn of every run, whatever becomes of the calls:
a replica becomes the holder only by its own call, which creates the lease where there is none or
takes over the very lease that the replica has read and that has expired by the clock; no version
was replaced by two take-overs; and a take-over that is late changes nothing and ends with its
replica not leading. -/
theorem holder_changes_rightfully (ns : String) (identity : π → String) {s : LeaseServer}
    (hs : s.Versioned) (began : Instant) (turns : List (Instant × Turn π)) (now : Instant)
    (turn : Turn π)
    (hclock : (began :: (turns ++ [(now, turn)]).map Prod.fst).IsChain Instant.NoLaterThan)
    (hfresh : (versions (turns ++ [(now, turn)]) ++ s.given).Nodup) :
    let c := (start s began).run ns identity turns
    let c' := (start s began).run ns identity (turns ++ [(now, turn)])
    (∀ y, c'.server.Names y → ¬ c.server.Names y → ∃ i m fate, turn = .call i m fate ∧
      y = identity i ∧ ((c.attempts i).Creates ns y c.server ∨
        (c.attempts i).TakesOver y now (c.read i) c.server)) ∧
    c'.replaced.Nodup ∧
    ∀ i m, turn = .call i m .answered → (c.attempts i).Late c.server →
      c'.server = c.server ∧ c'.attempts i = .done (.ok false) := by
  intro c c'
  have hstep : c' = c.step ns identity now turn := by
    simp only [c', c, run, List.foldl_append, List.foldl_cons, List.foldl_nil]
  obtain ⟨hsound, hlater, hnew⟩ := (sound_start ns identity hs began).run hclock hfresh
  have hnow := (List.isChain_cons_cons.mp hlater).1
  rw [hstep]
  refine ⟨fun y hy hold => hsound.of_names hnow hy hold, ?_, ?_⟩
  · exact (hsound.step hnow (Contest.fresh_of_nodup_versions hnew)).replaced.nodup
  · rintro i m rfl hlate
    exact hsound.of_late hlate m

/-! ## Two challengers -/

/-- A lease that `replica-a` has renewed at the start of a year, for a quarter of a minute. -/
def unrenewed : LeaseServer where
  stored := some (.obj [("metadata", .obj [("resourceVersion", .str "5")]),
    ("spec", .obj [("holderIdentity", .str "replica-a"), ("leaseDurationSeconds", .int 15),
      ("renewTime", .str "2001-01-01T00:00:00.000000Z")])])
  given := ["5"]

/-- The identities of two other replicas. -/
def challenger (isSecond : Bool) : String := bif isSecond then "replica-c" else "replica-b"

/-- A time so many seconds after that renewal. -/
def afterRenewal (n : Int) : Instant := ⟨63_113_904_000 + n, 0⟩

/-- The two replicas compete for that lease. -/
abbrev challenge (turns : List (Instant × Turn Bool)) : TimedContest Bool :=
  (start unrenewed (afterRenewal 15)).run "ops" challenger turns

/-- Both find the lease expired. -/
def bothFind : List (Instant × Turn Bool) :=
  [(afterRenewal 16, .begin false), (afterRenewal 16, .call false ⟨"6", []⟩ .answered),
    (afterRenewal 17, .begin true), (afterRenewal 18, .call true ⟨"7", []⟩ .answered)]

/-- The first one takes it over. -/
def first : Turn Bool := .call false ⟨"8", []⟩ .answered

/-- The second one tries to. -/
def second : Turn Bool := .call true ⟨"9", []⟩ .answered

theorem versioned_unrenewed : unrenewed.Versioned := by
  intro j hj
  obtain rfl := Option.some.inj hj
  exact ⟨"5", by decide, by decide +kernel⟩

/-- Of two replicas that find the same lease expired, the first one takes it over, and the second
one does not lead. -/
theorem one_challenger_wins :
    let c := challenge bothFind
    let c' := challenge (bothFind ++ [(afterRenewal 19, first)])
    let c'' := challenge (bothFind ++ [(afterRenewal 19, first)] ++ [(afterRenewal 20, second)])
    (c.attempts false).TakesOver "replica-b" (afterRenewal 19) (c.read false) c.server ∧
      c'.server.Names "replica-b" ∧ c''.replaced = ["5"] ∧
      c''.server = c'.server ∧ c''.attempts true = .done (.ok false) := by
  have hstored : (challenge bothFind).server.stored ≠ none := by decide +kernel
  have hold : ¬ (challenge bothFind).server.Names "replica-b" := by decide +kernel
  have hnew : (challenge (bothFind ++ [(afterRenewal 19, first)])).server.Names "replica-b" := by
    decide +kernel
  have hlate : ((challenge (bothFind ++ [(afterRenewal 19, first)])).attempts true).Late
      (challenge (bothFind ++ [(afterRenewal 19, first)])).server := by decide +kernel
  have hfirst := holder_changes_rightfully "ops" challenger versioned_unrenewed (afterRenewal 15)
    bothFind (afterRenewal 19) first (by decide +kernel) (by decide +kernel)
  have hsecond := holder_changes_rightfully "ops" challenger versioned_unrenewed (afterRenewal 15)
    (bothFind ++ [(afterRenewal 19, first)]) (afterRenewal 20) second (by decide +kernel)
    (by decide +kernel)
  have hreplaced : (challenge (bothFind ++ [(afterRenewal 19, first)] ++
    [(afterRenewal 20, second)])).replaced = ["5"] := by decide +kernel
  have hlost := hsecond.2.2 true ⟨"9", []⟩ rfl hlate
  obtain ⟨i, m, fate, hturn, -, hcall⟩ := hfirst.1 "replica-b" hnew hold
  obtain ⟨rfl, rfl, rfl⟩ := Turn.call.inj hturn
  refine ⟨hcall.resolve_left fun hcreates => ?_, hnew, hreplaced, ?_⟩
  · exact hstored hcreates.absent
  · simpa only [challenge] using hlost

end TimedContest

end ConfigMerge
