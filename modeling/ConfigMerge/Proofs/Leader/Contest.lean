import ConfigMerge.Proofs.Leader.Holder
import Mathlib.Data.List.Nodup

/-!
# Proofs/Leader/Contest — replicas that compete for the lease

In a `Contest` replicas try for the lease again and again, call by call.  A replica that takes
itself for the leader is named by the stored lease exactly when no other replica has taken the lease
over since it read it (`Contest.names_iff_not_overtaken`).  A take-over insists on the version that
was read and a creation on the absence of the lease, but a renewal insists on nothing, so a holder
that stalls before it renews can be overtaken (`Contest.overtaken_holder_leads`).
-/

namespace ConfigMerge

variable {π : Type}

/-! ## Contests -/

namespace Election

/-- What is left of an attempt. -/
abbrev Rest := Program LeaseCall.Answer (Except ClientError Bool)

/-- The attempt has calls to make. -/
def Rest.IsPending : Rest → Prop
  | .ask .. => True
  | .done _ => False

/-- The attempt has ended, and its replica takes itself for the leader. -/
def Rest.Leads : Rest → Prop
  | .done (.ok true) => True
  | .done (.ok false) | .done (.error _) | .ask .. => False

theorem Rest.Leads.eq {p : Rest} (h : p.Leads) : p = .done (.ok true) := by
  cases p with
  | ask q next => exact h.elim
  | done result =>
    cases result with
    | error e => exact h.elim
    | ok leads =>
      cases leads with
      | false => exact h.elim
      | true => rfl

theorem Rest.IsPending.exists_eq {p : Rest} (h : p.IsPending) : ∃ q next, p = .ask q next := by
  cases p with
  | done result => exact h.elim
  | ask q next => exact ⟨q, next, rfl⟩

instance : DecidablePred Rest.IsPending
  | .ask .. => inferInstanceAs (Decidable True)
  | .done _ => inferInstanceAs (Decidable False)

instance : DecidablePred Rest.Leads
  | .done (.ok true) => inferInstanceAs (Decidable True)
  | .done (.ok false) | .done (.error _) | .ask .. => inferInstanceAs (Decidable False)

end Election

/-- What replicas share: the server, and the take-overs that there had been when a replica last read
the lease. -/
structure Contest.World (π : Type) where
  server : LeaseServer
  seen : π → List String

/-- Replicas that share such a world, and what is left of the attempt of each. -/
abbrev Contest (π : Type) := Pool LeaseCall.Answer (Contest.World π) π (Except ClientError Bool)

namespace Contest

/-- The server. -/
abbrev server (c : Contest π) : LeaseServer := c.world.server

/-- The take-overs that there had been when a replica last read the lease. -/
abbrev seen (c : Contest π) : π → List String := c.world.seen

/-- What is left of the attempt of each replica. -/
abbrev attempts (c : Contest π) : π → Election.Rest := c.programs

/-- What happens next: a replica that is not trying tries at a time, or one makes its next call. -/
inductive Move (π : Type) where
  | begin (i : π) (now : Instant)
  | call (i : π) (m : Stamp) (fate : Fate)

/-- The versions that the server chooses. -/
def Move.version? : Move π → Option String
  | .begin .. => none
  | .call _ m _ => some m.version

/-- Nobody has begun. -/
def start (s : LeaseServer) : Contest π where
  world := { server := s, seen := fun _ => s.takeovers }
  programs _ := .done (.ok false)

variable [DecidableEq π] (ns : String) (identity : π → String)

/-- The answer to a call of replica `i` that meets its fate. -/
def World.answer (i : π) (m : Stamp) (fate : Fate) (q : LeaseCall) (w : World π) :
    q.Answer × World π :=
  let answer := w.server.serve m q fate
  (answer.1, {
    server := answer.2
    seen := Function.update w.seen i (w.server.seenAfter (w.seen i) q) })

/-- One move; nothing happens when it is not that replica's turn for it. -/
def step (c : Contest π) : Move π → Contest π
  | .begin i now =>
    match c.attempts i with
    | .ask .. => c
    | .done _ => c.goOn i (Election.attempt ns (identity i) now).run c.world
  | .call i m fate => c.ask (World.answer i m fate) i

/-- A replica that is not trying tries… -/
theorem step_begin {c : Contest π} {i : π} {r : Except ClientError Bool}
    (h : c.attempts i = .done r) (now : Instant) :
    c.step ns identity (.begin i now) =
      c.goOn i (Election.attempt ns (identity i) now).run c.world := by
  simp only [step, h]

/-- …and one that is trying goes on. -/
theorem step_begin_of_ask {c : Contest π} {i : π} {q : LeaseCall} {next : q.Answer → Election.Rest}
    (h : c.attempts i = .ask q next) (now : Instant) :
    c.step ns identity (.begin i now) = c := by
  simp only [step, h]

/-- A replica that is trying makes its next call… -/
theorem step_call {c : Contest π} {i : π} {q : LeaseCall} {next : q.Answer → Election.Rest}
    (h : c.attempts i = .ask q next) (m : Stamp) (fate : Fate) :
    c.step ns identity (.call i m fate) =
      c.goOn i (next (c.world.answer i m fate q).1) (c.world.answer i m fate q).2 :=
  Pool.ask_of_ask (World.answer i m fate) h

/-- …and one that is not makes none. -/
theorem step_call_of_done {c : Contest π} {i : π} {r : Except ClientError Bool}
    (h : c.attempts i = .done r) (m : Stamp) (fate : Fate) :
    c.step ns identity (.call i m fate) = c :=
  Pool.ask_of_done (World.answer i m fate) h

/-- Several moves. -/
def run (c : Contest π) (moves : List (Move π)) : Contest π := moves.foldl (step ns identity) c

/-! ## Any run -/

variable {ns identity} {c : Contest π}

/-- The versions that the server chooses in several moves. -/
def versions (moves : List (Move π)) : List String := moves.filterMap Move.version?

/-- What is said of the replicas. -/
def company (identity : π → String) :
    Company LeaseCall.Answer (World π) (LeaseServer × List String) π (Except ClientError Bool) where
  view i w := (w.server, w.seen i)
  surroundings i := LeaseServer.surroundings (identity i)
  outcome i := LeaseServer.Ended (identity i)
  valid w := w.server.Versioned
  valid_view _ hw := hw
  outcome_lasts := by
    intro i r v v' hrely _ _ hended hleads
    rw [hrely.2]
    exact hrely.1.induct (hended hleads) fun _ _ _ hne hm h => h.moves hne hm

omit [DecidableEq π] in
theorem good_start {s : LeaseServer} (hs : s.Versioned) : (start s).Good (company identity) where
  valid := hs
  safe _ hleads := by cases hleads

/-- A call is answered as the surroundings of its replica say. -/
theorem World.serve_answer {w : World π} {id : String} {m : Stamp} (hm : m.version ∉ w.server.given)
    (i : π) (fate : Fate) (q : LeaseCall) :
    (LeaseServer.surroundings id).serve q (w.answer i m fate q).1 (w.server, w.seen i)
      ((w.answer i m fate q).2.server, (w.answer i m fate q).2.seen i) :=
  ⟨m, fate, hm, rfl, by simp only [answer, Function.update_self]⟩

/-- **Every move keeps a contest good.** -/
theorem good_step (hid : Function.Injective identity) (h : c.Good (company identity)) {m : Move π}
    (hm : ∀ v, m.version? = some v → v ∉ c.server.given) :
    (c.step ns identity m).Good (company identity) := by
  cases m with
  | begin i now =>
    cases hp : c.attempts i with
    | ask q next =>
      rw [step_begin_of_ask ns identity hp]
      exact h
    | done result =>
      rw [step_begin ns identity hp]
      exact h.goOn (LeaseServer.safe_attempt ns now h.valid)
        ⟨h.valid, fun j _ => ((company identity).surroundings j).rely_refl _⟩
  | call i m fate =>
    change (c.ask (World.answer i m fate) i).Good _
    refine h.ask (fun q _ _ => World.serve_answer (hm _ rfl) i fate q)
      fun q _ _ hvalid hmoves => ⟨hvalid, fun j hj => ⟨?_, ?_⟩⟩
    · exact .single ⟨identity i, fun heq => hj (hid heq).symm, hmoves⟩
    · exact Function.update_of_ne hj _ _

/-- A move adds the version that the server chooses, if any. -/
theorem given_step (ns : String) (identity : π → String) (c : Contest π) (m : Move π) :
    (c.step ns identity m).server.given = c.server.given ∨
      ∃ v, m.version? = some v ∧ (c.step ns identity m).server.given = v :: c.server.given := by
  cases m with
  | begin i now =>
    left
    simp only [step]
    split <;> rfl
  | call i m fate =>
    cases hp : c.attempts i with
    | done result =>
      exact Or.inl (congrArg (·.server.given) (step_call_of_done ns identity hp m fate))
    | ask q next =>
      rw [step_call ns identity hp]
      rcases LeaseServer.given_serve c.server m q fate with hsame | hnew
      · exact Or.inl hsame
      · exact Or.inr ⟨m.version, rfl, hnew⟩

/-- Versions that are all different stay new until they are chosen. -/
theorem nodup_versions_step {m : Move π} {rest : List (Move π)}
    (h : (versions (m :: rest) ++ c.server.given).Nodup) :
    (versions rest ++ (c.step ns identity m).server.given).Nodup := by
  have hrest : (versions rest ++ c.server.given).Nodup := by
    refine h.sublist (List.Sublist.append_right ?_ _)
    exact (List.sublist_cons_self m rest).filterMap _
  rcases given_step ns identity c m with hsame | ⟨v, hv, hgiven⟩
  · rw [hsame]
    exact hrest
  · rw [versions, List.filterMap_cons, hv] at h
    rw [hgiven, List.nodup_middle]
    exact h

omit [DecidableEq π] in
/-- A version that is chosen first is new. -/
theorem fresh_of_nodup_versions {m : Move π} {rest : List (Move π)}
    (h : (versions (m :: rest) ++ c.server.given).Nodup) :
    ∀ v, m.version? = some v → v ∉ c.server.given := by
  intro v hv hmem
  rw [versions, List.filterMap_cons, hv] at h
  exact (List.nodup_cons.mp h).1 (List.mem_append_right _ hmem)

/-- **Every run keeps a contest good**, and leaves the versions to come new. -/
theorem good_run (ns : String) (hid : Function.Injective identity)
    (h : c.Good (company identity)) {moves rest : List (Move π)}
    (hfresh : (versions (moves ++ rest) ++ c.server.given).Nodup) :
    (c.run ns identity moves).Good (company identity) ∧
      (versions rest ++ (c.run ns identity moves).server.given).Nodup := by
  induction moves generalizing c with
  | nil => exact ⟨h, hfresh⟩
  | cons m more ih =>
    exact ih (good_step hid h (fresh_of_nodup_versions hfresh)) (nodup_versions_step hfresh)

/-! ## Who leads -/

/-- Another replica has taken the lease over since a replica last read it. -/
def Overtaken (identity : π → String) (c : Contest π) (i : π) : Prop :=
  c.server.Overtaken (identity i) (c.seen i)

/-- **A replica that comes to lead is the holder exactly when it was not overtaken.**  The times of
the attempts do not matter, nor what becomes of the calls. -/
theorem names_iff_not_overtaken (ns : String) {identity : π → String}
    (hid : Function.Injective identity) {s : LeaseServer} (hs : s.Versioned)
    (moves : List (Move π)) (i : π) (m : Stamp) (fate : Fate)
    (hfresh : (versions (moves ++ [.call i m fate]) ++ s.given).Nodup)
    (hpending : (((start s).run ns identity moves).attempts i).IsPending)
    (hleads : (((start s).run ns identity (moves ++ [.call i m fate])).attempts i).Leads) :
    ((start s).run ns identity (moves ++ [.call i m fate])).server.Names (identity i) ↔
      ¬ ((start s).run ns identity (moves ++ [.call i m fate])).Overtaken identity i := by
  obtain ⟨hgood, hnew⟩ := good_run ns hid (good_start hs) hfresh
  have hm := fresh_of_nodup_versions hnew m.version rfl
  obtain ⟨q, next, hp⟩ := hpending.exists_eq
  have hlast : (start s).run ns identity (moves ++ [.call i m fate]) =
      ((start s).run ns identity moves).step ns identity (.call i m fate) := by
    rw [run, List.foldl_append]
    rfl
  obtain ⟨-, -, hended⟩ := hgood.question hp (World.serve_answer hm i fate q)
  rw [hlast, step_call ns identity hp] at hleads ⊢
  have hdone := hleads.eq
  simp only [attempts, Pool.goOn, Function.update_self] at hdone
  rw [hdone] at hended
  exact (hended rfl).names_iff

/-! ## A lapsed lease -/

/-- A lease that `replica-a` holds and has never renewed. -/
def lapsed : LeaseServer where
  stored := some (.obj [("metadata", .obj [("resourceVersion", .str "5")]),
    ("spec", .obj [("holderIdentity", .str "replica-a")])])
  given := ["5"]

theorem versioned_lapsed : lapsed.Versioned := by
  intro j hj
  obtain rfl := Option.some.inj hj
  exact ⟨"5", by decide, by decide +kernel⟩

/-- The identities of two replicas. -/
def rival (i : Fin 2) : String := if i = 0 then "replica-a" else "replica-b"

theorem rival_injective : Function.Injective rival := by
  have h : ∀ i j, rival i = rival j → i = j := by decide
  exact h

/-- The two replicas compete for that lease. -/
def rivals (moves : List (Move (Fin 2))) : Contest (Fin 2) := (start lapsed).run "ops" rival moves

/-- The holder reads the lease, and then the other one does. -/
def bothRead : List (Move (Fin 2)) :=
  [.begin 0 ⟨1, 0⟩, .call 0 ⟨"6", []⟩ .answered, .begin 1 ⟨2, 0⟩, .call 1 ⟨"7", []⟩ .answered]

/-- The other one makes its last call. -/
def takeover : Move (Fin 2) := .call 1 ⟨"8", []⟩ .answered

/-- The holder makes its last call. -/
def renewal : Move (Fin 2) := .call 0 ⟨"9", []⟩ .answered

/-- The replica that takes the lease over leads, and the lease names it. -/
theorem names_after_takeover :
    (versions (bothRead ++ [takeover]) ++ lapsed.given).Nodup ∧
      ((rivals bothRead).attempts 1).IsPending ∧
      ((rivals (bothRead ++ [takeover])).attempts 1).Leads ∧
      (rivals (bothRead ++ [takeover])).server.Names (rival 1) := by
  have hfresh : (versions (bothRead ++ [takeover]) ++ lapsed.given).Nodup := by decide +kernel
  have hpending : ((rivals bothRead).attempts 1).IsPending := by decide +kernel
  have hleads : ((rivals (bothRead ++ [takeover])).attempts 1).Leads := by decide +kernel
  have htake : (rivals (bothRead ++ [takeover])).server.takeovers =
      [rival 1] ++ (rivals (bothRead ++ [takeover])).seen 1 := by decide +kernel
  have hnot : ¬ (rivals (bothRead ++ [takeover])).Overtaken rival 1 :=
    (LeaseServer.not_overtaken_iff htake).mpr fun _ hmem => List.mem_singleton.mp hmem
  exact ⟨hfresh, hpending, hleads, (names_iff_not_overtaken "ops" rival_injective versioned_lapsed
    bothRead 1 ⟨"8", []⟩ .answered hfresh hpending hleads).mpr hnot⟩

/-- **A holder that was overtaken still leads**: it read the lease, the other replica took it over,
and its renewal is accepted all the same. -/
theorem overtaken_holder_leads :
    Function.Injective rival ∧
      (versions (bothRead ++ [takeover] ++ [renewal]) ++ lapsed.given).Nodup ∧
      ((rivals (bothRead ++ [takeover])).attempts 0).IsPending ∧
      ((rivals (bothRead ++ [takeover] ++ [renewal])).attempts 0).Leads ∧
      ¬ (rivals (bothRead ++ [takeover] ++ [renewal])).server.Names (rival 0) := by
  refine ⟨rival_injective, ?_⟩
  decide +kernel

end Contest

end ConfigMerge
