import ConfigMerge.Proofs.Interleaving
import ConfigMerge.Proofs.Leader.LeaseServer
import Mathlib.Logic.Relation

/-!
# Proofs/Leader/Holder — what a replica knows of the lease while others move

What a replica has read of the lease goes out of date in known ways only: the lease stays once it is
there, its holder changes by take-overs alone, and every write gives it a version that it never had.
So an attempt is safe among those of others (`LeaseServer.safe_attempt`): when its replica comes to
lead, the stored lease names it unless another one has taken the lease over.
-/

namespace ConfigMerge

namespace LeaseServer

/-- Another replica than `id` has taken the lease over since the take-overs that were seen. -/
def Overtaken (id : String) (seen : List String) (s : LeaseServer) : Prop :=
  ∃ added, s.takeovers = added ++ seen ∧ ∃ other ∈ added, other ≠ id

/-! ## What a replica knows -/

variable {id : String} {seen : List String} {s s' : LeaseServer}

/-- Other replicas than `id` make any number of moves. -/
def Others (id : String) : LeaseServer → LeaseServer → Prop :=
  Relation.ReflTransGen fun s s' => ∃ other, other ≠ id ∧ Moves other s s'

/-- A replica has seen that there is no lease: while that is so, nobody has taken it over. -/
def SeenAbsent (seen : List String) (s : LeaseServer) : Prop :=
  s.stored = none → s.takeovers = seen

/-- A replica is the holder exactly when all that have taken the lease over since it has seen the
take-overs are itself. -/
def Rightful (id : String) (seen : List String) (s : LeaseServer) : Prop :=
  ∃ j added, s.stored = some j ∧ s.takeovers = added ++ seen ∧
    (j.leaseHolder? = some id ↔ ∀ other ∈ added, other = id)

/-- A replica has seen the lease under a version: while that is so, nobody has taken it over. -/
def SeenVersion (v : String) (seen : List String) (s : LeaseServer) : Prop :=
  v ∈ s.given ∧ ∃ j, s.stored = some j ∧ (j.version? = some v → s.takeovers = seen)

theorem Wrote.version_ne {j : Json} (h : s.Wrote s' j) {v : String} (hv : v ∈ s.given) :
    j.version? ≠ some v := by
  obtain ⟨v', hv', hfresh, -⟩ := h.version
  rintro heq
  obtain rfl : v' = v := Option.some.inj (hv'.symm.trans heq)
  exact hfresh hv

theorem Wrote.mem_given {j : Json} (h : s.Wrote s' j) {v : String} (hv : v ∈ s.given) :
    v ∈ s'.given := by
  obtain ⟨v', -, -, hgiven⟩ := h.version
  rw [hgiven]
  exact List.mem_cons_of_mem v' hv

theorem SeenAbsent.moves {other : String} (h : SeenAbsent seen s) (hm : Moves other s s') :
    SeenAbsent seen s' := by
  obtain rfl | ⟨j, hw⟩ := hm.eq_or_wrote
  · exact h
  · intro hnone
    rw [hw.stored] at hnone
    cases hnone

/-- **Others can only take the lease over from a replica**, and then it is on record. -/
theorem Rightful.moves {other : String} (hne : other ≠ id) (h : Rightful id seen s)
    (hm : Moves other s s') : Rightful id seen s' := by
  obtain ⟨j, added, hj, htake, hiff⟩ := h
  cases hm with
  | idle hs => exact hs ▸ ⟨j, added, hj, htake, hiff⟩
  | created j' hw habsent =>
    rw [habsent] at hj
    cases hj
  | renewed j₀ j' hw hstored hholder htakeovers =>
    obtain rfl : j₀ = j := Option.some.inj (hstored.symm.trans hj)
    exact ⟨j', added, hw.stored, htakeovers.trans htake, hholder ▸ hiff⟩
  | takenOver j₀ j' hw hstored hholder htakeovers =>
    refine ⟨j', other :: added, hw.stored, ?_, ?_⟩
    · rw [htakeovers, htake, List.cons_append]
    · rw [hholder]
      exact iff_of_false (fun heq => hne (Option.some.inj heq))
        fun hown => hne (hown other List.mem_cons_self)

theorem SeenVersion.moves {other v : String} (h : SeenVersion v seen s) (hm : Moves other s s') :
    SeenVersion v seen s' := by
  obtain rfl | ⟨j, hw⟩ := hm.eq_or_wrote
  · exact h
  · exact ⟨hw.mem_given h.1, j, hw.stored, fun heq => absurd heq (hw.version_ne h.1)⟩

/-- **What every move of another replica leaves is left by any number of them.** -/
theorem Others.induct {K : LeaseServer → Prop} (h : Others id s s') (hs : K s)
    (hK : ∀ s s' other, other ≠ id → Moves other s s' → K s → K s') : K s' := by
  induction h with
  | refl => exact hs
  | tail _ hm ih =>
    obtain ⟨other, hne, hm⟩ := hm
    exact hK _ _ other hne hm ih

/-! ## Calls among those of others -/

/-- The take-overs that a replica has seen after a call. -/
def seenAfter (s : LeaseServer) (seen : List String) : LeaseCall → List String
  | .get => s.takeovers
  | .create _ | .patch _ => seen

/-- The surroundings of the replica `id`, with the take-overs that it has seen. -/
def surroundings (id : String) : Surroundings LeaseCall.Answer (LeaseServer × List String) where
  serve q a w w' := ∃ m fate, m.version ∉ w.1.given ∧ w.1.serve m q fate = (a, w'.1) ∧
    w'.2 = seenAfter w.1 w.2 q
  valid w := w.1.Versioned
  rely w w' := Others id w.1 w'.1 ∧ w'.2 = w.2
  guarantee _ _ w w' := Moves id w.1 w'.1
  rely_refl _ := ⟨.refl, rfl⟩
  rely_trans h h' := ⟨h.1.trans h'.1, h'.2.trans h.2⟩

theorem not_overtaken_iff {added : List String} (h : s.takeovers = added ++ seen) :
    ¬ Overtaken id seen s ↔ ∀ other ∈ added, other = id := by
  constructor
  · intro hnot other hmem
    by_contra hne
    exact hnot ⟨added, h, other, hmem, hne⟩
  · rintro hown ⟨added', h', other, hmem, hne⟩
    obtain rfl : added = added' := List.append_cancel_right (h.symm.trans h')
    exact hne (hown other hmem)

/-- **The stored lease names such a replica exactly when no other one has taken it over.** -/
theorem Rightful.names_iff (h : Rightful id seen s) : s.Names id ↔ ¬ Overtaken id seen s := by
  obtain ⟨j, added, hj, htake, hiff⟩ := h
  rw [not_overtaken_iff htake, ← hiff, Names, hj, Option.bind_some]

/-- A call of a replica is within bounds, whatever it makes of the answer. -/
theorem safe_call {w : LeaseServer × List String} {q : LeaseCall} (hq : IsBy id q)
    {P : q.Answer → LeaseServer × List String → Prop}
    (hout : ∀ s seen m fate, Others id w.1 s → w.2 = seen → s.Versioned →
      P (s.serve m q fate).1 ((s.serve m q fate).2, seenAfter s seen q)) :
    (surroundings id).Safe P (Program.question q) w := by
  rintro ⟨s, seen⟩ ⟨hothers, hseen⟩ hv a ⟨s', seen'⟩ ⟨m, fate, hm, hserve, hseen'⟩
  have hmoves : Moves id s s' := by
    have h := moves_serve hm hq fate
    rwa [hserve] at h
  have h := hout s seen m fate hothers hseen.symm hv
  rw [hserve, ← hseen'] at h
  exact ⟨hv.moves hmoves, hmoves, h⟩

/-! ## The calls of an attempt -/

variable {w : LeaseServer × List String}

/-- What the lease that a replica has read tells it. -/
def Learned (id : String) (w : LeaseServer × List String) : Option Lease → Prop
  | none => SeenAbsent w.2 w.1
  | some l => (l.holder? = some id → Rightful id w.2 w.1) ∧
      ∃ v, l.metadata.resourceVersion = some v ∧ SeenVersion v w.2 w.1

theorem safe_get :
    (surroundings id).Safe (Surroundings.OnSuccess fun x w => Learned id w x)
      Election.get.run w := by
  refine safe_call (q := .get) trivial fun s seen m fate _ _ hv => ?_
  cases fate with
  | lost e | failed e => exact trivial
  | answered =>
    simp only [serve, reply, seenAfter]
    cases hs : s.stored with
    | none => exact fun _ => rfl
    | some j =>
      simp only [read]
      cases hl : Lease.decode j with
      | none => exact trivial
      | some l =>
        obtain ⟨hversion, hholder⟩ := Lease.of_decode hl
        obtain ⟨v, hgiven, hv⟩ := hv j hs
        refine ⟨fun hown => ⟨j, [], hs, rfl, ?_⟩, v, ?_, hgiven, j, hs, fun _ => rfl⟩
        · exact iff_of_true (hholder.symm.trans hown) (List.forall_mem_nil _)
        · exact hversion.trans hv

/-- A creation that succeeds makes the replica the holder. -/
theorem safe_create (ns : String) (now : Instant) (h : SeenAbsent w.2 w.1) :
    (surroundings id).Safe (Surroundings.OnSuccess fun _ w => Rightful id w.2 w.1)
      (Election.create (Election.newLease ns id now)).run w := by
  refine safe_call (q := .create _) trivial fun s seen m fate hothers hseen _ => ?_
  have habsent : SeenAbsent seen s := hseen ▸ hothers.induct h fun _ _ _ _ hm h => h.moves hm
  cases fate with
  | lost e | failed e => exact trivial
  | answered =>
    simp only [serve, reply, seenAfter]
    cases hs : s.stored with
    | some j => exact trivial
    | none =>
      simp only [read]
      cases Lease.decode (stamped m (Election.newLease ns id now).encode) with
      | none => exact trivial
      | some l =>
        refine ⟨_, [], rfl, habsent hs, iff_of_true ?_ (List.forall_mem_nil _)⟩
        rw [leaseHolder?_stamped, Lease.leaseHolder?_encode_newLease]

/-- **A renewal that succeeds finds its replica the holder unless it was overtaken.** -/
theorem safe_renew (now : Instant) (h : Rightful id w.2 w.1) :
    (surroundings id).Safe (Surroundings.OnSuccess fun _ w => Rightful id w.2 w.1)
      (Election.patch (.renew now)).run w := by
  refine safe_call (q := .patch (.renew now)) trivial fun s seen m fate hothers hseen _ => ?_
  obtain ⟨j, added, hj, htake, hiff⟩ : Rightful id seen s :=
    hseen ▸ hothers.induct h fun _ _ _ hne hm h => h.moves hne hm
  cases fate with
  | lost e | failed e => exact trivial
  | answered =>
    have haccepted : Cluster.disagrees ((LeasePatch.renew now).toJson.metadata? "resourceVersion")
        (j.metadata? "resourceVersion") = false := by
      rw [LeasePatch.version?_toJson_renew]
      rfl
    simp only [serve, reply, seenAfter, hj, haccepted, read]
    cases Lease.decode (stamped m (j.patched (LeasePatch.renew now).toJson)) with
    | none => exact trivial
    | some l =>
      refine ⟨_, added, rfl, htake, ?_⟩
      rw [leaseHolder?_stamped, Json.leaseHolder?_renew]
      exact hiff

/-- A take-over that succeeds makes the replica the holder. -/
theorem safe_takeOver (now : Instant) {l : Lease} {v : String}
    (hw : w.1.Versioned) (hl : l.metadata.resourceVersion = some v)
    (h : SeenVersion v w.2 w.1) :
    (surroundings id).Safe
      (Surroundings.OnSuccess fun leads w => leads = true → Rightful id w.2 w.1)
      (Election.takeOver id now l).run w := by
  let patch : LeasePatch := .takeOver id now l.metadata.resourceVersion
  have hpatch : (surroundings id).Safe (Surroundings.OnSuccess fun _ w => Rightful id w.2 w.1)
      (Election.patch patch).run w := by
    refine safe_call (q := .patch patch) rfl fun s seen m fate hothers hseen _ => ?_
    obtain ⟨-, j, hj, htake⟩ : SeenVersion v seen s :=
      hseen ▸ hothers.induct h fun _ _ _ _ hm h => h.moves hm
    cases fate with
    | lost e | failed e => exact trivial
    | answered =>
      simp only [serve, reply, seenAfter, hj]
      split
      · exact trivial
      next haccepted =>
        have hversion : j.version? = some v := eq_of_not_disagrees haccepted
          ((LeasePatch.version?_toJson_takeOver id now _).trans hl)
        have htakeovers : id :: s.takeovers = [id] ++ seen := by rw [htake hversion]; rfl
        simp only [read]
        cases Lease.decode (stamped m (j.patched patch.toJson)) with
        | none => exact trivial
        | some l' =>
          refine ⟨_, [id], rfl, htakeovers, iff_of_true ?_ fun _ hmem => List.mem_singleton.mp hmem⟩
          exact (leaseHolder?_stamped m _).trans (Json.leaseHolder?_takeOver j id now _)
  unfold Election.takeOver
  refine Surroundings.Safe.bind hpatch hw fun r w _ hr => ?_
  cases r with
  | ok l' => exact fun _ => hr
  | error e =>
    cases e with
    | api st =>
      -- a refusal means that another replica was faster
      by_cases hcode : st.code = 409
      · simp only [hcode]
        exact fun hleads => by cases hleads
      · simp only [hcode]
        exact trivial
    | _ => exact trivial

/-- What is to be said of the end of an attempt: whoever leads does so rightfully, or was
overtaken. -/
def Ended (id : String) (result : Except ClientError Bool) (w : LeaseServer × List String) : Prop :=
  result = .ok true → Rightful id w.2 w.1

/-- **An attempt is safe among those of others.** -/
theorem safe_attempt (ns : String) (now : Instant) (hw : w.1.Versioned) :
    (surroundings id).Safe (Ended id) (Election.attempt ns id now).run w := by
  refine Surroundings.Safe.weaken (P := Surroundings.OnSuccess fun leads w =>
    leads = true → Rightful id w.2 w.1) ?_ hw fun result w _ h hleads => ?_
  · unfold Election.attempt
    refine Surroundings.Safe.bindE safe_get hw fun x w hw hx => ?_
    cases x with
    | none =>
      exact Surroundings.Safe.bindE (safe_create ns now hx) hw fun _ w _ h => .pureE fun _ => h
    | some l =>
      obtain ⟨hown, v, hv, hversion⟩ := hx
      dsimp only
      by_cases hholder : l.holder? = some id
      · rw [if_pos hholder]
        exact Surroundings.Safe.bindE (safe_renew now (hown hholder)) hw
          fun _ w _ h => .pureE fun _ => h
      · rw [if_neg hholder]
        by_cases hexpired : l.isExpired now
        · rw [if_pos hexpired]
          exact safe_takeOver now hw hv hversion
        · rw [if_neg hexpired]
          exact .pureE fun h => by cases h
  · subst hleads
    exact h rfl

end LeaseServer

end ConfigMerge
