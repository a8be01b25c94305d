import ConfigMerge.Proofs.Interleaving
import ConfigMerge.Proofs.Merge.Expected
import ConfigMerge.Proofs.Store.Collections

/-!
# Proofs/Reconcile/Refusal — an error in answer to a call ends a pass

A pass makes no call after one that was answered by an error, and how it ends then depends on the
error and on whether the call was one of the merging part (`Family.endsBy_reconcile`).  It is never
done.  So what a pass does on stores that refuse some calls is known from stores that refuse none: a
pass that was not ended by a refusal did not meet any (`Stores.run_of_not_stopped`).
-/

namespace ConfigMerge

variable {φ κ ι ρ υ : Type}

/-! ## Programs that an error ends -/

namespace PassCall

/-- The answer to a call that failed. -/
def failure : (q : PassCall φ κ) → Error → q.Answer
  | .fragments _, e => .error e
  | .composites _, e => .error e

/-- Whether the call is one of the merging part of a pass: that part lists the fragments of a key,
and all calls to the composites are made in it. -/
def isMerging : PassCall φ κ → Bool
  | .composites _ | .fragments (.listByLabel ..) => true
  | .fragments _ => false

end PassCall

namespace Program

/-- Whatever the program asks, an error in answer ends it at once, with a result that is `B` of the
error. -/
def StopsWith (B : Error → ρ → Prop) : Program (PassCall.Answer (φ := φ) (κ := κ)) ρ → Prop
  | .done _ => True
  | .ask q next => (∀ e, ∃ r, next (q.failure e) = .done r ∧ B e r) ∧ ∀ a, StopsWith B (next a)

/-- …and which result that is may depend on the question. -/
def StopsBy (B : PassCall φ κ → Error → ρ → Prop) :
    Program (PassCall.Answer (φ := φ) (κ := κ)) ρ → Prop
  | .done _ => True
  | .ask q next => (∀ e, ∃ r, next (q.failure e) = .done r ∧ B q e r) ∧ ∀ a, StopsBy B (next a)

/-- Every question that the program may ever ask is of a kind. -/
def Asks {Q : Type} {A : Q → Type} (K : Q → Prop) : Program A ρ → Prop
  | .done _ => True
  | .ask q next => K q ∧ ∀ a, (next a).Asks K

theorem Asks.mono {Q : Type} {A : Q → Type} {K K' : Q → Prop} {p : Program A ρ} (h : p.Asks K)
    (himp : ∀ q, K q → K' q) : p.Asks K' := by
  induction p with
  | done r => exact trivial
  | ask q next ih => exact ⟨himp q h.1, fun a => ih a (h.2 a)⟩

/-- **What each question of a kind keeps, a program that asks no others keeps**, and it is safe if
they are. -/
theorem Asks.safe {Q W : Type} {A : Q → Type} {S : Surroundings A W} {K : Q → Prop} {I : W → Prop}
    {p : Program A ρ} (h : p.Asks K) {w : W} (hw : I w)
    (hkeep : ∀ {q a w w' w''}, K q → I w → S.rely w w' → S.valid w' → S.serve q a w' w'' →
      S.valid w'' ∧ S.guarantee q a w' w'' ∧ I w'') : S.Safe (fun _ => I) p w := by
  induction p generalizing w with
  | done r => exact hw
  | ask q next ih =>
    intro w' hrely hv a w'' hserve
    obtain ⟨hvalid, hguarantee, hkept⟩ := hkeep h.1 hw hrely hv hserve
    exact ⟨hvalid, hguarantee, ih a (h.2 a) hkept⟩

variable {B : PassCall φ κ → Error → ρ → Prop} {B' : PassCall φ κ → Error → υ → Prop}
  {p : Program (PassCall.Answer (φ := φ) (κ := κ)) ρ}

/-- A program asks only what errors can end it by. -/
theorem StopsBy.asks {K : PassCall φ κ → Prop} (h : p.StopsBy B) (hK : ∀ q e r, B q e r → K q) :
    p.Asks K := by
  induction p with
  | done r => exact trivial
  | ask q next ih =>
    obtain ⟨r, -, hB⟩ := h.1 .serialization
    exact ⟨hK q _ r hB, fun a => ih a (h.2 a)⟩

theorem stopsWith_iff {B : Error → ρ → Prop} : p.StopsWith B ↔ p.StopsBy fun _ => B := by
  induction p with
  | done r => exact Iff.rfl
  | ask q next ih => exact and_congr Iff.rfl (forall_congr' ih)

theorem StopsBy.mono {B' : PassCall φ κ → Error → ρ → Prop} (h : p.StopsBy B)
    (himp : ∀ q e r, B q e r → B' q e r) : p.StopsBy B' := by
  induction p with
  | done r => exact trivial
  | ask q next ih =>
    refine ⟨fun e => ?_, fun a => ih a (h.2 a)⟩
    obtain ⟨r, hr, hB⟩ := h.1 e
    exact ⟨r, hr, himp q e r hB⟩

/-- A sequence stops when its first part does and the second one does nothing about that. -/
theorem StopsBy.bind {f : ρ → Program (PassCall.Answer (φ := φ) (κ := κ)) υ} (h : p.StopsBy B)
    (herror : ∀ q e r, B q e r → ∃ r', f r = .done r' ∧ B' q e r')
    (hf : ∀ r, (f r).StopsBy B') : (p >>= f).StopsBy B' := by
  induction p with
  | done r => exact hf r
  | ask q next ih =>
    refine ⟨fun e => ?_, fun a => ih a (h.2 a)⟩
    obtain ⟨r, hr, hB⟩ := h.1 e
    obtain ⟨r', hr', hB'⟩ := herror q e r hB
    refine ⟨r', ?_, hB'⟩
    change (next (q.failure e)).andThen f = .done r'
    rw [hr]
    exact hr'

end Program

namespace Pass

/-- All calls are of a kind, and an error in answer to any of them is the result. -/
def StrictOn (K : PassCall φ κ → Prop) (p : Pass φ κ ρ) : Prop :=
  p.run.StopsBy fun q e r => K q ∧ r = .error e

variable {K : PassCall φ κ → Prop} {B : PassCall φ κ → Error → Except Error υ → Prop}
  {p : Pass φ κ ρ} {f : ρ → Pass φ κ υ}

theorem StrictOn.asks (h : p.StrictOn K) : p.run.Asks K := Program.StopsBy.asks h fun _ _ _ hB => hB.1

theorem strictOn_pure (a : ρ) : (pure a : Pass φ κ ρ).StrictOn K := trivial

theorem strictOn_onFragments {c : Call (Fragment φ)} (hc : K (.fragments c)) :
    (onFragments (κ := κ) c).StrictOn K :=
  ⟨fun e => ⟨.error e, rfl, hc, rfl⟩, fun _ => trivial⟩

theorem strictOn_onComposites (c : Call (Composite κ)) :
    (onComposites (φ := φ) c).StrictOn (·.isMerging) :=
  ⟨fun e => ⟨.error e, rfl, rfl, rfl⟩, fun _ => trivial⟩

theorem StrictOn.bind (h : p.StrictOn K) (hf : ∀ a, (f a).StrictOn K) : (p >>= f).StrictOn K := by
  refine Program.StopsBy.bind h ?_ fun r => ?_
  · rintro q e _ ⟨hq, rfl⟩
    exact ⟨.error e, rfl, hq, rfl⟩
  · cases r with
    | ok a => exact hf a
    | error e => exact trivial

/-- A call to the fragments whose error is the result, and what follows it. -/
theorem stopsBy_onFragments_bind {c : Call (Fragment φ)} {f : c.Result → Pass φ κ υ}
    (hB : ∀ e, B (.fragments c) e (.error e)) (hf : ∀ a, (f a).run.StopsBy B) :
    (onFragments c >>= f).run.StopsBy B := by
  refine ⟨fun e => ⟨.error e, rfl, hB e⟩, fun a => ?_⟩
  cases a with
  | ok a => exact hf a
  | error e => exact trivial

/-- To go on with the outcome of a part is to go on with its result, error or not. -/
theorem run_attempt_bind {g : Except Error ρ → Pass φ κ υ} :
    (p.attempt >>= g).run = p.run >>= fun r => (g r).run := by
  change (Except.ok <$> p.run) >>= ExceptT.bindCont g = _
  rw [map_eq_pure_bind, bind_assoc]
  exact bind_congr fun _ => rfl

end Pass

/-! ## Passes -/

namespace Family

variable (F : Family φ κ ι)

section Merging

variable [DecidableEq κ]

theorem strictOn_mergeOnto (key ns : String) (l : List (Fragment φ)) (x : Option (Composite κ)) :
    (F.mergeOnto key ns l x).StrictOn (·.isMerging) := by
  obtain ⟨-, hnothing⟩ | ⟨c, o, -, honce⟩ := F.mergeOnto_cases key ns l x
  · rw [hnothing]
    exact Pass.strictOn_pure _
  · rw [honce]
    exact (Pass.strictOn_onComposites _).bind fun _ => Pass.strictOn_pure o

theorem strictOn_mergeKey (ns key : String) : (F.mergeKey ns key).StrictOn (·.isMerging) := by
  have hlist : (F.liveFragments ns key : Pass φ κ _).StrictOn (·.isMerging) :=
    (Pass.strictOn_onFragments (K := (·.isMerging)) rfl).bind fun _ => Pass.strictOn_pure _
  refine hlist.bind fun l => ?_
  rw [F.merge_eq]
  exact (Pass.strictOn_onComposites _).bind fun x => F.strictOn_mergeOnto key ns l x

theorem strictOn_mergeEach (ns : String) (keys : List String) :
    (F.mergeEach ns keys).StrictOn (·.isMerging) := by
  induction keys with
  | nil => exact Pass.strictOn_pure _
  | cons key rest ih => exact (F.strictOn_mergeKey ns key).bind fun _ => ih

theorem strictOn_releaseStale (ns key : String) (uid : Option String) :
    (F.releaseStale ns key uid).StrictOn (·.isMerging) := by
  cases uid with
  | none => exact Pass.strictOn_pure _
  | some u =>
    have hkeys : (staleKeys ns u key : Pass φ κ _).StrictOn (·.isMerging) :=
      (Pass.strictOn_onComposites _).bind fun _ => Pass.strictOn_pure _
    exact hkeys.bind fun keys => F.strictOn_mergeEach ns keys

/-- **An error in answer to any call of the merging part is the result of that part.** -/
theorem strictOn_mergeAll (ns key : String) (uid : Option String) :
    (F.mergeAll ns key uid).StrictOn (·.isMerging) :=
  (F.strictOn_mergeKey ns key).bind fun _ =>
    (F.strictOn_releaseStale ns key uid).bind fun _ => Pass.strictOn_pure _

end Merging

/-- …and so it is for the part that writes the fragment. -/
theorem strictOn_recordMerge (now : Instant) (f : Fragment φ) (outcome : MergeOutcome) :
    (F.recordMerge now f outcome : Pass φ κ Report).StrictOn (¬ ·.isMerging) := by
  have hfinalizer : (reconcileFinalizer Pass.updateFragment fragmentFinalizer f :
      Pass φ κ _).StrictOn (¬ ·.isMerging) := by
    rw [reconcileFinalizer_eq]
    split
    · exact Pass.strictOn_pure _
    · exact (Pass.strictOn_onFragments Bool.false_ne_true).bind fun _ => Pass.strictOn_pure _
  unfold recordMerge
  refine hfinalizer.bind fun settled => ?_
  dsimp only
  split
  · exact (Pass.strictOn_onFragments Bool.false_ne_true).bind fun _ => Pass.strictOn_pure _
  · exact Pass.strictOn_pure _

/-- How an error in answer to a call ends a pass: with a request for another one, when it was met in
the merging part and is expected to go away, and otherwise as the result. -/
def EndsBy (q : PassCall φ κ) (e : Error) (result : Except Error Report) : Prop :=
  if q.isMerging && e.clearsOnRetry then ∃ intent, result = .ok (.requeue intent)
  else result = .error e

/-- How an error in answer to a call ends a pass: as its result, or with a request for another
pass when the error is expected to go away. -/
def EndedBy (e : Error) (result : Except Error Report) : Prop :=
  result = .error e ∨ e.clearsOnRetry ∧ ∃ intent, result = .ok (.requeue intent)

/-- How an error in answer to one of the two kinds of calls ends a pass: the calls to the composites
are all made while merging, so their errors lead to another pass when they are expected to go
away. -/
def StoppedBy : PassCall φ κ → Error → Except Error Report → Prop
  | .fragments _, e, result => EndedBy e result
  | .composites _, e, result =>
    EndedBy e result ∧ (e.clearsOnRetry → ∃ intent, result = .ok (.requeue intent))

theorem StoppedBy.endedBy {e : Error} {result : Except Error Report} :
    {q : PassCall φ κ} → StoppedBy q e result → EndedBy e result
  | .fragments _, h => h
  | .composites _, h => h.1

theorem EndsBy.stoppedBy {q : PassCall φ κ} {e : Error} {result : Except Error Report}
    (h : EndsBy q e result) : StoppedBy q e result := by
  unfold EndsBy at h
  split at h
  next hretry =>
    obtain ⟨-, he⟩ := Bool.and_eq_true_iff.mp hretry
    cases q with
    | fragments c => exact Or.inr ⟨he, h⟩
    | composites c => exact ⟨Or.inr ⟨he, h⟩, fun _ => h⟩
  next hretry =>
    cases q with
    | fragments c => exact Or.inl h
    | composites c => exact ⟨Or.inl h, fun he => absurd he hretry⟩

/-- An error of the merging part ends a pass. -/
theorem endsBy_of_merge {q : PassCall φ κ} (hq : q.isMerging) (f : Fragment φ) (e : Error) :
    ∃ result, (if e.clearsOnRetry then return .requeue (F.intent f) else throw e :
      Pass φ κ Report).run = .done result ∧ EndsBy q e result := by
  cases he : e.clearsOnRetry with
  | true =>
    refine ⟨.ok (.requeue (F.intent f)), rfl, ?_⟩
    rw [EndsBy, hq, he, Bool.and_self, if_pos rfl]
    exact ⟨_, rfl⟩
  | false =>
    refine ⟨.error e, rfl, ?_⟩
    rw [EndsBy, he, Bool.and_false, if_neg Bool.false_ne_true]

/-- Any other error is the result of a pass. -/
theorem endsBy_of_not_merging {q : PassCall φ κ} (hq : ¬ q.isMerging) (e : Error) :
    EndsBy q e (.error e) := by
  rw [EndsBy, if_neg]
  rw [Bool.and_eq_true]
  exact fun h => hq h.1

section Parts

variable [DecidableEq κ] {W : Type} {S : Surroundings (PassCall.Answer (φ := φ) (κ := κ)) W} {w : W}
  {ns : String} {K : W → Prop}

/-- Merges keep what each of them keeps. -/
theorem safe_mergeEach_of_parts {keys : List String}
    (hmerge : ∀ key ∈ keys, ∀ w, S.valid w → K w →
      S.Safe (Surroundings.OnSuccess fun _ => K) (F.mergeKey ns key).run w)
    (hv : S.valid w) (h : K w) :
    S.Safe (Surroundings.OnSuccess fun _ => K) (F.mergeEach ns keys).run w := by
  induction keys generalizing w with
  | nil => exact .pureE h
  | cons key rest ih =>
    rw [List.forall_mem_cons] at hmerge
    rw [mergeEach]
    exact .bindE (hmerge.1 w hv h) hv fun _ w hv h => ih hmerge.2 hv h

/-- Releasing what a fragment has left keeps what the search for it and the merges of the keys that
are found keep. -/
theorem safe_releaseStale_of_parts {key : String} {C : String → Prop}
    (hstale : ∀ u, S.Safe (Surroundings.OnSuccess fun keys w => (∀ key' ∈ keys, C key') ∧ K w)
      (staleKeys ns u key : Pass φ κ _).run w)
    (hmerge : ∀ key', C key' → ∀ w, S.valid w → K w →
      S.Safe (Surroundings.OnSuccess fun _ => K) (F.mergeKey ns key').run w)
    (uid : Option String) (hv : S.valid w) (h : K w) :
    S.Safe (Surroundings.OnSuccess fun _ => K) (F.releaseStale ns key uid).run w := by
  cases uid with
  | none => exact .pureE h
  | some u =>
    rw [releaseStale]
    refine Surroundings.Safe.bindE (hstale u) hv fun keys w hv hkeys => ?_
    exact F.safe_mergeEach_of_parts (fun key' hkey' => hmerge key' (hkeys.1 key' hkey')) hv hkeys.2

/-- **A pass is safe when its parts are**: the look at the fragment, the merging part, and the part
that writes the fragment. -/
theorem safe_reconcile_of_parts (now : Instant) {name : String}
    {R : Option (Fragment φ) → W → Prop}
    {M : Fragment φ → Except Error MergeOutcome → W → Prop} {P : Report → W → Prop}
    (hv : S.valid w)
    (hread : S.Safe (Surroundings.OnSuccess R) (Pass.onFragments (κ := κ) (.get ns name)).run w)
    (hgone : ∀ w, R none w → P .gone w)
    (hmerge : ∀ f key w, F.aggregationKey f = .ok key → S.valid w → R (some f) w →
      S.Safe (M f) (F.mergeAll ns key f.metadata.uid).run w)
    (hretry : ∀ f e w, M f (.error e) w → P (.requeue (F.intent f)) w)
    (hrecord : ∀ f outcome w, S.valid w → M f (.ok outcome) w →
      S.Safe (Surroundings.OnSuccess P) (F.recordMerge now f outcome).run w) :
    S.Safe (Surroundings.OnSuccess P) (F.reconcile now ns name).run w := by
  unfold reconcile
  refine Surroundings.Safe.bindE hread hv fun x w hv hx => ?_
  cases x with
  | none => exact .pureE (hgone w hx)
  | some f =>
    dsimp only
    cases hkey : F.aggregationKey f with
    | error e => exact trivial
    | ok key =>
      change S.Safe _ ((F.mergeAll ns key f.metadata.uid).attempt >>= _).run w
      rw [Pass.run_attempt_bind]
      refine Surroundings.Safe.bind (hmerge f key w hkey hv hx) hv fun r w hv hr => ?_
      cases r with
      | ok outcome => exact hrecord f outcome w hv hr
      | error e =>
        by_cases he : e.clearsOnRetry
        · simp only [he]
          exact .pureE (hretry f e w hr)
        · simp only [he]
          exact trivial

end Parts

/-- **An error in answer to any call ends a pass**, at once and as the call and the error say. -/
theorem endsBy_reconcile [DecidableEq κ] (now : Instant) (ns name : String) :
    (F.reconcile now ns name).run.StopsBy EndsBy := by
  unfold reconcile
  refine Pass.stopsBy_onFragments_bind (endsBy_of_not_merging Bool.false_ne_true) fun found => ?_
  cases found with
  | none => exact trivial
  | some f =>
    dsimp only
    cases F.aggregationKey f with
    | error e => exact trivial
    | ok key =>
      change ((F.mergeAll ns key f.metadata.uid).attempt >>= _).run.StopsBy EndsBy
      rw [Pass.run_attempt_bind]
      refine Program.StopsBy.bind (F.strictOn_mergeAll ns key f.metadata.uid) ?_ fun r => ?_
      · rintro q e _ ⟨hq, rfl⟩
        exact F.endsBy_of_merge hq f e
      · cases r with
        | ok outcome =>
          refine Program.StopsBy.mono (F.strictOn_recordMerge now f outcome) ?_
          rintro q e _ ⟨hq, rfl⟩
          exact endsBy_of_not_merging hq e
        | error e =>
          dsimp only
          split <;> exact trivial

/-- …so that its result tells of the two kinds of calls apart. -/
theorem stopsBy_reconcile [DecidableEq κ] (now : Instant) (ns name : String) :
    (F.reconcile now ns name).run.StopsBy StoppedBy :=
  (F.endsBy_reconcile now ns name).mono fun _ _ _ h => h.stoppedBy

/-- …so a pass that met an error is not done. -/
theorem stopsWith_reconcile [DecidableEq κ] (now : Instant) (ns name : String) :
    (F.reconcile now ns name).run.StopsWith EndedBy :=
  Program.stopsWith_iff.mpr ((F.stopsBy_reconcile now ns name).mono fun _ _ _ h => h.endedBy)

end Family

/-! ## Stores that refuse calls -/

namespace Stores

variable (F : Family φ κ ι) (now : Instant)

/-- A call is refused and changes nothing that is held, or it is answered by what is held. -/
theorem answer_cases (s : Stores φ κ) (q : PassCall φ κ) :
    (∃ e, (answer F now q s).1 = q.failure e ∧
      (answer F now q s).2.collections = s.collections) ∨
    ((answer F now q s).1 = (s.collections.answer F now q).1 ∧
      (answer F now q s).2.collections = (s.collections.answer F now q).2) := by
  cases q with
  | fragments c =>
    cases hr : s.fragments.refusals c.verb with
    | cons r rest =>
      refine Or.inl ⟨Refusal.toError F.fragments.kind c r, ?_, ?_⟩ <;>
        simp only [answer, FaultyStore.perform_of_planned now hr] <;> rfl
    | nil =>
      refine Or.inr ⟨?_, ?_⟩ <;>
        simp only [answer, FaultyStore.perform_of_unplanned now hr] <;> rfl
  | composites c =>
    cases hr : s.composites.refusals c.verb with
    | cons r rest =>
      refine Or.inl ⟨Refusal.toError F.composites.kind c r, ?_, ?_⟩ <;>
        simp only [answer, FaultyStore.perform_of_planned now hr] <;> rfl
    | nil =>
      refine Or.inr ⟨?_, ?_⟩ <;>
        simp only [answer, FaultyStore.perform_of_unplanned now hr] <;> rfl

/-- **A program that no refusal has ended did not meet any.** -/
theorem run_of_not_stopped {B : Error → ρ → Prop}
    {p : Program (PassCall.Answer (φ := φ) (κ := κ)) ρ} (hp : p.StopsWith B) {s : Stores φ κ}
    (h : ∀ e, ¬ B e (p.run (answer F now) s).1) :
    (p.run (answer F now) s).1 = (p.run (Collections.answer F now) s.collections).1 ∧
      (p.run (answer F now) s).2.collections =
        (p.run (Collections.answer F now) s.collections).2 := by
  induction p generalizing s with
  | done r => exact ⟨rfl, rfl⟩
  | ask q next ih =>
    rcases answer_cases F now s q with ⟨e, hrefused, -⟩ | ⟨hanswer, hheld⟩
    · obtain ⟨r, hr, hB⟩ := hp.1 e
      refine absurd ?_ (h e)
      rw [Program.run, hrefused, hr]
      exact hB
    · have hrest := ih _ (hp.2 _) h
      rw [hheld, hanswer] at hrest
      simp only [Program.run, hanswer]
      exact hrest

end Stores

end ConfigMerge
