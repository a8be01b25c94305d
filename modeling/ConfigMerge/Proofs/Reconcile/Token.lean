import ConfigMerge.Proofs.Reconcile.Contention
import ConfigMerge.Proofs.Reconcile.Failure
import ConfigMerge.Proofs.Reconcile.Frame

/-!
# Proofs/Reconcile/Token — the operator's finalizer is put on once and taken off once

A pass decides about the finalizer on a copy of its fragment that it has read several calls earlier,
so a deletion request, another pass or a re-creation may come in between.  The version that the copy
carries lets the write through only where the copy is still what is stored.  So whatever goes on
around it, a write of a pass does to the stored fragment only what it was decided to do
(`Object.Tended`), and no fragment ever carries the token twice (`Contention.finalizer_kept_once`).
-/

namespace ConfigMerge

variable {σ τ φ κ ι π ρ : Type}

/-! ## Tokens -/

/-- How often the operator's token stands among the finalizers. -/
def Metadata.tokens (m : Metadata) : Nat := m.finalizerList.count fragmentFinalizer

/-- `o'` is what a write of a pass may make of `o`, as far as finalizers go: one token more only
when `o` is live, fewer only when it is being deleted, at most one if there was at most one, and the
others in their order. -/
structure Object.Tended (o o' : Object σ τ) : Prop where
  put : o.metadata.tokens < o'.metadata.tokens → o.metadata.isBeingDeleted = false
  taken : o'.metadata.tokens < o.metadata.tokens → o.metadata.isBeingDeleted = true
  once : o.metadata.tokens ≤ 1 → o'.metadata.tokens ≤ 1
  foreign : o'.metadata.foreignFinalizers = o.metadata.foreignFinalizers
  deletion : o'.metadata.deletionTimestamp = o.metadata.deletionTimestamp

/-- What keeps the finalizers is right for every object. -/
theorem Object.Tended.of_finalizers {o o' : Object σ τ}
    (hf : o'.metadata.finalizerList = o.metadata.finalizerList)
    (hd : o'.metadata.deletionTimestamp = o.metadata.deletionTimestamp) : o.Tended o' := by
  have htokens : o'.metadata.tokens = o.metadata.tokens := congrArg (·.count fragmentFinalizer) hf
  refine ⟨fun h => ?_, fun h => ?_, fun h => htokens ▸ h, ?_, hd⟩
  · exact absurd (htokens ▸ h) (Nat.lt_irrefl _)
  · exact absurd (htokens ▸ h) (Nat.lt_irrefl _)
  · rw [Metadata.foreignFinalizers, hf, Metadata.foreignFinalizers]

/-- **A change that is called for** puts one token where there was none on a live object, or takes
all off one that is being deleted. -/
theorem Metadata.tokens_of_change {m m' : Metadata}
    (h : m.finalizerChange? fragmentFinalizer = some m') :
    m.isBeingDeleted = false ∧ m.tokens = 0 ∧ m'.tokens = 1 ∨
      m.isBeingDeleted = true ∧ 0 < m.tokens ∧ m'.tokens = 0 := by
  unfold finalizerChange? at h
  split at h
  next hdel hfin =>
    obtain rfl := Option.some.inj h
    refine Or.inr ⟨hdel, List.count_pos_iff.mpr (List.contains_iff_mem.mp hfin), ?_⟩
    exact List.count_eq_zero.mpr (by simp [finalizerList])
  next => cases h
  next => cases h
  next hdel hfin =>
    obtain rfl := Option.some.inj h
    have hnone : m.tokens = 0 := List.count_eq_zero.mpr fun hmem => by
      rw [hasFinalizer, List.contains_iff_mem.mpr hmem] at hfin
      cases hfin
    refine Or.inl ⟨hdel, hnone, ?_⟩
    change (m.finalizerList ++ [fragmentFinalizer]).count fragmentFinalizer = 1
    rw [List.count_append, ← tokens, hnone]
    rfl

/-- …so a write of it is right for the object that it was decided on. -/
theorem Object.Tended.of_change {o o' : Object σ τ} {m : Metadata}
    (h : o.metadata.finalizerChange? fragmentFinalizer = some m)
    (hf : o'.metadata.finalizers = m.finalizers)
    (hd : o'.metadata.deletionTimestamp = o.metadata.deletionTimestamp) : o.Tended o' := by
  have htokens : o'.metadata.tokens = m.tokens := by
    rw [Metadata.tokens, Metadata.finalizerList, hf, Metadata.tokens, Metadata.finalizerList]
  have hforeign : o'.metadata.foreignFinalizers = m.foreignFinalizers := by
    rw [Metadata.foreignFinalizers, Metadata.finalizerList, hf, Metadata.foreignFinalizers,
      Metadata.finalizerList]
  have hchange := Metadata.tokens_of_change h
  rw [← htokens] at hchange
  refine ⟨fun hput => ?_, fun htaken => ?_, fun _ => by omega,
    hforeign.trans (Metadata.foreignFinalizers_of_change h), hd⟩
  · exact (hchange.resolve_right (by omega)).1
  · exact (hchange.resolve_left (by omega)).1

/-! ## Stores -/

namespace Store

variable {s s' : Store φ FragmentStatus} {k : ObjectKey} {x : Option (Fragment φ)}

/-- No fragment carries the token twice. -/
def TokenOnce (s : Store φ FragmentStatus) : Prop :=
  ∀ k f, s.objects.get? k = some f → f.metadata.tokens ≤ 1

/-- `s'` is `s` after a call of a pass, as far as finalizers go: every fragment is as it was, or is
replaced by what it may be made, or is dropped because of that. -/
def Tends (s s' : Store φ FragmentStatus) : Prop :=
  ∀ k, s'.objects.get? k = s.objects.get? k ∨
    ∃ f f', s.objects.get? k = some f ∧ f.Tended f' ∧
      (s'.objects.get? k = some f' ∨ s'.objects.get? k = none ∧ f'.IsGone)

theorem Tends.refl (s : Store φ FragmentStatus) : s.Tends s := fun _ => Or.inl rfl

/-- One write under a key. -/
theorem Tends.of_changes (hc : s.Changes s' k x) {f f' : Fragment φ}
    (hf : s.objects.get? k = some f) (htended : f.Tended f')
    (hx : x = some f' ∨ x = none ∧ f'.IsGone) : s.Tends s' := by
  intro k'
  by_cases hk : k' = k
  · subst hk
    exact Or.inr ⟨f, f', hf, htended, hc.here.symm ▸ hx⟩
  · exact Or.inl (hc.elsewhere k' hk)

/-- **What a pass does never doubles the token.** -/
theorem TokenOnce.tends (hs : s.TokenOnce) (h : s.Tends s') : s'.TokenOnce := by
  intro k g hg
  rcases h k with hsame | ⟨f, f', hf, htended, hstored | ⟨hnone, -⟩⟩
  · exact hs k g (hsame.symm.trans hg)
  · obtain rfl := Option.some.inj (hg.symm.trans hstored)
    exact htended.once (hs k f hf)
  · rw [hnone] at hg
    cases hg

theorem TokenOnce.changes (hs : s.TokenOnce) (hc : s.Changes s' k x)
    (hx : ∀ f, x = some f → f.metadata.tokens ≤ 1) : s'.TokenOnce := by
  intro k' f hf
  by_cases hk : k' = k
  · subst hk
    exact hx f (hc.here.symm.trans hf)
  · exact hs k' f ((hc.elsewhere k' hk).symm.trans hf)

theorem tokenOnce_empty : ({} : Store φ FragmentStatus).TokenOnce := fun _ _ h => nomatch h

theorem TokenOnce.seed (hs : s.TokenOnce) (now : Instant) {f : Fragment φ}
    (hf : f.metadata.tokens ≤ 1) : (s.seed now f).2.TokenOnce := by
  refine hs.changes (changes_seed s now f) fun g hg => ?_
  obtain rfl := Option.some.inj hg
  exact hf

/-- Users leave the token alone: what they create carries it at most once, and a change in place
keeps it as it is. -/
def Operation.SparesToken : Operation φ FragmentStatus → Prop
  | .seed f => f.metadata.tokens ≤ 1
  | .edit _ change => ∀ f, (change f).metadata.tokens = f.metadata.tokens
  | .requestDeletion _ | .remove _ => True

/-- …and nor does what users do, when they leave it alone. -/
theorem TokenOnce.apply (hs : s.TokenOnce) {operation : Operation φ FragmentStatus}
    (h : operation.SparesToken) (now : Instant) : (operation.apply now s).TokenOnce := by
  cases operation with
  | seed f => exact hs.seed now h
  | edit k change =>
    cases hk : s.objects.get? k with
    | none => rwa [Operation.apply_edit_of_absent hk]
    | some f =>
      rw [Operation.apply_edit_of_stored hk]
      refine hs.changes (changes_write s k (change f)) fun g hg => ?_
      obtain rfl := Option.some.inj hg
      exact Nat.le_trans (Nat.le_of_eq (h f)) (hs k f hk)
  | requestDeletion k =>
    cases hk : s.objects.get? k with
    | none =>
      rw [Operation.apply, requestDeletion_of_absent now hk]
      exact hs
    | some f =>
      refine hs.changes (changes_requestDeletion now hk) fun g hg => ?_
      rw [Metadata.tokens, (Object.HeldBack.of_withdrawn hg).finalizerList]
      exact hs k f hk
  | remove k =>
    refine hs.changes (changes_erase s k) fun g hg => ?_
    cases hg

end Store

/-! ## One call about the finalizer -/

/-- **The finalizer is written at most once**, whatever the answer is, and exactly once, with
success, when it is reported as written. -/
theorem reconcileFinalizer_concludes {token : String} {f : Fragment φ}
    {log : List (PassCall.Exchange φ κ)} {result : Except Error (FinalizerResult φ FragmentStatus)}
    (h : (reconcileFinalizer (Pass.updateFragment (κ := κ)) token f).run.Concludes log result) :
    log.length ≤ 1 ∧ ∀ settled, result = .ok settled →
      if settled.written then ∃ o, log = [⟨.fragments (.update o), .ok settled.object⟩]
      else log = [] := by
  rw [reconcileFinalizer_eq] at h
  split at h
  next =>
    cases h
    refine ⟨Nat.zero_le _, fun settled hsettled => ?_⟩
    obtain rfl := Except.ok.inj hsettled
    rfl
  next m _ =>
    obtain ⟨first, second, mid, rfl, hfirst, hsecond⟩ :=
      Program.Concludes.of_bind (f := ExceptT.bindCont _) h
    cases hfirst with
    | ask a hfirst =>
    cases hfirst
    obtain rfl : second = [] := by cases mid <;> exact hsecond.eq_nil
    refine ⟨Nat.le_refl _, fun settled hsettled => ?_⟩
    subst hsettled
    cases mid with
    | error e => cases hsecond
    | ok g =>
      cases hsecond
      exact ⟨{ f with metadata := m }, rfl⟩

/-! ## The calls of a pass -/

namespace Tending

/-- The surroundings of a pass: the others age the fragments, and a call of the pass does to
finalizers only what is right. -/
def surroundings : Surroundings (PassCall.Answer (φ := φ) (κ := κ)) (Store φ FragmentStatus) where
  serve q a s s' := q.Answers a s s'
  valid s := s.Keyed ∧ s.Numbered
  rely := Store.Ages
  guarantee _ _ := Store.Tends
  rely_refl := .refl
  rely_trans := .trans

variable {s : Store φ FragmentStatus} {f : Fragment φ}

/-- A call is safe when it does to finalizers only what is right, whatever is to be known of its
answer. -/
theorem safe_call {q : PassCall φ κ} {outcome : q.Answer → Store φ FragmentStatus → Prop}
    (hout : ∀ s' s'' (a : q.Answer), s.Ages s' → s'.Keyed → s'.Numbered → q.Answers a s' s'' →
      s'.Tends s'' ∧ outcome a s'') :
    (surroundings (κ := κ)).Safe outcome (Program.question q) s := by
  rintro s' hages ⟨hkeyed, hnumbered⟩ a s'' hanswers
  obtain ⟨htends, ho⟩ := hout s' s'' a hages hkeyed hnumbered hanswers
  exact ⟨⟨hanswers.keyed hkeyed, hnumbered.ages hanswers.ages⟩, htends, ho⟩

/-- What leaves the fragments alone keeps a copy good. -/
theorem safe_of_spares {p : Program (PassCall.Answer (φ := φ) (κ := κ)) ρ}
    (hp : p.Asks PassCall.Spares) (h : s.Holds f) :
    surroundings.Safe (fun _ s => s.Holds f) p s := by
  refine hp.safe h fun hspares h hages hv hanswers => ?_
  obtain rfl := hanswers.of_spares hspares
  exact ⟨hv, .refl _, h.ages hages⟩

/-- **The write of the finalizer meets the very copy that it was decided on.** -/
theorem safe_reconcileFinalizer (hv : (surroundings (κ := κ)).valid s) (h : s.Holds f) :
    surroundings.Safe (Surroundings.OnSuccess fun _ _ => True)
      (reconcileFinalizer (Pass.updateFragment (κ := κ)) fragmentFinalizer f).run s := by
  rw [reconcileFinalizer_eq]
  cases hm : f.metadata.finalizerChange? fragmentFinalizer with
  | none => exact .pureE trivial
  | some m =>
    obtain ⟨fs, rfl, -⟩ := Metadata.of_finalizerChange?_eq_some hm
    let o : Fragment φ := { f with metadata := { f.metadata with finalizers := some fs } }
    refine Surroundings.Safe.bindE (P := fun _ _ => True)
      (safe_call (q := .fragments (.update o)) fun s' s'' a hages _ _ hanswers => ?_) hv
      fun g _ _ _ => .pureE trivial
    cases a with
    | error e =>
      obtain rfl := hanswers.of_error
      exact ⟨.refl _, trivial⟩
    | ok g =>
      obtain ⟨stored, hc, rfl, rfl⟩ := hanswers.of_update
      -- The write went through, so its version is that of the stored fragment: it is the copy.
      obtain rfl : stored = f := (h.ages hages).eq_of_current rfl rfl hc
      have htended : stored.Tended ((o.inPlaceOf stored).atVersion s'.nextVersion) :=
        .of_change hm rfl rfl
      refine ⟨.of_changes (s'.changes_replaced o stored) (Store.of_current_eq_ok hc).1 htended ?_,
        trivial⟩
      split
      next hgone => exact Or.inr ⟨rfl, hgone⟩
      next => exact Or.inl rfl

/-- A write of a status leaves the stored finalizers alone, whatever is written. -/
theorem safe_updateStatus (o : Fragment φ) :
    (surroundings (κ := κ)).Safe (Surroundings.OnSuccess fun _ _ => True)
      (Pass.onFragments (κ := κ) (.updateStatus o)).run s := by
  refine safe_call fun s' s'' a _ _ _ hanswers => ?_
  cases a with
  | error e =>
    obtain rfl := hanswers.of_error
    exact ⟨.refl _, trivial⟩
  | ok g =>
    obtain ⟨stored, hc, -, rfl⟩ := hanswers.of_updateStatus
    let o' : Fragment φ := { o with metadata := stored.metadata }
    have htended : stored.Tended (o'.atVersion s'.nextVersion) := .of_finalizers rfl rfl
    exact ⟨.of_changes (s'.changes_write o.key o') (Store.of_current_eq_ok hc).1 htended
      (Or.inl rfl), trivial⟩

theorem safe_recordMerge (F : Family φ κ ι) (time : Instant) (outcome : MergeOutcome)
    (hv : (surroundings (κ := κ)).valid s) (h : s.Holds f) :
    surroundings.Safe (Surroundings.OnSuccess fun _ _ => True)
      (F.recordMerge time f outcome : Pass φ κ Report).run s := by
  unfold Family.recordMerge
  refine Surroundings.Safe.bindE (safe_reconcileFinalizer hv h) hv fun settled s hv _ => ?_
  split
  · exact .bindE (safe_updateStatus _) hv fun _ _ _ _ => .pureE trivial
  · exact .pureE trivial

/-- A pass begins by reading its fragment. -/
theorem safe_getFragment (k : ObjectKey) :
    (surroundings (κ := κ)).Safe
      (Surroundings.OnSuccess fun found s => ∀ f, found = some f → s.Holds f)
      (Pass.onFragments (κ := κ) (.get k.nameSpace k.name)).run s := by
  refine safe_call fun s' s'' a _ hkeyed hnumbered hanswers => ?_
  cases a with
  | error e =>
    obtain rfl := hanswers.of_error
    exact ⟨.refl _, trivial⟩
  | ok found =>
    obtain ⟨rfl, rfl⟩ := hanswers.of_get
    exact ⟨.refl _, fun f hf => hnumbered.holds hf (hkeyed k f hf)⟩

/-- **Every call of a pass does to finalizers only what is right**, whatever goes on around it. -/
theorem safe_reconcile [DecidableEq κ] (F : Family φ κ ι) (time : Instant) (k : ObjectKey)
    (hv : (surroundings (κ := κ)).valid s) :
    surroundings.Safe (fun _ _ => True) (F.reconcile time k.nameSpace k.name).run s := by
  refine Surroundings.Safe.weaken (P := Surroundings.OnSuccess fun _ _ => True) ?_ hv
    fun _ _ _ _ => trivial
  exact F.safe_reconcile_of_parts (M := fun f _ s => s.Holds f) time hv (safe_getFragment k)
    (fun _ _ => trivial)
    (fun f key s _ _ hfound => safe_of_spares (F.spares_mergeAll _ _ _) (hfound f rfl))
    (fun _ _ _ _ => trivial) fun f outcome s hv h => safe_recordMerge F time outcome hv h

end Tending

/-! ## Passes and users -/

namespace Contention

variable [DecidableEq κ] [DecidableEq π] {F : Family φ κ ι} {t : Contention φ κ π}

/-- Users change fragments properly and leave the token alone; to composites they do anything. -/
def Move.SparesToken : Move φ κ π → Prop
  | .onFragments operation _ => operation.Proper ∧ operation.SparesToken
  | .call .. | .onComposites .. => True

/-- The fragments are in order, and none has the token twice. -/
structure World.Tended (w : World φ κ π) : Prop where
  keyed : w.stores.fragments.store.Keyed
  numbered : w.stores.fragments.store.Numbered
  once : w.stores.fragments.store.TokenOnce

/-- What is said of the passes, as far as finalizers go. -/
def tenders : Company (PassCall.Answer (φ := φ) (κ := κ)) (World φ κ π)
    (Store φ FragmentStatus) π (Except Error Report) where
  view _ w := w.stores.fragments.store
  surroundings _ := Tending.surroundings
  outcome _ _ _ := True
  valid := World.Tended
  valid_view _ hw := ⟨hw.keyed, hw.numbered⟩
  outcome_lasts _ _ _ _ := trivial

omit [DecidableEq π] in
theorem tended_start {s : Stores φ κ} (hk : s.fragments.store.Keyed)
    (hn : s.fragments.store.Numbered) (ho : s.fragments.store.TokenOnce) (target : π → ObjectKey)
    (time : π → Instant) : (start F s target time).Good tenders where
  valid := ⟨hk, hn, ho⟩
  safe i := Tending.safe_reconcile F (time i) (target i) ⟨hk, hn⟩

/-- A move of a pass is right. -/
theorem tends_call (h : t.Good tenders) (i : π) (now : Instant) :
    t.stores.fragments.store.Tends (t.step F (.call i now)).stores.fragments.store := by
  cases hp : t.passes i with
  | done result =>
    have hidle : t.step F (.call i now) = t := Pool.ask_of_done (World.answer F i now) hp
    rw [hidle]
    exact .refl _
  | ask q next =>
    have hserve : (tenders.surroundings i).serve q (World.answer F i now q t.world).1
        (tenders.view i t.world) (tenders.view i (World.answer F i now q t.world).2) :=
      Stores.answers F now q t.stores
    rw [step_call F hp now]
    exact (h.question hp hserve).2.1

/-- **Every move keeps the fragments tended.** -/
theorem tended_step (h : t.Good tenders) {m : Move φ κ π} (hm : m.SparesToken) :
    (t.step F m).Good tenders := by
  obtain ⟨hkeyed, hnumbered, honce⟩ := h.valid
  cases m with
  | onComposites operation now => exact h.leaves ⟨⟨hkeyed, hnumbered, honce⟩, fun _ _ => .refl _⟩
  | onFragments operation now =>
    have hages := operation.ages_apply hm.1 now t.stores.fragments.store
    exact h.leaves ⟨⟨operation.keyed_apply hm.1 now hkeyed, hnumbered.ages hages,
      honce.apply hm.2 now⟩, fun _ _ => hages⟩
  | call i now =>
    change (t.ask (World.answer F i now) i).Good _
    have hanswers := Stores.answers F now
    exact h.ask (fun q _ _ => hanswers q t.stores) fun q _ _ hvalid htends =>
      ⟨⟨hvalid.1, hvalid.2, honce.tends htends⟩, fun _ _ => (hanswers q t.stores).ages⟩

/-- …and so does any run. -/
theorem tended_run (h : t.Good tenders) {moves : List (Move φ κ π)}
    (hm : ∀ m ∈ moves, m.SparesToken) : (t.run F moves).Good tenders :=
  List.foldlRecOn moves (Contention.step F) h fun _ ht m hmem => tended_step ht (hm m hmem)

/-- **The finalizer is kept exactly once.**  At any point of any run, whatever users and other
passes have done, no fragment carries the token twice; the next call of any pass puts it on live
fragments only, takes it off deleting ones only, and leaves the other finalizers in their order; and
settling the finalizer of a fragment makes at most one write, which was made with success when it is
reported. -/
theorem finalizer_kept_once (F : Family φ κ ι) (s : Stores φ κ)
    (hkeyed : s.fragments.store.Keyed) (hnumbered : s.fragments.store.Numbered)
    (honce : s.fragments.store.TokenOnce) (target : π → ObjectKey) (time : π → Instant)
    (moves : List (Move φ κ π)) (hspares : ∀ m ∈ moves, m.SparesToken) :
    let t := (start F s target time).run F moves
    t.stores.fragments.store.TokenOnce ∧
      (∀ i now, t.stores.fragments.store.Tends (t.step F (.call i now)).stores.fragments.store) ∧
      ∀ (token : String) (f : Fragment φ) (log : List (PassCall.Exchange φ κ))
        (result : Except Error (FinalizerResult φ FragmentStatus)),
        (reconcileFinalizer Pass.updateFragment token f).run.Concludes log result →
          log.length ≤ 1 ∧ ∀ settled, result = .ok settled →
            if settled.written then ∃ o, log = [⟨.fragments (.update o), .ok settled.object⟩]
            else log = [] := by
  intro t
  have ht : t.Good tenders := tended_run (tended_start hkeyed hnumbered honce target time) hspares
  exact ⟨ht.valid.once, tends_call ht, fun token f log result => reconcileFinalizer_concludes⟩

/-! ## Two passes and a deletion -/

/-- Two passes over the fragment that has moved, to which a user has given another finalizer.  Both
read it while it has no token.  The second one puts the token on, and a user requests the deletion;
then the first one is to write. -/
def rivalry : List (Move RouteSpec RouterSpec Bool) :=
  .onFragments
      (.edit ⟨"default", "moved"⟩ (·.modifyMetadata fun m =>
        { m with finalizers := some ("other.io/guard" :: m.finalizerList) })) ⟨1, 0⟩ ::
    List.replicate 8 (.call true ⟨2, 0⟩) ++ List.replicate 4 (.call false ⟨3, 0⟩) ++
    [.call true ⟨4, 0⟩, .onFragments (.requestDeletion ⟨"default", "moved"⟩) ⟨5, 0⟩]

/-- The passes and the stores after that. -/
abbrev rivals : Contention RouteSpec RouterSpec Bool :=
  (start .routes Stores.disordered (fun _ => ⟨"default", "moved"⟩) (fun _ => ⟨6, 0⟩)).run .routes
    rivalry

/-- What the fragment that has moved has for finalizers, and whether it is being deleted. -/
def movedFinalizers (t : Contention RouteSpec RouterSpec Bool) : Option (List String × Bool) :=
  (t.stores.fragments.store.objects.get? ⟨"default", "moved"⟩).map fun f =>
    (f.metadata.finalizerList, f.metadata.isBeingDeleted)

/-- The first pass comes too late to put the token on a second time.  Where it is to be put on a live
fragment, settling ends well by one write that is reported, and in no other way. -/
theorem finalizer_kept_once_rivals :
    let t := rivals.step .routes (.call false ⟨6, 0⟩)
    let f := Fragment.ofPathPrefix "moved" "svc-a" "/moved"
    let o := f.modifyMetadata ({ · with finalizers := some [fragmentFinalizer] })
    movedFinalizers rivals = some (["other.io/guard", fragmentFinalizer], true) ∧
      movedFinalizers t = movedFinalizers rivals ∧
      rivals.stores.fragments.store.TokenOnce ∧
      rivals.stores.fragments.store.Tends t.stores.fragments.store ∧
      (reconcileFinalizer Pass.updateFragment fragmentFinalizer f).run.Concludes
        [(⟨.fragments (.update o), .ok o⟩ : PassCall.Exchange RouteSpec RouterSpec)]
        (.ok ⟨o, true⟩) ∧
      ∀ (log : List (PassCall.Exchange RouteSpec RouterSpec)) settled,
        (reconcileFinalizer Pass.updateFragment fragmentFinalizer f).run.Concludes log
          (.ok settled) →
        settled.written = true ∧ ∃ o', log = [⟨.fragments (.update o'), .ok settled.object⟩] := by
  intro t f o
  have hkeyed : Stores.disordered.fragments.store.Keyed := by decide +kernel
  have hnumbered : Stores.disordered.fragments.store.Numbered :=
    (Store.numbered_empty.seed _ _).seed _ _
  have honce : Stores.disordered.fragments.store.TokenOnce :=
    (Store.tokenOnce_empty.seed _ (by decide)).seed _ (by decide)
  have hspares : ∀ m ∈ rivalry, m.SparesToken := by
    refine List.forall_mem_cons.mpr ⟨⟨fun _ => rfl, fun f => ?_⟩, ?_⟩
    · exact List.count_cons_of_ne (by decide)
    · simp [Move.SparesToken, Store.Operation.Proper, Store.Operation.SparesToken]
  obtain ⟨hrivals, htends, hwrites⟩ := finalizer_kept_once .routes Stores.disordered hkeyed
    hnumbered honce (fun _ : Bool => ⟨"default", "moved"⟩) (fun _ => ⟨6, 0⟩) rivalry hspares
  have hwrite : (reconcileFinalizer (Pass.updateFragment (κ := RouterSpec)) fragmentFinalizer
      f).run.Concludes [⟨.fragments (.update o), .ok o⟩] (.ok ⟨o, true⟩) := by
    apply Program.Concludes.ask
    apply Program.Concludes.done
  refine ⟨by decide +kernel, by decide +kernel, hrivals, htends false ⟨6, 0⟩, hwrite,
    fun log settled hends => ?_⟩
  have hshape := (hwrites fragmentFinalizer f log _ hends).2 settled rfl
  by_cases hwritten : settled.written = true
  · rw [if_pos hwritten] at hshape
    exact ⟨hwritten, hshape⟩
  · -- without a write the program is still to ask for one
    rw [if_neg hwritten] at hshape
    subst hshape
    cases hends

end Contention

end ConfigMerge
