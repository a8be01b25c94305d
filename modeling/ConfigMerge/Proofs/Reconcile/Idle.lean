import ConfigMerge.Proofs.Reconcile.Convergence
import ConfigMerge.Proofs.Reconcile.Refusal
import ConfigMerge.Proofs.Store.Version

/-!
# Proofs/Reconcile/Idle — a pass after one that was done has nothing to write

`Collections.OnlyReads` says of a program that all it asks for on what is held is to read.  A pass
over a settled fragment whose composites are right is such a program, and that is how a pass that was
done leaves them (`Collections.Reconciled.onlyReads`).  So the next one writes nothing, and says so
(`Stores.reconcile_again_idle`).
-/

namespace ConfigMerge

variable {σ τ φ κ ι ρ υ : Type}

/-! ## Reading -/

/-- A call that changes nothing. -/
def PassCall.IsRead : PassCall φ κ → Prop
  | .fragments c => c.verb.isWrite = false
  | .composites c => c.verb.isWrite = false

theorem Call.target?_of_isWrite_eq_false {c : Call (Object σ τ)} (h : c.verb.isWrite = false) :
    c.target? = none := by
  cases c with
  | get | list | listByLabel => rfl
  | create | update | updateStatus | delete => cases h

/-- No refusal of a reading call is planned. -/
def FaultyStore.Readable (s : FaultyStore σ τ) : Prop :=
  ∀ v : Call.Verb, v.isWrite = false → s.refusals v = []

/-- `s'` is `s` after reading calls alone. -/
structure FaultyStore.Unwritten (s s' : FaultyStore σ τ) : Prop where
  store : s'.store = s.store
  reversed : s'.reversed = s.reversed
  calls : ∀ v : Call.Verb, v.isWrite → s'.calls v = s.calls v

namespace FaultyStore

variable {s s' s'' : FaultyStore σ τ}

theorem Unwritten.refl (s : FaultyStore σ τ) : s.Unwritten s := ⟨rfl, rfl, fun _ _ => rfl⟩

theorem Unwritten.trans (h : s.Unwritten s') (h' : s'.Unwritten s'') : s.Unwritten s'' :=
  ⟨h'.store.trans h.store, h'.reversed.trans h.reversed,
    fun v hv => (h'.calls v hv).trans (h.calls v hv)⟩

/-- **A reading call that is not refused** tells what is held, and leaves it. -/
theorem perform_of_readable (h : s.Readable) (now : Instant) {c : Call (Object σ τ)}
    (hc : c.verb.isWrite = false) :
    (s.perform now c).1 = arrange s.reversed c (s.store.perform now c).1 ∧
      s.Unwritten (s.perform now c).2 ∧ (s.perform now c).2.Readable := by
  have hstore : (s.store.perform now c).2 = s.store :=
    Store.perform_of_target?_eq_none _ _ (Call.target?_of_isWrite_eq_false hc)
  rw [perform_of_unplanned now (h _ hc), hstore]
  refine ⟨rfl, ⟨rfl, rfl, fun v hv => ?_⟩, fun v hv => ?_⟩
  · have hne : v ≠ c.verb := by
      rintro rfl
      rw [hc] at hv
      cases hv
    simp [enter, hne]
  · by_cases hne : v = c.verb <;> simp [enter, hne, h _ hc, h _ hv]

end FaultyStore

/-- Neither store of a family has planned a refusal of a reading call. -/
structure Stores.Readable (s : Stores φ κ) : Prop where
  fragments : s.fragments.Readable
  composites : s.composites.Readable

/-- `s'` is `s` after reading calls alone: both stores are as they were, and neither has counted a
write. -/
structure Stores.Unwritten (s s' : Stores φ κ) : Prop where
  fragments : s.fragments.Unwritten s'.fragments
  composites : s.composites.Unwritten s'.composites

namespace Collections

variable (F : Family φ κ ι) (now : Instant)

theorem answer_of_isRead (s : Collections φ κ) {q : PassCall φ κ} (hq : q.IsRead) :
    (s.answer F now q).2 = s := by
  cases q with
  | fragments c =>
    have hstore := Store.perform_of_target?_eq_none s.fragments now
      (Call.target?_of_isWrite_eq_false hq)
    simp only [answer, hstore]
  | composites c =>
    have hstore := Store.perform_of_target?_eq_none s.composites now
      (Call.target?_of_isWrite_eq_false hq)
    simp only [answer, hstore]

/-- On what is held a program asks to read and for nothing else, and ends with `r`. -/
def OnlyReads (s : Collections φ κ) (r : ρ) :
    Program (PassCall.Answer (φ := φ) (κ := κ)) ρ → Prop
  | .done r' => r' = r
  | .ask q next => q.IsRead ∧ OnlyReads s r (next (s.answer F now q).1)

variable {F now} {s : Collections φ κ}

theorem OnlyReads.bind {p : Program (PassCall.Answer (φ := φ) (κ := κ)) ρ}
    {f : ρ → Program (PassCall.Answer (φ := φ) (κ := κ)) υ} {r : ρ} {r' : υ}
    (h : s.OnlyReads F now r p) (hf : s.OnlyReads F now r' (f r)) :
    s.OnlyReads F now r' (p >>= f) := by
  induction p with
  | done r₀ =>
    obtain rfl : r₀ = r := h
    exact hf
  | ask q next ih => exact ⟨h.1, ih _ h.2⟩

/-- A sequence only reads when its parts do. -/
theorem OnlyReads.bindE {p : Pass φ κ ρ} {f : ρ → Pass φ κ υ} {a : ρ} {r : Except Error υ}
    (h : s.OnlyReads F now (.ok a) p.run) (hf : s.OnlyReads F now r (f a).run) :
    s.OnlyReads F now r (p >>= f).run :=
  OnlyReads.bind (f := ExceptT.bindCont f) h hf

theorem onlyReads_pure (a : ρ) : s.OnlyReads F now (.ok a) (pure a : Pass φ κ ρ).run := rfl

/-- A call that reads. -/
theorem onlyReads_fragments {c : Call (Fragment φ)} {a : c.Result}
    (hc : c.verb.isWrite = false) (ha : (s.answer F now (.fragments c)).1 = .ok a) :
    s.OnlyReads F now (.ok a) (Pass.onFragments (κ := κ) c).run := ⟨hc, ha⟩

theorem onlyReads_composites {c : Call (Composite κ)} {a : c.Result}
    (hc : c.verb.isWrite = false) (ha : (s.answer F now (.composites c)).1 = .ok a) :
    s.OnlyReads F now (.ok a) (Pass.onComposites (φ := φ) c).run := ⟨hc, ha⟩

end Collections

/-- **A program that only reads leaves the stores as they were**, and no write is counted. -/
theorem Stores.run_of_onlyReads {F : Family φ κ ι} {now : Instant} {s : Stores φ κ}
    {p : Program (PassCall.Answer (φ := φ) (κ := κ)) ρ} {r : ρ} (hs : s.Readable)
    (h : s.collections.OnlyReads F now r p) :
    (p.run (answer F now) s).1 = r ∧ s.Unwritten (p.run (answer F now) s).2 := by
  induction p generalizing s with
  | done r' => exact ⟨h, .refl _, .refl _⟩
  | ask q next ih =>
    obtain ⟨hq, hrest⟩ := h
    have hstep : (answer F now q s).1 = (s.collections.answer F now q).1 ∧
        s.Unwritten (answer F now q s).2 ∧ (answer F now q s).2.Readable := by
      cases q with
      | fragments c =>
        obtain ⟨ha, hu, hr⟩ := FaultyStore.perform_of_readable hs.fragments now hq
        exact ⟨congrArg (Except.mapError (Refusal.toError F.fragments.kind c)) ha,
          ⟨hu, .refl _⟩, hr, hs.composites⟩
      | composites c =>
        obtain ⟨ha, hu, hr⟩ := FaultyStore.perform_of_readable hs.composites now hq
        exact ⟨congrArg (Except.mapError (Refusal.toError F.composites.kind c)) ha,
          ⟨.refl _, hu⟩, hs.fragments, hr⟩
    obtain ⟨hanswer, hunwritten, hreadable⟩ := hstep
    have hheld : (answer F now q s).2.collections = s.collections := by
      simp only [collections, hunwritten.fragments.store, hunwritten.fragments.reversed,
        hunwritten.composites.store, hunwritten.composites.reversed]
    rw [← hanswer, ← hheld] at hrest
    obtain ⟨hresult, hu⟩ := ih _ hreadable hrest
    exact ⟨hresult, hunwritten.fragments.trans hu.fragments,
      hunwritten.composites.trans hu.composites⟩

/-! ## Passes that find everything in order -/

namespace Collections

variable {F : Family φ κ ι} {now : Instant} {s : Collections φ κ} {ns : String}

/-- A listing of the live fragments only reads. -/
theorem onlyReads_liveFragments (F : Family φ κ ι) (now : Instant) (s : Collections φ κ)
    (ns key : String) :
    ∃ l, s.OnlyReads F now (.ok l) (F.liveFragments ns key : Pass φ κ _).run ∧
      l.Perm (F.live s.fragments ns key) := by
  obtain ⟨l, hrun, hperm⟩ := run_liveFragments F now s ns key
  refine ⟨l, ?_, hperm⟩
  have hl : (s.run F now (F.liveFragments ns key)).1 = .ok l := by rw [hrun]
  exact ⟨rfl, hl⟩

variable [DecidableEq κ]

/-- **A merge of a key whose composite is right only reads.** -/
theorem Right.onlyReads {key : String} (h : Right F ns s key) (hs : s.fragments.Keyed) :
    s.OnlyReads F now (.ok .unchanged) (F.mergeKey ns key).run := by
  obtain ⟨l, hlist, hperm⟩ := onlyReads_liveFragments F now s ns key
  have hmatch : F.Matches key ns l (s.compositeAt ns key) :=
    Family.Matches.of_perm h hperm.symm (F.namesDiffer_live hs ns key)
  refine OnlyReads.bindE hlist ?_
  rw [F.merge_eq]
  refine OnlyReads.bindE (onlyReads_composites (c := .get ns key) (a := s.compositeAt ns key)
    rfl rfl) ?_
  rw [F.mergeOnto_of_matches hmatch]
  exact onlyReads_pure _

theorem onlyReads_mergeEach {keys : List String} (h : ∀ key ∈ keys, Right F ns s key)
    (hs : s.fragments.Keyed) : s.OnlyReads F now (.ok ()) (F.mergeEach ns keys).run := by
  induction keys with
  | nil => exact onlyReads_pure ()
  | cons key rest ih =>
    rw [List.forall_mem_cons] at h
    exact (h.1.onlyReads hs).bindE (ih h.2)

theorem onlyReads_releaseStale {key : String} {uid : Option String}
    (h : ∀ u key', uid = some u → s.Lists ns u key' → Right F ns s key') (hf : s.fragments.Keyed)
    (hc : s.composites.Keyed) :
    s.OnlyReads F now (.ok ()) (F.releaseStale ns key uid).run := by
  cases uid with
  | none => exact onlyReads_pure ()
  | some u =>
    obtain ⟨keys, hstale, hkeys⟩ := run_staleKeys F now ns hc u key
    have hresult : (s.run F now (Family.staleKeys ns u key)).1 = .ok keys := by rw [hstale]
    have hread : s.OnlyReads F now (.ok keys) (Family.staleKeys ns u key : Pass φ κ _).run :=
      ⟨rfl, hresult⟩
    exact hread.bindE (onlyReads_mergeEach (fun key' hk => h u key' rfl ((hkeys key').mp hk).2) hf)

omit [DecidableEq κ] in
/-- Settling a settled fragment asks for nothing. -/
theorem onlyReads_recordMerge {f : Fragment φ} (hf : F.Settled f) (outcome : MergeOutcome) :
    s.OnlyReads F now (.ok { intent := some (F.intent f), merge := some outcome })
      (F.recordMerge now f outcome : Pass φ κ Report).run := by
  rw [Family.recordMerge, reconcileFinalizer_eq, Metadata.finalizerChange?_eq_none hf.1]
  refine OnlyReads.bindE (onlyReads_pure (⟨f, false⟩ : FinalizerResult φ FragmentStatus)) ?_
  rw [hf.not_due]
  rfl

/-- **What a pass leaves, the next one only reads.** -/
theorem Reconciled.onlyReads {s₀ : Collections φ κ} {name key : String} {f₀ f : Fragment φ}
    (h : Reconciled F ns name key f₀ s₀ s) (hlabel : f₀.metadata.label? F.keyLabel = some key)
    (hkey : key ≠ "") (hf : s.fragments.objects.get? ⟨ns, name⟩ = some f) :
    s.OnlyReads F now (.ok { intent := some (F.intent f), merge := some .unchanged })
      (F.reconcile now ns name).run := by
  obtain ⟨hbare, hsettled⟩ := h.settled f hf
  rw [← Object.label?_eq_of_bare_eq hbare] at hlabel
  have huid : f.metadata.uid = f₀.metadata.uid := Object.uid_eq_of_bare_eq hbare
  -- a composite that lists the fragment now was listing it before, or was merged by the pass
  have hlisting : ∀ u key', f.metadata.uid = some u → s.Lists ns u key' → Right F ns s key' := by
    intro u key' hu hlists
    by_cases hc : s₀.Concerns ns key f₀ key'
    · exact h.right key' hc
    · rw [Lists, h.elsewhere key' hc] at hlists
      exact absurd (Or.inr ⟨u, huid.symm.trans hu, hlists⟩) hc
  have hmerge : s.OnlyReads F now (.ok .unchanged) (F.mergeAll ns key f.metadata.uid).run :=
    ((h.right key (Or.inl rfl)).onlyReads h.tidy.fragments).bindE
      ((onlyReads_releaseStale hlisting h.tidy.fragments h.tidy.composites).bindE
        (onlyReads_pure _))
  have hget : (s.answer F now (.fragments (.get ns name))).1 = .ok (some f) := by
    rw [← hf]
    rfl
  unfold Family.reconcile
  refine OnlyReads.bindE (onlyReads_fragments rfl hget) ?_
  simp only [F.aggregationKey_eq_ok hlabel hkey]
  change s.OnlyReads F now _ ((F.mergeAll ns key f.metadata.uid).attempt >>= _).run
  rw [Pass.run_attempt_bind]
  exact hmerge.bind (onlyReads_recordMerge hsettled _)

/-- A pass over a name at which nothing is stored only reads. -/
theorem onlyReads_reconcile_of_absent {name : String}
    (hf : s.fragments.objects.get? ⟨ns, name⟩ = none) :
    s.OnlyReads F now (.ok .gone) (F.reconcile now ns name).run := by
  have hget : (s.answer F now (.fragments (.get ns name))).1 = .ok none := by
    rw [← hf]
    rfl
  exact OnlyReads.bindE (onlyReads_fragments rfl hget) (onlyReads_pure _)

end Collections

/-! ## A pass after one that was done -/

/-- A pass over a stored fragment is done only when the fragment has a key. -/
theorem Collections.label_of_isDone [DecidableEq κ] {F : Family φ κ ι} {now : Instant}
    {ns name : String} {s : Collections φ κ} {f : Fragment φ}
    (hf : s.fragments.objects.get? ⟨ns, name⟩ = some f)
    (hdone : IsDone (s.run F now (F.reconcile now ns name)).1) :
    ∃ key, f.metadata.label? F.keyLabel = some key ∧ key ≠ "" := by
  cases hkey : F.aggregationKey f with
  | ok key => exact ⟨key, Family.of_aggregationKey_eq_ok hkey⟩
  | error e =>
    have hget : s.run F now (Pass.onFragments (κ := κ) (.get ns name)) = (.ok (some f), s) :=
      run_fragments F now (t := s.fragments) (by rw [Store.perform, hf]) rfl
    rw [Family.reconcile, run_bind_of_ok hget] at hdone
    simp only [hkey] at hdone
    exact hdone.elim

namespace Stores

variable [DecidableEq κ]

/-- What is held after a pass that was done, when no refusal was met: what an undisturbed one makes
of it. -/
theorem collections_of_isDone (F : Family φ κ ι) (now : Instant) {ns name : String}
    {s : Stores φ κ} (hdone : IsDone (s.run F now (F.reconcile now ns name)).1) :
    (s.run F now (F.reconcile now ns name)).1 =
        (s.collections.run F now (F.reconcile now ns name)).1 ∧
      (s.run F now (F.reconcile now ns name)).2.collections =
        (s.collections.run F now (F.reconcile now ns name)).2 := by
  refine run_of_not_stopped F now (F.stopsWith_reconcile now ns name) fun e hended => ?_
  rcases hended with herror | ⟨-, intent, hrequeue⟩
  · rw [Stores.run, herror] at hdone
    exact hdone
  · rw [Stores.run, hrequeue] at hdone
    cases hdone

/-- **A pass right after one that was done has nothing to write**: it is done as well, reports no
write, and leaves both stores as they were, whatever the first pass found. -/
theorem reconcile_again_idle (F : Family φ κ ι) (ns name : String) (now now' : Instant)
    (s : Stores φ κ) (hfragments : s.fragments.store.Keyed)
    (hcomposites : s.composites.store.Keyed)
    (hunguarded : ∀ c ∈ s.composites.store.list ns,
      c.metadata.finalizerList = [] ∧ c.metadata.isBeingDeleted = false)
    (hdone : IsDone (s.run F now (F.reconcile now ns name)).1)
    (hreadable : (s.run F now (F.reconcile now ns name)).2.Readable) :
    let t := (s.run F now (F.reconcile now ns name)).2
    let again := t.run F now' (F.reconcile now' ns name)
    (∃ report, again.1 = .ok report ∧ report.disposition = .done ∧
      report.merge = (t.fragments.store.objects.get? ⟨ns, name⟩).map (fun _ => .unchanged) ∧
      report.finalizerChanged = false ∧ report.statusWritten = false) ∧
    t.Unwritten again.2 := by
  intro t again
  have htidy : s.collections.Tidy ns := .of_list hfragments hcomposites hunguarded
  obtain ⟨hresult, hheld⟩ := collections_of_isDone F now hdone
  rw [hresult] at hdone
  -- a second pass that only reads is all there is to show
  suffices h : ∃ report, t.collections.OnlyReads F now' (.ok report) (F.reconcile now' ns name).run ∧
      report.disposition = .done ∧
      report.merge = (t.fragments.store.objects.get? ⟨ns, name⟩).map (fun _ => .unchanged) ∧
      report.finalizerChanged = false ∧ report.statusWritten = false by
    obtain ⟨report, hreads, hreport⟩ := h
    obtain ⟨hagain, hunwritten⟩ := run_of_onlyReads hreadable hreads
    exact ⟨⟨report, hagain, hreport⟩, hunwritten⟩
  cases hf : s.collections.fragments.objects.get? ⟨ns, name⟩ with
  | none =>
    rw [Collections.run_reconcile_of_absent F now hf] at hheld
    have ht : t.collections.fragments.objects.get? ⟨ns, name⟩ = none := by rw [hheld, hf]
    rw [show t.fragments.store.objects.get? ⟨ns, name⟩ = none from ht]
    exact ⟨.gone, Collections.onlyReads_reconcile_of_absent ht, rfl, rfl, rfl, rfl⟩
  | some f₀ =>
    obtain ⟨key, hlabel, hkey⟩ := Collections.label_of_isDone hf hdone
    obtain ⟨_, s', hrun, -, hpass⟩ := Collections.run_reconcile F now htidy hf hlabel hkey
    rw [hrun] at hheld
    obtain rfl : t.collections = s' := hheld
    cases ht : t.fragments.store.objects.get? ⟨ns, name⟩ with
    | none => exact ⟨.gone, Collections.onlyReads_reconcile_of_absent ht, rfl, rfl, rfl, rfl⟩
    | some f => exact ⟨_, hpass.onlyReads hlabel hkey ht, rfl, rfl, rfl, rfl⟩

/-- Repeating the pass that moved a fragment from one composite to another one writes nothing. -/
theorem reconcile_again_idle_disordered :
    let t := (disordered.run .routes ⟨1, 0⟩ (Family.routes.reconcile ⟨1, 0⟩ "default" "moved")).2
    let again := t.run .routes ⟨2, 0⟩ (Family.routes.reconcile ⟨2, 0⟩ "default" "moved")
    t.fragments.writes = 2 ∧ t.composites.writes = 2 ∧
    (∃ report, again.1 = .ok report ∧ report.disposition = .done ∧
      report.merge = some .unchanged ∧ report.finalizerChanged = false ∧
      report.statusWritten = false) ∧
    t.Unwritten again.2 := by
  intro t again
  have hfirst : IsDone (disordered.run .routes ⟨1, 0⟩
        (Family.routes.reconcile ⟨1, 0⟩ "default" "moved")).1 ∧
      (t.fragments.store.objects.get? ⟨"default", "moved"⟩).isSome ∧
      t.fragments.writes = 2 ∧ t.composites.writes = 2 := by decide +kernel
  obtain ⟨f, hf⟩ := Option.isSome_iff_exists.mp hfirst.2.1
  have hreadable : t.Readable := by
    obtain ⟨-, -, hcalm⟩ := run_of_undisturbed Family.routes ⟨1, 0⟩
      (s := disordered) ⟨fun _ => rfl, fun _ => rfl⟩
      (Family.routes.reconcile ⟨1, 0⟩ "default" "moved")
    exact ⟨fun v _ => hcalm.fragments v, fun v _ => hcalm.composites v⟩
  have hidle := reconcile_again_idle .routes "default" "moved" ⟨1, 0⟩ ⟨2, 0⟩ disordered
    (by decide +kernel) (by decide +kernel) (by decide +kernel)
  obtain ⟨⟨report, hagain, hdone, hmerge, hreport⟩, hunwritten⟩ := hidle hfirst.1 hreadable
  rw [hf] at hmerge
  exact ⟨hfirst.2.2.1, hfirst.2.2.2, ⟨report, hagain, hdone, hmerge, hreport⟩, hunwritten⟩

end Stores

end ConfigMerge
