import ConfigMerge.Proofs.Reconcile.Outcome

/-!
# Proofs/Reconcile/Interruption — passes that were cut short can be repeated

A pass may be cut short at any of its calls: one is refused, or the pass is abandoned between two of
them.  Whatever it did until then, a pass over the same fragment makes of it what it makes of the
state before (`Collections.Resumes`), and so after any number of such passes
(`Stores.reconcile_after_interruptions`): the same objects, with the same uids and versions, at other
times.
-/

namespace ConfigMerge

variable {σ τ φ κ ι ρ : Type}

/-! ## From a state on the way of a pass -/

namespace Collections

/-- The same is held, but for the times in it. -/
structure Alike (s s' : Collections φ κ) : Prop where
  fragments : s.fragments.Alike s'.fragments
  composites : s.composites.Alike s'.composites
  fragmentsReversed : s.fragmentsReversed = s'.fragmentsReversed
  compositesReversed : s.compositesReversed = s'.compositesReversed

theorem Alike.refl (s : Collections φ κ) : s.Alike s := ⟨.refl _, .refl _, rfl, rfl⟩

theorem Alike.trans {s s' s'' : Collections φ κ} (h : s.Alike s') (h' : s'.Alike s'') :
    s.Alike s'' :=
  ⟨h.fragments.trans h'.fragments, h.composites.trans h'.composites,
    h.fragmentsReversed.trans h'.fragmentsReversed,
    h.compositesReversed.trans h'.compositesReversed⟩

variable [DecidableEq κ] {F : Family φ κ ι} {ns name key : String} {s : Collections φ κ}
  {f : Fragment φ}

/-- A pass makes of `s'`, at any time, what it makes of `s`. -/
structure Resumes (F : Family φ κ ι) (ns name : String) (s s' : Collections φ κ) : Prop where
  sound : s'.Sound
  alike : ∀ now now', (s'.reconciled F now ns name).Alike (s.reconciled F now' ns name)

theorem Resumes.trans {s' s'' : Collections φ κ} (h : Resumes F ns name s s')
    (h' : Resumes F ns name s' s'') : Resumes F ns name s s'' :=
  ⟨h'.sound, fun now now' => (h'.alike now now).trans (h.alike now now')⟩

/-- A pass goes on when some of the merges were made. -/
theorem resumes_mergedEach (hs : s.Sound) (hf : s.fragments.objects.get? ⟨ns, name⟩ = some f)
    (hkey : F.aggregationKey f = .ok key) (now : Instant) {done rest : List String}
    (hdone : s.order ns key f.metadata.uid = done ++ rest) :
    Resumes F ns name s (s.mergedEach F now ns done) := by
  refine ⟨hs.mergedEach F now ns done, fun now₁ now₂ => ?_⟩
  have hfragments : (s.mergedEach F now ns done).fragments = s.fragments :=
    mergedEach_fragments s done
  rw [reconciled_of_key F now₁ (hfragments ▸ hf) hkey, reconciled_of_key F now₂ hf hkey,
    mergedEach_order hs hdone rfl, hdone, mergedEach_append, hfragments]
  refine ⟨Store.alike_recorded F _ _ now₁ now₂, ?_, by simp, by simp⟩
  exact alike_mergedEach (by simp) (alike_mergedEach rfl (.refl _) now now₂ done) now₁ now₂ rest

/-- …and when all of them were made and the fragment was written, as far as the writes that are
left to it come to the same. -/
theorem resumes_fragments (hs : s.Sound) (hf : s.fragments.objects.get? ⟨ns, name⟩ = some f)
    (hkey : F.aggregationKey f = .ok key) (now : Instant) {t : Store φ FragmentStatus}
    {x : Option (Fragment φ)} (hchange : s.fragments.Changes t ⟨ns, name⟩ x)
    (hgone : x = none → f.metadata.isBeingDeleted = true)
    (hbare : ∀ f', x = some f' → f'.bare = f.bare)
    (hrest : ∀ now₁ now₂, ((t.guarded ⟨ns, name⟩).recorded F now₁ ⟨ns, name⟩).Alike
      ((s.fragments.guarded ⟨ns, name⟩).recorded F now₂ ⟨ns, name⟩)) :
    Resumes F ns name s
      { s.mergedEach F now ns (s.order ns key f.metadata.uid) with fragments := t } := by
  have hkeyed : t.Keyed := hs.fragments.changes hchange fun f' hf' =>
    (Object.key_eq_of_bare_eq (hbare f' hf')).trans (hs.fragments _ f hf)
  have hmerged := hs.mergedEach F now ns (s.order ns key f.metadata.uid)
  have hsound : Sound { s.mergedEach F now ns (s.order ns key f.metadata.uid) with
      fragments := t } := ⟨hkeyed, hmerged.composites⟩
  refine ⟨hsound, fun now₁ now₂ => ?_⟩
  have hend {t' : Store φ FragmentStatus}
      (ht' : t'.Alike ((s.fragments.guarded ⟨ns, name⟩).recorded F now₂ ⟨ns, name⟩)) :
      Alike { s.mergedEach F now ns (s.order ns key f.metadata.uid) with fragments := t' }
        (s.reconciled F now₂ ns name) := by
    rw [reconciled_of_key F now₂ hf hkey]
    exact ⟨ht', alike_mergedEach rfl (.refl _) now now₂ _, by simp, by simp⟩
  have hrest' := hrest now₁ now₂
  cases x with
  | none =>
    rw [reconciled_of_absent F now₁ hchange.here]
    rw [Store.guarded_of_absent hchange.here, Store.recorded_of_absent now₁ hchange.here] at hrest'
    exact hend hrest'
  | some g =>
    have hg := hbare g rfl
    have huid : g.metadata.uid = f.metadata.uid := by
      rw [← Object.bare_uid, hg, Object.bare_uid]
    rw [reconciled_of_key F now₁ hchange.here ((F.aggregationKey_congr hg).trans hkey), huid,
      mergedEach_of_keptAt hsound fun key' hkey' => ?_]
    · exact hend hrest'
    · have hsame : Family.SameLive ns s.fragments t := .of_changes_bare hchange hf hgone hbare
      have hfragments : (s.mergedEach F now ns (s.order ns key f.metadata.uid)).fragments =
          s.fragments := mergedEach_fragments s _
      exact (keptAt_mergedEach hs (mem_order_of_mergedEach hs.keyed hkey')).of_sameLive
        (hfragments ▸ hsame) hmerged.fragments hkeyed

/-- …such as when the finalizer was written and the status was not. -/
theorem resumes_guarded (hs : s.Sound) (hf : s.fragments.objects.get? ⟨ns, name⟩ = some f)
    (hkey : F.aggregationKey f = .ok key) (now : Instant) :
    Resumes F ns name s { s.mergedEach F now ns (s.order ns key f.metadata.uid) with
      fragments := s.fragments.guarded ⟨ns, name⟩ } := by
  obtain ⟨settled, x, -, hchange, hx, hbare, -, htoken⟩ :=
    leads_reconcileFinalizer F now (Q := fun _ => True) hs.fragments hf trivial trivial
  have hobject {f' : Fragment φ} (hf' : x = some f') : settled.object = f' := by
    rcases hx with ⟨hnone, -⟩ | hsome
    · rw [hnone] at hf'
      cases hf'
    · exact Option.some.inj (hsome.symm.trans hf')
  refine resumes_fragments hs hf hkey now hchange (fun hnone => ?_)
    (fun f' hf' => hobject hf' ▸ hbare) fun now₁ now₂ => ?_
  · exact (hx.resolve_right (by simp [hnone])).2
  · rw [Store.guarded_of_token fun f' hf' => ?_]
    · exact Store.alike_recorded F _ _ now₁ now₂
    · rw [← hobject (hchange.here.symm.trans hf'), Object.isBeingDeleted_eq_of_bare_eq hbare]
      exact htoken

/-- …and when nothing is left to be written. -/
theorem resumes_recorded (hs : s.Sound) (hf : s.fragments.objects.get? ⟨ns, name⟩ = some f)
    (hkey : F.aggregationKey f = .ok key) (now : Instant) :
    Resumes F ns name s { s.mergedEach F now ns (s.order ns key f.metadata.uid) with
      fragments := (s.fragments.guarded ⟨ns, name⟩).recorded F now ⟨ns, name⟩ } := by
  obtain ⟨x, hchange, hgone, hsettled⟩ := changes_recorded_guarded now hs.fragments hf
  refine resumes_fragments hs hf hkey now hchange hgone (fun f' hf' => (hsettled f' hf').1)
    fun now₁ now₂ => ?_
  rw [Store.recorded_guarded_of_settled now₁ fun f' hf' =>
    (hsettled f' (hchange.here.symm.trans hf')).2]
  exact Store.alike_recorded F _ _ now now₂

theorem Resumes.refl (hs : s.Sound) : Resumes F ns name s s := by
  cases hf : s.fragments.objects.get? ⟨ns, name⟩ with
  | none =>
    refine ⟨hs, fun now now' => ?_⟩
    rw [reconciled_of_absent F now hf, reconciled_of_absent F now' hf]
    exact .refl s
  | some f =>
    cases hkey : F.aggregationKey f with
    | error e =>
      refine ⟨hs, fun now now' => ?_⟩
      rw [reconciled_of_error F now hf hkey, reconciled_of_error F now' hf hkey]
      exact .refl s
    | ok key => exact resumes_mergedEach hs hf hkey ⟨0, 0⟩ (List.nil_append _).symm

/-- **Every state on the way of a pass** is one from which a pass makes what it makes of the
first. -/
theorem leads_resumes (hs : s.Sound) (F : Family φ κ ι) (now : Instant) (ns name : String) :
    ∃ r, Leads F now (Resumes F ns name s) r (s.reconciled F now ns name)
      (F.reconcile now ns name).run s :=
  leads_reconcile F now hs.keyed (.refl hs) fun _ _ hf hkey =>
    ⟨fun _ _ => resumes_mergedEach hs hf hkey now, resumes_guarded hs hf hkey now,
      resumes_recorded hs hf hkey now⟩

end Collections

/-! ## Passes that are cut short -/

/-- A call for which nothing else is planned meets the refusal, which is gone then. -/
theorem FaultyStore.perform_planRefusal {s : FaultyStore σ τ} (h : s.Undisturbed)
    (now : Instant) (c : Call (Object σ τ)) (r : Refusal) :
    ((s.planRefusal c.verb r).perform now c).1 = .error r ∧
      ((s.planRefusal c.verb r).perform now c).2.store = s.store ∧
      ((s.planRefusal c.verb r).perform now c).2.reversed = s.reversed ∧
      ((s.planRefusal c.verb r).perform now c).2.Undisturbed := by
  have hplanned : (s.planRefusal c.verb r).refusals c.verb = [r] := by
    simp [FaultyStore.planRefusal, h c.verb]
  rw [FaultyStore.perform_of_planned now hplanned]
  refine ⟨rfl, rfl, rfl, fun v => ?_⟩
  by_cases hv : v = c.verb
  · simp [FaultyStore.enter, hv, hplanned]
  · simp [FaultyStore.enter, FaultyStore.planRefusal, hv, h v]

/-- The same is held but for the times in it, and the same is planned. -/
structure FaultyStore.Alike [Timed τ] (s s' : FaultyStore σ τ) : Prop where
  store : s.store.Alike s'.store
  refusals : s.refusals = s'.refusals
  reversed : s.reversed = s'.reversed

/-- Both stores of a family are the same, but for the times in them and the counters. -/
structure Stores.Alike (s s' : Stores φ κ) : Prop where
  fragments : s.fragments.Alike s'.fragments
  composites : s.composites.Alike s'.composites

/-- How a pass is cut short: what its calls meet, each a refusal or none, until it is abandoned. -/
structure Cut where
  now : Instant
  calls : List (Option Refusal)

namespace Stores

/-- Plans a refusal of the next call of this kind. -/
def planRefusal (s : Stores φ κ) (r : Refusal) : PassCall φ κ → Stores φ κ
  | .fragments c => { s with fragments := s.fragments.planRefusal c.verb r }
  | .composites c => { s with composites := s.composites.planRefusal c.verb r }

/-- Answers a call, which meets a refusal or none. -/
def meet (F : Family φ κ ι) (now : Instant) (q : PassCall φ κ) (s : Stores φ κ) :
    Option Refusal → q.Answer × Stores φ κ
  | none => answer F now q s
  | some r => answer F now q (s.planRefusal r q)

/-- Answers the calls of a program as long as it is said what they are to meet. -/
def advance (F : Family φ κ ι) (now : Instant) :
    List (Option Refusal) → Program (PassCall.Answer (φ := φ) (κ := κ)) ρ → Stores φ κ →
      Stores φ κ
  | fate :: fates, .ask q next, s =>
    advance F now fates (next (meet F now q s fate).1) (meet F now q s fate).2
  | _, _, s => s

/-- Makes passes over a name, one after the other, each of which is cut short. -/
def interrupted [DecidableEq κ] (F : Family φ κ ι) (ns name : String) (cuts : List Cut)
    (s : Stores φ κ) : Stores φ κ :=
  cuts.foldl (fun s cut => s.advance F cut.now cut.calls (F.reconcile cut.now ns name).run) s

variable {F : Family φ κ ι} {now : Instant} {s : Stores φ κ}

theorem advance_done (fates : List (Option Refusal)) (r : ρ) :
    s.advance F now fates (.done r) = s := by
  cases fates <;> rfl

/-- A refusal that was planned for a call is the answer, and changes nothing that is held. -/
theorem answer_planRefusal (F : Family φ κ ι) (now : Instant) (hs : s.Undisturbed) (q : PassCall φ κ)
    (r : Refusal) :
    ∃ e, (answer F now q (s.planRefusal r q)).1 = q.failure e ∧
      (answer F now q (s.planRefusal r q)).2.collections = s.collections ∧
      (answer F now q (s.planRefusal r q)).2.Undisturbed := by
  cases q with
  | fragments c =>
    obtain ⟨hanswer, hstore, hreversed, hcalm⟩ :=
      FaultyStore.perform_planRefusal hs.fragments now c r
    refine ⟨Refusal.toError F.fragments.kind c r, ?_, ?_, hcalm, hs.composites⟩
    · simp only [answer, planRefusal, hanswer]
      rfl
    · simp only [answer, planRefusal, collections, hstore, hreversed]
  | composites c =>
    obtain ⟨hanswer, hstore, hreversed, hcalm⟩ :=
      FaultyStore.perform_planRefusal hs.composites now c r
    refine ⟨Refusal.toError F.composites.kind c r, ?_, ?_, hs.fragments, hcalm⟩
    · simp only [answer, planRefusal, hanswer]
      rfl
    · simp only [answer, planRefusal, collections, hstore, hreversed]

/-- **Cut short at any of its calls, a program leaves a state on its way.** -/
theorem advance_of_leads {B : Error → ρ → Prop} {Q : Collections φ κ → Prop}
    {p : Program (PassCall.Answer (φ := φ) (κ := κ)) ρ} (hp : p.StopsWith B) {r : ρ}
    {s' : Collections φ κ} (hs : s.Undisturbed)
    (h : Collections.Leads F now Q r s' p s.collections) (fates : List (Option Refusal)) :
    Q (s.advance F now fates p).collections ∧ (s.advance F now fates p).Undisturbed := by
  induction p generalizing s fates with
  | done r' =>
    rw [advance_done]
    exact ⟨h.2.2, hs⟩
  | ask q next ih =>
    cases fates with
    | nil => exact ⟨h.1, hs⟩
    | cons fate fates =>
      cases fate with
      | none =>
        obtain ⟨hanswer, hheld, hcalm⟩ := answer_of_undisturbed F now hs q
        refine ih (answer F now q s).1 (hp.2 _) hcalm ?_ fates
        rw [hanswer, hheld]
        exact h.2
      | some refusal =>
        obtain ⟨e, hanswer, hheld, hcalm⟩ := answer_planRefusal F now hs q refusal
        obtain ⟨r', hr', -⟩ := hp.1 e
        simp only [advance, meet, hanswer, hr', advance_done]
        exact ⟨hheld ▸ h.1, hcalm⟩

/-! ## Repeating passes -/

theorem alike_of_collections {s' : Stores φ κ} (h : s.collections.Alike s'.collections)
    (hs : s.Undisturbed) (hs' : s'.Undisturbed) : s.Alike s' where
  fragments := ⟨h.fragments, funext fun v => (hs.fragments v).trans (hs'.fragments v).symm,
    h.fragmentsReversed⟩
  composites := ⟨h.composites, funext fun v => (hs.composites v).trans (hs'.composites v).symm,
    h.compositesReversed⟩

variable [DecidableEq κ] {ns name : String}

/-- What is held after a pass that nothing disturbs. -/
theorem run_reconcile_undisturbed (F : Family φ κ ι) (now : Instant) (ns name : String)
    (hcalm : s.Undisturbed) (hs : s.collections.Sound) :
    (s.run F now (F.reconcile now ns name)).2.collections =
        s.collections.reconciled F now ns name ∧
      (s.run F now (F.reconcile now ns name)).2.Undisturbed := by
  obtain ⟨-, hheld, hcalm'⟩ := run_of_undisturbed F now hcalm (F.reconcile now ns name)
  obtain ⟨r, hleads⟩ := Collections.leads_resumes hs F now ns name
  rw [hleads.run_eq] at hheld
  exact ⟨hheld, hcalm'⟩

/-- After passes that were cut short, a pass makes of the stores what it makes of the first ones. -/
theorem interrupted_resumes (hcalm : s.Undisturbed) (hs : s.collections.Sound) (cuts : List Cut) :
    Collections.Resumes F ns name s.collections (s.interrupted F ns name cuts).collections ∧
      (s.interrupted F ns name cuts).Undisturbed := by
  induction cuts generalizing s with
  | nil => exact ⟨.refl hs, hcalm⟩
  | cons cut rest ih =>
    obtain ⟨r, hleads⟩ := Collections.leads_resumes hs F cut.now ns name
    obtain ⟨hresumes, hcalm'⟩ :=
      advance_of_leads (F.stopsWith_reconcile cut.now ns name) hcalm hleads cut.calls
    obtain ⟨hrest, hend⟩ := ih hcalm' hresumes.sound
    exact ⟨hresumes.trans hrest, hend⟩

/-- **Passes that were cut short can be repeated**: an undisturbed pass after any number of them,
each refused at any of its calls or abandoned before it, leaves both stores as an undisturbed pass
instead of them all would have, uids and versions included, but for the times in them and the
counters. -/
theorem reconcile_after_interruptions (F : Family φ κ ι) (ns name : String) (cuts : List Cut)
    (now now' : Instant) (s : Stores φ κ) (hcalm : s.Undisturbed) (hs : s.collections.Sound) :
    (s.interrupted F ns name cuts).Undisturbed ∧
      ((s.interrupted F ns name cuts).run F now (F.reconcile now ns name)).2.Alike
        (s.run F now' (F.reconcile now' ns name)).2 := by
  obtain ⟨hresumes, hcalm'⟩ := interrupted_resumes (F := F) hcalm hs cuts
  obtain ⟨hheld, hend⟩ := run_reconcile_undisturbed F now ns name hcalm' hresumes.sound
  obtain ⟨hheld', hend'⟩ := run_reconcile_undisturbed F now' ns name hcalm hs
  refine ⟨hcalm', alike_of_collections ?_ hend hend'⟩
  rw [hheld, hheld']
  exact hresumes.alike now now'

/-- A pass that is refused the listing of the composites, after it has created one. -/
def refusedListing : Cut := ⟨⟨1, 0⟩, [none, none, none, none, some .unavailable]⟩

/-- A pass that is abandoned before its last call, when it has written the finalizer but not the
status. -/
def abandonedLate : Cut := ⟨⟨2, 0⟩, List.replicate 8 none⟩

theorem reconcile_after_refusedListing_abandonedLate :
    let t := disordered.interrupted .routes "default" "moved" [refusedListing, abandonedLate]
    (t.composites.calls .create = 1 ∧ t.composites.calls .list = 2 ∧
      t.composites.calls .delete = 1 ∧ t.fragments.calls .update = 1 ∧
      t.fragments.calls .updateStatus = 0) ∧
    (t.run .routes ⟨3, 0⟩ (Family.routes.reconcile ⟨3, 0⟩ "default" "moved")).2.Alike
      (disordered.run .routes ⟨1, 0⟩ (Family.routes.reconcile ⟨1, 0⟩ "default" "moved")).2 := by
  intro t
  have hcalls : t.composites.calls .create = 1 ∧ t.composites.calls .list = 2 ∧
      t.composites.calls .delete = 1 ∧ t.fragments.calls .update = 1 ∧
      t.fragments.calls .updateStatus = 0 := by decide +kernel
  have hagain := reconcile_after_interruptions .routes "default" "moved"
    [refusedListing, abandonedLate] ⟨3, 0⟩ ⟨1, 0⟩ disordered
  exact ⟨hcalls, (hagain ⟨fun _ => rfl, fun _ => rfl⟩
    ⟨by decide +kernel, by decide +kernel⟩).2⟩

end Stores

end ConfigMerge
