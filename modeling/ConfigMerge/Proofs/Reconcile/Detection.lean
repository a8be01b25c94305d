import ConfigMerge.Proofs.Reconcile.Attended
import ConfigMerge.Proofs.Resource.Payload
import ConfigMerge.Proofs.Store.Operation

/-!
# Proofs/Reconcile/Detection — a status is written exactly when the content has changed

A `Chronicle` follows one fragment through passes, one after the other, and through what users do in
between.  It keeps the content at the last status write that succeeded.

The status of the fragment always says the digest of that content (`Chronicle.Sound`).  Contents are
told apart by their canonical texts, since they are read back from them; so unless the digests of two
such texts collide, a pass that is done has written the status exactly when the content is another one
than at the last write (`Family.DetectsChanges`).
-/

namespace ConfigMerge

variable {φ κ ι : Type}

/-- The digest tells two texts apart. -/
def Sha256.Separates (x y : String) : Prop := hexDigest x = hexDigest y → x = y

instance (x y : String) : Decidable (Sha256.Separates x y) :=
  inferInstanceAs (Decidable (_ → _))

/-- The text that a fragment's content is fingerprinted by. -/
def Family.contentText (F : Family φ κ ι) (a : φ) : String :=
  (F.fragments.spec.encode a).canonicalText

/-! ## Users' operations -/

namespace Store

variable {k : ObjectKey} {s s' : Store φ FragmentStatus}

/-- The object at `k`, if one is there now, was there before with the same status. -/
def KeepsStatus (s s' : Store φ FragmentStatus) (k : ObjectKey) : Prop :=
  ∀ f', s'.objects.get? k = some f' → ∃ f, s.objects.get? k = some f ∧ f'.status = f.status

theorem keepsStatus_refl (s : Store φ FragmentStatus) (k : ObjectKey) : s.KeepsStatus s k :=
  fun f' hf' => ⟨f', hf', rfl⟩

/-- A change keeps the status if it does so where it is made. -/
theorem Changes.keepsStatus {k' : ObjectKey} {x : Option (Fragment φ)} (h : s.Changes s' k' x)
    (hx : k' = k → ∀ f', x = some f' → ∃ f, s.objects.get? k = some f ∧ f'.status = f.status) :
    s.KeepsStatus s' k := by
  intro f' hf'
  by_cases hk : k' = k
  · exact hx hk f' (h.here.symm.trans (hk ▸ hf'))
  · exact ⟨f', (h.elsewhere k (Ne.symm hk)).symm.trans hf', rfl⟩

/-- A write over an object keeps the status if the new object has it. -/
theorem keepsStatus_write {k' : ObjectKey} {o o' : Fragment φ} (ho : s.objects.get? k' = some o)
    (hstatus : k' = k → o'.status = o.status) : s.KeepsStatus (s.write k' o').2 k := by
  refine (changes_write s k' o').keepsStatus fun hk f' hf' => ?_
  obtain rfl := Option.some.inj hf'
  exact ⟨o, hk ▸ ho, hstatus hk⟩

theorem keepsStatus_erase (s : Store φ FragmentStatus) (k k' : ObjectKey) :
    s.KeepsStatus { s with objects := s.objects.erase k' } k :=
  (changes_erase s k').keepsStatus fun _ _ => nofun

theorem keepsStatus_requestDeletion (s : Store φ FragmentStatus) (now : Instant)
    (k k' : ObjectKey) : s.KeepsStatus (s.requestDeletion now k') k := by
  cases ho : s.objects.get? k' with
  | none =>
    rw [requestDeletion_of_absent now ho]
    exact keepsStatus_refl s k
  | some o =>
    by_cases hfin : o.metadata.finalizerList = []
    · rw [requestDeletion_of_unguarded now ho hfin]
      exact keepsStatus_erase s k k'
    · rw [requestDeletion_of_guarded now ho hfin]
      split
      · exact keepsStatus_refl s k
      · exact keepsStatus_write ho fun _ => rfl

namespace Operation

variable {operation : Operation φ FragmentStatus}

/-- The operation leaves the status of the object at `k` to the passes, and puts no object there. -/
def SparesStatus (k : ObjectKey) : Operation φ FragmentStatus → Prop
  | .seed o => o.key ≠ k
  | .edit k' change => k' = k → ∀ o, (change o).status = o.status
  | .requestDeletion _ | .remove _ => True

/-- **Such an operation keeps the status**, whatever it does. -/
theorem SparesStatus.keepsStatus (h : operation.SparesStatus k) (now : Instant)
    (s : Store φ FragmentStatus) : s.KeepsStatus (operation.apply now s) k := by
  cases operation with
  | seed o => exact (changes_seed s now o).keepsStatus fun hk => absurd hk h
  | requestDeletion k' => exact keepsStatus_requestDeletion s now k k'
  | remove k' => exact keepsStatus_erase s k k'
  | edit k' change =>
    cases ho : s.objects.get? k' with
    | none =>
      rw [apply_edit_of_absent ho]
      exact keepsStatus_refl s k
    | some o =>
      rw [apply_edit_of_stored ho]
      exact keepsStatus_write ho fun hk => h hk o

end Operation

end Store

/-! ## Events -/

/-- What was made of the stores so far, and the content of the fragment in question at the last
status write that succeeded. -/
structure Chronicle (φ κ : Type) where
  stores : Stores φ κ
  written : Option φ := none

namespace Chronicle

/-- The fragment at a place. -/
def fragment? (c : Chronicle φ κ) (k : ObjectKey) : Option (Fragment φ) :=
  c.stores.fragments.store.objects.get? k

/-- A pass to its end, some of whose calls are refused, or an operation of a user. -/
inductive Event (φ κ : Type) where
  | pass (k : ObjectKey) (now : Instant) (fates : List (Option Refusal))
  | fragments (operation : Store.Operation φ FragmentStatus) (now : Instant)
  | composites (operation : Store.Operation κ Empty) (now : Instant)

/-- Users leave names and namespaces, and the status of the fragment at `k`. -/
def Event.Proper (k : ObjectKey) : Event φ κ → Prop
  | .fragments operation _ => operation.Proper ∧ operation.SparesStatus k
  | .pass .. | .composites .. => True

variable [DecidableEq κ] (F : Family φ κ ι) (k : ObjectKey)

/-- One event. -/
def step (c : Chronicle φ κ) : Event φ κ → Chronicle φ κ
  | .pass k' now fates =>
    let t := c.stores.attend F now fates (F.reconcile now k'.nameSpace k'.name).run
    { stores := t.stores, written := (statusWrites k t.log).getLast?.or c.written }
  | .fragments operation now =>
    { c with stores := { c.stores with fragments := { c.stores.fragments with
        store := operation.apply now c.stores.fragments.store } } }
  | .composites operation now =>
    { c with stores := { c.stores with composites := { c.stores.composites with
        store := operation.apply now c.stores.composites.store } } }

/-- A run of events. -/
def run (c : Chronicle φ κ) (events : List (Event φ κ)) : Chronicle φ κ :=
  events.foldl (step F k) c

/-- The status of the fragment says the digest of the content at the last write, if there was
any. -/
structure Sound (F : Family φ κ ι) (k : ObjectKey) (c : Chronicle φ κ) : Prop where
  keyed : c.stores.fragments.store.Keyed
  recorded : ∀ f, c.fragment? k = some f →
    Family.recorded? f = c.written.map F.fragments.spec.fingerprint

variable {F k} {c : Chronicle φ κ}

/-- **Every event keeps the status right.** -/
theorem Sound.step (h : c.Sound F k) {e : Event φ κ} (he : e.Proper k) :
    (c.step F k e).Sound F k := by
  cases e with
  | composites operation now => exact ⟨h.keyed, h.recorded⟩
  | fragments operation now =>
    refine ⟨Store.Operation.keyed_apply he.1 now h.keyed, fun f' hf' => ?_⟩
    obtain ⟨f, hf, hstatus⟩ := he.2.keepsStatus now _ f' hf'
    rw [Family.recorded?, hstatus]
    exact h.recorded f hf
  | pass k' now fates =>
    obtain ⟨hkept, -⟩ := Vigil.attend_reconcile F k' now h.keyed fates
    refine ⟨hkept.keyed, fun f' hf' => ?_⟩
    by_cases hk : k' = k
    · subst hk
      obtain ⟨f, hf, -, ⟨hnone, hstatus⟩ | ⟨hwritten, hrecorded⟩⟩ := hkept.here f' hf'
      · simp only [Chronicle.step, hnone]
        rw [Family.recorded?, hstatus]
        exact h.recorded f hf
      · simp only [Chronicle.step, hwritten]
        exact hrecorded
    · obtain ⟨hsame, hnone⟩ := hkept.elsewhere k (Ne.symm hk)
      simp only [Chronicle.step, hnone]
      exact h.recorded f' (hsame.symm.trans hf')

/-- …and so does every run. -/
theorem Sound.run (h : c.Sound F k) {events : List (Event φ κ)} (he : ∀ e ∈ events, e.Proper k) :
    (c.run F k events).Sound F k := by
  induction events generalizing c with
  | nil => exact h
  | cons e rest ih =>
    rw [List.forall_mem_cons] at he
    exact ih (h.step he.1) he.2

omit [DecidableEq κ] in
/-- A stored fragment is to be recorded when its content is not the one at the last write. -/
theorem Sound.isChanged_iff (h : c.Sound F k) (hread : ∀ a, F.fragments.spec.ReadsBack a)
    {f : Fragment φ} (hf : c.fragment? k = some f)
    (hseparates : ∀ a ∈ c.written, Sha256.Separates (F.contentText a) (F.contentText f.spec)) :
    F.isChanged f = true ↔ c.written ≠ some f.spec := by
  rw [Family.isChanged, decide_eq_true_iff, h.recorded f hf, not_iff_not]
  constructor
  · intro heq
    obtain ⟨a, ha, hdigest⟩ := Option.map_eq_some_iff.mp heq
    have htext : F.contentText a = F.contentText f.spec := hseparates a ha hdigest
    rw [ha, (hread a).eq_of_canonicalText (hread f.spec) htext]
  · intro hwritten
    rw [hwritten]
    rfl

end Chronicle

/-- **Exact change detection.**  Whatever passes and users have done since the fragment had no status,
without an edit of the status:

* a pass over the live fragment that is done leaves the digest of the content on record, and, unless
  the digests of two texts collide, has written the status exactly when the content is not the one at
  the last write that succeeded;
* a pass over the deleting fragment does not even try to write the status. -/
def Family.DetectsChanges [DecidableEq κ] (F : Family φ κ ι) : Prop :=
  ∀ (s : Stores φ κ) (k : ObjectKey), s.fragments.store.Keyed →
    (∀ f, s.fragments.store.objects.get? k = some f → f.status = none) →
    ∀ events : List (Chronicle.Event φ κ), (∀ e ∈ events, e.Proper k) →
    ∀ (now : Instant) (fates : List (Option Refusal)) (f : Fragment φ),
      let c := Chronicle.run F k { stores := s } events
      let t := c.stores.attend F now fates (F.reconcile now k.nameSpace k.name).run
      c.fragment? k = some f →
        (f.metadata.isBeingDeleted = false → IsDone t.result →
          (∃ f', t.stores.fragments.store.objects.get? k = some f' ∧ f'.spec = f.spec ∧
            Family.recorded? f' = some (F.fingerprint f')) ∧
          ((∀ a ∈ c.written, Sha256.Separates (F.contentText a) (F.contentText f.spec)) →
            ((∃ e ∈ t.log, e.1.IsStatusWrite) ↔ c.written ≠ some f.spec) ∧
            (statusWrites k t.log = [f.spec] ↔ c.written ≠ some f.spec))) ∧
        (f.metadata.isBeingDeleted = true → ∀ e ∈ t.log, ¬ e.1.IsStatusWrite)

theorem Family.detectsChanges_of_readsBack [DecidableEq κ] {F : Family φ κ ι}
    (hread : ∀ a, F.fragments.spec.ReadsBack a) : F.DetectsChanges := by
  intro s k hs hnone events hproper now fates f c t hf
  have hsound : c.Sound F k := by
    refine Chronicle.Sound.run ⟨hs, fun f hf => ?_⟩ hproper
    rw [Family.recorded?, hnone f hf]
    rfl
  obtain ⟨hkept, hended⟩ := Vigil.attend_reconcile F k now hsound.keyed fates
  refine ⟨fun hlive hdone => ⟨?_, fun hseparates => ?_⟩, fun hdeleting e he hstatus => ?_⟩
  · exact (hended hdone f hf hlive).recorded hkept hf
  · rw [← hsound.isChanged_iff hread hf hseparates]
    exact (hended hdone f hf hlive).isStatusWrite_iff hkept hf
  · obtain ⟨f₀, hf₀, hlive, -⟩ := hkept.due ⟨e, he, hstatus⟩
    obtain rfl := Option.some.inj (hf.symm.trans hf₀)
    rw [hdeleting] at hlive
    cases hlive

/-- **Both families detect changes exactly.** -/
theorem Family.changes_detected : routes.DetectsChanges ∧ intentions.DetectsChanges :=
  ⟨detectsChanges_of_readsBack RouteSpec.readsBack, detectsChanges_of_readsBack SourceSpec.readsBack⟩

namespace Chronicle

/-- A user gives the fragment that has moved another path. -/
def repath : Store.Operation RouteSpec FragmentStatus :=
  .edit ⟨"default", "moved"⟩ ({ · with spec := ⟨.ofPathPrefix "moved" "/new"⟩ })

/-- A pass over it whose status write is refused, one that is done, and a new path. -/
def repathing : List (Event RouteSpec RouterSpec) :=
  [.pass ⟨"default", "moved"⟩ ⟨1, 0⟩ (List.replicate 9 none ++ [some .conflict]),
    .pass ⟨"default", "moved"⟩ ⟨2, 0⟩ [], .fragments repath ⟨3, 0⟩]

/-- The same, and a request for its deletion. -/
def retiring : List (Event RouteSpec RouterSpec) :=
  repathing ++ [.fragments (.requestDeletion ⟨"default", "moved"⟩) ⟨4, 0⟩]

/-- The stores after such events. -/
abbrev moved (events : List (Event RouteSpec RouterSpec)) : Chronicle RouteSpec RouterSpec :=
  run .routes ⟨"default", "moved"⟩ { stores := Stores.disordered } events

/-- One more pass. -/
abbrev movedAgain (events : List (Event RouteSpec RouterSpec)) :
    Attended RouteSpec RouterSpec (Except Error Report) :=
  (moved events).stores.attend .routes ⟨5, 0⟩ []
    (Family.reconcile .routes ⟨5, 0⟩ "default" "moved").run

theorem proper_retiring : ∀ e ∈ retiring, e.Proper ⟨"default", "moved"⟩ := by
  simp [retiring, repathing, repath, Event.Proper, Store.Operation.Proper,
    Store.Operation.SparesStatus, Object.key]

end Chronicle

/-- After the new path the status is written again, and nothing is when the fragment is to go. -/
theorem Family.changes_detected_moved :
    (Chronicle.moved Chronicle.repathing).written = some ⟨.ofPathPrefix "moved" "/moved"⟩ ∧
      IsDone (Chronicle.movedAgain Chronicle.repathing).result ∧
      (∃ e ∈ (Chronicle.movedAgain Chronicle.repathing).log, e.1.IsStatusWrite) ∧
      ∀ e ∈ (Chronicle.movedAgain Chronicle.retiring).log, ¬ e.1.IsStatusWrite := by
  have hkeyed : Stores.disordered.fragments.store.Keyed := by decide +kernel
  have hnone : ∀ f, Stores.disordered.fragments.store.objects.get? ⟨"default", "moved"⟩ = some f →
      f.status = none := by decide +kernel
  have hwritten : (Chronicle.moved Chronicle.repathing).written =
      some ⟨.ofPathPrefix "moved" "/moved"⟩ := by decide +kernel
  have hdone : IsDone (Chronicle.movedAgain Chronicle.repathing).result := by decide +kernel
  refine ⟨hwritten, hdone, ?_, ?_⟩
  · obtain ⟨f, hf, hlive, hspec⟩ : ∃ f, (Chronicle.moved Chronicle.repathing).fragment?
        ⟨"default", "moved"⟩ = some f ∧ f.metadata.isBeingDeleted = false ∧
          f.spec = ⟨.ofPathPrefix "moved" "/new"⟩ := by
      have hany : ((Chronicle.moved Chronicle.repathing).fragment? ⟨"default", "moved"⟩).any
          (fun f => !f.metadata.isBeingDeleted &&
            decide (f.spec = ⟨.ofPathPrefix "moved" "/new"⟩)) = true := by
        decide +kernel
      simpa [Option.any_eq_true] using hany
    refine ((changes_detected.1 _ _ hkeyed hnone _ (fun e he => Chronicle.proper_retiring e
      (List.mem_append_left _ he)) _ _ f hf).1 hlive hdone).2 ?_ |>.1.mpr ?_
    · rw [hwritten, hspec]
      decide +kernel
    · rw [hwritten, hspec]
      decide
  · obtain ⟨f, hf, hdeleting⟩ : ∃ f, (Chronicle.moved Chronicle.retiring).fragment?
        ⟨"default", "moved"⟩ = some f ∧ f.metadata.isBeingDeleted = true := by
      have hany : ((Chronicle.moved Chronicle.retiring).fragment? ⟨"default", "moved"⟩).any
          (·.metadata.isBeingDeleted) = true := by
        decide +kernel
      exact Option.any_eq_true _ _ |>.mp hany
    exact (changes_detected.1 _ _ hkeyed hnone _ Chronicle.proper_retiring _ _ f hf).2 hdeleting

end ConfigMerge
