import ConfigMerge.Proofs.Reconcile.Settle

/-!
# Proofs/Reconcile/Retry — what a failed write of the finalizer leaves behind

The finalizer is changed on the caller's own object before the change is written.  So when the write
fails, the stores are as they were but the object is not: it has a change that nobody has stored,
and another call with it finds nothing to do.  Only an object that was kept from before, or that is
read again, brings the change about (`Settlement.HalfDone`). -/

namespace ConfigMerge

variable {σ τ φ κ ι : Type}

/-! ## Changes that are called for -/

namespace Metadata

/-- The metadata after the change that is called for, if one is. -/
def attempted (m : Metadata) (token : String) : Metadata := (m.finalizerChange? token).getD m

variable {m m' : Metadata} {token : String}

/-- After a change no other one is called for. -/
theorem finalizerChange?_attempted (m : Metadata) (token : String) :
    (m.attempted token).finalizerChange? token = none := by
  unfold attempted
  cases hm : m.finalizerChange? token with
  | none => exact hm
  | some m' =>
    obtain ⟨fs, rfl, htoken⟩ := of_finalizerChange?_eq_some hm
    exact finalizerChange?_eq_none htoken

/-- A change that is called for is one. -/
theorem attempted_ne (hm : m.finalizerChange? token = some m') : m.attempted token ≠ m := by
  intro hsame
  have hnone := finalizerChange?_attempted m token
  rw [hsame, hm] at hnone
  cases hnone

end Metadata

/-! ## Calls with the caller's own object -/

/-- One of the two collections of a family: how a pass replaces an object of it, and where the
stores keep it. -/
structure Shelf (σ τ φ κ : Type) where
  update : Object σ τ → Pass φ κ (Object σ τ)
  of : Stores φ κ → FaultyStore σ τ
  put : Stores φ κ → FaultyStore σ τ → Stores φ κ

/-- The fragments. -/
def Shelf.fragments : Shelf φ FragmentStatus φ κ :=
  ⟨Pass.updateFragment, (·.fragments), fun s fragments => { s with fragments }⟩

/-- The composites. -/
def Shelf.composites : Shelf κ Empty φ κ :=
  ⟨Pass.updateComposite, (·.composites), fun s composites => { s with composites }⟩

/-- What a call comes to: what it reports, what the caller's object is after it, and the stores. -/
structure Settlement (σ τ φ κ : Type) where
  result : Except Error Bool
  object : Object σ τ
  stores : Stores φ κ

/-- A call with the caller's own object. -/
def Stores.settle (F : Family φ κ ι) (now : Instant) (shelf : Shelf σ τ φ κ) (token : String)
    (o : Object σ τ) (s : Stores φ κ) : Settlement σ τ φ κ :=
  let ((result, object), stores) :=
    (settleFinalizer shelf.update token o).run (Stores.answer F now) s
  ⟨result, object, stores⟩

section

variable (F : Family φ κ ι) (shelf : Shelf σ τ φ κ) (token : String) (o : Object σ τ)
  (s : Stores φ κ)

/-- A call with `o` has left nothing half-done: what is stored is as it was and so is the caller's
object, so that another call with it, once nothing is refused and the object is still what is
stored, does what the first call would have done. -/
structure Settlement.Undone (t : Settlement σ τ φ κ) : Prop where
  stored : t.stores.collections = s.collections
  kept : t.object = o
  retried : ∀ (s' : Stores φ κ) now, (shelf.of s').refusals .update = [] →
    (shelf.of s').store.objects.get? o.key = some o →
      s'.settle F now shelf token t.object = s'.settle F now shelf token o

/-- A call with `o` has left its change behind.

* What is stored is as it was, but the caller's object is not: it has the change.
* Another call with it reports that there is nothing to do and makes none, whatever is stored by
  then.
* Another call with `o` makes the change, once nothing is refused and `o` is what is stored. -/
structure Settlement.HalfDone (t : Settlement σ τ φ κ) : Prop where
  stored : t.stores.collections = s.collections
  edited : t.object = { o with metadata := o.metadata.attempted token }
  changed : t.object ≠ o
  forgotten : ∀ (s' : Stores φ κ) now,
    s'.settle F now shelf token t.object = ⟨.ok false, t.object, s'⟩
  redone : ∀ (s' : Stores φ κ) now, (shelf.of s').refusals .update = [] →
    (shelf.of s').store.objects.get? o.key = some o →
      let again := s'.settle F now shelf token o
      again.result = .ok true ∧
        again.object = (t.object.inPlaceOf o).atVersion (shelf.of s').store.nextVersion ∧
        (shelf.of again.stores).store = (shelf.of s').store.replaced t.object o

/-- If a call fails, it leaves nothing half-done. -/
def Stores.SettlesWhole (now : Instant) : Prop :=
  ∀ e, (s.settle F now shelf token o).result = .error e →
    (s.settle F now shelf token o).Undone F shelf token o s

end

/-! ## Writing to a shelf -/

namespace Shelf

variable {F : Family φ κ ι} {shelf : Shelf σ τ φ κ} {s : Stores φ κ} {o stored : Object σ τ}

/-- The store of the shelf answers its writes, and the rest of the stores stays as it is. -/
structure Lawful (F : Family φ κ ι) (shelf : Shelf σ τ φ κ) : Prop where
  run_update : ∀ (s : Stores φ κ) now o, ∃ classify : Refusal → Error,
    s.run F now (shelf.update o) = (((shelf.of s).perform now (.update o)).1.mapError classify,
      shelf.put s ((shelf.of s).perform now (.update o)).2)
  of_put : ∀ (s : Stores φ κ) t, shelf.of (shelf.put s t) = t
  collections_put : ∀ (s : Stores φ κ) t, t.store = (shelf.of s).store →
    t.reversed = (shelf.of s).reversed → (shelf.put s t).collections = s.collections

theorem lawful_fragments (F : Family φ κ ι) : (fragments (κ := κ)).Lawful F where
  run_update s now o := ⟨_, rfl⟩
  of_put s t := rfl
  collections_put s t hstore hreversed := by
    simp only [fragments, Stores.collections] at hstore hreversed ⊢
    rw [hstore, hreversed]

theorem lawful_composites (F : Family φ κ ι) : (composites (φ := φ)).Lawful F where
  run_update s now o := ⟨_, rfl⟩
  of_put s t := rfl
  collections_put s t hstore hreversed := by
    simp only [composites, Stores.collections] at hstore hreversed ⊢
    rw [hstore, hreversed]

/-- A write that fails changes nothing that is stored. -/
theorem Lawful.collections_of_error (hl : shelf.Lawful F) {now : Instant} {e : Error}
    (he : (s.run F now (shelf.update o)).1 = .error e) :
    (s.run F now (shelf.update o)).2.collections = s.collections := by
  obtain ⟨classify, hrun⟩ := hl.run_update s now o
  rw [hrun] at he ⊢
  cases ha : ((shelf.of s).perform now (.update o)).1 with
  | ok r =>
    rw [ha] at he
    cases he
  | error r =>
    obtain ⟨hstore, hreversed⟩ := FaultyStore.perform_of_error ha
    exact hl.collections_put s _ hstore hreversed

/-- A write that nothing is planned against replaces what is stored. -/
theorem Lawful.run_update_of_current (hl : shelf.Lawful F) (now : Instant)
    (hr : (shelf.of s).refusals .update = []) (hc : (shelf.of s).store.current o = .ok stored) :
    (s.run F now (shelf.update o)).1 =
        .ok ((o.inPlaceOf stored).atVersion (shelf.of s).store.nextVersion) ∧
      (shelf.of (s.run F now (shelf.update o)).2).store = (shelf.of s).store.replaced o stored := by
  obtain ⟨classify, hrun⟩ := hl.run_update s now o
  obtain ⟨hanswer, hstore⟩ := FaultyStore.perform_update now hr hc
  rw [hrun, hanswer, hl.of_put]
  exact ⟨rfl, hstore⟩

end Shelf

/-! ## Settling the finalizer -/

namespace Stores

variable {F : Family φ κ ι} {now : Instant} {shelf : Shelf σ τ φ κ} {token : String}
  {o : Object σ τ} {s : Stores φ κ}

/-- Where no change is called for, nothing is done. -/
theorem settle_of_settled (hm : o.metadata.finalizerChange? token = none) :
    s.settle F now shelf token o = ⟨.ok false, o, s⟩ := by
  unfold settle settleFinalizer
  rw [hm]
  rfl

/-- Where one is, it is written… -/
theorem settle_of_written {m : Metadata} (hm : o.metadata.finalizerChange? token = some m)
    {w : Object σ τ} (hw : (s.run F now (shelf.update { o with metadata := m })).1 = .ok w) :
    s.settle F now shelf token o =
      ⟨.ok true, w, (s.run F now (shelf.update { o with metadata := m })).2⟩ := by
  unfold run at hw ⊢
  simp only [settle, settleFinalizer, hm, Program.run_bind, hw]
  rfl

/-- …and a failure is reported as it is, with the object that has the change. -/
theorem settle_of_refused {m : Metadata} (hm : o.metadata.finalizerChange? token = some m)
    {e : Error} (he : (s.run F now (shelf.update { o with metadata := m })).1 = .error e) :
    s.settle F now shelf token o =
      ⟨.error e, { o with metadata := m },
        (s.run F now (shelf.update { o with metadata := m })).2⟩ := by
  unfold run at he ⊢
  simp only [settle, settleFinalizer, hm, Program.run_bind, he]
  rfl

/-- **A failure was one of a write**: a change was called for, and the store refused it. -/
theorem refused_of_settle {e : Error} (he : (s.settle F now shelf token o).result = .error e) :
    ∃ m, o.metadata.finalizerChange? token = some m ∧
      (s.run F now (shelf.update { o with metadata := m })).1 = .error e := by
  cases hm : o.metadata.finalizerChange? token with
  | none =>
    rw [settle_of_settled hm] at he
    cases he
  | some m =>
    refine ⟨m, rfl, ?_⟩
    cases hw : (s.run F now (shelf.update { o with metadata := m })).1 with
    | ok w =>
      rw [settle_of_written hm hw] at he
      cases he
    | error e' =>
      rw [settle_of_refused hm hw] at he
      cases he
      rfl

/-- **A failure leaves the change behind.** -/
theorem halfDone_of_error (hl : shelf.Lawful F) {e : Error}
    (he : (s.settle F now shelf token o).result = .error e) :
    (s.settle F now shelf token o).HalfDone F shelf token o s := by
  obtain ⟨m, hm, hrefused⟩ := refused_of_settle he
  have hattempted : o.metadata.attempted token = m := by
    rw [Metadata.attempted, hm, Option.getD_some]
  rw [settle_of_refused hm hrefused]
  refine ⟨hl.collections_of_error hrefused, by rw [hattempted], fun hsame => ?_, fun s' now' => ?_,
    fun s' now' hr hstored => ?_⟩
  · exact Metadata.attempted_ne hm (hattempted.trans (congrArg Object.metadata hsame))
  · exact settle_of_settled (hattempted ▸ Metadata.finalizerChange?_attempted _ _)
  · intro again
    obtain ⟨fs, rfl, -⟩ := Metadata.of_finalizerChange?_eq_some hm
    -- A change of the finalizers leaves key and version, so it is `o` that the write meets.
    let wanted : Object σ τ := { o with metadata := { o.metadata with finalizers := some fs } }
    have hcurrent : (shelf.of s').store.current wanted = .ok o := Store.current_eq_ok hstored rfl
    obtain ⟨hwritten, hstore⟩ := hl.run_update_of_current now' hr hcurrent
    have hagain : again = _ := settle_of_written hm hwritten
    rw [hagain]
    exact ⟨rfl, rfl, hstore⟩

/-- No failure leaves the caller's object as it was. -/
theorem settlesWhole_iff_of_lawful (hl : shelf.Lawful F) :
    s.SettlesWhole F shelf token o now ↔
      ∃ written, (s.settle F now shelf token o).result = .ok written := by
  constructor
  · intro hwhole
    cases hr : (s.settle F now shelf token o).result with
    | ok written => exact ⟨written, rfl⟩
    | error e => exact absurd (hwhole e hr).kept (halfDone_of_error hl hr).changed
  · rintro ⟨written, hok⟩ e he
    rw [hok] at he
    cases he

/-- When a call leaves nothing half-done, and what it leaves behind otherwise. -/
structure Accounted (F : Family φ κ ι) (shelf : Shelf σ τ φ κ) (token : String) (o : Object σ τ)
    (s : Stores φ κ) (now : Instant) : Prop where
  whole_iff : s.SettlesWhole F shelf token o now ↔
    ∃ written, (s.settle F now shelf token o).result = .ok written
  halfDone : ∀ e, (s.settle F now shelf token o).result = .error e →
    (s.settle F now shelf token o).HalfDone F shelf token o s

/-- **A call leaves nothing half-done exactly when it does not fail.**  A failure leaves the stores
as they were and the change on the caller's object, with which every other call is idle; the
original object still brings the change about. -/
theorem settlesWhole_iff_accepted (F : Family φ κ ι) (token : String) (s : Stores φ κ) (now : Instant) :
    (∀ f : Fragment φ, s.Accounted F .fragments token f now) ∧
      ∀ c : Composite κ, s.Accounted F .composites token c now :=
  ⟨fun _ => ⟨settlesWhole_iff_of_lawful (Shelf.lawful_fragments F), fun _ =>
      halfDone_of_error (Shelf.lawful_fragments F)⟩,
    fun _ => ⟨settlesWhole_iff_of_lawful (Shelf.lawful_composites F), fun _ =>
      halfDone_of_error (Shelf.lawful_composites F)⟩⟩

/-! ## A write that is refused once -/

/-- A live fragment without finalizers, and the store of it. -/
def unguarded : Fragment RouteSpec × Store RouteSpec FragmentStatus :=
  ({} : Store RouteSpec FragmentStatus).seed ⟨0, 0⟩ (Fragment.ofPathPrefix "r1" "svc-a" "/one")

/-- The store refuses the next update. -/
def unwilling : Stores RouteSpec RouterSpec where
  fragments := ({ store := unguarded.2 } : FaultyStore RouteSpec FragmentStatus).planRefusal
    .update .unavailable

/-- A call that meets the refusal. -/
abbrev refusedOnce : Settlement RouteSpec FragmentStatus RouteSpec RouterSpec :=
  unwilling.settle .routes ⟨1, 0⟩ .fragments fragmentFinalizer unguarded.1

/-- Another call with the original puts the token on. -/
theorem settlesWhole_iff_accepted_refusedOnce :
    let again :=
      refusedOnce.stores.settle .routes ⟨2, 0⟩ .fragments fragmentFinalizer unguarded.1
    again.result = .ok true ∧ again.object.metadata.finalizers = some [fragmentFinalizer] := by
  obtain ⟨e, he⟩ : ∃ e, refusedOnce.result = .error e := ⟨_, rfl⟩
  have hhalf := ((settlesWhole_iff_accepted .routes fragmentFinalizer unwilling ⟨1, 0⟩).1
    unguarded.1).halfDone e he
  obtain ⟨hresult, hobject, -⟩ := hhalf.redone refusedOnce.stores ⟨2, 0⟩ (by decide +kernel)
    (by decide +kernel)
  refine ⟨hresult, ?_⟩
  rw [hobject]
  decide +kernel

/-- Another call with the caller's object is idle, and what is stored stays without the token. -/
theorem change_lost_after_refusal :
    let again :=
      refusedOnce.stores.settle .routes ⟨2, 0⟩ .fragments fragmentFinalizer refusedOnce.object
    ¬ unwilling.SettlesWhole .routes .fragments fragmentFinalizer unguarded.1 ⟨1, 0⟩ ∧
      again.result = .ok false ∧
      (again.stores.fragments.store.objects.get? ⟨"default", "r1"⟩).map (·.metadata.finalizers) =
        some none := by
  refine ⟨fun hwhole => ?_, rfl, by decide +kernel⟩
  obtain ⟨e, he⟩ : ∃ e, refusedOnce.result = .error e := ⟨_, rfl⟩
  have hkept := congrArg (·.metadata.finalizers) (hwhole e he).kept
  have hedited : refusedOnce.object.metadata.finalizers ≠ unguarded.1.metadata.finalizers := by
    decide +kernel
  exact hedited hkept

end Stores

end ConfigMerge
