import ConfigMerge.Proofs.Reconcile.Race

/-!
# Proofs/Reconcile/Scene — what every move of a race keeps

`Scene.Valid` holds throughout a race, and `Scene.Grows` is what any move does to it.  A call keeps
both when it leaves the live fragments the same and writes the composite of the key only in line
with the listing of its pass (`Valid.call`).  Readings and merges of other keys do so
(`Valid.call_quiet`), and so do the writes that carry a version that the pass has read
(`Valid.call_own`, `Valid.call_write`).
-/

namespace ConfigMerge

variable {φ κ ι π : Type}

namespace Scene

variable {F : Family φ κ ι} {ns key : String} {name : π → String} {s s' s'' : Scene φ κ π}

/-- What is stored as the composite of the key. -/
def composite (ns key : String) (s : Scene φ κ π) : Option (Composite κ) :=
  s.stores.composites.store.objects.get? ⟨ns, key⟩

/-- The stored fragments. -/
def fragments (s : Scene φ κ π) : Store φ FragmentStatus := s.stores.fragments.store

/-- What holds throughout a race over the fragments with these names. -/
structure Valid (F : Family φ κ ι) (ns key : String) (name : π → String) (s : Scene φ κ π) :
    Prop where
  undisturbed : s.stores.Undisturbed
  fragments : s.fragments.Keyed
  fragmentsNumbered : s.fragments.Numbered
  composites : s.stores.composites.store.Keyed
  compositesNumbered : s.stores.composites.store.Numbered
  stays : ∀ c, s.composite ns key = some c → ¬ c.IsGone
  present : ∀ i, ∃ f, s.fragments.objects.get? ⟨ns, name i⟩ = some f ∧ F.IsLive key f
  basis : ∀ l, s.basis = some l → l ≠ [] ∧ F.Matches key ns l (s.composite ns key)
  begun : ∀ i b, s.begun i = some b → b ≤ s.edits
  lastEdit : s.edits = 0 ∨ ∃ n, s.lastEdit n = s.edits

/-- What any move does: versions are only added, live fragments change by edits alone, and the
composite of the key by writes that are on record. -/
structure Grows (ns key : String) (s s' : Scene φ κ π) : Prop where
  fragments : s.fragments.Ages s'.fragments
  composites : s.stores.composites.store.Ages s'.stores.composites.store
  edits : s.edits ≤ s'.edits
  sameLive : s'.edits = s.edits → Family.SameLive ns s.fragments s'.fragments
  basis : s'.basis = none → s.basis = none ∧ s'.composite ns key = s.composite ns key
  begun : ∀ i b, s.begun i = some b → s'.begun i = some b

theorem Grows.refl (ns key : String) (s : Scene φ κ π) : Grows ns key s s where
  fragments := .refl _
  composites := .refl _
  edits := Nat.le_refl _
  sameLive _ := .refl ns _
  basis h := ⟨h, rfl⟩
  begun _ _ h := h

theorem Grows.trans (h : Grows ns key s s') (h' : Grows ns key s' s'') : Grows ns key s s'' where
  fragments := h.fragments.trans h'.fragments
  composites := h.composites.trans h'.composites
  edits := Nat.le_trans h.edits h'.edits
  sameLive he := by
    have hle := h.edits
    have hle' := h'.edits
    exact (h.sameLive (by omega)).trans (h'.sameLive (by omega))
  basis hb := by
    obtain ⟨hb', hc'⟩ := h'.basis hb
    obtain ⟨hb'', hc⟩ := h.basis hb'
    exact ⟨hb'', hc'.trans hc⟩
  begun i b hb := h'.begun i b (h.begun i b hb)

/-- The passes' fragments stay live through whatever leaves the live fragments the same. -/
theorem present_of_sameLive {t t' : Store φ FragmentStatus} (h : Family.SameLive ns t t')
    {n : String} (hf : ∃ f, t.objects.get? ⟨ns, n⟩ = some f ∧ F.IsLive key f) :
    ∃ f, t'.objects.get? ⟨ns, n⟩ = some f ∧ F.IsLive key f := by
  obtain ⟨f, hget, hlive⟩ := hf
  have hat : Family.liveAt? t ⟨ns, n⟩ = some f.bare :=
    Family.liveAt?_eq_some.mpr ⟨f, hget, hlive.2, rfl⟩
  obtain ⟨f', hget', -, hbare⟩ := Family.liveAt?_eq_some.mp ((h n).symm.trans hat)
  have hlive' : F.IsLive key f'.bare := hbare ▸ hlive
  exact ⟨f', hget', hlive'⟩

/-! ## Calls -/

section Call

variable [DecidableEq π] {i : π} {now : Instant}

/-- A call to the fragments, on stores that refuse nothing. -/
theorem call_fragments (hs : s.stores.Undisturbed) {c : Call (Fragment φ)}
    {a : Except Error c.Result} (h : s.call F ns key i now (.fragments c) = (a, s')) :
    a = (FaultyStore.arrange s.stores.fragments.reversed c (s.fragments.perform now c).1).mapError
        (Refusal.toError F.fragments.kind c) ∧
      s'.fragments = (s.fragments.perform now c).2 ∧
      s'.stores.composites.store = s.stores.composites.store := by
  obtain ⟨ha, hheld, -⟩ := Stores.answer_of_undisturbed F now hs (.fragments c)
  obtain ⟨rfl, rfl⟩ := Prod.mk.inj h
  exact ⟨ha, congrArg Collections.fragments hheld, congrArg Collections.composites hheld⟩

/-- A call to the composites, on stores that refuse nothing. -/
theorem call_composites (hs : s.stores.Undisturbed) {c : Call (Composite κ)}
    {a : Except Error c.Result} (h : s.call F ns key i now (.composites c) = (a, s')) :
    a = (FaultyStore.arrange s.stores.composites.reversed c
        (s.stores.composites.store.perform now c).1).mapError
        (Refusal.toError F.composites.kind c) ∧
      s'.stores.composites.store = (s.stores.composites.store.perform now c).2 ∧
      s'.fragments = s.fragments := by
  obtain ⟨ha, hheld, -⟩ := Stores.answer_of_undisturbed F now hs (.composites c)
  obtain ⟨rfl, rfl⟩ := Prod.mk.inj h
  exact ⟨ha, congrArg Collections.composites hheld, congrArg Collections.fragments hheld⟩

/-- What holds of the stores of a race by themselves is kept by any call. -/
theorem stores_of_call (hv : s.Valid F ns key name) {q : PassCall φ κ} {a : q.Answer}
    (h : s.call F ns key i now q = (a, s')) :
    s'.stores.Undisturbed ∧ s'.fragments.Keyed ∧ s'.stores.composites.store.Keyed ∧
      s.fragments.Ages s'.fragments ∧
      s.stores.composites.store.Ages s'.stores.composites.store := by
  have hcalm : s'.stores.Undisturbed := by
    obtain ⟨-, -, hcalm⟩ := Stores.answer_of_undisturbed F now hv.undisturbed q
    obtain ⟨rfl, rfl⟩ := Prod.mk.inj h
    exact hcalm
  cases q with
  | fragments c =>
    obtain ⟨-, hf, hc⟩ := call_fragments hv.undisturbed h
    rw [hf, hc]
    exact ⟨hcalm, Store.keyed_perform hv.fragments now c, hv.composites,
      Store.ages_perform _ now c, .refl _⟩
  | composites c =>
    obtain ⟨-, hc, hf⟩ := call_composites hv.undisturbed h
    rw [hf, hc]
    exact ⟨hcalm, hv.fragments, Store.keyed_perform hv.composites now c, .refl _,
      Store.ages_perform _ now c⟩

/-- What a call puts on record: that its pass has begun, and the pass's listing when the composite of
the key was written. -/
structure Records (ns key : String) (i : π) (q : PassCall φ κ) (a : q.Answer) (s s' : Scene φ κ π) :
    Prop where
  edits : s'.edits = s.edits
  lastEdit : s'.lastEdit = s.lastEdit
  listing : ∀ j, j ≠ i → s'.listing j = s.listing j
  begun : s'.begun = Function.update s.begun i (some ((s.begun i).getD s.edits))
  basis : s'.basis = if q.HasWritten ⟨ns, key⟩ a then some (s.listing i) else s.basis

theorem records_of_call {q : PassCall φ κ} {a : q.Answer}
    (h : s.call F ns key i now q = (a, s')) : Records ns key i q a s s' := by
  obtain ⟨rfl, rfl⟩ := Prod.mk.inj h
  exact {
    edits := rfl
    lastEdit := rfl
    listing := fun j hj => Function.update_of_ne hj _ _
    begun := rfl
    basis := rfl }

section Records

variable {q : PassCall φ κ} {a : q.Answer}

theorem Records.begun_eq (h : Records ns key i q a s s') {j : π} {b : Nat}
    (hb : s.begun j = some b) : s'.begun j = some b := by
  rw [h.begun]
  by_cases hj : j = i
  · subst hj
    rw [Function.update_self, hb, Option.getD_some]
  · rw [Function.update_of_ne hj, hb]

/-- A pass begins at the edits that there are. -/
theorem Records.begun_le (h : Records ns key i q a s s')
    (hs : ∀ j b, s.begun j = some b → b ≤ s.edits) {j : π} {b : Nat} (hb : s'.begun j = some b) :
    b ≤ s'.edits := by
  rw [h.edits]
  cases hj : s.begun j with
  | some b' =>
    obtain rfl : b' = b := Option.some.inj ((h.begun_eq hj).symm.trans hb)
    exact hs j b' hj
  | none =>
    rw [h.begun] at hb
    by_cases hi : j = i
    · subst hi
      rw [Function.update_self, hj, Option.getD_none] at hb
      exact Nat.le_of_eq (Option.some.inj hb).symm
    · rw [Function.update_of_ne hi, hj] at hb
      cases hb

end Records

/-- How a call may leave the composite of the key: written in line with the pass's listing, or not
touched. -/
def KeepsComposite (F : Family φ κ ι) (ns key : String) (i : π) (q : PassCall φ κ) (a : q.Answer)
    (s s' : Scene φ κ π) : Prop :=
  (q.HasWritten ⟨ns, key⟩ a ∧ s.listing i ≠ [] ∧
    F.Matches key ns (s.listing i) (s'.composite ns key) ∧
    ∀ c, s'.composite ns key = some c → ¬ c.IsGone) ∨
  (¬ q.HasWritten ⟨ns, key⟩ a ∧ s'.composite ns key = s.composite ns key)

/-- **A call within bounds**: it leaves the live fragments the same, and the composite of the key as
above. -/
theorem Valid.call (hv : s.Valid F ns key name) {q : PassCall φ κ} {a : q.Answer}
    (h : s.call F ns key i now q = (a, s'))
    (hlive : Family.SameLive ns s.fragments s'.fragments)
    (hkeeps : KeepsComposite F ns key i q a s s') :
    s'.Valid F ns key name ∧ Grows ns key s s' ∧ (∀ j, j ≠ i → s'.listing j = s.listing j) ∧
      ∃ b, s'.begun i = some b := by
  obtain ⟨hcalm, hfragments, hcomposites, hages, hages'⟩ := stores_of_call hv h
  have hrecords := records_of_call h
  have hbasis := hrecords.basis
  refine ⟨?_, ?_, hrecords.listing, _, by rw [hrecords.begun, Function.update_self]⟩
  · refine {
      undisturbed := hcalm
      fragments := hfragments
      fragmentsNumbered := hv.fragmentsNumbered.ages hages
      composites := hcomposites
      compositesNumbered := hv.compositesNumbered.ages hages'
      stays := fun c hc => ?_
      present := fun j => present_of_sameLive hlive (hv.present j)
      basis := fun l hl => ?_
      begun := fun j b hb => hrecords.begun_le hv.begun hb
      lastEdit := by rw [hrecords.edits, hrecords.lastEdit]; exact hv.lastEdit }
    · rcases hkeeps with ⟨-, -, -, hstays⟩ | ⟨-, hsame⟩
      · exact hstays c hc
      · exact hv.stays c (hsame ▸ hc)
    · rcases hkeeps with ⟨hw, hne, hmatch, -⟩ | ⟨hw, hsame⟩
      · rw [hbasis, if_pos hw] at hl
        obtain rfl := Option.some.inj hl
        exact ⟨hne, hmatch⟩
      · rw [hbasis, if_neg hw] at hl
        rw [hsame]
        exact hv.basis l hl
  · refine ⟨hages, hages', Nat.le_of_eq hrecords.edits.symm, fun _ => hlive, fun hb => ?_,
      fun j b hb => hrecords.begun_eq hb⟩
    rcases hkeeps with ⟨hw, -⟩ | ⟨hw, hsame⟩
    · rw [hbasis, if_pos hw] at hb
      cases hb
    · rw [hbasis, if_neg hw] at hb
      exact ⟨hb, hsame⟩

/-- A call that neither writes a fragment nor touches the composite of the key. -/
def Quiet (ns key : String) : PassCall φ κ → Prop
  | .fragments c => c.target? = none
  | .composites c => c.target? ≠ some ⟨ns, key⟩

theorem Valid.call_quiet (hv : s.Valid F ns key name) {q : PassCall φ κ} {a : q.Answer}
    (h : s.call F ns key i now q = (a, s')) (hq : Quiet ns key q) :
    s'.Valid F ns key name ∧ Grows ns key s s' ∧ (∀ j, j ≠ i → s'.listing j = s.listing j) ∧
      ∃ b, s'.begun i = some b := by
  cases q with
  | fragments c =>
    obtain ⟨-, hf, hc⟩ := call_fragments hv.undisturbed h
    rw [Store.perform_of_target?_eq_none _ _ hq] at hf
    exact hv.call h (hf ▸ .refl ns _) (Or.inr ⟨id, congrArg (·.objects.get? ⟨ns, key⟩) hc⟩)
  | composites c =>
    obtain ⟨-, hc, hf⟩ := call_composites hv.undisturbed h
    refine hv.call h (hf ▸ .refl ns _) (Or.inr ⟨?_, ?_⟩)
    · cases a with
      | error e => exact id
      | ok r => exact hq
    · rw [composite, hc]
      exact Store.perform_elsewhere _ now hq

/-- A call to the fragments alone, when it leaves the live ones the same. -/
theorem Valid.call_own (hv : s.Valid F ns key name) {c : Call (Fragment φ)}
    {a : Except Error c.Result} (h : s.call F ns key i now (.fragments c) = (a, s'))
    (hlive : Family.SameLive ns s.fragments (s.fragments.perform now c).2) :
    s'.Valid F ns key name ∧ Grows ns key s s' ∧ (∀ j, j ≠ i → s'.listing j = s.listing j) ∧
      ∃ b, s'.begun i = some b := by
  obtain ⟨-, hf, hc⟩ := call_fragments hv.undisturbed h
  exact hv.call h (hf ▸ hlive) (Or.inr ⟨id, congrArg (·.objects.get? ⟨ns, key⟩) hc⟩)

/-- What a write to the composite of the key is to do when it is not refused: store one that agrees
with the fragments listed, and that stays. -/
def WritesInLine (F : Family φ κ ι) (ns key : String) (l : List (Fragment φ))
    (t : Store κ Empty) (now : Instant) (c : Call (Composite κ)) : Prop :=
  (∃ e, t.perform now c = (.error e, t)) ∨
    ∃ r x, (t.perform now c).1 = .ok r ∧
      t.Changes (t.perform now c).2 ⟨ns, key⟩ (some x) ∧
      F.Matches key ns l (some x) ∧ ¬ x.IsGone

/-- **A write in line with the pass's listing is within bounds**, and puts that listing on
record. -/
theorem Valid.call_write (hv : s.Valid F ns key name) {c : Call (Composite κ)}
    {a : Except Error c.Result} (h : s.call F ns key i now (.composites c) = (a, s'))
    (hc : c.target? = some ⟨ns, key⟩) (hne : s.listing i ≠ [])
    (hw : WritesInLine F ns key (s.listing i) s.stores.composites.store now c) :
    s'.Valid F ns key name ∧ Grows ns key s s' ∧ (∀ j, j ≠ i → s'.listing j = s.listing j) ∧
      ∀ r, a = .ok r → s'.basis ≠ none := by
  obtain ⟨ha, hstore, hf⟩ := call_composites hv.undisturbed h
  have hbasis := (records_of_call h).basis
  rcases hw with ⟨e, hrefused⟩ | ⟨r, x, hr, hchange, hmatch, hstays⟩
  · have herror : a = .error (Refusal.toError F.composites.kind c e) := by
      rw [ha, hrefused]
      cases c <;> rfl
    obtain ⟨hv', hg, hl, -⟩ := hv.call h (hf ▸ .refl ns _) (Or.inr ⟨herror ▸ id, by
      rw [composite, hstore, hrefused, composite]⟩)
    exact ⟨hv', hg, hl, fun r hr => by rw [herror] at hr; cases hr⟩
  · obtain ⟨r', hok⟩ : ∃ r', a = .ok r' := by
      rw [ha, hr]
      cases c <;> exact ⟨_, rfl⟩
    have hwritten : PassCall.HasWritten (φ := φ) ⟨ns, key⟩ (.composites c) a := by
      rw [hok]
      exact hc
    have hat : s'.composite ns key = some x := by rw [composite, hstore]; exact hchange.here
    obtain ⟨hv', hg, hl, -⟩ := hv.call h (hf ▸ .refl ns _)
      (Or.inl ⟨hwritten, hne, hat ▸ hmatch, fun c' hc' => by
        obtain rfl := Option.some.inj (hat.symm.trans hc')
        exact hstays⟩)
    refine ⟨hv', hg, hl, fun _ _ => ?_⟩
    rw [hbasis, if_pos hwritten]
    exact Option.some_ne_none _

end Call

/-! ## Edits -/

theorem edit_of_absent {n : String} (h : s.fragments.objects.get? ⟨ns, n⟩ = none) (spec : φ) :
    s.edit ns n spec = s := by
  have hnone := Store.edit_of_absent h ({ · with spec })
  unfold fragments at hnone
  simp only [Scene.edit, hnone]

theorem edit_of_stored {n : String} {f : Fragment φ}
    (h : s.fragments.objects.get? ⟨ns, n⟩ = some f) (spec : φ) :
    s.edit ns n spec = { s with
      stores := { s.stores with fragments := { s.stores.fragments with
        store := (s.fragments.write ⟨ns, n⟩ { f with spec }).2 } }
      edits := s.edits + 1
      lastEdit := Function.update s.lastEdit n (s.edits + 1) } := by
  have hsome := Store.edit_of_stored h ({ · with spec })
  unfold fragments at hsome
  simp only [Scene.edit, hsome, fragments]

/-- **An edit within bounds**: it changes the content of one fragment and is on record. -/
theorem Valid.edit (hv : s.Valid F ns key name) (n : String) (spec : φ) :
    (s.edit ns n spec).Valid F ns key name ∧ Grows ns key s (s.edit ns n spec) ∧
      (s.edit ns n spec).listing = s.listing := by
  cases hf : s.fragments.objects.get? ⟨ns, n⟩ with
  | none =>
    rw [edit_of_absent hf]
    exact ⟨hv, .refl ns key s, rfl⟩
  | some f =>
    have hw := Store.writes_write s.fragments (k := ⟨ns, n⟩) (o := { f with spec })
      fun hs => hs _ f hf
    rw [edit_of_stored hf]
    refine ⟨?_, ?_, rfl⟩
    · exact {
        undisturbed := ⟨hv.undisturbed.fragments, hv.undisturbed.composites⟩
        fragments := hv.fragments.changes hw.toChanges (hw.key hv.fragments)
        fragmentsNumbered := hv.fragmentsNumbered.ages hw.ages
        composites := hv.composites
        compositesNumbered := hv.compositesNumbered
        stays := hv.stays
        present := fun i => by
          obtain ⟨g, hg, hlive⟩ := hv.present i
          by_cases hn : name i = n
          · rw [hn] at hg ⊢
            obtain rfl : f = g := Option.some.inj (hf.symm.trans hg)
            exact ⟨_, hw.here, hlive⟩
          · exact ⟨g, (hw.elsewhere _ (by simpa using hn)).trans hg, hlive⟩
        basis := hv.basis
        begun := fun i b hb => Nat.le_succ_of_le (hv.begun i b hb)
        lastEdit := Or.inr ⟨n, Function.update_self ..⟩ }
    · exact {
        fragments := hw.ages
        composites := .refl _
        edits := Nat.le_succ _
        sameLive := fun he => absurd he (Nat.succ_ne_self _)
        basis := fun hb => ⟨hb, rfl⟩
        begun := fun _ _ hb => hb }

end Scene

/-! ## Writes to the composite of the key -/

section Composites

variable {F : Family φ κ ι} {ns key : String} {t : Store κ Empty} {l : List (Fragment φ)}

theorem Scene.writesInLine_create (hne : l ≠ []) (now : Instant) :
    Scene.WritesInLine F ns key l t now (.create (F.expected key ns l)) := by
  cases habsent : t.objects.get? (F.expected key ns l).key with
  | some stored => exact Or.inl ⟨_, Store.perform_create_refused now habsent⟩
  | none =>
    refine Or.inr ⟨_, (F.expected key ns l).asNew now t.nextVersion,
      congrArg Prod.fst (Store.perform_create now habsent), ?_, ?_, ?_⟩
    · rw [Store.perform_create now habsent]
      exact Store.changes_seed t now (F.expected key ns l)
    · exact ⟨hne, rfl, rfl⟩
    · rintro ⟨hdel, -⟩
      cases hdel

/-- A renewal carries the version that was read, so it replaces just what was read. -/
theorem Scene.writesInLine_update (hne : l ≠ []) (now : Instant) {c : Composite κ}
    (hh : t.Holds c) (hk : c.key = ⟨ns, key⟩) (hstays : ¬ c.IsGone) :
    Scene.WritesInLine F ns key l t now (.update (Family.renewed c (F.expected key ns l))) := by
  cases hc : t.current (Family.renewed c (F.expected key ns l)) with
  | error e => exact Or.inl ⟨e, Store.perform_update_refused now hc⟩
  | ok stored =>
    obtain rfl : stored = c := hh.eq_of_current rfl rfl hc
    have hstays' : ¬ ((Family.renewed stored (F.expected key ns l)).inPlaceOf stored).IsGone :=
      hstays
    have hchange := Store.changes_replaced t (Family.renewed stored (F.expected key ns l)) stored
    rw [if_neg hstays'] at hchange
    refine Or.inr ⟨_, ((Family.renewed stored (F.expected key ns l)).inPlaceOf stored).atVersion
      t.nextVersion, congrArg Prod.fst (Store.perform_update now hc), ?_, ?_, ?_⟩
    · rw [Store.perform_update now hc, ← hk]
      exact hchange
    · exact ⟨hne, rfl, rfl⟩
    · exact hstays

end Composites

/-! ## Writes to a held fragment -/

namespace Store

variable {s : Store φ FragmentStatus} {f : Fragment φ} {ns key : String}

/-- What a write to a live fragment leaves when nothing that counts is changed: the live fragments
are the same, and the answer is a good copy of what is stored now. -/
theorem sameLive_of_changes (ns : String) {t : Store φ FragmentStatus} (hs : s.Numbered)
    (hages : s.Ages t)
    {k : ObjectKey} {g : Fragment φ} (hc : s.Changes t k (some g))
    (hf : s.objects.get? k = some f) (hk : f.key = k) (hbare : g.bare = f.bare) :
    Family.SameLive ns s t ∧ t.Holds g := by
  refine ⟨.of_changes_bare hc hf (fun hnone => by cases hnone) fun f' hf' => ?_, ?_⟩
  · obtain rfl := Option.some.inj hf'
    exact hbare
  · exact (hs.ages hages).holds hc.here ((Object.key_eq_of_bare_eq hbare).trans hk)

/-- **A change of the finalizers that carries a held version** leaves the live fragments the same,
whether it is refused or not. -/
theorem Holds.sameLive_update (ns : String) (h : s.Holds f) (hs : s.Numbered) (now : Instant)
    (hlive : f.metadata.isBeingDeleted = false) (fs : List String) :
    let o : Fragment φ := { f with metadata := { f.metadata with finalizers := some fs } }
    Family.SameLive ns s (s.perform now (.update o)).2 ∧
      ∀ g, (s.perform now (.update o)).1 = .ok g →
        (s.perform now (.update o)).2.Holds g ∧ g.bare = f.bare := by
  intro o
  have hages := s.ages_perform now (.update o)
  cases hc : s.current o with
  | error e =>
    rw [perform_update_refused now hc]
    refine ⟨.refl ns s, fun g hg => ?_⟩
    cases hg
  | ok stored =>
    obtain rfl : stored = f := h.eq_of_current rfl rfl hc
    rw [perform_update now hc] at hages ⊢
    have hchange := changes_replaced s o stored
    rw [if_neg (Object.not_isGone_inPlaceOf o hlive)] at hchange
    obtain ⟨hsame, hholds⟩ := sameLive_of_changes ns hs hages hchange
      (of_current_eq_ok hc).1 rfl rfl
    refine ⟨hsame, fun g hg => ?_⟩
    obtain rfl := Except.ok.inj hg
    exact ⟨hholds, rfl⟩

/-- …and so does a status write. -/
theorem Holds.sameLive_updateStatus (ns : String) (h : s.Holds f) (hs : s.Numbered) (now : Instant)
    (status : Option FragmentStatus) :
    Family.SameLive ns s (s.perform now (.updateStatus { f with status })).2 := by
  have hages := s.ages_perform now (.updateStatus { f with status })
  cases hc : s.current { f with status } with
  | error e =>
    rw [perform_updateStatus_refused now hc]
    exact .refl ns s
  | ok stored =>
    obtain rfl : stored = f := h.eq_of_current rfl rfl hc
    rw [perform_updateStatus now hc] at hages ⊢
    exact (sameLive_of_changes ns hs hages (changes_write s _ _) (of_current_eq_ok hc).1 rfl rfl).1

end Store

end ConfigMerge
