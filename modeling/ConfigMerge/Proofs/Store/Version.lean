import ConfigMerge.Proofs.Store.Change

/-!
# Proofs/Store/Version — versions are never given twice

Every call leaves a store keyed and only adds versions that were not given out before
(`Store.keyed_perform`, `Store.ages_perform`), whoever makes it.  So a copy of a stored object, kept
while others call the store, is told from all later objects by its version (`Store.Holds`): a write
that carries it succeeds only while that very object is stored.
-/

namespace ConfigMerge

variable {σ τ : Type}

theorem Nat.toString_inj {m n : Nat} (h : toString m = toString n) : m = n := by
  have hdigits : Nat.toDigits 10 m = Nat.toDigits 10 n := by
    have hlist := congrArg String.toList h
    rwa [Nat.toString_eq_ofList_toDigits, Nat.toString_eq_ofList_toDigits, String.toList_ofList,
      String.toList_ofList] at hlist
  rw [← Nat.ofDigitChars_ten_toDigits (n := m), hdigits, Nat.ofDigitChars_ten_toDigits]

/-- The key under which a call writes. -/
def Call.target? : Call (Object σ τ) → Option ObjectKey
  | .get .. | .list _ | .listByLabel .. => none
  | .create o | .update o | .updateStatus o | .delete o => some o.key

namespace Store

variable {s s' s'' : Store σ τ} {k : ObjectKey} {x : Option (Object σ τ)}

/-! ## What any call keeps -/

/-- `s'` is `s` after something was done under `k`: what is stored there now was there before or
carries the newest version. -/
structure Writes (s s' : Store σ τ) (k : ObjectKey) (x : Option (Object σ τ)) : Prop
    extends Changes s s' k x where
  key : s.Keyed → ∀ o, x = some o → o.key = k
  version : s.version ≤ s'.version
  fresh : ∀ o, x = some o → s.objects.get? k = some o ∨
    s.version < s'.version ∧ o.metadata.resourceVersion = some (toString s'.version)

theorem writes_refl (s : Store σ τ) (k : ObjectKey) : s.Writes s k (s.objects.get? k) where
  toChanges := changes_refl s k
  key hs o ho := hs k o ho
  version := Nat.le_refl _
  fresh _ ho := Or.inl ho

theorem writes_write (s : Store σ τ) {o : Object σ τ} (hk : s.Keyed → o.key = k) :
    s.Writes (s.write k o).2 k (some (o.atVersion s.nextVersion)) where
  toChanges := changes_write s k o
  key hs o' ho' := by
    obtain rfl := Option.some.inj ho'
    exact hk hs
  version := Nat.le_succ _
  fresh o' ho' := by
    obtain rfl := Option.some.inj ho'
    exact Or.inr ⟨Nat.lt_succ_self _, rfl⟩

theorem Writes.of_none (hc : s.Changes s' k none) (hv : s.version ≤ s'.version) :
    s.Writes s' k none := by
  refine ⟨hc, fun _ o ho => ?_, hv, fun o ho => ?_⟩ <;> cases ho

theorem writes_replaced (s : Store σ τ) (o stored : Object σ τ) :
    s.Writes (s.replaced o stored) o.key
      (if (o.inPlaceOf stored).IsGone then none
        else some ((o.inPlaceOf stored).atVersion s.nextVersion)) := by
  have hw := writes_write s (k := o.key) (o := o.inPlaceOf stored) fun _ => rfl
  have hc := changes_replaced s o stored
  by_cases hg : (o.inPlaceOf stored).IsGone
  · rw [if_pos hg] at hc ⊢
    rw [replaced, if_pos hg] at hc ⊢
    exact .of_none hc hw.version
  · rw [if_neg hg, replaced, if_neg hg]
    exact hw

theorem writes_requestDeletion (s : Store σ τ) (now : Instant) (k : ObjectKey) :
    ∃ x, s.Writes (s.requestDeletion now k) k x := by
  cases ho : s.objects.get? k with
  | none =>
    rw [requestDeletion_of_absent now ho]
    exact ⟨_, writes_refl s k⟩
  | some o =>
    by_cases hfin : o.metadata.finalizerList = []
    · rw [requestDeletion_of_unguarded now ho hfin]
      exact ⟨none, .of_none (changes_erase s k) (Nat.le_refl _)⟩
    · rw [requestDeletion_of_guarded now ho hfin]
      split
      · exact ⟨_, writes_refl s k⟩
      · exact ⟨_, writes_write s fun hs => hs k o ho⟩

/-- A call without a target changes nothing. -/
theorem perform_of_target?_eq_none (s : Store σ τ) (now : Instant) {c : Call (Object σ τ)}
    (hc : c.target? = none) : (s.perform now c).2 = s := by
  cases c with
  | get | list | listByLabel => rfl
  | create | update | updateStatus | delete => cases hc

/-- **A call does something under its target alone**, and nothing when it is refused. -/
theorem writes_perform (s : Store σ τ) (now : Instant) {c : Call (Object σ τ)}
    (hc : c.target? = some k) : ∃ x, s.Writes (s.perform now c).2 k x := by
  cases c with
  | get | list | listByLabel => cases hc
  | create o =>
    obtain rfl : o.key = k := Option.some.inj hc
    cases hr : s.objects.get? o.key with
    | some stored =>
      rw [perform_create_refused now hr]
      exact ⟨_, writes_refl s _⟩
    | none =>
      rw [perform_create now hr]
      exact ⟨_, writes_write s fun _ => rfl⟩
  | update o =>
    obtain rfl : o.key = k := Option.some.inj hc
    cases hr : s.current o with
    | error e =>
      rw [perform_update_refused now hr]
      exact ⟨_, writes_refl s _⟩
    | ok stored =>
      rw [perform_update now hr]
      exact ⟨_, writes_replaced s o stored⟩
  | updateStatus o =>
    obtain rfl : o.key = k := Option.some.inj hc
    cases hr : s.current o with
    | error e =>
      rw [perform_updateStatus_refused now hr]
      exact ⟨_, writes_refl s _⟩
    | ok stored =>
      rw [perform_updateStatus now hr]
      exact ⟨_, writes_write s fun hs => hs _ stored (of_current_eq_ok hr).1⟩
  | delete o =>
    obtain rfl : o.key = k := Option.some.inj hc
    cases hr : s.current o with
    | error e =>
      rw [perform_delete_refused now hr]
      exact ⟨_, writes_refl s _⟩
    | ok stored =>
      rw [perform_delete now hr]
      exact writes_requestDeletion s now o.key

/-- A call leaves every key but its target as it was. -/
theorem perform_elsewhere (s : Store σ τ) (now : Instant) {c : Call (Object σ τ)}
    (hk : c.target? ≠ some k) : (s.perform now c).2.objects.get? k = s.objects.get? k := by
  cases hc : c.target? with
  | none => rw [perform_of_target?_eq_none s now hc]
  | some k' =>
    obtain ⟨x, hw⟩ := writes_perform s now hc
    exact hw.elsewhere k fun heq => hk (heq ▸ hc)

theorem keyed_perform (hs : s.Keyed) (now : Instant) (c : Call (Object σ τ)) :
    (s.perform now c).2.Keyed := by
  cases hc : c.target? with
  | none => rwa [perform_of_target?_eq_none s now hc]
  | some k =>
    obtain ⟨x, hw⟩ := writes_perform s now hc
    exact hs.changes hw.toChanges (hw.key hs)

/-! ## Versions -/

/-- Every object carries a version that was given out. -/
def Numbered (s : Store σ τ) : Prop :=
  ∀ k o, s.objects.get? k = some o →
    ∃ n ≤ s.version, o.metadata.resourceVersion = some (toString n)

/-- What is stored in `s'` was stored in `s` or carries a version given out since. -/
structure Ages (s s' : Store σ τ) : Prop where
  version : s.version ≤ s'.version
  fresh : ∀ k o, s'.objects.get? k = some o → s.objects.get? k = some o ∨
    ∃ n, s.version < n ∧ n ≤ s'.version ∧ o.metadata.resourceVersion = some (toString n)

theorem Ages.refl (s : Store σ τ) : s.Ages s := ⟨Nat.le_refl _, fun _ _ ho => Or.inl ho⟩

theorem Ages.trans (h : s.Ages s') (h' : s'.Ages s'') : s.Ages s'' where
  version := Nat.le_trans h.version h'.version
  fresh k o ho := by
    rcases h'.fresh k o ho with ho' | ⟨n, hlt, hle, hv⟩
    · rcases h.fresh k o ho' with hold | ⟨n, hlt, hle, hv⟩
      · exact Or.inl hold
      · exact Or.inr ⟨n, hlt, Nat.le_trans hle h'.version, hv⟩
    · exact Or.inr ⟨n, Nat.lt_of_le_of_lt h.version hlt, hle, hv⟩

theorem Writes.ages (h : s.Writes s' k x) : s.Ages s' where
  version := h.version
  fresh k' o ho := by
    by_cases hk : k' = k
    · subst hk
      rcases h.fresh o (h.here.symm.trans ho) with hold | ⟨hlt, hv⟩
      · exact Or.inl hold
      · exact Or.inr ⟨s'.version, hlt, Nat.le_refl _, hv⟩
    · exact Or.inl ((h.elsewhere k' hk).symm.trans ho)

/-- **Any call only adds new versions.** -/
theorem ages_perform (s : Store σ τ) (now : Instant) (c : Call (Object σ τ)) :
    s.Ages (s.perform now c).2 := by
  cases hc : c.target? with
  | none =>
    rw [perform_of_target?_eq_none s now hc]
    exact .refl s
  | some k =>
    obtain ⟨x, hw⟩ := writes_perform s now hc
    exact hw.ages

theorem Numbered.ages (hs : s.Numbered) (h : s.Ages s') : s'.Numbered := by
  intro k o ho
  rcases h.fresh k o ho with hold | ⟨n, -, hle, hv⟩
  · obtain ⟨n, hle, hv⟩ := hs k o hold
    exact ⟨n, Nat.le_trans hle h.version, hv⟩
  · exact ⟨n, hle, hv⟩

theorem numbered_empty : ({} : Store σ τ).Numbered := by
  intro k o ho
  cases ho

/-- Seeding gives out the next version. -/
theorem Numbered.seed (hs : s.Numbered) (now : Instant) (o : Object σ τ) :
    (s.seed now o).2.Numbered :=
  hs.ages (writes_write s fun _ => rfl).ages

/-! ## Copies -/

/-- A copy of an object that is or was stored: whatever is stored in its place with its version is
the object itself. -/
structure Holds (s : Store σ τ) (o : Object σ τ) : Prop where
  numbered : ∃ n ≤ s.version, o.metadata.resourceVersion = some (toString n)
  same : ∀ o', s.objects.get? o.key = some o' →
    o'.metadata.resourceVersion = o.metadata.resourceVersion → o' = o

theorem Numbered.holds (hs : s.Numbered) {o : Object σ τ} (ho : s.objects.get? k = some o)
    (hk : o.key = k) : s.Holds o where
  numbered := hs k o ho
  same _ ho' _ := Option.some.inj (ho'.symm.trans (hk ▸ ho))

/-- **A copy stays good** while the store ages. -/
theorem Holds.ages {o : Object σ τ} (h : s.Holds o) (ha : s.Ages s') : s'.Holds o := by
  obtain ⟨n, hle, hv⟩ := h.numbered
  refine ⟨⟨n, Nat.le_trans hle ha.version, hv⟩, fun o' ho' hv' => ?_⟩
  rcases ha.fresh _ o' ho' with hold | ⟨m, hlt, -, hm⟩
  · exact h.same o' hold hv'
  · have hnm : m = n := Nat.toString_inj (Option.some.inj (hm.symm.trans (hv'.trans hv)))
    omega

/-- **A write that carries a copy's version meets the very object.** -/
theorem Holds.eq_of_current {o o' stored : Object σ τ} (h : s.Holds o) (hk : o'.key = o.key)
    (hv : o'.metadata.resourceVersion = o.metadata.resourceVersion)
    (hc : s.current o' = .ok stored) : stored = o := by
  obtain ⟨hget, hcheck⟩ := of_current_eq_ok hc
  obtain ⟨n, -, hn⟩ := h.numbered
  have hsome : o'.metadata.resourceVersion.isSome := by rw [hv, hn, Option.isSome_some]
  exact h.same stored (hk ▸ hget) ((hcheck hsome).symm.trans hv)

/-- What is stored now under a copy's version was stored when the copy was good. -/
theorem Holds.stored_of_ages {o : Object σ τ} (h : s.Holds o) (ha : s.Ages s')
    (ho : s'.objects.get? o.key = some o) : s.objects.get? o.key = some o := by
  rcases ha.fresh _ o ho with hold | ⟨n, hlt, -, hn⟩
  · exact hold
  · obtain ⟨m, hle, hm⟩ := h.numbered
    obtain rfl : n = m := Nat.toString_inj (Option.some.inj (hn.symm.trans hm))
    omega

/-- What has replaced an object is a good copy. -/
theorem holds_replaced (s : Store σ τ) (o stored : Object σ τ) :
    (s.replaced o stored).Holds ((o.inPlaceOf stored).atVersion s.nextVersion) where
  numbered := by
    refine ⟨s.version + 1, ?_, rfl⟩
    unfold replaced
    split <;> exact Nat.le_refl _
  same o' ho' _ := by
    have hhere := (changes_replaced s o stored).here
    have hkey : ((o.inPlaceOf stored).atVersion s.nextVersion).key = o.key := rfl
    rw [hkey, hhere] at ho'
    split at ho'
    · cases ho'
    · exact (Option.some.inj ho').symm

end Store

end ConfigMerge
