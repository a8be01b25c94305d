import ConfigMerge.Proofs.Store.Collections
import ConfigMerge.Proofs.Store.Operation
import Mathlib.Data.List.TakeWhile

/-!
# Proofs/Store/Identity — versions and uids are never given twice

A uid is made of the name and the number of the version with which an object is first stored, so
uids differ when their numbers do (`uidText_inj`), whatever the names are.  From then on an object
keeps its uid until it goes: calls and operations let it inherit the uid (`Store.Inherits`), as they
age its version (`Store.Ages`).

A `FaultyStore.Event` is anything that can happen to a store.  Over any history of events from an
empty one, a version stands for one content, and a uid for one object
(`FaultyStore.run_identifies`).
-/

namespace ConfigMerge

variable {σ τ : Type}

/-! ## Uids -/

/-- The uid of an object that was first stored under a name as a version of this number. -/
def uidText (name : String) (number : Nat) : String := "uid-" ++ name ++ "-" ++ toString number

/-- The number is what stands behind the last dash. -/
theorem takeWhile_reverse_uidText (name : String) (number : Nat) :
    (uidText name number).toList.reverse.takeWhile (· ≠ '-') =
      (Nat.toDigits 10 number).reverse := by
  have hdigits : ∀ c ∈ (Nat.toDigits 10 number).reverse, decide (c ≠ '-') = true := by
    intro c hc
    have hdigit := Nat.isDigit_of_mem_toDigits (by decide) (by decide) (List.mem_reverse.mp hc)
    refine decide_eq_true ?_
    rintro rfl
    exact absurd hdigit (by decide)
  have htext : (uidText name number).toList.reverse =
      (Nat.toDigits 10 number).reverse ++ '-' :: ("uid-" ++ name).toList.reverse := by
    simp [uidText]
  rw [htext, List.takeWhile_append_of_pos hdigits, List.takeWhile_cons_of_neg (by decide),
    List.append_nil]

/-- **Uids with different numbers differ**, whatever the names are. -/
theorem uidText_inj {name name' : String} {n n' : Nat} (h : uidText name n = uidText name' n') :
    n = n' := by
  have hdigits : (Nat.toDigits 10 n).reverse = (Nat.toDigits 10 n').reverse := by
    rw [← takeWhile_reverse_uidText name, h, takeWhile_reverse_uidText]
  calc n = Nat.ofDigitChars 10 (Nat.toDigits 10 n) 0 := Nat.ofDigitChars_ten_toDigits.symm
    _ = Nat.ofDigitChars 10 (Nat.toDigits 10 n') 0 := by rw [List.reverse_inj.mp hdigits]
    _ = n' := Nat.ofDigitChars_ten_toDigits

namespace Store

variable {s s' s'' : Store σ τ} {k k' : ObjectKey} {x : Option (Object σ τ)} {o o' : Object σ τ}

/-! ## Inheritance -/

/-- What is stored in `s'` has the uid of what `s` stored in its place, or one made since. -/
structure Inherits (s s' : Store σ τ) : Prop where
  version : s.version ≤ s'.version
  uid : ∀ k o, s'.objects.get? k = some o →
    (∃ o₀, s.objects.get? k = some o₀ ∧ o₀.metadata.uid = o.metadata.uid) ∨
      ∃ n, s.version < n ∧ n ≤ s'.version ∧ o.metadata.uid = some (uidText k.name n)

theorem Inherits.refl (s : Store σ τ) : s.Inherits s :=
  ⟨Nat.le_refl _, fun _ o ho => Or.inl ⟨o, ho, rfl⟩⟩

theorem Inherits.trans (h : s.Inherits s') (h' : s'.Inherits s'') : s.Inherits s'' where
  version := Nat.le_trans h.version h'.version
  uid k o ho := by
    rcases h'.uid k o ho with ⟨o₁, ho₁, huid₁⟩ | ⟨n, hlt, hle, huid⟩
    · rcases h.uid k o₁ ho₁ with ⟨o₀, ho₀, huid₀⟩ | ⟨n, hlt, hle, huid⟩
      · exact Or.inl ⟨o₀, ho₀, huid₀.trans huid₁⟩
      · exact Or.inr ⟨n, hlt, Nat.le_trans hle h'.version, huid₁.symm.trans huid⟩
    · exact Or.inr ⟨n, Nat.lt_of_le_of_lt h.version hlt, hle, huid⟩

/-- Where one key changes, what counts is what is stored there then. -/
theorem Inherits.of_changes (hc : s.Changes s' k x) (hv : s.version ≤ s'.version)
    (hx : ∀ o, x = some o →
      (∃ o₀, s.objects.get? k = some o₀ ∧ o₀.metadata.uid = o.metadata.uid) ∨
        ∃ n, s.version < n ∧ n ≤ s'.version ∧ o.metadata.uid = some (uidText k.name n)) :
    s.Inherits s' where
  version := hv
  uid k' o ho := by
    by_cases hk : k' = k
    · subst hk
      exact hx o (hc.here.symm.trans ho)
    · exact Or.inl ⟨o, (hc.elsewhere k' hk).symm.trans ho, rfl⟩

theorem inherits_write {stored : Object σ τ} (hk : s.objects.get? k = some stored)
    (huid : stored.metadata.uid = o.metadata.uid) : s.Inherits (s.write k o).2 := by
  refine .of_changes (changes_write s k o) (Nat.le_succ _) fun o' ho' => ?_
  obtain rfl := Option.some.inj ho'
  exact Or.inl ⟨stored, hk, huid⟩

theorem inherits_erase (s : Store σ τ) (k : ObjectKey) :
    s.Inherits { s with objects := s.objects.erase k } := by
  refine .of_changes (changes_erase s k) (Nat.le_refl _) fun o ho => ?_
  cases ho

/-- What is new gets a new uid. -/
theorem inherits_seed (s : Store σ τ) (now : Instant) (o : Object σ τ) :
    s.Inherits (s.seed now o).2 := by
  refine .of_changes (changes_seed s now o) (Nat.le_succ _) fun o' ho' => ?_
  obtain rfl := Option.some.inj ho'
  exact Or.inr ⟨s.version + 1, Nat.lt_succ_self _, Nat.le_refl _, rfl⟩

theorem inherits_replaced {stored : Object σ τ} (hk : s.objects.get? o.key = some stored) :
    s.Inherits (s.replaced o stored) := by
  have hwrite : s.Inherits (s.write o.key (o.inPlaceOf stored)).2 := inherits_write hk rfl
  unfold replaced
  split
  · exact hwrite.trans (inherits_erase _ _)
  · exact hwrite

theorem inherits_requestDeletion (s : Store σ τ) (now : Instant) (k : ObjectKey) :
    s.Inherits (s.requestDeletion now k) := by
  cases hk : s.objects.get? k with
  | none => exact (requestDeletion_of_absent now hk).symm ▸ .refl s
  | some o =>
    by_cases hfin : o.metadata.finalizerList = []
    · rw [requestDeletion_of_unguarded now hk hfin]
      exact inherits_erase s k
    · rw [requestDeletion_of_guarded now hk hfin]
      split
      · exact .refl s
      · exact inherits_write hk rfl

/-- **A call lets objects keep their uids**, and makes a new one for what it creates. -/
theorem inherits_perform (s : Store σ τ) (now : Instant) (c : Call (Object σ τ)) :
    s.Inherits (s.perform now c).2 := by
  cases c with
  | get | list | listByLabel => exact .refl s
  | create o =>
    cases hk : s.objects.get? o.key with
    | some stored =>
      rw [perform_create_refused now hk]
      exact .refl s
    | none =>
      rw [perform_create now hk]
      exact inherits_seed s now o
  | update o =>
    cases hc : s.current o with
    | error e =>
      rw [perform_update_refused now hc]
      exact .refl s
    | ok stored =>
      rw [perform_update now hc]
      exact inherits_replaced (of_current_eq_ok hc).1
  | updateStatus o =>
    cases hc : s.current o with
    | error e =>
      rw [perform_updateStatus_refused now hc]
      exact .refl s
    | ok stored =>
      rw [perform_updateStatus now hc]
      exact inherits_write (of_current_eq_ok hc).1 rfl
  | delete o =>
    cases hc : s.current o with
    | error e =>
      rw [perform_delete_refused now hc]
      exact .refl s
    | ok stored =>
      rw [perform_delete now hc]
      exact inherits_requestDeletion s now o.key

/-- A change in place leaves the uid. -/
def Operation.KeepsUid : Operation σ τ → Prop
  | .edit _ change => ∀ o, (change o).metadata.uid = o.metadata.uid
  | .seed _ | .requestDeletion _ | .remove _ => True

/-- …and so do operations. -/
theorem Operation.inherits_apply {operation : Operation σ τ} (h : operation.KeepsUid)
    (now : Instant) (s : Store σ τ) : s.Inherits (operation.apply now s) := by
  cases operation with
  | seed o => exact inherits_seed s now o
  | edit k change =>
    cases hk : s.objects.get? k with
    | none => exact (apply_edit_of_absent hk now change).symm ▸ .refl s
    | some o =>
      rw [apply_edit_of_stored hk]
      exact inherits_write hk (h o).symm
  | requestDeletion k => exact inherits_requestDeletion s now k
  | remove k => exact inherits_erase s k

/-! ## Stores in which versions and uids tell apart -/

/-- Every object is stored under its own namespace and name, with a version and a uid that were
given out and that no other object has. -/
structure Registered (s : Store σ τ) : Prop where
  keyed : s.Keyed
  version : ∀ k o, s.objects.get? k = some o →
    ∃ n, 1 ≤ n ∧ n ≤ s.version ∧ o.metadata.resourceVersion = some (toString n)
  uid : ∀ k o, s.objects.get? k = some o →
    ∃ n, 1 ≤ n ∧ n ≤ s.version ∧ o.metadata.uid = some (uidText k.name n)
  versions_differ : ∀ k k' o o', s.objects.get? k = some o → s.objects.get? k' = some o' →
    o.metadata.resourceVersion = o'.metadata.resourceVersion → k = k'
  uids_differ : ∀ k k' o o', s.objects.get? k = some o → s.objects.get? k' = some o' →
    o.metadata.uid = o'.metadata.uid → k = k'

theorem registered_empty : ({} : Store σ τ).Registered := by
  constructor <;> intro _ _ <;> intros <;> contradiction

/-- **A version stands for one content**, however the store ages. -/
theorem Registered.eq_of_version (h : s.Registered) (ha : s.Ages s')
    (ho : s.objects.get? k = some o) (ho' : s'.objects.get? k' = some o')
    (hv : o.metadata.resourceVersion = o'.metadata.resourceVersion) : k = k' ∧ o = o' := by
  rcases ha.fresh k' o' ho' with hold | ⟨n', hlt, -, hn'⟩
  · obtain rfl := h.versions_differ k k' o o' ho hold hv
    exact ⟨rfl, Option.some.inj (ho.symm.trans hold)⟩
  · obtain ⟨n, -, hle, hn⟩ := h.version k o ho
    obtain rfl : n = n' := Nat.toString_inj (Option.some.inj (hn.symm.trans (hv.trans hn')))
    omega

/-- A uid that is made later is not one that is in use. -/
theorem Registered.uid_ne_of_lt (h : s.Registered) (ho : s.objects.get? k = some o) {name : String}
    {n : Nat} (hn : s.version < n) : o.metadata.uid ≠ some (uidText name n) := by
  obtain ⟨m, -, hle, hm⟩ := h.uid k o ho
  intro huid
  obtain rfl : m = n := uidText_inj (Option.some.inj (hm.symm.trans huid))
  omega

/-- **A uid stands for what is stored in one place**, whatever is inherited there. -/
theorem Registered.key_eq_of_uid (h : s.Registered) (hi : s.Inherits s')
    (ho : s.objects.get? k = some o) (ho' : s'.objects.get? k' = some o')
    (hu : o.metadata.uid = o'.metadata.uid) : k = k' := by
  rcases hi.uid k' o' ho' with ⟨o₀, ho₀, hu₀⟩ | ⟨n, hlt, -, hn⟩
  · exact h.uids_differ k k' o o₀ ho ho₀ (hu.trans hu₀.symm)
  · exact absurd (hu.trans hn) (h.uid_ne_of_lt ho hlt)

/-- What tells objects apart across a change of one key tells them apart after it. -/
theorem Changes.key_eq {α : Type} {mark : Object σ τ → α} (hc : s.Changes s' k x)
    (hacross : ∀ k₁ k₂ o₁ o₂, s.objects.get? k₁ = some o₁ → s'.objects.get? k₂ = some o₂ →
      mark o₁ = mark o₂ → k₁ = k₂)
    (k₁ k₂ : ObjectKey) (o₁ o₂ : Object σ τ) (ho₁ : s'.objects.get? k₁ = some o₁)
    (ho₂ : s'.objects.get? k₂ = some o₂) (heq : mark o₁ = mark o₂) : k₁ = k₂ := by
  by_cases hk₁ : k₁ = k
  · by_cases hk₂ : k₂ = k
    · exact hk₁.trans hk₂.symm
    · exact (hacross k₂ k₁ o₂ o₁ ((hc.elsewhere k₂ hk₂).symm.trans ho₂) ho₁ heq.symm).symm
  · exact hacross k₁ k₂ o₁ o₂ ((hc.elsewhere k₁ hk₁).symm.trans ho₁) ho₂ heq

/-- **One write keeps everything registered.** -/
theorem Registered.writes (h : s.Registered) (hw : s.Writes s' k x) (hi : s.Inherits s') :
    s'.Registered where
  keyed := h.keyed.changes hw.toChanges (hw.key h.keyed)
  version k' o ho := by
    rcases hw.ages.fresh k' o ho with hold | ⟨n, hlt, hle, hn⟩
    · obtain ⟨n, hpos, hle, hn⟩ := h.version k' o hold
      exact ⟨n, hpos, Nat.le_trans hle hw.version, hn⟩
    · exact ⟨n, Nat.one_le_of_lt hlt, hle, hn⟩
  uid k' o ho := by
    rcases hi.uid k' o ho with ⟨o₀, ho₀, hu⟩ | ⟨n, hlt, hle, hn⟩
    · obtain ⟨n, hpos, hle, hn⟩ := h.uid k' o₀ ho₀
      exact ⟨n, hpos, Nat.le_trans hle hw.version, hu.symm.trans hn⟩
    · exact ⟨n, Nat.one_le_of_lt hlt, hle, hn⟩
  versions_differ := hw.toChanges.key_eq fun _ _ _ _ ho ho' hv =>
    (h.eq_of_version hw.ages ho ho' hv).1
  uids_differ := hw.toChanges.key_eq fun _ _ _ _ ho ho' hu => h.key_eq_of_uid hi ho ho' hu

end Store

/-! ## Histories -/

namespace FaultyStore

/-- What can happen to a store: it is called, a user does something to an object, or the next call
of a kind is planned to be refused.  To touch an object is to change nothing of it in place. -/
inductive Event (σ τ : Type) where
  | call (c : Call (Object σ τ))
  | operate (operation : Store.Operation σ τ)
  | planRefusal (v : Call.Verb) (r : Refusal)

/-- The changes that users make in place leave the name, the namespace and the uid. -/
def Event.Proper : Event σ τ → Prop
  | .operate operation => operation.Proper ∧ operation.KeepsUid
  | .call _ | .planRefusal .. => True

/-- The store after an event. -/
def step (s : FaultyStore σ τ) (now : Instant) : Event σ τ → FaultyStore σ τ
  | .call c => (s.perform now c).2
  | .operate operation => { s with store := operation.apply now s.store }
  | .planRefusal v r => s.planRefusal v r

/-- The store after several events, each at its time. -/
def run (s : FaultyStore σ τ) (events : List (Instant × Event σ τ)) : FaultyStore σ τ :=
  events.foldl (fun s e => s.step e.1 e.2) s

variable {s : FaultyStore σ τ} {now : Instant} {e : Event σ τ} {events : List (Instant × Event σ τ)}

/-- An event does something under one key alone, and lets objects keep their uids. -/
theorem writes_step (h : e.Proper) (s : FaultyStore σ τ) (now : Instant) :
    (∃ k x, s.store.Writes (s.step now e).store k x) ∧ s.store.Inherits (s.step now e).store := by
  have hidle : (∃ k x, s.store.Writes s.store k x) ∧ s.store.Inherits s.store :=
    ⟨⟨⟨"", ""⟩, _, Store.writes_refl _ _⟩, .refl _⟩
  cases e with
  | planRefusal v r => exact hidle
  | operate operation =>
    exact ⟨operation.writes_apply h.1 now s.store, operation.inherits_apply h.2 now s.store⟩
  | call c =>
    rcases s.store_perform now c with hsame | hcall
    · exact hsame.symm ▸ hidle
    · simp only [step, hcall]
      refine ⟨?_, s.store.inherits_perform now c⟩
      cases hc : c.target? with
      | none => exact (s.store.perform_of_target?_eq_none now hc).symm ▸ hidle.1
      | some k => exact ⟨k, s.store.writes_perform now hc⟩

/-- **What one event keeps, any number of them keeps.** -/
theorem registered_run (hs : s.store.Registered) (h : ∀ e ∈ events, e.2.Proper) :
    (s.run events).store.Registered ∧ s.store.Ages (s.run events).store ∧
      s.store.Inherits (s.run events).store := by
  induction events generalizing s with
  | nil => exact ⟨hs, .refl _, .refl _⟩
  | cons e rest ih =>
    rw [List.forall_mem_cons] at h
    obtain ⟨⟨k, x, hw⟩, hi⟩ := writes_step h.1 s e.1
    obtain ⟨hregistered, hages, hinherits⟩ := ih (hs.writes hw hi) h.2
    exact ⟨hregistered, hw.ages.trans hages, hi.trans hinherits⟩

/-- **Versions and uids identify.**  At any point of any history from an empty store everything is
registered.  At any later point what is not stored as it was has a version beyond all that were
given out; a version that has been seen stands for the same content under the same key; a uid stands
for the same key; and what comes again where nothing was stored in between has another uid. -/
theorem run_identifies (first second third : List (Instant × Event σ τ))
    (hproper : ∀ e ∈ first ++ second ++ third, e.2.Proper) :
    let s₁ := run {} first
    let s₂ := s₁.run second
    let s₃ := s₂.run third
    s₁.store.Registered ∧ s₁.store.Ages s₂.store ∧
      (∀ k k' o o', s₁.store.objects.get? k = some o → s₂.store.objects.get? k' = some o' →
        (o.metadata.resourceVersion = o'.metadata.resourceVersion → k = k' ∧ o = o') ∧
          (o.metadata.uid = o'.metadata.uid → k = k')) ∧
      ∀ k o o', s₁.store.objects.get? k = some o → s₂.store.objects.get? k = none →
        s₃.store.objects.get? k = some o' → o.metadata.uid ≠ o'.metadata.uid := by
  intro s₁ s₂ s₃
  rw [List.forall_mem_append, List.forall_mem_append] at hproper
  obtain ⟨⟨hfirst, hsecond⟩, hthird⟩ := hproper
  obtain ⟨hs₁, -, -⟩ := registered_run (s := {}) Store.registered_empty hfirst
  obtain ⟨hs₂, hages, hinherits⟩ := registered_run hs₁ hsecond
  obtain ⟨-, -, hlater⟩ := registered_run hs₂ hthird
  refine ⟨hs₁, hages, fun k k' o o' ho ho' => ⟨hs₁.eq_of_version hages ho ho',
    hs₁.key_eq_of_uid hinherits ho ho'⟩, fun k o o' ho hgone ho' huid => ?_⟩
  -- Nothing was there to inherit from, so the uid has a number beyond all that were in use.
  rcases hlater.uid k o' ho' with ⟨o₂, ho₂, -⟩ | ⟨n, hlt, -, hn⟩
  · rw [hgone] at ho₂
    cases ho₂
  · exact hs₁.uid_ne_of_lt ho (Nat.lt_of_le_of_lt hages.version hlt) (huid.trans hn)

/-- An object without a namespace, with a finalizer or without. -/
def bareObject (finalizers : List String) : Object Unit Empty where
  metadata := { name := some "web", finalizers := some finalizers }
  spec := ()

/-- A creation is refused once, then made, and the object is touched.  Its deletion is requested,
and a replacement without finalizers completes it.  Then it is created anew, and gets another uid.
-/
theorem run_identifies_recreation :
    let first : List (Instant × Event Unit Empty) :=
      [(⟨1, 0⟩, .planRefusal .create .unavailable), (⟨1, 0⟩, .call (.create (bareObject ["keep"]))),
        (⟨2, 0⟩, .call (.create (bareObject ["keep"]))),
        (⟨3, 0⟩, .operate (.edit ⟨"default", "web"⟩ id))]
    let second : List (Instant × Event Unit Empty) :=
      [(⟨4, 0⟩, .operate (.requestDeletion ⟨"default", "web"⟩)),
        (⟨5, 0⟩, .call (.update (bareObject [])))]
    let third : List (Instant × Event Unit Empty) := [(⟨6, 0⟩, .operate (.seed (bareObject [])))]
    let s₁ := run {} first
    let s₂ := s₁.run second
    let s₃ := s₂.run third
    ∃ o o', s₁.store.objects.get? ⟨"default", "web"⟩ = some o ∧
      o.metadata.uid = some "uid-web-1" ∧ o.metadata.resourceVersion = some "2" ∧
      s₂.store.objects.get? ⟨"default", "web"⟩ = none ∧
      s₃.store.objects.get? ⟨"default", "web"⟩ = some o' ∧ o.metadata.uid ≠ o'.metadata.uid := by
  intro first second third s₁ s₂ s₃
  have hproper : ∀ e ∈ first ++ second ++ third, e.2.Proper := by
    simp [first, second, third, Event.Proper, Store.Operation.Proper, Store.Operation.KeepsUid]
  obtain ⟨o, ho, huid, hversion⟩ : ∃ o, s₁.store.objects.get? ⟨"default", "web"⟩ = some o ∧
      o.metadata.uid = some "uid-web-1" ∧ o.metadata.resourceVersion = some "2" :=
    ⟨_, rfl, by decide +kernel, by decide +kernel⟩
  have hgone : s₂.store.objects.get? ⟨"default", "web"⟩ = none := by decide +kernel
  obtain ⟨o', ho'⟩ : ∃ o', s₃.store.objects.get? ⟨"default", "web"⟩ = some o' := ⟨_, rfl⟩
  obtain ⟨-, -, -, hrenewed⟩ := run_identifies first second third hproper
  exact ⟨o, o', ho, huid, hversion, hgone, ho', hrenewed _ o o' ho hgone ho'⟩

end FaultyStore

end ConfigMerge
