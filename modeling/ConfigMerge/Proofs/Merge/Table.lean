import ConfigMerge.Proofs.Merge.Resume

/-!
# Proofs/Merge/Table — when a merge writes, and what

The outcome of a merge is decided by what is stored for its key and by the fragments, in four
mutually exclusive cases (`Family.outcome_iff`), and says what is stored after it
(`Family.leaves_mergedAt`).  On a store that refuses nothing a merge does just that, by no write when
nothing is to be changed and by one write else (`Stores.merge_by_table`).
-/

namespace ConfigMerge

variable {σ τ φ κ ι : Type}

/-! ## Counting writes -/

theorem FaultyStore.writes_eq (s : FaultyStore σ τ) :
    s.writes = s.calls .create + s.calls .update + s.calls .updateStatus + s.calls .delete := by
  simp [writes, Call.Verb.all, Call.Verb.isWrite]

/-- A call is counted as a write when it is one. -/
theorem FaultyStore.writes_enter (s : FaultyStore σ τ) (v : Call.Verb) (t : Store σ τ) :
    FaultyStore.writes { (s.enter v).2 with store := t } =
      s.writes + if v.isWrite then 1 else 0 := by
  rw [writes_eq, writes_eq]
  cases v <;> simp [enter, Call.Verb.isWrite] <;> omega

/-- How many writes an outcome takes. -/
def MergeOutcome.writes : MergeOutcome → Nat
  | .unchanged => 0
  | .created | .updated | .deleted => 1

/-! ## The table -/

namespace Family

variable (F : Family φ κ ι) (key ns : String) (l : List (Fragment φ))

/-- When a merge over fragments has an outcome, by what is stored for their key before it. -/
def Calls (x : Option (Composite κ)) : MergeOutcome → Prop
  | .created => x = none ∧ l ≠ []
  | .deleted => x ≠ none ∧ l = []
  | .unchanged => F.Matches key ns l x
  | .updated => x ≠ none ∧ l ≠ [] ∧ ¬ F.Matches key ns l x

/-- What an outcome makes of what is stored for the key: `x` before it and `x'` after it. -/
def Leaves (x x' : Option (Composite κ)) : MergeOutcome → Prop
  | .created => ∃ c, x' = some c ∧ c.spec = (F.expected key ns l).spec ∧
      c.metadata.owners = (F.expected key ns l).metadata.owners
  | .deleted => ∃ c, x = some c ∧
      if c.metadata.finalizerList = [] then x' = none else ∃ c', x' = some c' ∧ c.HeldBack c'
  | .unchanged => x' = x
  | .updated => ∃ c c', x = some c ∧ x' = some c' ∧ c'.spec = (F.expected key ns l).spec ∧
      c'.metadata = { c.metadata with
        ownerReferences := some (F.expected key ns l).metadata.owners
        resourceVersion := c'.metadata.resourceVersion }

variable [DecidableEq κ]

/-- The outcome of a merge over fragments, by what is stored for their key. -/
def outcome : Option (Composite κ) → MergeOutcome
  | none => if l = [] then .unchanged else .created
  | some c =>
    if l = [] then .deleted
    else if agree (F.expected key ns l) c then .unchanged
    else .updated

variable {F key ns l}

/-- **The cases exclude each other and there is no other one.** -/
theorem outcome_iff {x : Option (Composite κ)} {o : MergeOutcome} :
    F.outcome key ns l x = o ↔ F.Calls key ns l x o := by
  cases x with
  | none => by_cases hl : l = [] <;> cases o <;> simp [outcome, Calls, Matches, hl]
  | some c =>
    by_cases hl : l = []
    · cases o <;> simp [outcome, Calls, Matches, hl]
    · by_cases hagree : agree (F.expected key ns l) c
      · have hmatch := F.matches_of_agree hl hagree
        cases o <;> simp [outcome, Calls, hl, hagree, hmatch]
      · have hmatch : ¬ F.Matches key ns l (some c) := fun ⟨_, hspec, howners⟩ =>
          hagree (agree_iff.mpr ⟨hspec.symm, howners.symm⟩)
        cases o <;> simp [outcome, Calls, hl, hagree, hmatch]

/-- The write that a merge makes goes with the outcome. -/
theorem MergeWrite.outcome_eq {x : Option (Composite κ)} {c : Call (Composite κ)} {o : MergeOutcome}
    (h : F.MergeWrite key ns l x c o) : F.outcome key ns l x = o := by
  cases h with
  | create hl => exact if_neg hl
  | delete _ hl => exact if_pos hl
  | update _ hl hagree => exact (if_neg hl).trans (if_neg hagree)

theorem MergeWrite.writes_eq {x : Option (Composite κ)} {c : Call (Composite κ)} {o : MergeOutcome}
    (h : F.MergeWrite key ns l x c o) : (if c.verb.isWrite then 1 else 0) = o.writes := by
  cases h <;> rfl

/-- **The outcome says what is stored after the merge**, unless the composite is about to go. -/
theorem leaves_mergedAt (now : Instant) (version : String) {x : Option (Composite κ)}
    (h : ∀ c, x = some c → ¬ c.IsGone) :
    F.Leaves key ns l x (F.mergedAt now version ns key l x) (F.outcome key ns l x) := by
  cases x with
  | none =>
    by_cases hl : l = []
    · simp [outcome, mergedAt, Leaves, hl]
    · simp only [outcome, mergedAt, if_neg hl]
      exact ⟨_, rfl, rfl, rfl⟩
  | some c =>
    obtain ⟨hl, hmerged⟩ | ⟨hl, hagree, hmerged⟩ | ⟨hl, hagree, hmerged⟩ :=
      F.mergedAt_stored now version ns key l c
    · simp only [outcome, if_pos hl, hmerged]
      refine ⟨c, rfl, ?_⟩
      split
      next hfree => exact Object.withdrawn_eq_none_iff.mpr hfree
      next hheld => exact Object.exists_withdrawn now version hheld
    · simp only [outcome, if_neg hl, if_pos hagree, hmerged]
      exact rfl
    · simp only [outcome, if_neg hl, if_neg hagree, hmerged, if_neg (h c rfl)]
      exact ⟨c, _, rfl, rfl, rfl, rfl⟩

end Family

/-! ## A merge on a store that refuses nothing -/

namespace Stores

variable (F : Family φ κ ι) (now : Instant) {s : Stores φ κ}

/-- A call to the composites that succeeds. -/
theorem run_onComposites (hcalm : s.composites.Undisturbed) {c : Call (Composite κ)} {a : c.Result}
    {t : Store κ Empty} (h : s.composites.store.perform now c = (.ok a, t))
    (hc : FaultyStore.arrange s.composites.reversed c (.ok a) = .ok a) :
    s.run F now (Pass.onComposites (φ := φ) c) =
      (.ok a, { s with composites := { (s.composites.enter c.verb).2 with store := t } }) := by
  change answer F now (.composites c) s = _
  simp only [answer, FaultyStore.perform_of_undisturbed hcalm, h, hc]
  rfl

variable [DecidableEq κ] {ns key : String} (l : List (Fragment φ))

/-- What a merge does about the composite that it has read, with the number of its writes. -/
theorem run_mergeOnto (hcalm : s.composites.Undisturbed) (hs : s.composites.store.Keyed)
    {x : Option (Composite κ)} (hx : s.composites.store.objects.get? ⟨ns, key⟩ = x) :
    ∃ t, s.run F now (F.mergeOnto key ns l x) =
        (.ok (F.outcome key ns l x), { s with composites := t }) ∧
      t.store = F.mergedInto now ns key l s.composites.store ∧
      t.writes = s.composites.writes + (F.outcome key ns l x).writes := by
  subst hx
  obtain ⟨hmatch, hnothing⟩ | ⟨c, o, hwrite, honce⟩ :=
    F.mergeOnto_cases key ns l (s.composites.store.objects.get? ⟨ns, key⟩)
  · have hunchanged : F.outcome key ns l (s.composites.store.objects.get? ⟨ns, key⟩) = .unchanged :=
      Family.outcome_iff.mpr hmatch
    rw [hnothing, hunchanged]
    exact ⟨s.composites, rfl, (F.mergedInto_of_matches now hmatch).symm, rfl⟩
  · obtain ⟨a, hperform, harrange⟩ := hwrite.perform hs now
    have hcall := run_onComposites F now hcalm hperform (harrange _)
    rw [honce, hwrite.outcome_eq, ← hwrite.writes_eq]
    exact ⟨_, Pass.run_bind_of_ok hcall, rfl, FaultyStore.writes_enter _ _ _⟩

/-- A merge makes of the composites what it makes of their store, with the number of its writes. -/
theorem run_merge (hcalm : s.composites.Undisturbed) (hs : s.composites.store.Keyed) :
    ∃ t, s.run F now (F.merge key ns l) =
        (.ok (F.outcome key ns l (s.composites.store.objects.get? ⟨ns, key⟩)),
          { s with composites := t }) ∧
      t.store = F.mergedInto now ns key l s.composites.store ∧
      t.writes = s.composites.writes +
        (F.outcome key ns l (s.composites.store.objects.get? ⟨ns, key⟩)).writes := by
  have hread := run_onComposites F now hcalm (c := .get ns key) (t := s.composites.store) rfl rfl
  have hcount := FaultyStore.writes_enter s.composites .get s.composites.store
  obtain ⟨t, hmerge, hstore, hwrites⟩ := run_mergeOnto F now l
    (s := { s with composites := (s.composites.enter .get).2 }) (hcalm.enter .get) hs rfl
  refine ⟨t, ?_, hstore, hwrites.trans (congrArg (· + _) hcount)⟩
  rw [F.merge_eq]
  exact (Pass.run_bind_of_ok hread).trans hmerge

/-- **A merge goes by the table**: it succeeds with the outcome that what is stored for its key and
the fragments call for, leaves there what the outcome says, touches no other composite and no
fragment, and writes once, or not at all when it is to change nothing. -/
theorem merge_by_table (F : Family φ κ ι) (now : Instant) (s : Stores φ κ) (key ns : String)
    (l : List (Fragment φ)) (hcalm : s.composites.Undisturbed) (hs : s.composites.store.Sound) :
    ∃ outcome t, s.run F now (F.merge key ns l) = (.ok outcome, { s with composites := t }) ∧
      (∀ o, outcome = o ↔ F.Calls key ns l (s.composites.store.objects.get? ⟨ns, key⟩) o) ∧
      F.Leaves key ns l (s.composites.store.objects.get? ⟨ns, key⟩)
        (t.store.objects.get? ⟨ns, key⟩) outcome ∧
      (∀ k, k ≠ ⟨ns, key⟩ → t.store.objects.get? k = s.composites.store.objects.get? k) ∧
      t.writes = s.composites.writes + outcome.writes := by
  obtain ⟨t, hrun, hstore, hwrites⟩ := run_merge F now l hcalm hs.keyed
  have hchange := F.changes_mergedInto now ns key l hs.keyed
  rw [← hstore] at hchange
  refine ⟨_, t, hrun, fun o => Family.outcome_iff, ?_, hchange.elsewhere, hwrites⟩
  rw [hchange.here]
  exact Family.leaves_mergedAt now _ fun c hc => hs.stays _ c hc

/-- A composite without callers that is being deleted and that somebody holds back. -/
def heldBack : Stores SourceSpec IntentionsSpec where
  composites.store :=
    let kept : Composite IntentionsSpec :=
      { metadata :=
          { name := some "svc-a", nameSpace := some "default",
            finalizers := some ["keep"], deletionTimestamp := some ⟨0, false⟩ }
        spec := ⟨{}, []⟩ }
    (({} : Store IntentionsSpec Empty).seed ⟨0, 0⟩ kept).2

theorem merge_by_table_heldBack :
    let l := [Fragment.allowing "web" "svc-a" "web"]
    heldBack.composites.Undisturbed ∧ heldBack.composites.store.Sound ∧
    ∃ t, heldBack.run .intentions ⟨1, 0⟩ (Family.intentions.merge "svc-a" "default" l) =
        (.ok .updated, { heldBack with composites := t }) ∧ t.writes = 1 ∧
      Family.intentions.Leaves "svc-a" "default" l
        (heldBack.composites.store.objects.get? ⟨"default", "svc-a"⟩)
        (t.store.objects.get? ⟨"default", "svc-a"⟩) .updated := by
  intro l
  have hcalm : heldBack.composites.Undisturbed := fun _ => rfl
  have hsound : heldBack.composites.store.Sound := by decide +kernel
  obtain ⟨outcome, t, hrun, hcalls, hleaves, -, hwrites⟩ :=
    merge_by_table .intentions ⟨1, 0⟩ heldBack "svc-a" "default" l hcalm hsound
  obtain rfl : outcome = .updated :=
    (hcalls .updated).mpr ⟨by decide +kernel, List.cons_ne_nil _ _, by decide +kernel⟩
  exact ⟨hcalm, hsound, t, hrun, hwrites, hleaves⟩

end Stores

end ConfigMerge
