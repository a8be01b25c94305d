import ConfigMerge.Proofs.Reconcile.Refusal
import ConfigMerge.Proofs.Store.Version

/-!
# Proofs/Reconcile/Answer — what the answer to a call of a pass says of the fragments

A call is refused and leaves the fragments, or it is answered by what is stored
(`PassCall.Answers`).  The surroundings of a pass are described by that, so what follows from an
answer is the same whoever else is at the stores and whatever is planned to be refused.
-/

namespace ConfigMerge

variable {φ κ ι : Type}

/-- The answer to a call, as far as the fragments go: a refusal, or what is stored; of the
composites nothing is said. -/
def PassCall.Answers : (q : PassCall φ κ) → q.Answer →
    Store φ FragmentStatus → Store φ FragmentStatus → Prop
  | .fragments c, a, s, s' => (∃ e, a = .error e ∧ s' = s) ∨ ∃ now reversed classify,
      a = (FaultyStore.arrange reversed c (s.perform now c).1).mapError classify ∧
        s' = (s.perform now c).2
  | .composites _, _, s, s' => s' = s

namespace PassCall

variable {q : PassCall φ κ} {a : q.Answer} {s s' : Store φ FragmentStatus}

theorem Answers.ages (h : q.Answers a s s') : s.Ages s' := by
  cases q with
  | composites c =>
    obtain rfl : s' = s := h
    exact .refl s'
  | fragments c =>
    rcases h with ⟨e, -, rfl⟩ | ⟨now, -, -, -, rfl⟩
    · exact .refl s'
    · exact s.ages_perform now c

theorem Answers.keyed (h : q.Answers a s s') (hs : s.Keyed) : s'.Keyed := by
  cases q with
  | composites c =>
    obtain rfl : s' = s := h
    exact hs
  | fragments c =>
    rcases h with ⟨e, -, rfl⟩ | ⟨now, -, -, -, rfl⟩
    · exact hs
    · exact Store.keyed_perform hs now c

/-! ## What an answer that is no refusal says -/

theorem Answers.of_get {found : Option (Fragment φ)} {k : ObjectKey}
    (h : (PassCall.fragments (κ := κ) (.get k.nameSpace k.name)).Answers (.ok found) s s') :
    found = s.objects.get? k ∧ s' = s := by
  obtain ⟨e, ha, -⟩ | ⟨now, reversed, classify, ha, hs⟩ := h
  · cases ha
  · exact ⟨Except.ok.inj ha, hs⟩

theorem Answers.of_listByLabel {found : List (Fragment φ)} {ns label value : String}
    (h : (PassCall.fragments (κ := κ) (.listByLabel ns label value)).Answers (.ok found) s s') :
    found.Perm (s.listByLabel ns label value) ∧ s' = s := by
  obtain ⟨e, ha, -⟩ | ⟨now, reversed, classify, ha, hs⟩ := h
  · cases ha
  · obtain rfl : found = if reversed then (s.listByLabel ns label value).reverse
      else s.listByLabel ns label value := Except.ok.inj ha
    refine ⟨?_, hs⟩
    split
    · exact List.reverse_perm _
    · exact .refl _

theorem Answers.of_update {o g : Fragment φ}
    (h : (PassCall.fragments (κ := κ) (.update o)).Answers (.ok g) s s') :
    ∃ stored, s.current o = .ok stored ∧ g = (o.inPlaceOf stored).atVersion s.nextVersion ∧
      s' = s.replaced o stored := by
  obtain ⟨e, ha, -⟩ | ⟨now, reversed, classify, ha, hs⟩ := h
  · cases ha
  · cases hc : s.current o with
    | error e =>
      rw [Store.perform_update_refused now hc] at ha
      cases ha
    | ok stored =>
      rw [Store.perform_update now hc] at ha hs
      exact ⟨stored, rfl, Except.ok.inj ha, hs⟩

theorem Answers.of_updateStatus {o g : Fragment φ}
    (h : (PassCall.fragments (κ := κ) (.updateStatus o)).Answers (.ok g) s s') :
    ∃ stored, s.current o = .ok stored ∧
      g = ({ o with metadata := stored.metadata } : Fragment φ).atVersion s.nextVersion ∧
      s' = (s.write o.key { o with metadata := stored.metadata }).2 := by
  obtain ⟨e, ha, -⟩ | ⟨now, reversed, classify, ha, hs⟩ := h
  · cases ha
  · cases hc : s.current o with
    | error e =>
      rw [Store.perform_updateStatus_refused now hc] at ha
      cases ha
    | ok stored =>
      rw [Store.perform_updateStatus now hc] at ha hs
      exact ⟨stored, rfl, Except.ok.inj ha, hs⟩

/-- A refusal leaves the fragments as they were. -/
theorem Answers.of_error {c : Call (Fragment φ)} {e : Error}
    (h : (PassCall.fragments (κ := κ) c).Answers (.error e) s s') : s' = s := by
  obtain ⟨e, -, hs⟩ | ⟨now, reversed, classify, ha, hs⟩ := h
  · exact hs
  · cases hr : (s.perform now c).1 with
    | error refusal => exact hs.trans (Store.perform_of_error hr)
    | ok r =>
      rw [hr] at ha
      cases c <;> cases ha

end PassCall

/-! ## What the stores answer -/

/-- The stores answer a call. -/
theorem Stores.answers (F : Family φ κ ι) (now : Instant) (q : PassCall φ κ) (s : Stores φ κ) :
    q.Answers (answer F now q s).1 s.fragments.store (answer F now q s).2.fragments.store := by
  rcases answer_cases F now s q with ⟨e, ha, hheld⟩ | ⟨ha, hheld⟩
  · have hsame := congrArg Collections.fragments hheld
    cases q with
    | fragments c => exact Or.inl ⟨e, ha, hsame⟩
    | composites c => exact hsame
  · have hstore := congrArg Collections.fragments hheld
    cases q with
    | fragments c => exact Or.inr ⟨now, _, _, ha, hstore⟩
    | composites c => exact hstore

/-- A composite that is read under a name has that name. -/
def PassCall.Places : (q : PassCall φ κ) → q.Answer → Prop
  | .composites (.get nameSpace name), .ok x => ∀ c, x = some c → c.key = ⟨nameSpace, name⟩
  | _, _ => True

theorem Stores.places {s : Stores φ κ} (hs : s.composites.store.Keyed) (F : Family φ κ ι)
    (now : Instant) (q : PassCall φ κ) : q.Places (answer F now q s).1 := by
  cases q with
  | fragments c => exact trivial
  | composites c =>
    cases c with
    | list | listByLabel | create | update | updateStatus | delete => exact trivial
    | get nameSpace name =>
      rcases answer_cases F now s (.composites (.get nameSpace name)) with ⟨e, ha, -⟩ | ⟨ha, -⟩
      · rw [ha]
        exact trivial
      · rw [ha]
        exact hs ⟨nameSpace, name⟩

/-- An answer leaves composites that have their names in order. -/
theorem Stores.keyed_composites {s : Stores φ κ} (hs : s.composites.store.Keyed)
    (F : Family φ κ ι) (now : Instant) (q : PassCall φ κ) :
    (answer F now q s).2.composites.store.Keyed := by
  change (answer F now q s).2.collections.composites.Keyed
  rcases answer_cases F now s q with ⟨e, -, hheld⟩ | ⟨-, hheld⟩
  · rw [hheld]
    exact hs
  · rw [hheld]
    cases q with
    | fragments c => exact hs
    | composites c => exact Store.keyed_perform hs now c

end ConfigMerge
