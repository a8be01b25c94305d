import ConfigMerge.Proofs.Merge.Expected
import ConfigMerge.Proofs.Store.Version

/-!
# Proofs/Merge/Single — what one merge makes of the composites

What a merge makes of the stored composites is a function of the fragments (`Family.mergedInto`).  It
touches its key alone (`Family.changes_mergedInto`), and it is what the one write of the merge does
(`Family.MergeWrite.perform`), or nothing where what is stored agrees with the fragments.
-/

namespace ConfigMerge

variable {φ κ ι : Type}

namespace Family

variable (F : Family φ κ ι)

/-- What a merge leaves as it is: the composite that the fragments call for or, where they call for
none, one that is marked for deletion and held back. -/
def Kept (key ns : String) (l : List (Fragment φ)) (x : Option (Composite κ)) : Prop :=
  F.Matches key ns l x ∨
    l = [] ∧ ∃ c, x = some c ∧ c.metadata.isBeingDeleted ∧ c.metadata.finalizerList ≠ []

theorem Kept.congr_bare {F : Family φ κ ι} {key ns : String} {l l' : List (Fragment φ)}
    {x : Option (Composite κ)} (h : F.Kept key ns l x)
    (hl : l.map Object.bare = l'.map Object.bare) : F.Kept key ns l' x :=
  h.imp (matches_congr_bare hl).mp fun ⟨hnil, hc⟩ => ⟨(eq_nil_iff_of_bare_eq hl).mp hnil, hc⟩

variable [DecidableEq κ]

/-- What a merge over fragments makes of what is stored under their key, if that is written at this
version. -/
def mergedAt (now : Instant) (version ns key : String) (l : List (Fragment φ)) :
    Option (Composite κ) → Option (Composite κ)
  | none => if l = [] then none else some ((F.expected key ns l).asNew now version)
  | some c =>
    if l = [] then c.withdrawn now version
    else if agree (F.expected key ns l) c then some c
    else if c.IsGone then none
    else some ((renewed c (F.expected key ns l)).atVersion version)

/-- What a merge over fragments makes of the stored composites. -/
def mergedInto (now : Instant) (ns key : String) (l : List (Fragment φ)) (t : Store κ Empty) :
    Store κ Empty :=
  match t.objects.get? ⟨ns, key⟩ with
  | none => if l = [] then t else (t.seed now (F.expected key ns l)).2
  | some c =>
    if l = [] then t.requestDeletion now ⟨ns, key⟩
    else if agree (F.expected key ns l) c then t
    else t.replaced (renewed c (F.expected key ns l)) c

variable {ns key : String} {l : List (Fragment φ)} {t t' : Store κ Empty}

theorem mergedInto_of_absent (now : Instant) (h : t.objects.get? ⟨ns, key⟩ = none) :
    F.mergedInto now ns key l t =
      if l = [] then t else (t.seed now (F.expected key ns l)).2 := by
  rw [mergedInto, h]

theorem mergedInto_of_stored (now : Instant) {c : Composite κ}
    (h : t.objects.get? ⟨ns, key⟩ = some c) :
    F.mergedInto now ns key l t =
      if l = [] then t.requestDeletion now ⟨ns, key⟩
      else if agree (F.expected key ns l) c then t
      else t.replaced (renewed c (F.expected key ns l)) c := by
  rw [mergedInto, h]

theorem mergedInto_of_perm (now : Instant) {l' : List (Fragment φ)} (h : l.Perm l')
    (hl : NamesDiffer l) : F.mergedInto now ns key l t = F.mergedInto now ns key l' t := by
  have hnil : l = [] ↔ l' = [] :=
    ⟨fun h' => List.nil_perm.mp (h' ▸ h), fun h' => List.perm_nil.mp (h' ▸ h)⟩
  simp only [mergedInto, hnil, F.expected_eq_of_perm key ns h hl]

/-- **A merge leaves what the merge before it left.** -/
theorem mergedInto_of_kept (now : Instant)
    (h : F.Kept key ns l (t.objects.get? ⟨ns, key⟩)) : F.mergedInto now ns key l t = t := by
  cases hc : t.objects.get? ⟨ns, key⟩ with
  | none =>
    have hl : l = [] := by
      rcases hc ▸ h with hmatch | ⟨hl, -⟩
      · exact hmatch
      · exact hl
    rw [F.mergedInto_of_absent now hc, if_pos hl]
  | some c =>
    rw [F.mergedInto_of_stored now hc]
    rcases hc ▸ h with ⟨hl, hspec, howners⟩ | ⟨hl, c', hc', hmarked, hheld⟩
    · rw [if_neg hl, if_pos (agree_iff.mpr ⟨hspec.symm, howners.symm⟩)]
    · obtain rfl := Option.some.inj hc'
      rw [if_pos hl, Store.requestDeletion_of_guarded now hc hheld, if_pos hmarked]

/-- **A merge touches its key alone.** -/
theorem changes_mergedInto (now : Instant) (ns key : String) (l : List (Fragment φ))
    (h : t.Keyed) :
    t.Changes (F.mergedInto now ns key l t) ⟨ns, key⟩
      (F.mergedAt now t.nextVersion ns key l (t.objects.get? ⟨ns, key⟩)) := by
  cases hc : t.objects.get? ⟨ns, key⟩ with
  | none =>
    rw [F.mergedInto_of_absent now hc, mergedAt]
    split
    · exact hc ▸ Store.changes_refl t _
    · exact Store.changes_seed t now (F.expected key ns l)
  | some c =>
    have hkey : c.key = ⟨ns, key⟩ := h _ c hc
    rw [F.mergedInto_of_stored now hc, mergedAt]
    split
    · exact Store.changes_requestDeletion now hc
    · split
      · exact hc ▸ Store.changes_refl t _
      · exact hkey ▸ Store.changes_replaced t (renewed c (F.expected key ns l)) c

variable {now : Instant} {version : String} {x : Option (Composite κ)}

/-- What a merge makes of a stored composite, by whether there are fragments and by whether it
agrees with them. -/
theorem mergedAt_stored (now : Instant) (version ns key : String) (l : List (Fragment φ))
    (c : Composite κ) :
    (l = [] ∧ F.mergedAt now version ns key l (some c) = c.withdrawn now version) ∨
    (l ≠ [] ∧ agree (F.expected key ns l) c ∧ F.mergedAt now version ns key l (some c) = some c) ∨
    (l ≠ [] ∧ ¬ agree (F.expected key ns l) c ∧ F.mergedAt now version ns key l (some c) =
      if c.IsGone then none
      else some ((renewed c (F.expected key ns l)).atVersion version)) := by
  by_cases hl : l = []
  · exact Or.inl ⟨hl, if_pos hl⟩
  · refine Or.inr ?_
    by_cases hagree : agree (F.expected key ns l) c
    · exact Or.inl ⟨hl, hagree, (if_neg hl).trans (if_pos hagree)⟩
    · exact Or.inr ⟨hl, hagree, (if_neg hl).trans (if_neg hagree)⟩

theorem key_of_mergedAt (h : ∀ c, x = some c → c.key = ⟨ns, key⟩) {c : Composite κ}
    (hc : F.mergedAt now version ns key l x = some c) : c.key = ⟨ns, key⟩ := by
  cases x with
  | none =>
    obtain ⟨-, rfl⟩ : l ≠ [] ∧ (F.expected key ns l).asNew now version = c := by
      simpa [mergedAt] using hc
    rfl
  | some stored =>
    have hkey := h stored rfl
    obtain ⟨-, hmerged⟩ | ⟨-, -, hmerged⟩ | ⟨-, -, hmerged⟩ :=
      F.mergedAt_stored now version ns key l stored
    · rw [hmerged] at hc
      exact (Object.HeldBack.of_withdrawn hc).key.trans hkey
    · rw [hmerged] at hc
      exact Option.some.inj hc ▸ hkey
    · rw [hmerged] at hc
      obtain ⟨-, rfl⟩ : ¬ stored.IsGone ∧
          (renewed stored (F.expected key ns l)).atVersion version = c := by
        simpa using hc
      exact hkey

/-- It leaves its key as a merge does, unless the composite is about to go. -/
theorem kept_mergedAt (h : ∀ c, x = some c → ¬ c.IsGone) :
    F.Kept key ns l (F.mergedAt now version ns key l x) ∧
      ∀ c, F.mergedAt now version ns key l x = some c → ¬ c.IsGone := by
  cases x with
  | none =>
    rw [mergedAt]
    split
    next hl => exact ⟨Or.inl hl, fun c hc => by cases hc⟩
    next hl =>
      refine ⟨Or.inl ⟨hl, rfl, rfl⟩, fun c hc => ?_⟩
      obtain rfl := Option.some.inj hc
      exact fun hgone => Bool.false_ne_true hgone.1
  | some stored =>
    have hstays := h stored rfl
    obtain ⟨hl, hmerged⟩ | ⟨hl, hagree, hmerged⟩ | ⟨hl, -, hmerged⟩ :=
      F.mergedAt_stored now version ns key l stored
    · rw [hmerged]
      refine ⟨?_, fun c hc => (Object.HeldBack.of_withdrawn hc).not_isGone⟩
      cases hc : stored.withdrawn now version with
      | none => exact Or.inl hl
      | some c =>
        have hheld := Object.HeldBack.of_withdrawn hc
        exact Or.inr ⟨hl, c, rfl, hheld.marked, hheld.finalizerList ▸ hheld.held⟩
    · rw [hmerged]
      exact ⟨Or.inl (F.matches_of_agree hl hagree), h⟩
    · rw [hmerged, if_neg hstays]
      refine ⟨Or.inl ⟨hl, rfl, rfl⟩, fun c hc => ?_⟩
      obtain rfl := Option.some.inj hc
      exact hstays

/-- A merge of a composite that nobody holds back leaves what the fragments call for. -/
theorem matches_mergedAt (now : Instant) (version ns key : String) (l : List (Fragment φ))
    (h : ∀ c, x = some c → c.metadata.finalizerList = [] ∧ c.metadata.isBeingDeleted = false) :
    F.Matches key ns l (F.mergedAt now version ns key l x) ∧
      ∀ c, F.mergedAt now version ns key l x = some c →
        c.metadata.finalizerList = [] ∧ c.metadata.isBeingDeleted = false := by
  cases x with
  | none =>
    rw [mergedAt]
    split
    next hl => exact ⟨hl, fun c hc => by cases hc⟩
    next hl =>
      refine ⟨⟨hl, rfl, rfl⟩, fun c hc => ?_⟩
      obtain rfl := Option.some.inj hc
      exact ⟨rfl, rfl⟩
  | some stored =>
    have hfree := h stored rfl
    obtain ⟨hl, hmerged⟩ | ⟨hl, hagree, hmerged⟩ | ⟨hl, -, hmerged⟩ :=
      F.mergedAt_stored now version ns key l stored
    · rw [hmerged, Object.withdrawn_eq_none_iff.mpr hfree.1]
      exact ⟨hl, fun c hc => by cases hc⟩
    · rw [hmerged]
      exact ⟨F.matches_of_agree hl hagree, h⟩
    · have hstays : ¬ stored.IsGone := fun hgone =>
        Bool.false_ne_true (hfree.2.symm.trans hgone.1)
      rw [hmerged, if_neg hstays]
      refine ⟨⟨hl, rfl, rfl⟩, fun c hc => ?_⟩
      obtain rfl := Option.some.inj hc
      exact hfree

/-- The write of a merge is to the composite of its key. -/
theorem MergeWrite.target? {F : Family φ κ ι} {c : Call (Composite κ)} {o : MergeOutcome}
    (h : F.MergeWrite key ns l x c o) (hx : ∀ c, x = some c → c.key = ⟨ns, key⟩) :
    c.target? = some ⟨ns, key⟩ := by
  cases h with
  | create => rfl
  | delete c | update c => exact congrArg some (hx c rfl)

theorem MergeWrite.ne_get {F : Family φ κ ι} {c : Call (Composite κ)} {o : MergeOutcome}
    (h : F.MergeWrite key ns l x c o) (ns' name : String) : c ≠ .get ns' name := by
  rintro rfl
  cases h

/-- **The write of a merge is accepted, and makes of the composites what the merge makes of them.** -/
theorem MergeWrite.perform {F : Family φ κ ι} {c : Call (Composite κ)} {o : MergeOutcome}
    (h : F.MergeWrite key ns l (t.objects.get? ⟨ns, key⟩) c o) (ht : t.Keyed) (now : Instant) :
    ∃ a : c.Result, t.perform now c = (.ok a, F.mergedInto now ns key l t) ∧
      ∀ reversed, FaultyStore.arrange reversed c (.ok a) = .ok a := by
  cases hx : t.objects.get? ⟨ns, key⟩ with
  | none =>
    rw [hx] at h
    cases h with
    | create hl =>
      rw [F.mergedInto_of_absent now hx, if_neg hl]
      exact ⟨_, Store.perform_create (o := F.expected key ns l) now hx, fun _ => rfl⟩
  | some stored =>
    have hkey : stored.key = ⟨ns, key⟩ := ht _ stored hx
    have hstored : t.objects.get? stored.key = some stored := hkey ▸ hx
    rw [hx] at h
    rw [F.mergedInto_of_stored now hx]
    cases h with
    | delete _ hl =>
      rw [if_pos hl, ← hkey]
      exact ⟨_, Store.perform_delete now (Store.current_eq_ok hstored rfl), fun _ => rfl⟩
    | update _ hl hagree =>
      rw [if_neg hl, if_neg hagree]
      exact ⟨_, Store.perform_update now (Store.current_eq_ok hstored rfl), fun _ => rfl⟩

/-- A merge that finds what its fragments call for changes nothing. -/
theorem mergedInto_of_matches (now : Instant)
    (h : F.Matches key ns l (t.objects.get? ⟨ns, key⟩)) : F.mergedInto now ns key l t = t :=
  F.mergedInto_of_kept now (Or.inl h)

end Family

end ConfigMerge
