import ConfigMerge.Proofs.Reconcile.Interruption

/-!
# Proofs/Reconcile/Permutation — the order of passes does not matter

Passes over fragments of a namespace, one after the other, end in the same fragments and the same
composites in whatever order they are made (`Stores.reconcileEach_permuted`): up to versions, times
and the uids of composites that were not there at the start.

Passes never change what counts of the live fragments, so what a composite becomes can be said from
the start (`Family.mergedEssence`), and so can what a fragment becomes (`Family.visitedEssence`).
`Visited` says that a state is what the visits so far call for, and mentions their names only.
-/

namespace ConfigMerge

variable {σ τ φ κ ι : Type}

/-! ## What is told apart -/

section Essence

variable [Timed τ] {o o' : Object σ τ}

/-- The object without its version and, when it is new, without its uid.  Every time that it has is
set to one and the same. -/
def Object.essence (new : Bool) (o : Object σ τ) : Object σ τ :=
  o.timeless.modifyMetadata fun m =>
    { m with resourceVersion := none, uid := if new then none else m.uid }

theorem Object.essence_atVersion (new : Bool) (o : Object σ τ) (version : String) :
    (o.atVersion version).essence new = o.essence new := rfl

theorem Object.essence_congr (new : Bool) (h : o.timeless = o'.timeless) :
    o.essence new = o'.essence new := by
  rw [Object.essence, Object.essence, h]

/-- When an object was marked does not matter, nor that it is marked again. -/
theorem Object.timeless_marked (now : Instant) (h : o.metadata.isBeingDeleted) :
    (o.marked now).timeless = o.timeless := by
  obtain ⟨time, htime⟩ := Option.isSome_iff_exists.mp h
  simp [Object.marked, Object.timeless, Object.modifyMetadata, Metadata.timeless, htime]

theorem Object.essence_withdrawn (o : Object σ τ) (now : Instant) (version : String) :
    (o.withdrawn now version).map (Object.essence false) =
      if o.metadata.finalizerList = [] then none
      else some ((o.marked ⟨0, 0⟩).essence false) := by
  unfold Object.withdrawn
  split
  · rfl
  · split
    next hmarked =>
      rw [Option.map_some, Object.essence_congr _ (Object.timeless_marked ⟨0, 0⟩ hmarked)]
    next => rfl

end Essence

/-- Two outcomes from the start `s₀`: the same fragments and the same composites, up to versions,
times and the uids of composites that were not there at the start. -/
structure Collections.SameSince (s₀ s s' : Collections φ κ) : Prop where
  fragments : ∀ k, (s.fragments.objects.get? k).map (Object.essence false) =
    (s'.fragments.objects.get? k).map (Object.essence false)
  composites : ∀ k,
    (s.composites.objects.get? k).map (Object.essence (s₀.composites.objects.get? k).isNone) =
      (s'.composites.objects.get? k).map (Object.essence (s₀.composites.objects.get? k).isNone)

/-! ## What becomes of a composite -/

namespace Family

variable [DecidableEq κ] (F : Family φ κ ι) {ns key : String} {l l' : List (Fragment φ)}

/-- What is told apart of the composite that a merge makes of a stored one. -/
def mergedEssence (key ns : String) (l : List (Fragment φ)) :
    Option (Composite κ) → Option (Composite κ)
  | none => if l = [] then none else some (((F.expected key ns l).asNew ⟨0, 0⟩ "").essence true)
  | some c =>
    if l = [] then
      if c.metadata.finalizerList = [] then none else some ((c.marked ⟨0, 0⟩).essence false)
    else if agree (F.expected key ns l) c then some (c.essence false)
    else some ((renewed c (F.expected key ns l)).essence false)

/-- Only what counts of the fragments matters. -/
theorem mergedEssence_congr_bare (h : l.map Object.bare = l'.map Object.bare)
    (x : Option (Composite κ)) : F.mergedEssence key ns l x = F.mergedEssence key ns l' x := by
  cases x <;>
    simp only [mergedEssence, eq_nil_iff_of_bare_eq h, F.expected_congr_bare key ns h]

/-- **A merge makes of a composite what it makes of it anywhere.** -/
theorem essence_mergedAt (now : Instant) (version : String) {x : Option (Composite κ)}
    (h : ∀ c, x = some c → ¬ c.IsGone) :
    (F.mergedAt now version ns key l x).map (Object.essence x.isNone) =
      F.mergedEssence key ns l x := by
  cases x with
  | none =>
    rw [mergedAt, mergedEssence]
    split <;> rfl
  | some c =>
    obtain ⟨hl, hmerged⟩ | ⟨hl, hagree, hmerged⟩ | ⟨hl, hagree, hmerged⟩ :=
      F.mergedAt_stored now version ns key l c
    · rw [hmerged, mergedEssence, if_pos hl]
      exact c.essence_withdrawn now version
    · rw [hmerged, mergedEssence, if_neg hl, if_pos hagree]
      rfl
    · rw [hmerged, mergedEssence, if_neg (h c rfl), if_neg hl, if_neg hagree]
      rfl

theorem essence_mergedInto {t : Store κ Empty} (h : t.Sound) (now : Instant) (ns key : String)
    (l : List (Fragment φ)) :
    ((F.mergedInto now ns key l t).objects.get? ⟨ns, key⟩).map
        (Object.essence (t.objects.get? ⟨ns, key⟩).isNone) =
      F.mergedEssence key ns l (t.objects.get? ⟨ns, key⟩) := by
  rw [(F.changes_mergedInto now ns key l h.keyed).here]
  exact F.essence_mergedAt now _ fun c hc => h.stays _ c hc

end Family

/-! ## What becomes of a fragment -/

namespace Family

variable (F : Family φ κ ι)

/-- The fragment with its content recorded, if that is due. -/
def noted (f : Fragment φ) : Fragment φ :=
  if !f.metadata.isBeingDeleted && F.isChanged f then
    { f with status := some {
      contentFingerprint := some (F.fingerprint f)
      lastSyncedAt := some "" } }
  else f

theorem essence_noted_atVersion (g : Fragment φ) (version : String) :
    (F.noted (g.atVersion version)).essence false = (F.noted g).essence false := by
  have hdue : (!(g.atVersion version).metadata.isBeingDeleted && F.isChanged (g.atVersion version)) =
      (!g.metadata.isBeingDeleted && F.isChanged g) := rfl
  rw [noted, noted, hdue]
  split <;> rfl

/-- What is told apart of the fragment that a pass makes of a stored one. -/
def visitedEssence (f : Fragment φ) : Option (Fragment φ) :=
  match F.aggregationKey f with
  | .error _ => some (f.essence false)
  | .ok _ =>
    match f.metadata.finalizerChange? fragmentFinalizer with
    | none => some ((F.noted f).essence false)
    | some metadata =>
      let g := ({ f with metadata } : Fragment φ).inPlaceOf f
      if g.IsGone then none else some ((F.noted g).essence false)

variable {F} {t : Store φ FragmentStatus} {k : ObjectKey} {f g : Fragment φ}

/-- What is recorded on a stored fragment is what is due for it. -/
theorem essence_recorded (now : Instant) (hg : t.objects.get? k = some g) :
    ((t.recorded F now k).objects.get? k).map (Object.essence false) =
      some ((F.noted g).essence false) := by
  rw [Store.recorded_of_stored now hg, noted]
  split
  · rw [(Store.changes_write t k _).here, Option.map_some, Object.essence_atVersion,
      Object.essence_congr false
        (Object.timeless_status_congr g (FragmentStatus.timeless_synced _ _ ""))]
  · rw [hg, Option.map_some]

/-- **A pass makes of a fragment what it makes of it anywhere.** -/
theorem essence_recorded_guarded (ht : t.Keyed) (now : Instant) (hf : t.objects.get? k = some f)
    {key : String} (hkey : F.aggregationKey f = .ok key) :
    (((t.guarded k).recorded F now k).objects.get? k).map (Object.essence false) =
      F.visitedEssence f := by
  obtain rfl : f.key = k := ht k f hf
  simp only [visitedEssence, hkey]
  cases hm : f.metadata.finalizerChange? fragmentFinalizer with
  | none =>
    have hsame : t.guarded f.key = t := by simp only [Store.guarded, hf, hm]
    rw [hsame]
    exact essence_recorded now hf
  | some m =>
    obtain ⟨fs, rfl, -⟩ := Metadata.of_finalizerChange?_eq_some hm
    let o : Fragment φ := { f with metadata := { f.metadata with finalizers := some fs } }
    have hnew : t.guarded f.key = t.replaced o f := by simp only [Store.guarded, hf, hm]; rfl
    have hhere : (t.replaced o f).objects.get? f.key = _ := (Store.changes_replaced t o f).here
    rw [hnew]
    dsimp only
    split at hhere
    next hgone =>
      rw [if_pos hgone, Store.recorded_of_absent now hhere, hhere, Option.map_none]
    next hstays =>
      rw [if_neg hstays, essence_recorded now hhere, essence_noted_atVersion]

end Family

/-! ## What visits amount to -/

namespace Collections

variable {ns key own : String} {uid : Option String} {s₀ s s' : Collections φ κ}
  {F : Family φ κ ι} {visited visited' : String → Prop}

/-- Whether a pass is concerned with a key depends on the composite of that key alone. -/
theorem mem_order_congr (F : Family φ κ ι) (hs : s.composites.Keyed) (hs' : s'.composites.Keyed)
    (h : s.compositeAt ns key = s'.compositeAt ns key) :
    key ∈ s.order ns own uid ↔ key ∈ s'.order ns own uid := by
  simp only [order, List.mem_cons, mem_staleNames F hs, mem_staleNames F hs', Lists, h]

/-- At the start a fragment of a visited name was concerned with the key. -/
def Touched (F : Family φ κ ι) (ns : String) (s₀ : Collections φ κ) (visited : String → Prop)
    (key : String) : Prop :=
  ∃ name f own, visited name ∧ s₀.fragments.objects.get? ⟨ns, name⟩ = some f ∧
    F.aggregationKey f = .ok own ∧ key ∈ s₀.order ns own f.metadata.uid

theorem Touched.mono (h : Touched F ns s₀ visited key) (hv : ∀ name, visited name → visited' name) :
    Touched F ns s₀ visited' key := by
  obtain ⟨name, f, own, hname, hf⟩ := h
  exact ⟨name, f, own, hv name hname, hf⟩

variable [DecidableEq κ] {now : Instant}

/-- What is kept stays as it is. -/
theorem KeptAt.compositeAt_mergedEach (h : KeptAt F ns s key) (hs : s.Sound)
    (keys : List String) :
    (s.mergedEach F now ns keys).compositeAt ns key = s.compositeAt ns key := by
  induction keys generalizing s with
  | nil => rfl
  | cons head rest ih =>
    refine (ih (h.merged hs head) (hs.merged F now ns head)).trans ?_
    by_cases hne : key = head
    · subst hne
      rw [h.merged_eq]
    · exact compositeAt_merged hs.keyed hne

/-- **Merges make of each of their composites what one merge makes of it.** -/
theorem essence_mergedEach (F : Family φ κ ι) (now : Instant) (ns : String) (hs : s.Sound)
    {keys : List String} (hkey : key ∈ keys) :
    ((s.mergedEach F now ns keys).compositeAt ns key).map
        (Object.essence (s.compositeAt ns key).isNone) =
      F.mergedEssence key ns (F.live s.fragments ns key) (s.compositeAt ns key) := by
  obtain ⟨before, after, rfl, hnot⟩ := List.eq_append_cons_of_mem hkey
  have hbefore := hs.mergedEach F now ns before
  have hat : (s.mergedEach F now ns before).compositeAt ns key = s.compositeAt ns key :=
    compositeAt_mergedEach hs.keyed hnot
  have hmerge := F.essence_mergedInto hbefore.composites now ns key
    (F.live (s.mergedEach F now ns before).fragments ns key)
  rw [mergedEach_fragments] at hmerge
  have hafter : (s.mergedEach F now ns (before ++ key :: after)).compositeAt ns key =
      ((s.mergedEach F now ns before).merged F now ns key).compositeAt ns key := by
    rw [mergedEach_append]
    exact (keptAt_merged hbefore key).compositeAt_mergedEach (hbefore.merged F now ns key) after
  rw [hafter, ← hat, compositeAt, merged, mergedEach_fragments]
  exact hmerge

/-- What is held after visits to some names of a namespace, from the start `s₀`. -/
structure Visited (F : Family φ κ ι) (ns : String) (s₀ : Collections φ κ)
    (visited : String → Prop) (s : Collections φ κ) : Prop where
  sound : s.Sound
  sameLive : Family.SameLive ns s₀.fragments s.fragments
  origin : ∀ name f, s.fragments.objects.get? ⟨ns, name⟩ = some f →
    ∃ f₀, s₀.fragments.objects.get? ⟨ns, name⟩ = some f₀ ∧ f.bare = f₀.bare
  unvisited : ∀ k, (k.nameSpace = ns → ¬ visited k.name) →
    s.fragments.objects.get? k = s₀.fragments.objects.get? k
  fragment : ∀ name, visited name →
    (s.fragments.objects.get? ⟨ns, name⟩).map (Object.essence false) =
      (s₀.fragments.objects.get? ⟨ns, name⟩).bind F.visitedEssence
  settled : ∀ name f own, visited name → s.fragments.objects.get? ⟨ns, name⟩ = some f →
    F.aggregationKey f = .ok own → F.Settled f
  untouched : ∀ k, (k.nameSpace = ns → ¬ Touched F ns s₀ visited k.name) →
    s.composites.objects.get? k = s₀.composites.objects.get? k
  touched : ∀ key, Touched F ns s₀ visited key → KeptAt F ns s key ∧
    (s.compositeAt ns key).map (Object.essence (s₀.compositeAt ns key).isNone) =
      F.mergedEssence key ns (F.live s₀.fragments ns key) (s₀.compositeAt ns key)

theorem Visited.start (h : s₀.Sound) : Visited F ns s₀ (fun _ => False) s₀ where
  sound := h
  sameLive := .refl ns _
  origin _ f hf := ⟨f, hf, rfl⟩
  unvisited _ _ := rfl
  fragment _ hv := hv.elim
  settled _ _ _ hv := hv.elim
  untouched _ _ := rfl
  touched key h := by
    obtain ⟨_, _, _, hv, _⟩ := h
    exact hv.elim

theorem Visited.congr (h : Visited F ns s₀ visited s) (hv : ∀ name, visited name ↔ visited' name) :
    Visited F ns s₀ visited' s := by
  obtain rfl : visited = visited' := funext fun name => propext (hv name)
  exact h

/-- **Which names were visited says what is held.** -/
theorem Visited.sameSince (h : Visited F ns s₀ visited s) (h' : Visited F ns s₀ visited s') :
    SameSince s₀ s s' where
  fragments k := by
    by_cases hk : k.nameSpace = ns → ¬ visited k.name
    · rw [h.unvisited k hk, h'.unvisited k hk]
    · obtain ⟨rfl, hv⟩ : k.nameSpace = ns ∧ visited k.name := by simpa using hk
      exact (h.fragment k.name hv).trans (h'.fragment k.name hv).symm
  composites k := by
    by_cases hk : k.nameSpace = ns → ¬ Touched F ns s₀ visited k.name
    · rw [h.untouched k hk, h'.untouched k hk]
    · obtain ⟨rfl, ht⟩ : k.nameSpace = ns ∧ Touched F ns s₀ visited k.name := by simpa using hk
      exact (h.touched k.name ht).2.trans (h'.touched k.name ht).2.symm

/-- A visit that finds no fragment with a key changes nothing. -/
theorem Visited.visit_idle (h : Visited F ns s₀ visited s) {name : String}
    (hnone : ∀ f own, s.fragments.objects.get? ⟨ns, name⟩ = some f →
      F.aggregationKey f ≠ .ok own) :
    Visited F ns s₀ (fun name' => name' = name ∨ visited name') s := by
  by_cases hv : visited name
  · refine h.congr fun name' => ⟨Or.inr, ?_⟩
    rintro (rfl | hv')
    · exact hv
    · exact hv'
  · have hsame : s.fragments.objects.get? ⟨ns, name⟩ = s₀.fragments.objects.get? ⟨ns, name⟩ :=
      h.unvisited ⟨ns, name⟩ fun _ => hv
    have hold : ∀ key, Touched F ns s₀ (fun name' => name' = name ∨ visited name') key →
        Touched F ns s₀ visited key := by
      rintro key ⟨name', f, own, hname', hf, hown, hkey⟩
      rcases hname' with rfl | hv'
      · exact absurd hown (hnone f own (hsame.trans hf))
      · exact ⟨name', f, own, hv', hf, hown, hkey⟩
    exact {
      sound := h.sound
      sameLive := h.sameLive
      origin := h.origin
      unvisited := fun k hk => h.unvisited k fun hns hvk => hk hns (Or.inr hvk)
      fragment := by
        rintro name' (rfl | hv')
        · rw [← hsame]
          cases hf : s.fragments.objects.get? ⟨ns, name'⟩ with
          | none => rfl
          | some f =>
            cases hown : F.aggregationKey f with
            | ok own => exact absurd hown (hnone f own hf)
            | error e => simp only [Option.map_some, Option.bind_some, Family.visitedEssence, hown]
        · exact h.fragment name' hv'
      settled := by
        rintro name' f own (rfl | hv') hf hown
        · exact absurd hown (hnone f own hf)
        · exact h.settled name' f own hv' hf hown
      untouched := fun k hk => h.untouched k fun hns ht => hk hns (ht.mono fun _ => Or.inr)
      touched := fun key ht => h.touched key (hold key ht) }

/-- What a visit does to its own fragment. -/
theorem Visited.fragment_visit (h : Visited F ns s₀ visited s) {name : String} {f : Fragment φ}
    (hf : s.fragments.objects.get? ⟨ns, name⟩ = some f) (hkey : F.aggregationKey f = .ok own)
    (now : Instant) :
    (((s.fragments.guarded ⟨ns, name⟩).recorded F now ⟨ns, name⟩).objects.get? ⟨ns, name⟩).map
        (Object.essence false) =
      (s₀.fragments.objects.get? ⟨ns, name⟩).bind F.visitedEssence := by
  by_cases hv : visited name
  · rw [Store.recorded_guarded_of_settled now fun g hg => ?_]
    · exact h.fragment name hv
    · obtain rfl : f = g := Option.some.inj (hf.symm.trans hg)
      exact h.settled name f own hv hf hkey
  · have hf₀ := h.unvisited ⟨ns, name⟩ fun _ => hv
    rw [← hf₀, hf, Option.bind_some]
    exact Family.essence_recorded_guarded h.sound.fragments now hf hkey

/-- The keys that a visit is concerned with are those that it touches. -/
theorem Visited.touched_visit_iff (h : Visited F ns s₀ visited s) (hs₀ : s₀.Sound) {name : String}
    {f : Fragment φ} (hf : s.fragments.objects.get? ⟨ns, name⟩ = some f)
    (hkey : F.aggregationKey f = .ok own) (hnot : ¬ Touched F ns s₀ visited key) :
    Touched F ns s₀ (fun name' => name' = name ∨ visited name') key ↔
      key ∈ s.order ns own f.metadata.uid := by
  obtain ⟨f₀, hf₀, hbare⟩ := h.origin name f hf
  have hkey₀ : F.aggregationKey f₀ = .ok own := (F.aggregationKey_congr hbare).symm.trans hkey
  have huid : f₀.metadata.uid = f.metadata.uid := by
    rw [← Object.bare_uid, ← hbare, Object.bare_uid]
  have hat : s.compositeAt ns key = s₀.compositeAt ns key := h.untouched ⟨ns, key⟩ fun _ => hnot
  rw [mem_order_congr F h.sound.composites.keyed hs₀.composites.keyed hat]
  constructor
  · rintro ⟨name', g, own', rfl | hv, hg, hown, hmem⟩
    · obtain rfl : f₀ = g := Option.some.inj (hf₀.symm.trans hg)
      obtain rfl : own = own' := Except.ok.inj (hkey₀.symm.trans hown)
      exact huid ▸ hmem
    · exact absurd ⟨name', g, own', hv, hg, hown, hmem⟩ hnot
  · exact fun hmem => ⟨name, f₀, own, Or.inl rfl, hf₀, hkey₀, huid ▸ hmem⟩

/-- What a visit does to the composites that were touched then: those that it is concerned with become
what they would become at the start, and the others stay. -/
theorem Visited.composite_visit (h : Visited F ns s₀ visited s) (hs₀ : s₀.Sound) {name : String}
    {f : Fragment φ} (hf : s.fragments.objects.get? ⟨ns, name⟩ = some f)
    (hkey : F.aggregationKey f = .ok own) (now : Instant)
    (ht : Touched F ns s₀ (fun name' => name' = name ∨ visited name') key) :
    KeptAt F ns (s.mergedEach F now ns (s.order ns own f.metadata.uid)) key ∧
      ((s.mergedEach F now ns (s.order ns own f.metadata.uid)).compositeAt ns key).map
          (Object.essence (s₀.compositeAt ns key).isNone) =
        F.mergedEssence key ns (F.live s₀.fragments ns key) (s₀.compositeAt ns key) := by
  by_cases hold : Touched F ns s₀ visited key
  · obtain ⟨hkept, hessence⟩ := h.touched key hold
    rw [hkept.compositeAt_mergedEach h.sound]
    exact ⟨hkept.mergedEach h.sound _, hessence⟩
  · have hmem := (h.touched_visit_iff hs₀ hf hkey hold).mp ht
    have hat : s.compositeAt ns key = s₀.compositeAt ns key := h.untouched ⟨ns, key⟩ fun _ => hold
    have hessence := essence_mergedEach F now ns h.sound hmem
    rw [hat, F.mergedEssence_congr_bare
      ((h.sameLive.map_bare_live F hs₀.fragments h.sound.fragments key).symm)] at hessence
    exact ⟨keptAt_mergedEach h.sound hmem, hessence⟩

/-- **One visit** to a fragment with a key. -/
theorem Visited.visit (h : Visited F ns s₀ visited s) (hs₀ : s₀.Sound) {name : String}
    {f : Fragment φ} (hf : s.fragments.objects.get? ⟨ns, name⟩ = some f)
    (hkey : F.aggregationKey f = .ok own) (now : Instant) :
    Visited F ns s₀ (fun name' => name' = name ∨ visited name')
      { s.mergedEach F now ns (s.order ns own f.metadata.uid) with
        fragments := (s.fragments.guarded ⟨ns, name⟩).recorded F now ⟨ns, name⟩ } := by
  obtain ⟨x, hchange, hgone, hleft⟩ := changes_recorded_guarded (F := F) now h.sound.fragments hf
  have hmerged := h.sound.mergedEach F now ns (s.order ns own f.metadata.uid)
  have hkeyed := h.sound.fragments.changes hchange fun f' hf' =>
    (Object.key_eq_of_bare_eq (hleft f' hf').1).trans (h.sound.fragments _ f hf)
  have hsame : Family.SameLive ns s.fragments _ :=
    .of_changes_bare hchange hf hgone fun f' hf' => (hleft f' hf').1
  obtain ⟨f₀, hf₀, hbare⟩ := h.origin name f hf
  have helsewhere : ∀ name', name' ≠ name →
      ((s.fragments.guarded ⟨ns, name⟩).recorded F now ⟨ns, name⟩).objects.get? ⟨ns, name'⟩ =
        s.fragments.objects.get? ⟨ns, name'⟩ :=
    fun name' hne => hchange.elsewhere _ (by simpa using hne)
  have hkept : ∀ key, KeptAt F ns (s.mergedEach F now ns (s.order ns own f.metadata.uid)) key →
      KeptAt F ns { s.mergedEach F now ns (s.order ns own f.metadata.uid) with
        fragments := (s.fragments.guarded ⟨ns, name⟩).recorded F now ⟨ns, name⟩ } key :=
    fun key hk => hk.of_sameLive ((mergedEach_fragments s _).symm ▸ hsame) hmerged.fragments hkeyed
  exact {
    sound := ⟨hkeyed, hmerged.composites⟩
    sameLive := h.sameLive.trans hsame
    origin := fun name' f' hf' => by
      by_cases hne : name' = name
      · subst hne
        exact ⟨f₀, hf₀, (hleft f' (hchange.here.symm.trans hf')).1.trans hbare⟩
      · exact h.origin name' f' ((helsewhere name' hne).symm.trans hf')
    unvisited := fun k hk => by
      have hne : k ≠ ⟨ns, name⟩ := by
        rintro rfl
        exact hk rfl (Or.inl rfl)
      exact (hchange.elsewhere k hne).trans (h.unvisited k fun hns hv => hk hns (Or.inr hv))
    fragment := fun name' hv => by
      by_cases hne : name' = name
      · subst hne
        exact h.fragment_visit hf hkey now
      · dsimp only
        rw [helsewhere name' hne]
        exact h.fragment name' (hv.resolve_left hne)
    settled := fun name' f' own' hv hf' hown => by
      by_cases hne : name' = name
      · subst hne
        exact (hleft f' (hchange.here.symm.trans hf')).2
      · exact h.settled name' f' own' (hv.resolve_left hne)
          ((helsewhere name' hne).symm.trans hf') hown
    untouched := fun k hk => by
      have hnot : k.nameSpace = ns → ¬ Touched F ns s₀ visited k.name :=
        fun hns ht => hk hns (ht.mono fun _ => Or.inr)
      refine (get?_mergedEach h.sound.keyed ?_).trans (h.untouched k hnot)
      rintro key hmem rfl
      exact hk rfl ((h.touched_visit_iff hs₀ hf hkey (hnot rfl)).mpr hmem)
    touched := fun key ht => (h.composite_visit hs₀ hf hkey now ht).imp_left (hkept key) }

/-- A visit to a name, whatever it finds. -/
theorem Visited.reconciled (h : Visited F ns s₀ visited s) (hs₀ : s₀.Sound) (now : Instant)
    (name : String) :
    Visited F ns s₀ (fun name' => name' = name ∨ visited name') (s.reconciled F now ns name) := by
  cases hf : s.fragments.objects.get? ⟨ns, name⟩ with
  | none =>
    rw [reconciled_of_absent F now hf]
    refine h.visit_idle fun f own hf' => ?_
    rw [hf] at hf'
    cases hf'
  | some f =>
    cases hkey : F.aggregationKey f with
    | error e =>
      rw [reconciled_of_error F now hf hkey]
      refine h.visit_idle fun g own hg hown => ?_
      obtain rfl : f = g := Option.some.inj (hf.symm.trans hg)
      rw [hkey] at hown
      cases hown
    | ok own =>
      rw [reconciled_of_key F now hf hkey]
      exact h.visit hs₀ hf hkey now

end Collections

/-! ## All visits -/

namespace Stores

variable [DecidableEq κ] {F : Family φ κ ι} {ns : String} {s₀ s : Stores φ κ}

/-- **A series of passes visits its names**, and nothing else matters. -/
theorem visited_reconcileEach (hs₀ : s₀.collections.Sound) (order : List (Instant × String))
    {visited : String → Prop} (hcalm : s.Undisturbed)
    (h : Collections.Visited F ns s₀.collections visited s.collections) :
    Collections.Visited F ns s₀.collections
      (fun name => visited name ∨ name ∈ order.map Prod.snd)
      (s.reconcileEach F ns order).2.collections := by
  induction order generalizing s visited with
  | nil => exact h.congr fun name => by simp
  | cons head rest ih =>
    obtain ⟨now, name⟩ := head
    obtain ⟨hheld, hcalm'⟩ := run_reconcile_undisturbed F now ns name hcalm h.sound
    refine (ih hcalm' (hheld ▸ h.reconciled hs₀ now name)).congr fun name' => ?_
    simp only [List.map_cons, List.mem_cons]
    tauto

/-- **The order of passes does not matter**: passes over the same names of a namespace, one after the
other in any two orders and at any times, end in the same fragments and the same composites, up to
versions, times and the uids of composites that were created on the way.  The fragments may lack a
key, be about to be deleted, or be gone already. -/
theorem reconcileEach_permuted (F : Family φ κ ι) (ns : String) (s : Stores φ κ)
    (order order' : List (Instant × String)) (hcalm : s.Undisturbed) (hs : s.collections.Sound)
    (h : (order.map Prod.snd).Perm (order'.map Prod.snd)) :
    s.collections.SameSince (s.reconcileEach F ns order).2.collections
      (s.reconcileEach F ns order').2.collections := by
  have hstart : Collections.Visited F ns s.collections (fun _ => False) s.collections := .start hs
  refine (visited_reconcileEach hs order hcalm hstart).sameSince
    ((visited_reconcileEach hs order' hcalm hstart).congr fun name => ?_)
  rw [h.mem_iff]

/-- The fragment that has moved and the one that goes, in both orders: the versions tell which was
visited first, and nothing else does. -/
theorem reconcileEach_permuted_disordered :
    let s := (disordered.reconcileEach .routes "default" [(⟨1, 0⟩, "moved"), (⟨2, 0⟩, "going")]).2
    let s' := (disordered.reconcileEach .routes "default" [(⟨1, 0⟩, "going"), (⟨2, 0⟩, "moved")]).2
    (s.fragments.store.objects.get? ⟨"default", "moved"⟩).map (·.metadata.resourceVersion) ≠
        (s'.fragments.store.objects.get? ⟨"default", "moved"⟩).map (·.metadata.resourceVersion) ∧
      disordered.collections.SameSince s.collections s'.collections := by
  intro s s'
  have hsound : disordered.collections.Sound :=
    ⟨show disordered.fragments.store.Keyed by decide +kernel,
      show disordered.composites.store.Sound by decide +kernel⟩
  refine ⟨by decide +kernel, ?_⟩
  exact reconcileEach_permuted .routes "default" disordered [(⟨1, 0⟩, "moved"), (⟨2, 0⟩, "going")]
    [(⟨1, 0⟩, "going"), (⟨2, 0⟩, "moved")] ⟨fun _ => rfl, fun _ => rfl⟩ hsound (.swap _ _ _)

end Stores

end ConfigMerge
