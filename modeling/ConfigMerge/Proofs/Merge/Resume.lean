import ConfigMerge.Proofs.Merge.Repair
import ConfigMerge.Proofs.Store.Timeless

/-!
# Proofs/Merge/Resume — merges that were begun are completed, not repeated

A merge leaves its key as every further merge does (`Family.mergedInto_of_kept`).  So merges over the
keys that a pass is concerned with, started afresh when some of them were made already, make just the
others, in the order of the first start (`Collections.mergedEach_order`).
-/

namespace ConfigMerge

variable {σ τ φ κ ι : Type}

/-! ## Stores from which nothing is about to go -/

/-- Everything is stored under its own key, and what is being deleted is held back by a finalizer. -/
structure Store.Sound (s : Store σ τ) : Prop where
  keyed : s.Keyed
  stays : ∀ k o, s.objects.get? k = some o → ¬ o.IsGone

theorem Store.sound_iff {s : Store σ τ} :
    s.Sound ↔ ∀ e ∈ s.objects.entries, e.2.key = e.1 ∧ ¬ e.2.IsGone := by
  constructor
  · rintro ⟨hkeyed, hstays⟩ e he
    have hget := SortedMap.get?_eq_some_iff.mpr he
    exact ⟨hkeyed e.1 e.2 hget, hstays e.1 e.2 hget⟩
  · refine fun h => ⟨fun k o ho => ?_, fun k o ho => ?_⟩
    · exact (h (k, o) (SortedMap.get?_eq_some_iff.mp ho)).1
    · exact (h (k, o) (SortedMap.get?_eq_some_iff.mp ho)).2

instance (s : Store σ τ) : Decidable s.Sound := decidable_of_iff _ Store.sound_iff.symm

/-- A change keeps a store sound when what is new fits its key and stays. -/
theorem Store.Sound.changes {s s' : Store σ τ} {k : ObjectKey} {x : Option (Object σ τ)}
    (h : s.Sound) (hc : s.Changes s' k x) (hx : ∀ o, x = some o → o.key = k ∧ ¬ o.IsGone) :
    s'.Sound where
  keyed := h.keyed.changes hc fun o ho => (hx o ho).1
  stays k' o ho := by
    by_cases hk : k' = k
    · subst hk
      exact (hx o (hc.here.symm.trans ho)).2
    · exact h.stays k' o ((hc.elsewhere k' hk).symm.trans ho)

/-! ## One merge at two times -/

namespace Family

variable [DecidableEq κ] (F : Family φ κ ι) {t t' : Store κ Empty}

/-- **Merges at two times make the same of composites that are alike.** -/
theorem alike_mergedInto (h : t.Alike t') (ns key : String) (l : List (Fragment φ))
    (now now' : Instant) :
    (F.mergedInto now ns key l t).Alike (F.mergedInto now' ns key l t') := by
  cases hc : t.objects.get? ⟨ns, key⟩ with
  | none =>
    rw [F.mergedInto_of_absent now hc, F.mergedInto_of_absent now' (h.get?_eq_none hc)]
    split
    · exact h
    · exact h.seed _ now now'
  | some c =>
    obtain ⟨c', hc', heq⟩ := h.get?_eq_some hc
    have hagree : agree (F.expected key ns l) c = agree (F.expected key ns l) c' := by
      rw [agree, agree, Object.spec_eq_of_timeless_eq heq, Object.owners_eq_of_timeless_eq heq]
    have hrenewed : (renewed c (F.expected key ns l)).timeless =
        (renewed c' (F.expected key ns l)).timeless :=
      congrArg (renewed · (F.expected key ns l)) heq
    rw [F.mergedInto_of_stored now hc, F.mergedInto_of_stored now' hc', hagree]
    split
    · exact h.requestDeletion _ now now'
    · split
      · exact h
      · exact h.replaced hrenewed heq

end Family

/-! ## The merges of a pass -/

namespace Collections

variable {ns key key' : String} {s : Collections φ κ} {F : Family φ κ ι}

/-- Fragments and composites are stored under their own keys. -/
structure Keyed (s : Collections φ κ) : Prop where
  fragments : s.fragments.Keyed
  composites : s.composites.Keyed

/-- Fragments are stored under their own keys, and so are composites, none of which is about to
go. -/
structure Sound (s : Collections φ κ) : Prop where
  fragments : s.fragments.Keyed
  composites : s.composites.Sound

theorem Sound.keyed (h : s.Sound) : s.Keyed := ⟨h.fragments, h.composites.keyed⟩

/-- The composite of a key is as a merge leaves it. -/
def KeptAt (F : Family φ κ ι) (ns : String) (s : Collections φ κ) (key : String) : Prop :=
  F.Kept key ns (F.live s.fragments ns key) (s.compositeAt ns key)

/-- The keys other than `key` whose composites list a uid, in order. -/
def staleNames (s : Collections φ κ) (ns key : String) : Option String → List String
  | none => []
  | some uid => ((s.composites.list ns).filter (fun c =>
      c.metadata.anyName ≠ key && c.metadata.owners.any (·.uid = uid))).map (·.metadata.anyName)

/-- The keys that a pass merges, in order: its own, and those whose composites list its fragment. -/
def order (s : Collections φ κ) (ns key : String) (uid : Option String) : List String :=
  key :: s.staleNames ns key uid

theorem pairwise_staleNames (h : s.composites.Keyed) (ns key : String) (uid : Option String) :
    (s.staleNames ns key uid).Pairwise (· < ·) := by
  cases uid with
  | none => exact List.Pairwise.nil
  | some u => exact List.pairwise_map.mpr ((Store.pairwise_list h ns).filter _)

theorem mem_staleNames (F : Family φ κ ι) (h : s.composites.Keyed) {uid : Option String} :
    key' ∈ s.staleNames ns key uid ↔ key' ≠ key ∧ ∃ u, uid = some u ∧ s.Lists ns u key' := by
  cases uid with
  | none => simp [staleNames]
  | some u =>
    obtain ⟨keys, hrun, hkeys⟩ := run_staleKeys F ⟨0, 0⟩ ns h u key
    obtain rfl : s.staleNames ns key (some u) = keys := by
      have hresult := congrArg Prod.fst hrun
      exact Except.ok.inj hresult
    rw [hkeys]
    simp

theorem nodup_order (h : s.composites.Keyed) (ns key : String) (uid : Option String) :
    (s.order ns key uid).Nodup := by
  have irrefl : Std.Irrefl ((· < ·) : String → String → Prop) := ⟨String.lt_irrefl⟩
  have hstale := s.pairwise_staleNames h ns key uid
  refine List.nodup_cons.mpr ⟨fun hmem => ?_, hstale.nodup⟩
  cases uid with
  | none => cases hmem
  | some u =>
    obtain ⟨c, ⟨-, hne, -⟩, heq⟩ := by simpa [staleNames] using hmem
    exact hne heq

/-- What is kept for some fragments is kept for others of which the same counts. -/
theorem KeptAt.of_sameLive (h : KeptAt F ns s key) {t : Store φ FragmentStatus}
    (hsame : Family.SameLive ns s.fragments t) (hs : s.fragments.Keyed) (ht : t.Keyed) :
    KeptAt F ns { s with fragments := t } key :=
  Family.Kept.congr_bare h (hsame.map_bare_live F hs ht key)

variable [DecidableEq κ] {now : Instant}

/-- What a merge of a key makes of the collections. -/
def merged (F : Family φ κ ι) (now : Instant) (ns : String) (s : Collections φ κ) (key : String) :
    Collections φ κ :=
  { s with composites := F.mergedInto now ns key (F.live s.fragments ns key) s.composites }

/-- What merges of keys, one after the other, make of the collections. -/
def mergedEach (F : Family φ κ ι) (now : Instant) (ns : String) (s : Collections φ κ)
    (keys : List String) : Collections φ κ :=
  keys.foldl (merged F now ns) s

theorem mergedEach_append (s : Collections φ κ) (keys keys' : List String) :
    s.mergedEach F now ns (keys ++ keys') = (s.mergedEach F now ns keys).mergedEach F now ns keys' :=
  List.foldl_append

/-- Merges change the composites alone. -/
theorem mergedEach_eq (s : Collections φ κ) (keys : List String) :
    s.mergedEach F now ns keys =
      { s with composites := (s.mergedEach F now ns keys).composites } := by
  induction keys generalizing s with
  | nil => rfl
  | cons key rest ih => exact ih (s.merged F now ns key)

@[simp] theorem mergedEach_fragments (s : Collections φ κ) (keys : List String) :
    (s.mergedEach F now ns keys).fragments = s.fragments := by
  rw [mergedEach_eq]

@[simp] theorem mergedEach_fragmentsReversed (s : Collections φ κ) (keys : List String) :
    (s.mergedEach F now ns keys).fragmentsReversed = s.fragmentsReversed := by
  rw [mergedEach_eq]

@[simp] theorem mergedEach_compositesReversed (s : Collections φ κ) (keys : List String) :
    (s.mergedEach F now ns keys).compositesReversed = s.compositesReversed := by
  rw [mergedEach_eq]

theorem KeptAt.merged_eq (h : KeptAt F ns s key) : s.merged F now ns key = s := by
  rw [merged, F.mergedInto_of_kept now h]

theorem compositeAt_merged_self (F : Family φ κ ι) (now : Instant) (ns key : String)
    (h : s.Keyed) :
    (s.merged F now ns key).compositeAt ns key =
      F.mergedAt now s.composites.nextVersion ns key (F.live s.fragments ns key)
        (s.compositeAt ns key) :=
  (F.changes_mergedInto now ns key _ h.composites).here

theorem get?_merged (h : s.Keyed) {k : ObjectKey} (hne : k ≠ ⟨ns, key⟩) :
    (s.merged F now ns key).composites.objects.get? k = s.composites.objects.get? k :=
  (F.changes_mergedInto now ns key _ h.composites).elsewhere k hne

theorem compositeAt_merged (h : s.Keyed) (hne : key' ≠ key) :
    (s.merged F now ns key).compositeAt ns key' = s.compositeAt ns key' :=
  get?_merged h (by simpa using hne)

theorem Keyed.merged (h : s.Keyed) (F : Family φ κ ι) (now : Instant) (ns key : String) :
    (s.merged F now ns key).Keyed where
  fragments := h.fragments
  composites := h.composites.changes (F.changes_mergedInto now ns key _ h.composites) fun _ hc =>
    F.key_of_mergedAt (fun c hc => h.composites _ c hc) hc

theorem keptAt_merged (h : s.Sound) (key : String) : KeptAt F ns (s.merged F now ns key) key := by
  rw [KeptAt, compositeAt_merged_self F now ns key h.keyed]
  exact (F.kept_mergedAt fun c hc => h.composites.stays _ c hc).1

theorem Sound.merged (h : s.Sound) (F : Family φ κ ι) (now : Instant) (ns key : String) :
    (s.merged F now ns key).Sound := by
  have hchange := F.changes_mergedInto now ns key (F.live s.fragments ns key) h.composites.keyed
  refine ⟨h.fragments, h.composites.changes hchange fun c hc => ⟨?_, ?_⟩⟩
  · exact F.key_of_mergedAt (fun c hc => h.composites.keyed _ c hc) hc
  · exact (F.kept_mergedAt fun c hc => h.composites.stays _ c hc).2 c hc

theorem KeptAt.merged (h : KeptAt F ns s key') (hs : s.Sound) (key : String) :
    KeptAt F ns (s.merged F now ns key) key' := by
  by_cases hne : key' = key
  · exact hne ▸ keptAt_merged hs key'
  · rw [KeptAt, compositeAt_merged hs.keyed hne]
    exact h

theorem Keyed.mergedEach (h : s.Keyed) (F : Family φ κ ι) (now : Instant) (ns : String)
    (keys : List String) : (s.mergedEach F now ns keys).Keyed := by
  induction keys generalizing s with
  | nil => exact h
  | cons key rest ih => exact ih (h.merged F now ns key)

theorem Sound.mergedEach (h : s.Sound) (F : Family φ κ ι) (now : Instant) (ns : String)
    (keys : List String) : (s.mergedEach F now ns keys).Sound := by
  induction keys generalizing s with
  | nil => exact h
  | cons key rest ih => exact ih (h.merged F now ns key)

theorem KeptAt.mergedEach (h : KeptAt F ns s key) (hs : s.Sound) (keys : List String) :
    KeptAt F ns (s.mergedEach F now ns keys) key := by
  induction keys generalizing s with
  | nil => exact h
  | cons head rest ih => exact ih (h.merged hs head) (hs.merged F now ns head)

/-- Every key that was merged is as a merge leaves it. -/
theorem keptAt_mergedEach (hs : s.Sound) {keys : List String} (hkey : key ∈ keys) :
    KeptAt F ns (s.mergedEach F now ns keys) key := by
  obtain ⟨before, after, rfl⟩ := List.append_of_mem hkey
  have hbefore := hs.mergedEach F now ns before
  rw [mergedEach_append]
  exact (keptAt_merged hbefore key).mergedEach (hbefore.merged F now ns key) after

theorem get?_mergedEach (hs : s.Keyed) {keys : List String} {k : ObjectKey}
    (hk : ∀ key ∈ keys, k ≠ ⟨ns, key⟩) :
    (s.mergedEach F now ns keys).composites.objects.get? k = s.composites.objects.get? k := by
  induction keys generalizing s with
  | nil => rfl
  | cons head rest ih =>
    rw [List.forall_mem_cons] at hk
    exact (ih (hs.merged F now ns head) hk.2).trans (get?_merged hs hk.1)

theorem compositeAt_mergedEach (hs : s.Keyed) {keys : List String} (hkey : key ∉ keys) :
    (s.mergedEach F now ns keys).compositeAt ns key = s.compositeAt ns key := by
  refine get?_mergedEach hs fun key' hmem heq => hkey ?_
  obtain rfl : key = key' := congrArg ObjectKey.name heq
  exact hmem

/-- **Merges leave an entry as it was**, or make of it what one merge of its key does. -/
theorem get?_mergedEach_cases (F : Family φ κ ι) (now : Instant) (ns : String) (hs : s.Keyed)
    {keys : List String} (hkeys : keys.Nodup) (k : ObjectKey) :
    (s.mergedEach F now ns keys).composites.objects.get? k = s.composites.objects.get? k ∨
      k.nameSpace = ns ∧ k.name ∈ keys ∧ ∃ version,
        (s.mergedEach F now ns keys).composites.objects.get? k =
          F.mergedAt now version ns k.name (F.live s.fragments ns k.name)
            (s.composites.objects.get? k) := by
  by_cases hk : k.nameSpace = ns ∧ k.name ∈ keys
  · refine Or.inr ⟨hk.1, hk.2, ?_⟩
    obtain ⟨rfl, hmem⟩ := hk
    obtain ⟨before, after, rfl⟩ := List.append_of_mem hmem
    obtain ⟨-, hafter, hdisjoint⟩ := List.nodup_append.mp hkeys
    have hbefore : k.name ∉ before := fun hin => hdisjoint _ hin _ List.mem_cons_self rfl
    have hkeyed := hs.mergedEach F now k.nameSpace before
    have hat := compositeAt_merged_self F now k.nameSpace k.name hkeyed
    rw [mergedEach_fragments, compositeAt_mergedEach hs hbefore] at hat
    refine ⟨_, Eq.trans ?_ hat⟩
    rw [mergedEach_append]
    exact compositeAt_mergedEach (hkeyed.merged F now k.nameSpace k.name)
      (List.nodup_cons.mp hafter).1
  · refine Or.inl (get?_mergedEach hs fun key hkey heq => hk ?_)
    subst heq
    exact ⟨rfl, hkey⟩

/-- **Merges pass over the keys that were merged before.** -/
theorem mergedEach_filter (hs : s.Sound) {done : List String}
    (hdone : ∀ key ∈ done, KeptAt F ns s key) (keys : List String) :
    s.mergedEach F now ns keys = s.mergedEach F now ns (keys.filter (· ∉ done)) := by
  induction keys generalizing s with
  | nil => rfl
  | cons head rest ih =>
    by_cases hhead : head ∈ done
    · rw [List.filter_cons_of_neg (by simpa using hhead)]
      refine Eq.trans ?_ (ih hs hdone)
      exact congrArg (mergedEach F now ns · rest) (hdone head hhead).merged_eq
    · rw [List.filter_cons_of_pos (by simpa using hhead)]
      exact ih (hs.merged F now ns head) fun key hkey => (hdone key hkey).merged hs head

/-- Merges over keys that were merged before change nothing. -/
theorem mergedEach_of_keptAt (hs : s.Sound) {keys : List String}
    (hkeys : ∀ key ∈ keys, KeptAt F ns s key) : s.mergedEach F now ns keys = s := by
  rw [mergedEach_filter hs hkeys, List.filter_eq_nil_iff.mpr (by simp)]
  rfl

/-- Merging some keys takes just these from the names that are stale. -/
theorem filter_staleNames_mergedEach (hs : s.Keyed) {uid : Option String}
    {done rest : List String} (h : s.staleNames ns key uid = done ++ rest) :
    ((s.mergedEach F now ns (key :: done)).staleNames ns key uid).filter (· ∉ key :: done) =
      rest := by
  have hsorted := h ▸ pairwise_staleNames hs.composites ns key uid
  have ht := hs.mergedEach F now ns (key :: done)
  have irrefl : Std.Irrefl ((· < ·) : String → String → Prop) := ⟨String.lt_irrefl⟩
  have hnodup := (List.nodup_append.mp hsorted.nodup)
  have hnew := (pairwise_staleNames ht.composites ns key uid).filter (· ∉ key :: done)
  refine List.Perm.eq_of_pairwise (fun a b _ _ hab hba => ?_) hnew
    (List.pairwise_append.mp hsorted).2.1
    ((List.perm_ext_iff_of_nodup hnew.nodup hnodup.2.1).mpr fun key' => ?_)
  · exact absurd (String.lt_trans hab hba) (String.lt_irrefl _)
  · have hmem : key' ∈ done ++ rest ↔ key' ≠ key ∧ ∃ u, uid = some u ∧ s.Lists ns u key' :=
      h ▸ mem_staleNames F hs.composites
    simp only [List.mem_filter, mem_staleNames F ht.composites, decide_eq_true_eq,
      List.mem_cons, not_or]
    constructor
    · rintro ⟨⟨hne, u, hu, hlists⟩, -, hnot⟩
      rw [Lists, compositeAt_mergedEach hs (by simp [hne, hnot])] at hlists
      exact (List.mem_append.mp (hmem.mpr ⟨hne, u, hu, hlists⟩)).resolve_left hnot
    · intro hrest
      obtain ⟨hne, u, hu, hlists⟩ := hmem.mp (List.mem_append_right done hrest)
      have hnot : key' ∉ done := fun hdone => hnodup.2.2 key' hdone key' hrest rfl
      refine ⟨⟨hne, u, hu, ?_⟩, hne, hnot⟩
      rw [Lists, compositeAt_mergedEach hs (by simp [hne, hnot])]
      exact hlists

theorem staleNames_merged (hs : s.Keyed) (uid : Option String) :
    (s.merged F now ns key).staleNames ns key uid = s.staleNames ns key uid := by
  have hfilter : ((s.merged F now ns key).staleNames ns key uid).filter (· ∉ [key]) =
      s.staleNames ns key uid := filter_staleNames_mergedEach hs (List.nil_append _).symm
  rwa [List.filter_eq_self.mpr fun key' hkey' => ?_] at hfilter
  have hne := ((mem_staleNames F (hs.merged F now ns key).composites).mp hkey').1
  simpa using hne

/-- After its merges a pass is concerned with no other keys than before. -/
theorem mem_order_of_mergedEach (hs : s.Keyed) {uid : Option String}
    (h : key' ∈ (s.mergedEach F now ns (s.order ns key uid)).order ns key uid) :
    key' ∈ s.order ns key uid := by
  by_contra hnot
  have hne : key' ≠ key := fun heq => hnot (heq ▸ List.mem_cons_self)
  have hnone : key' ∉ ((s.mergedEach F now ns (s.order ns key uid)).staleNames ns key uid).filter
      (· ∉ s.order ns key uid) := by
    rw [order, filter_staleNames_mergedEach hs (List.append_nil _).symm]
    exact List.not_mem_nil
  exact hnone (List.mem_filter.mpr
    ⟨(List.mem_cons.mp h).resolve_left hne, decide_eq_true hnot⟩)

/-- **Merges that start afresh go on where those before them ended.** -/
theorem mergedEach_order (hs : s.Sound) {uid : Option String} {done rest : List String}
    (h : s.order ns key uid = done ++ rest) {t : Collections φ κ} {now' : Instant}
    (ht : t = s.mergedEach F now' ns done) :
    t.mergedEach F now ns (t.order ns key uid) = t.mergedEach F now ns rest := by
  subst ht
  cases done with
  | nil => exact congrArg _ h
  | cons head done =>
    obtain ⟨rfl, hstale⟩ := List.cons.inj h
    rw [mergedEach_filter (hs.mergedEach F now' ns _) fun key' hkey => keptAt_mergedEach hs hkey,
      order, List.filter_cons_of_neg (by simp), filter_staleNames_mergedEach hs.keyed hstale]

/-- Merges at two times make the same of composites that are alike. -/
theorem alike_mergedEach {s' : Collections φ κ} (hf : s.fragments = s'.fragments)
    (hc : s.composites.Alike s'.composites) (now now' : Instant) (keys : List String) :
    (s.mergedEach F now ns keys).composites.Alike (s'.mergedEach F now' ns keys).composites := by
  induction keys generalizing s s' with
  | nil => exact hc
  | cons key rest ih =>
    have hfirst : (s.merged F now ns key).composites.Alike
        (s'.merged F now' ns key).composites := by
      rw [merged, merged, hf]
      exact F.alike_mergedInto hc ns key _ now now'
    refine ih ?_ hfirst
    exact hf

end Collections

end ConfigMerge
