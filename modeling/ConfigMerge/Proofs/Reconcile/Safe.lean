import ConfigMerge.Proofs.Reconcile.Refusal
import ConfigMerge.Proofs.Reconcile.Scene

/-!
# Proofs/Reconcile/Safe — a pass among others

Each pass over a live fragment of the key is safe while other passes and edits go on around it
(`Scene.safe_reconcile`): it writes the composite of the key only in line with its own listing, and
one that began after the last edit leaves the composite right unless somebody writes it
(`Scene.Settled`).
-/

namespace ConfigMerge

variable {φ κ ι π : Type}

namespace Scene

section Knowledge

variable {F : Family φ κ ι} {ns key : String} {name : π → String} {s s' : Scene φ κ π}

/-! ## What a pass knows -/

/-- A pass that began after `b` edits: without another edit and without a write to the composite of
the key, that composite is right. -/
def Settled (F : Family φ κ ι) (ns key : String) (i : π) (b : Nat) (s : Scene φ κ π) : Prop :=
  s.begun i = some b ∧ (s.edits = b → s.basis = none →
    F.Matches key ns (F.live s.fragments ns key) (s.composite ns key))

/-- A pass has listed the live fragments of the key, and they are still up to date when there was no
edit since it began. -/
structure Listed (F : Family φ κ ι) (ns key : String) (i : π) (b : Nat) (l : List (Fragment φ))
    (s : Scene φ κ π) : Prop where
  listing : s.listing i = l
  nonempty : l ≠ []
  begun : s.begun i = some b
  current : s.edits = b → ∀ x : Option (Composite κ),
    F.Matches key ns l x → F.Matches key ns (F.live s.fragments ns key) x

/-- A pass has read the composite of the key, which is still stored when nobody has written it. -/
structure Found (ns key : String) (x : Option (Composite κ)) (s : Scene φ κ π) : Prop where
  current : s.basis = none → s.composite ns key = x
  holds : ∀ c, x = some c → s.stores.composites.store.Holds c ∧ c.key = ⟨ns, key⟩ ∧ ¬ c.IsGone

theorem Grows.edits_eq (h : Grows ns key s s') (hv : s.Valid F ns key name) {i : π} {b : Nat}
    (hb : s.begun i = some b) (he : s'.edits = b) : s.edits = b := by
  have hle := hv.begun i b hb
  have hle' := h.edits
  omega

theorem Settled.grows {i : π} {b : Nat} (h : Settled F ns key i b s) (hg : Grows ns key s s')
    (hv : s.Valid F ns key name) (hv' : s'.Valid F ns key name) : Settled F ns key i b s' := by
  refine ⟨hg.begun i b h.1, fun he hb => ?_⟩
  have he' := hg.edits_eq hv h.1 he
  obtain ⟨hb', hc⟩ := hg.basis hb
  rw [hc]
  exact ((hg.sameLive (he.trans he'.symm)).matches_iff F hv.fragments hv'.fragments).mp
    (h.2 he' hb')

theorem Listed.grows {i : π} {b : Nat} {l : List (Fragment φ)} (h : Listed F ns key i b l s)
    (hg : Grows ns key s s') (hl : s'.listing i = s.listing i) (hv : s.Valid F ns key name)
    (hv' : s'.Valid F ns key name) : Listed F ns key i b l s' where
  listing := hl.trans h.listing
  nonempty := h.nonempty
  begun := hg.begun i b h.begun
  current he x hx := by
    have he' := hg.edits_eq hv h.begun he
    exact ((hg.sameLive (he.trans he'.symm)).matches_iff F hv.fragments hv'.fragments).mp
      (h.current he' x hx)

end Knowledge

/-! ## Passes among others -/

section Passes

variable [DecidableEq π] (F : Family φ κ ι) (ns key : String) (name : π → String) (i : π)

/-- The surroundings of pass `i`: the others make any moves, and leave its listing alone. -/
def surroundings : Surroundings (PassCall.Answer (φ := φ) (κ := κ)) (Scene φ κ π) where
  serve q a s s' := ∃ now, s.call F ns key i now q = (a, s')
  valid := Valid F ns key name
  rely s s' := Grows ns key s s' ∧ s'.listing i = s.listing i
  guarantee _ _ s s' := Grows ns key s s' ∧ ∀ j, j ≠ i → s'.listing j = s.listing j
  rely_refl s := ⟨.refl ns key s, rfl⟩
  rely_trans h h' := ⟨h.1.trans h'.1, h'.2.trans h.2⟩

variable {F ns key name i} {s : Scene φ κ π} {ρ : Type}

/-- A quiet call is safe, whatever is to be known of its answer. -/
theorem safe_quiet {q : PassCall φ κ} {outcome : q.Answer → Scene φ κ π → Prop}
    (hq : Quiet ns key q)
    (hout : ∀ s' s'' a now, (surroundings F ns key name i).rely s s' → s'.Valid F ns key name →
      s'.call F ns key i now q = (a, s'') → s''.Valid F ns key name → Grows ns key s' s'' →
      outcome a s'') :
    (surroundings F ns key name i).Safe outcome (Program.question q) s := by
  rintro s' hrely hv a s'' ⟨now, hcall⟩
  obtain ⟨hv', hg, hl, -⟩ := Valid.call_quiet hv hcall hq
  exact ⟨hv', ⟨hg, hl⟩, hout s' s'' a now hrely hv hcall hv' hg⟩

/-- A listing of the key's fragments is on record, and shows the live ones in some order. -/
theorem listing_of_call {s' : Scene φ κ π} {now : Instant} {a : Except Error (List (Fragment φ))}
    (hv : s.Valid F ns key name)
    (h : s.call F ns key i now (.fragments (.listByLabel ns F.keyLabel key)) = (a, s')) :
    ∃ found, a = .ok found ∧
      s'.listing i = found.filter (!·.metadata.isBeingDeleted) ∧
      (found.filter (!·.metadata.isBeingDeleted)).Perm (F.live s'.fragments ns key) := by
  obtain ⟨ha, hf, -⟩ := call_fragments hv.undisturbed h
  have hanswer : a = .ok (if s.stores.fragments.reversed
      then (s.fragments.listByLabel ns F.keyLabel key).reverse
      else s.fragments.listByLabel ns F.keyLabel key) := ha
  refine ⟨_, hanswer, ?_, ?_⟩
  · obtain ⟨rfl, rfl⟩ := Prod.mk.inj h
    simp only [hanswer, PassCall.listed?, if_pos, Option.getD_some, Function.update_self]
  · rw [hf, Store.perform_of_target?_eq_none _ _ rfl]
    refine List.Perm.filter _ ?_
    split
    · exact List.reverse_perm _
    · exact .refl _

/-- **A pass lists the live fragments of the key**, its own among them. -/
theorem safe_liveFragments {b : Nat} (hv : s.Valid F ns key name) (hb : s.begun i = some b) :
    (surroundings F ns key name i).Safe
      (Surroundings.OnSuccess fun l => Listed F ns key i b l)
      (F.liveFragments ns key : Pass φ κ _).run s := by
  refine Surroundings.Safe.bindE (P := fun found s =>
    Listed F ns key i b (found.filter (!·.metadata.isBeingDeleted)) s)
    (safe_quiet rfl fun s' s'' a now hrely hv' hcall hv'' hg => ?_) hv
    fun found s hv hl => .pureE hl
  obtain ⟨found, rfl, hlisting, hperm⟩ := listing_of_call hv' hcall
  refine ⟨hlisting, fun hnil => ?_, hg.begun i b (hrely.1.begun i b hb), fun _ x hx => ?_⟩
  · obtain ⟨f, hf, hlive⟩ := hv''.present i
    have hmem : f ∈ F.live s''.fragments ns key := F.mem_live.mpr ⟨⟨_, rfl, hf⟩, hlive⟩
    rw [hnil] at hperm
    exact absurd (hperm.mem_iff.mpr hmem) List.not_mem_nil
  · exact hx.of_perm hperm
      (hperm.symm.pairwise (F.namesDiffer_live hv''.fragments ns key) Ne.symm)

/-! ## The composite of the key -/

/-- **A write to the composite of the key**, in line with the pass's listing. -/
theorem safe_write {b : Nat} {l : List (Fragment φ)} (hv : s.Valid F ns key name)
    (hl : Listed F ns key i b l s) {c : Call (Composite κ)} (hc : c.target? = some ⟨ns, key⟩)
    (hw : ∀ s' : Scene φ κ π, Grows ns key s s' → ∀ now,
      WritesInLine F ns key l s'.stores.composites.store now c) :
    (surroundings F ns key name i).Safe (Surroundings.OnSuccess fun _ => Settled F ns key i b)
      (Pass.onComposites (φ := φ) c).run s := by
  rintro s' hrely hv' a s'' ⟨now, hcall⟩
  have hl' := hl.grows hrely.1 hrely.2 hv hv'
  have hne : s'.listing i ≠ [] := by
    rw [hl'.listing]
    exact hl'.nonempty
  have hw' : WritesInLine F ns key (s'.listing i) s'.stores.composites.store now c := by
    rw [hl'.listing]
    exact hw s' hrely.1 now
  obtain ⟨hv'', hg, hothers, hbasis⟩ := Valid.call_write hv' hcall hc hne hw'
  refine ⟨hv'', ⟨hg, hothers⟩, ?_⟩
  cases a with
  | error e => exact trivial
  | ok r =>
    -- from here on a listing is on record, and the key is settled without a look at the composite
    exact ⟨hg.begun i b hl'.begun, fun _ hb => absurd hb (hbasis r rfl)⟩

/-- A pass that has listed the fragments reads the composite of the key. -/
theorem safe_find {b : Nat} {l : List (Fragment φ)} (hv : s.Valid F ns key name)
    (hl : Listed F ns key i b l s) :
    (surroundings F ns key name i).Safe
      (Surroundings.OnSuccess fun x s => Found ns key x s ∧ Listed F ns key i b l s)
      (Pass.onComposites (φ := φ) (.get ns key)).run s := by
  refine safe_quiet (fun h => by cases h) fun s' s'' a now hrely hv' hcall hv'' hg => ?_
  have hl' := hl.grows hrely.1 hrely.2 hv hv'
  obtain ⟨ha, hstore, -⟩ := call_composites hv'.undisturbed hcall
  have hanswer : a = .ok (s'.composite ns key) := ha
  have hlisting : s''.listing i = s'.listing i := by
    obtain ⟨-, rfl⟩ := Prod.mk.inj hcall
    exact Function.update_self ..
  have hsame : s''.composite ns key = s'.composite ns key := by rw [composite, hstore]; rfl
  rw [hanswer]
  refine ⟨⟨fun _ => hsame, fun c hc => ?_⟩, hl'.grows hg hlisting hv' hv''⟩
  have hkey : c.key = ⟨ns, key⟩ := hv''.composites _ c (hsame.trans hc)
  exact ⟨hv''.compositesNumbered.holds (hsame.trans hc) hkey, hkey, hv'.stays c hc⟩

variable [DecidableEq κ]

/-- A pass that has listed the fragments and read the composite brings it in line. -/
theorem safe_mergeOnto {b : Nat} {l : List (Fragment φ)} {x : Option (Composite κ)}
    (hv : s.Valid F ns key name) (hx : Found ns key x s) (hl : Listed F ns key i b l s) :
    (surroundings F ns key name i).Safe (Surroundings.OnSuccess fun _ => Settled F ns key i b)
      (F.mergeOnto key ns l x).run s := by
  cases x with
  | none =>
    rw [Family.mergeOnto, if_neg hl.nonempty]
    refine Surroundings.Safe.bindE (safe_write hv hl rfl fun s' _ now => ?_) hv
      fun _ s _ h => .pureE h
    exact writesInLine_create hl.nonempty now
  | some c =>
    obtain ⟨hh, hk, hstays⟩ := hx.holds c rfl
    rw [Family.mergeOnto, if_neg hl.nonempty]
    by_cases ha : Family.agree (F.expected key ns l) c
    · rw [if_pos ha]
      refine .pureE ⟨hl.begun, fun he hb => ?_⟩
      rw [hx.current hb]
      exact hl.current he _ (F.matches_of_agree hl.nonempty ha)
    · rw [if_neg ha]
      refine Surroundings.Safe.bindE (safe_write hv hl (congrArg some hk) fun s' hg now => ?_) hv
        fun _ s _ h => .pureE h
      exact writesInLine_update hl.nonempty now (hh.ages hg.composites) hk hstays

/-- **A merge of the key is safe**, and leaves it settled. -/
theorem safe_mergeKey {b : Nat} (hv : s.Valid F ns key name) (hb : s.begun i = some b) :
    (surroundings F ns key name i).Safe (Surroundings.OnSuccess fun _ => Settled F ns key i b)
      (F.mergeKey ns key).run s := by
  refine Surroundings.Safe.bindE (safe_liveFragments hv hb) hv fun l s hv hl => ?_
  rw [F.merge_eq]
  exact Surroundings.Safe.bindE (safe_find hv hl) hv fun x s hv hx => safe_mergeOnto hv hx.1 hx.2

/-! ## The composites of other keys -/

omit [DecidableEq κ] in
/-- A quiet call, as a part of a pass. -/
theorem safe_quietCall {c : Call (Composite κ)} (hc : c.target? ≠ some ⟨ns, key⟩) :
    (surroundings F ns key name i).Safe (Surroundings.OnSuccess fun _ _ => True)
      (Pass.onComposites (φ := φ) c).run s := by
  refine safe_quiet hc fun _ _ a _ _ _ _ _ _ => ?_
  cases a <;> exact trivial

theorem safe_mergeOnto_other {key' : String} (hne : key' ≠ key) {l : List (Fragment φ)}
    {x : Option (Composite κ)} (hx : ∀ c, x = some c → c.key = ⟨ns, key'⟩)
    (hv : s.Valid F ns key name) :
    (surroundings F ns key name i).Safe (Surroundings.OnSuccess fun _ _ => True)
      (F.mergeOnto key' ns l x).run s := by
  obtain ⟨-, hnothing⟩ | ⟨c, o, hwrite, honce⟩ := F.mergeOnto_cases key' ns l x
  · rw [hnothing]
    exact .pureE trivial
  · have haway : c.target? ≠ some ⟨ns, key⟩ := fun h =>
      hne (congrArg ObjectKey.name (Option.some.inj ((hwrite.target? hx).symm.trans h)))
    rw [honce]
    exact .bindE (safe_quietCall haway) hv fun _ _ _ _ => .pureE trivial

/-- A merge of another key touches nothing of this one. -/
theorem safe_mergeKey_other {key' : String} (hne : key' ≠ key) (hv : s.Valid F ns key name) :
    (surroundings F ns key name i).Safe (Surroundings.OnSuccess fun _ _ => True)
      (F.mergeKey ns key').run s := by
  have hlist : (surroundings F ns key name i).Safe (Surroundings.OnSuccess fun _ _ => True)
      (F.liveFragments ns key' : Pass φ κ _).run s := by
    refine Surroundings.Safe.bindE (P := fun _ _ => True)
      (safe_quiet rfl fun _ _ a _ _ _ _ _ _ => ?_) hv fun _ _ _ _ => .pureE trivial
    cases a <;> exact trivial
  refine Surroundings.Safe.bindE hlist hv fun l s hv _ => ?_
  rw [F.merge_eq]
  refine Surroundings.Safe.bindE (P := fun x _ => ∀ c, x = some c → c.key = ⟨ns, key'⟩)
    (safe_quiet (fun h => by cases h) fun s' s'' a now _ hv' hcall _ _ => ?_) hv
    fun x s hv hx => safe_mergeOnto_other hne hx hv
  obtain ⟨ha, -, -⟩ := call_composites hv'.undisturbed hcall
  have hanswer : a = .ok (s'.composite ns key') := ha
  rw [hanswer]
  exact fun c hc => hv'.composites _ c hc

/-- Releasing the keys that a fragment has left touches nothing of the key that it has. -/
theorem safe_releaseStale (uid : Option String) (hv : s.Valid F ns key name) :
    (surroundings F ns key name i).Safe (Surroundings.OnSuccess fun _ _ => True)
      (F.releaseStale ns key uid).run s := by
  refine F.safe_releaseStale_of_parts (C := (· ≠ key)) (fun u => ?_)
    (fun key' hne s hv _ => safe_mergeKey_other hne hv) uid hv trivial
  refine Surroundings.Safe.bindE (safe_quietCall (c := .list ns) fun h => by cases h) hv
    fun found s hv _ => .pureE ⟨?_, trivial⟩
  simp only [List.mem_map, List.mem_filter, Bool.and_eq_true, decide_eq_true_eq]
  rintro key' ⟨c, ⟨-, hc, -⟩, rfl⟩
  exact hc

/-! ## The fragment of the pass -/

/-- A pass has a copy of its own fragment, which is live. -/
structure Owns (F : Family φ κ ι) (ns key : String) (f : Fragment φ) (s : Scene φ κ π) : Prop where
  holds : s.fragments.Holds f
  nameSpace : f.key.nameSpace = ns
  live : F.IsLive key f

omit [DecidableEq κ] [DecidableEq π] in
theorem Owns.grows {s' : Scene φ κ π} {f : Fragment φ} (h : Owns F ns key f s)
    (hg : Grows ns key s s') : Owns F ns key f s' :=
  ⟨h.holds.ages hg.fragments, h.nameSpace, h.live⟩

omit [DecidableEq κ] in
/-- **What every move leaves, a safe part of a pass leaves too.** -/
theorem safe_keep {p : Pass φ κ ρ} {outcome : ρ → Scene φ κ π → Prop} {K : Scene φ κ π → Prop}
    (hp : (surroundings F ns key name i).Safe (Surroundings.OnSuccess outcome) p.run s)
    (hK : ∀ s s', Grows ns key s s' → s.Valid F ns key name → s'.Valid F ns key name → K s → K s')
    (hv : s.Valid F ns key name) (hs : K s) :
    (surroundings F ns key name i).Safe
      (Surroundings.OnSuccess fun r s => outcome r s ∧ K s) p.run s := by
  have hframe := hp.frameE (K := fun s => s.Valid F ns key name ∧ K s) hv ⟨hv, hs⟩
    (fun s s' hg hv' hk => ⟨hv', hK s s' hg.1 hk.1 hv' hk.2⟩)
    (fun _ _ s s' hg hv' hk => ⟨hv', hK s s' hg.1 hk.1 hv' hk.2⟩)
  exact hframe.weakenE hv fun _ _ _ h => ⟨h.1, h.2.2⟩

/-- **The merging part of a pass is safe**, and leaves the key settled. -/
theorem safe_mergeAll {b : Nat} (uid : Option String) (hv : s.Valid F ns key name)
    (hb : s.begun i = some b) :
    (surroundings F ns key name i).Safe (Surroundings.OnSuccess fun _ => Settled F ns key i b)
      (F.mergeAll ns key uid).run s := by
  rw [Family.mergeAll]
  refine Surroundings.Safe.bindE (safe_mergeKey hv hb) hv fun outcome s hv hsettled => ?_
  refine Surroundings.Safe.bindE (safe_keep (safe_releaseStale uid hv)
    (fun s s' hg hv hv' h => h.grows hg hv hv') hv hsettled) hv fun _ s _ h => .pureE h.2

omit [DecidableEq κ] in
/-- A pass guards its fragment, and has the new copy of it. -/
theorem safe_reconcileFinalizer {f : Fragment φ} (hv : s.Valid F ns key name)
    (hf : Owns F ns key f s) :
    (surroundings F ns key name i).Safe
      (Surroundings.OnSuccess fun settled => Owns F ns key settled.object)
      (reconcileFinalizer (Pass.updateFragment (κ := κ)) fragmentFinalizer f).run s := by
  rw [reconcileFinalizer_eq]
  cases hm : f.metadata.finalizerChange? fragmentFinalizer with
  | none => exact .pureE hf
  | some m =>
    obtain ⟨fs, rfl, -⟩ := Metadata.of_finalizerChange?_eq_some hm
    refine Surroundings.Safe.bindE (P := fun g => Owns F ns key g) ?_ hv
      fun g s _ hg => .pureE hg
    rintro s' ⟨hg, -⟩ hv' a s'' ⟨now, hcall⟩
    obtain ⟨hsame, hwritten⟩ := (hf.grows hg).holds.sameLive_update ns hv'.fragmentsNumbered now
      hf.live.2 fs
    obtain ⟨hv'', hg', hothers, -⟩ := Valid.call_own hv' hcall hsame
    obtain ⟨ha, hstore, -⟩ := call_fragments hv'.undisturbed hcall
    refine ⟨hv'', ⟨hg', hothers⟩, ?_⟩
    cases hr : (s'.fragments.perform now (.update
        { f with metadata := { f.metadata with finalizers := some fs } })).1 with
    | error e =>
      rw [ha, hr]
      exact trivial
    | ok g =>
      obtain ⟨hholds, hbare⟩ := hwritten g hr
      rw [ha, hr]
      refine ⟨hstore ▸ hholds, ?_, ?_⟩
      · rw [Object.key_eq_of_bare_eq hbare]
        exact hf.nameSpace
      · have hlive : F.IsLive key g.bare := hbare ▸ hf.live
        exact hlive

omit [DecidableEq κ] in
/-- A status write to the own fragment is safe. -/
theorem safe_updateStatus {f : Fragment φ} (hf : Owns F ns key f s)
    (status : Option FragmentStatus) :
    (surroundings F ns key name i).Safe (Surroundings.OnSuccess fun _ _ => True)
      (Pass.onFragments (κ := κ) (.updateStatus { f with status })).run s := by
  rintro s' ⟨hg, -⟩ hv' a s'' ⟨now, hcall⟩
  have hsame := (hf.grows hg).holds.sameLive_updateStatus ns hv'.fragmentsNumbered now
    status
  obtain ⟨hv'', hg', hothers, -⟩ := Valid.call_own hv' hcall hsame
  refine ⟨hv'', ⟨hg', hothers⟩, ?_⟩
  cases a <;> exact trivial

omit [DecidableEq κ] in
/-- Settling the fragment is safe, and leaves the key settled. -/
theorem safe_recordMerge {b : Nat} {f : Fragment φ} (time : Instant) (outcome : MergeOutcome)
    (hv : s.Valid F ns key name) (hf : Owns F ns key f s) (hs : Settled F ns key i b s) :
    (surroundings F ns key name i).Safe (Surroundings.OnSuccess fun _ => Settled F ns key i b)
      (F.recordMerge time f outcome).run s := by
  have hkeep : ∀ s s' : Scene φ κ π, Grows ns key s s' → s.Valid F ns key name →
      s'.Valid F ns key name → Settled F ns key i b s → Settled F ns key i b s' :=
    fun s s' hg hv hv' h => h.grows hg hv hv'
  unfold Family.recordMerge
  refine Surroundings.Safe.bindE (safe_keep (safe_reconcileFinalizer hv hf) hkeep hv hs) hv
    fun settled s hv h => ?_
  split
  · exact .bindE (safe_keep (safe_updateStatus h.1 _) hkeep hv h.2) hv fun _ s _ h => .pureE h.2
  · exact .pureE h.2

/-! ## A whole pass -/

/-- The end of a pass: when it is done, the key is settled. -/
def Ended (F : Family φ κ ι) (ns key : String) (i : π) (result : Except Error Report)
    (s : Scene φ κ π) : Prop :=
  IsDone result → ∃ b, Settled F ns key i b s

omit [DecidableEq κ] in
/-- A pass begins by reading its own fragment, which is live. -/
theorem safe_load :
    (surroundings F ns key name i).Safe
      (Surroundings.OnSuccess fun x s => ∃ f b, x = some f ∧ Owns F ns key f s ∧ s.begun i = some b)
      (Pass.onFragments (κ := κ) (.get ns (name i))).run s := by
  rintro s' - hv' a s'' ⟨now, hcall⟩
  obtain ⟨hv'', hg, hothers, b, hb⟩ := Valid.call_quiet hv' hcall rfl
  refine ⟨hv'', ⟨hg, hothers⟩, ?_⟩
  obtain ⟨ha, hstore, -⟩ := call_fragments hv'.undisturbed hcall
  obtain ⟨f, hf, hlive⟩ := hv'.present i
  have hanswer : a = .ok (some f) := by
    rw [ha, ← hf]
    rfl
  have hat : s''.fragments.objects.get? ⟨ns, name i⟩ = some f := by
    rw [hstore]
    exact hf
  have hk : f.key = ⟨ns, name i⟩ := hv''.fragments _ f hat
  rw [hanswer]
  have hholds := hv''.fragmentsNumbered.holds hat hk
  exact ⟨f, b, rfl, ⟨hholds, congrArg ObjectKey.nameSpace hk, hlive⟩, hb⟩

omit [DecidableEq κ] in
/-- The outcome of a safe part, error or not. -/
theorem safe_attempt {p : Pass φ κ ρ} {outcome : ρ → Scene φ κ π → Prop}
    (hp : (surroundings F ns key name i).Safe (Surroundings.OnSuccess outcome) p.run s)
    (hv : s.Valid F ns key name) :
    (surroundings F ns key name i).Safe
      (Surroundings.OnSuccess (Surroundings.OnSuccess outcome)) p.attempt.run s :=
  Surroundings.Safe.bind hp hv fun _ _ _ hr => hr

/-- **A pass over a live fragment of the key is safe among others.** -/
theorem safe_reconcile (time : Instant) (hkey : key ≠ "") (hv : s.Valid F ns key name) :
    (surroundings F ns key name i).Safe (Ended F ns key i)
      (F.reconcile time ns (name i)).run s := by
  refine Surroundings.Safe.weaken (P := Surroundings.OnSuccess fun report s =>
    report.disposition = .done → ∃ b, Settled F ns key i b s) ?_ hv fun result s _ h hdone => ?_
  · unfold Family.reconcile
    refine Surroundings.Safe.bindE safe_load hv fun x s hv hx => ?_
    obtain ⟨f, b, rfl, hown, hb⟩ := hx
    simp only [F.aggregationKey_eq_ok hown.live.1 hkey]
    refine Surroundings.Safe.bindE
      (P := fun k s => k = key ∧ Owns F ns key f s ∧ s.begun i = some b)
      (.pureE ⟨rfl, hown, hb⟩) hv fun k s hv hk => ?_
    obtain ⟨rfl, hown, hb⟩ := hk
    refine Surroundings.Safe.bindE (safe_keep (safe_attempt (safe_mergeAll f.metadata.uid hv hb) hv)
      (fun _ _ hg _ _ h => h.grows hg) hv hown) hv fun outcome s hv h => ?_
    cases outcome with
    | ok outcome =>
      exact (safe_recordMerge time outcome hv h.2 h.1).weakenE hv fun _ _ _ h _ => ⟨b, h⟩
    | error e =>
      by_cases he : e.clearsOnRetry
      · simp only [he]
        exact .pureE fun hdone => by cases hdone
      · simp only [he]
        exact trivial
  · cases result with
    | error e => exact hdone.elim
    | ok report => exact h hdone

end Passes

end Scene

end ConfigMerge
