import ConfigMerge.Proofs.Reconcile.Answer
import ConfigMerge.Proofs.Reconcile.Convergence
import ConfigMerge.Proofs.Reconcile.Traffic

/-!
# Proofs/Reconcile/Bookkeeping — a pass settles its fragment only for the content that it merged

Whatever users and other passes do between two calls of a pass, every call that it makes is faithful
to its diary (`Traffic.calls_faithful`): a fingerprint is recorded, and a finalizer is taken off,
only when all merges are completed, and only on the very fragment that their listings have shown.

The pass has read its fragment first.  A copy of it is told from everything that is stored later by
its version, so as long as the copy is stored, it was stored when the siblings were listed: what the
pass knows of its listings is tied to that (`View.Knows`).  Only the merge that is under way may not
be completed (`View.Merging`); it ends by being so (`View.safe_mergeOnto`), or ends the pass.
-/

namespace ConfigMerge

variable {φ κ ι π : Type}

/-! ## What a listing shows of a fragment -/

namespace Family

variable {F : Family φ κ ι} {f f' : Fragment φ} {key : String} {l : List (Fragment φ)}

/-- A listing for a key shows a fragment as it is: it holds the fragment when it is live and has the
key, and nothing else in its place. -/
structure Shows (F : Family φ κ ι) (f : Fragment φ) (key : String) (l : List (Fragment φ)) :
    Prop where
  only : ∀ g ∈ l, g.key = f.key → g.bare = f.bare ∧ F.IsLive key f
  live : F.IsLive key f → ∃ g ∈ l, g.bare = f.bare

/-- Only what counts of the fragment matters. -/
theorem Shows.of_bare_eq (h : F.Shows f key l) (hbare : f'.bare = f.bare) : F.Shows f' key l := by
  have hlive : F.IsLive key f' ↔ F.IsLive key f := by
    change F.IsLive key f'.bare ↔ F.IsLive key f.bare
    rw [hbare]
  have hkey := Object.key_eq_of_bare_eq hbare
  refine ⟨fun g hg hk => ?_, fun hf => ?_⟩
  · exact (h.only g hg (hk.trans hkey)).imp (·.trans hbare.symm) hlive.mpr
  · obtain ⟨g, hg, hgbare⟩ := h.live (hlive.mp hf)
    exact ⟨g, hg, hgbare.trans hbare.symm⟩

/-- **The live fragments of a key show every stored fragment.** -/
theorem shows_of_mem_iff {s : Store φ FragmentStatus} (hs : s.Keyed)
    (hf : s.objects.get? f.key = some f)
    (hl : ∀ g, g ∈ l ↔ g ∈ F.live s f.key.nameSpace key) : F.Shows f key l where
  only g hg hk := by
    obtain ⟨⟨k, -, hget⟩, hlive⟩ := F.mem_live.mp ((hl g).mp hg)
    obtain rfl : g.key = k := hs k g hget
    obtain rfl : f = g := Option.some.inj (hf.symm.trans (hk ▸ hget))
    exact ⟨rfl, hlive⟩
  live hlive := ⟨f, (hl f).mpr (F.mem_live.mpr ⟨⟨f.key, rfl, hf⟩, hlive⟩), rfl⟩

end Family

/-! ## Writes of a merge -/

namespace Family.MergeWrite

variable {F : Family φ κ ι} {k : ObjectKey} {key : String} {l : List (Fragment φ)}
  {x : Option (Composite κ)} {c : Call (Composite κ)} {o : MergeOutcome} [DecidableEq κ]

/-- A merge writes what its listing calls for, where it has read. -/
theorem faithful (h : F.MergeWrite key k.nameSpace l x c o)
    (hplaced : ∀ c, x = some c → c.key = ⟨k.nameSpace, key⟩) {r : Diary φ}
    (hunwritten : r.wrote = false) (hunderWay : r.begun.head? = some (⟨k.nameSpace, key⟩, l))
    (s s' : Store φ FragmentStatus) (a : (PassCall.composites (φ := φ) c).Answer) :
    (PassCall.composites c).Faithful F k r s s' a := by
  cases h with
  | create hl => exact ⟨hunwritten, key, l, hunderWay, hl, rfl⟩
  | delete c hl => exact ⟨hunwritten, key, hl ▸ hunderWay, hplaced c rfl⟩
  | update c hl _ => exact ⟨hunwritten, key, l, hunderWay, hl, hplaced c rfl, rfl, rfl⟩

/-- …which completes it when it succeeds. -/
theorem completes (h : F.MergeWrite key k.nameSpace l x c o)
    (hplaced : ∀ c, x = some c → c.key = ⟨k.nameSpace, key⟩) (r : c.Result) :
    (PassCall.composites (φ := φ) c).Completes F (.ok r) (⟨k.nameSpace, key⟩, l) := by
  cases h with
  | create hl => exact ⟨_, rfl, rfl, hl, rfl, rfl⟩
  | delete c hl => exact ⟨_, rfl, hplaced c rfl, hl⟩
  | update c hl _ => exact ⟨_, rfl, hplaced c rfl, hl, rfl, rfl⟩

theorem noting_eq (h : F.MergeWrite key k.nameSpace l x c o) (r : Diary φ)
    (a : (PassCall.composites (φ := φ) c).Answer) : r.noting (.composites c) a = r := by
  cases h <;> rfl

end Family.MergeWrite

/-! ## What a pass knows -/

/-- What matters to a pass: the fragments and its diary. -/
structure View (φ : Type) where
  fragments : Store φ FragmentStatus
  diary : Diary φ

namespace View

variable {F : Family φ κ ι} {k : ObjectKey} {w w' : View φ} {s : Store φ FragmentStatus}
  {f : Fragment φ} {key : String} {l : List (Fragment φ)} {x : Option (Composite κ)}

/-- A pass has a copy of its fragment, and all listings that it has begun to merge show the fragment
as it is while the copy is what is stored. -/
structure Knows (F : Family φ κ ι) (k : ObjectKey) (f : Fragment φ) (w : View φ) : Prop where
  holds : w.fragments.Holds f
  place : f.key = k
  shows : w.fragments.objects.get? k = some f → ∀ m ∈ w.diary.begun, F.Shows f m.1.name m.2

/-- …and it has completed all merges. -/
structure Rests (F : Family φ κ ι) (k : ObjectKey) (f : Fragment φ) (w : View φ) : Prop
    extends Knows F k f w where
  completed : w.diary.begun ⊆ w.diary.merged

/-- …and is still to write its fragment. -/
structure Pending (F : Family φ κ ι) (k : ObjectKey) (f : Fragment φ) (w : View φ) : Prop
    extends Rests F k f w where
  unwritten : w.diary.wrote = false

/-- All merges are completed, and one of them was into the composite of the fragment's own key. -/
structure Merged (F : Family φ κ ι) (k : ObjectKey) (f : Fragment φ) (w : View φ) : Prop
    extends Rests F k f w where
  own : ∃ key l, f.metadata.label? F.keyLabel = some key ∧
    (⟨k.nameSpace, key⟩, l) ∈ w.diary.merged

/-- The listing that a pass has made last is one for a key, and shows the fragment as it is while
the copy is what is stored. -/
structure Listed (F : Family φ κ ι) (k : ObjectKey) (f : Fragment φ) (key : String)
    (l : List (Fragment φ)) (w : View φ) : Prop where
  listing : w.diary.listing = l
  shows : w.fragments.objects.get? k = some f → F.Shows f key l

/-- A merge is under way that has read `x`.  It is completed already when that is what its listing
calls for, and every other merge is completed. -/
structure Merging (F : Family φ κ ι) (k : ObjectKey) (f : Fragment φ)
    (m : ObjectKey × List (Fragment φ)) (x : Option (Composite κ)) (w : View φ) : Prop
    extends Knows F k f w where
  underWay : w.diary.begun.head? = some m
  others : ∀ m' ∈ w.diary.begun, m' = m ∨ m' ∈ w.diary.merged
  found : F.Matches m.1.name m.1.nameSpace m.2 x → m ∈ w.diary.merged
  unwritten : w.diary.wrote = false
  placed : ∀ c, x = some c → c.key = m.1

/-- While the copy is still what is stored, all listings show the fragment. -/
theorem Knows.shows_of_ages (h : Knows F k f w) (ha : w.fragments.Ages s)
    (hf : s.objects.get? k = some f) {m : ObjectKey × List (Fragment φ)}
    (hm : m ∈ w.diary.begun) : F.Shows f m.1.name m.2 := by
  rw [← h.place] at hf
  exact h.shows (h.place ▸ h.holds.stored_of_ages ha hf) m hm

/-- **A write that carries the copy's version** succeeds only on the copy, which all listings
show. -/
theorem Knows.of_current (h : Knows F k f w) (ha : w.fragments.Ages s) {o stored : Fragment φ}
    (hkey : o.key = f.key) (hversion : o.metadata.resourceVersion = f.metadata.resourceVersion)
    (hc : s.current o = .ok stored) :
    stored = f ∧ s.objects.get? k = some f ∧
      ∀ m ∈ w.diary.begun, F.Shows f m.1.name m.2 := by
  obtain rfl : stored = f := (h.holds.ages ha).eq_of_current hkey hversion hc
  have hstored : s.objects.get? k = some stored := by
    rw [← h.place, ← hkey]
    exact (Store.of_current_eq_ok hc).1
  exact ⟨rfl, hstored, fun m hm => h.shows_of_ages ha hstored hm⟩

/-- `w'` is later than `w`, and no merge has begun since. -/
structure Later (w w' : View φ) : Prop where
  ages : w.fragments.Ages w'.fragments
  begun : w'.diary.begun = w.diary.begun
  merged : w.diary.merged ⊆ w'.diary.merged

/-- **What a pass knows stays true** while no merge begins. -/
theorem Knows.later (h : Knows F k f w) (hl : Later w w') : Knows F k f w' where
  holds := h.holds.ages hl.ages
  place := h.place
  shows hf _ hm := h.shows_of_ages hl.ages hf (hl.begun ▸ hm)

/-- …and so does that it has completed all merges. -/
theorem Rests.later (h : Rests F k f w) (hl : Later w w') : Rests F k f w' where
  toKnows := h.toKnows.later hl
  completed := hl.begun ▸ List.Subset.trans h.completed hl.merged

/-- A merge that begins with the listing made last is under way. -/
theorem Pending.merging (h : Pending F k f w) (hlisted : Listed F k f key l w)
    (ha : w.fragments.Ages w'.fragments)
    (hb : w'.diary.begun = (⟨k.nameSpace, key⟩, l) :: w.diary.begun)
    (hm : w.diary.merged ⊆ w'.diary.merged) (hw : w'.diary.wrote = w.diary.wrote)
    (hfound : F.Matches key k.nameSpace l x → (⟨k.nameSpace, key⟩, l) ∈ w'.diary.merged)
    (hplaced : ∀ c, x = some c → c.key = ⟨k.nameSpace, key⟩) :
    Merging F k f (⟨k.nameSpace, key⟩, l) x w' where
  holds := h.holds.ages ha
  place := h.place
  shows hf m hbegun := by
    rw [hb, List.mem_cons] at hbegun
    rcases hbegun with rfl | hold
    · rw [← h.place] at hf
      exact hlisted.shows (h.place ▸ h.holds.stored_of_ages ha hf)
    · exact h.shows_of_ages ha hf hold
  underWay := by rw [hb, List.head?_cons]
  others m hbegun := by
    rw [hb, List.mem_cons] at hbegun
    exact hbegun.imp_right fun hold => hm (h.completed hold)
  found := hfound
  unwritten := hw.trans h.unwritten
  placed := hplaced

/-- A merge that is completed leaves none under way. -/
theorem Merging.pending {m : ObjectKey × List (Fragment φ)} (h : Merging F k f m x w)
    (hl : Later w w') (hw : w'.diary.wrote = w.diary.wrote) (hdone : m ∈ w'.diary.merged) :
    Pending F k f w' where
  toKnows := h.toKnows.later hl
  completed := by
    intro m' hm'
    rcases h.others m' (hl.begun ▸ hm') with rfl | hmerged
    · exact hdone
    · exact hl.merged hmerged
  unwritten := hw.trans h.unwritten

/-- A pass that has written its fragment goes on with the copy that it has written. -/
theorem Merged.rewritten (h : Merged F k f w) {g : Fragment φ} (hholds : w'.fragments.Holds g)
    (hplace : g.key = k) (hbare : g.bare = f.bare)
    (hshows : ∀ m ∈ w.diary.begun, F.Shows f m.1.name m.2) (hl : Later w w') :
    Merged F k g w' where
  holds := hholds
  place := hplace
  shows _ m hm := (hshows m (hl.begun ▸ hm)).of_bare_eq hbare
  completed := (h.toRests.later hl).completed
  own := by
    obtain ⟨key, l, hlabel, hmerged⟩ := h.own
    exact ⟨key, l, (Object.label?_eq_of_bare_eq hbare F.keyLabel).trans hlabel,
      hl.merged hmerged⟩

/-! ## The surroundings of a pass -/

variable [DecidableEq κ] (F k)

/-- The surroundings of a pass over the fragment at `k`.  The others age the fragments, and a call
of the pass is faithful and leaves the merges on record that were completed. -/
def surroundings : Surroundings (PassCall.Answer (φ := φ) (κ := κ)) (View φ) where
  serve q a w w' := q.Answers a w.fragments w'.fragments ∧ q.Places a ∧
    w'.diary = w.diary.after F q a
  valid w := w.fragments.Keyed ∧ w.fragments.Numbered
  rely w w' := w.fragments.Ages w'.fragments ∧ w'.diary = w.diary
  guarantee q a w w' := q.Faithful F k w.diary w.fragments w'.fragments a ∧
    w.diary.merged ⊆ w'.diary.merged
  rely_refl w := ⟨.refl w.fragments, rfl⟩
  rely_trans h h' := ⟨h.1.trans h'.1, h'.2.trans h.2⟩

variable {F k}

/-- A call that a pass makes in `w` or later, when the fragments are `s`, is answered, and then the
pass is in `w'`. -/
structure Answered (F : Family φ κ ι) (w : View φ) (s : Store φ FragmentStatus)
    (q : PassCall φ κ) (a : q.Answer) (w' : View φ) : Prop where
  waited : w.fragments.Ages s
  keyed : s.Keyed
  numbered : s.Numbered
  answers : q.Answers a s w'.fragments
  places : q.Places a
  diary : w'.diary = w.diary.after F q a

namespace Answered

variable {q : PassCall φ κ} {a : q.Answer}

theorem ages (h : Answered F w s q a w') : w.fragments.Ages w'.fragments :=
  h.waited.trans h.answers.ages

theorem begun (h : Answered F w s q a w') : w'.diary.begun = (w.diary.noting q a).begun :=
  h.diary ▸ rfl

theorem merged_subset (h : Answered F w s q a w') : w.diary.merged ⊆ w'.diary.merged :=
  h.diary ▸ Diary.merged_subset_after

theorem wrote (h : Answered F w s q a w') : w'.diary.wrote = (w.diary.noting q a).wrote :=
  h.diary ▸ rfl

theorem later (h : Answered F w s q a w') (hb : (w.diary.noting q a).begun = w.diary.begun) :
    Later w w' :=
  ⟨h.ages, h.begun.trans hb, h.merged_subset⟩

end Answered

/-- A call is safe when it is faithful, whatever is to be known of its answer. -/
theorem safe_call {q : PassCall φ κ} {outcome : q.Answer → View φ → Prop}
    (hout : ∀ s (a : q.Answer) w', Answered F w s q a w' →
      q.Faithful F k w.diary s w'.fragments a ∧ outcome a w') :
    (surroundings F k).Safe outcome (Program.question q) w := by
  rintro w₁ ⟨hwaited, hdiary⟩ ⟨hkeyed, hnumbered⟩ a w₂ ⟨hanswers, hplaces, hafter⟩
  have hmerged : w₁.diary.merged ⊆ w₂.diary.merged := hafter ▸ Diary.merged_subset_after
  rw [hdiary] at hafter
  obtain ⟨hfaithful, ho⟩ :=
    hout w₁.fragments a w₂ ⟨hwaited, hkeyed, hnumbered, hanswers, hplaces, hafter⟩
  exact ⟨⟨hanswers.keyed hkeyed, hnumbered.ages hanswers.ages⟩, ⟨hdiary ▸ hfaithful, hmerged⟩, ho⟩

/-! ## Merges -/

/-- A pass lists the live fragments of a key. -/
theorem safe_liveFragments (hv : (surroundings F k).valid w) (h : Pending F k f w)
    (key : String) :
    (surroundings F k).Safe
      (Surroundings.OnSuccess fun l w => Pending F k f w ∧ Listed F k f key l w)
      (F.liveFragments k.nameSpace key : Pass φ κ _).run w := by
  refine Surroundings.Safe.bindE (P := fun found w => Pending F k f w ∧
      Listed F k f key (found.filter (!·.metadata.isBeingDeleted)) w)
    (safe_call fun s a w' hcall => ?_) hv fun found w _ h => .pureE h
  refine ⟨by cases a <;> exact trivial, ?_⟩
  cases a with
  | error e => exact trivial
  | ok found =>
    obtain ⟨hfound, hsame⟩ := hcall.answers.of_listByLabel
    have hrests : Rests F k f w' := h.toRests.later (hcall.later rfl)
    refine ⟨⟨hrests, hcall.wrote.trans h.unwritten⟩, by rw [hcall.diary]; rfl, fun hf => ?_⟩
    rw [← hrests.place, hsame] at hf
    refine Family.shows_of_mem_iff hcall.keyed hf fun g => ?_
    rw [hrests.place, Family.live]
    exact (hfound.filter _).mem_iff

/-- **A merge begins when its composite is read**, with the listing made last, and is completed then
if nothing is to be done. -/
theorem safe_readComposite (h : Pending F k f w) (hlisted : Listed F k f key l w) :
    (surroundings F k).Safe
      (Surroundings.OnSuccess fun x => Merging F k f (⟨k.nameSpace, key⟩, l) x)
      (Pass.onComposites (φ := φ) (.get k.nameSpace key)).run w := by
  refine safe_call fun s a w' hcall => ⟨h.unwritten, ?_⟩
  cases a with
  | error e => exact trivial
  | ok x =>
    have hbegun : w'.diary.begun = (⟨k.nameSpace, key⟩, l) :: w.diary.begun := by
      rw [hcall.begun, ← hlisted.listing]
      rfl
    refine h.merging hlisted hcall.ages hbegun hcall.merged_subset hcall.wrote (fun hmatch => ?_)
      hcall.places
    rw [hcall.diary, Diary.mem_merged_after, ← hcall.begun, hbegun]
    exact Or.inl ⟨List.head?_cons, _, rfl, rfl, hmatch⟩

/-- **The write of a merge completes it.** -/
theorem safe_mergeWrite (h : Merging F k f (⟨k.nameSpace, key⟩, l) x w)
    {c : Call (Composite κ)} {o : MergeOutcome} (hwrite : F.MergeWrite key k.nameSpace l x c o) :
    (surroundings F k).Safe
      (Surroundings.OnSuccess fun _ w =>
        Pending F k f w ∧ (⟨k.nameSpace, key⟩, l) ∈ w.diary.merged)
      (Pass.onComposites (φ := φ) c).run w := by
  refine safe_call fun s a w' hcall =>
    ⟨hwrite.faithful h.placed h.unwritten h.underWay _ _ a, ?_⟩
  cases a with
  | error e => exact trivial
  | ok r =>
    have hnoting := hwrite.noting_eq w.diary (.ok r)
    have hdone : (⟨k.nameSpace, key⟩, l) ∈ w'.diary.merged := by
      rw [hcall.diary, Diary.mem_merged_after, hnoting]
      exact Or.inl ⟨h.underWay, hwrite.completes h.placed r⟩
    have hwrote : w'.diary.wrote = w.diary.wrote := by rw [hcall.wrote, hnoting]
    exact ⟨h.pending (hcall.later (by rw [hnoting])) hwrote hdone, hdone⟩

/-- A merge ends with nothing to do or with its one write, and is completed either way. -/
theorem safe_mergeOnto (hv : (surroundings F k).valid w)
    (h : Merging F k f (⟨k.nameSpace, key⟩, l) x w) :
    (surroundings F k).Safe
      (Surroundings.OnSuccess fun _ w =>
        Pending F k f w ∧ (⟨k.nameSpace, key⟩, l) ∈ w.diary.merged)
      (F.mergeOnto key k.nameSpace l x).run w := by
  obtain ⟨hmatch, hnothing⟩ | ⟨c, o, hwrite, honce⟩ := F.mergeOnto_cases key k.nameSpace l x
  · rw [hnothing]
    have hdone := h.found hmatch
    exact .pureE ⟨h.pending ⟨.refl _, rfl, List.Subset.refl _⟩ rfl hdone, hdone⟩
  · rw [honce]
    exact .bindE (safe_mergeWrite h hwrite) hv fun _ _ _ h => .pureE h

/-- **A merge of a key is on record as completed** when it succeeds, with a listing that shows the
fragment. -/
theorem safe_mergeKey (hv : (surroundings F k).valid w) (h : Pending F k f w) (key : String) :
    (surroundings F k).Safe
      (Surroundings.OnSuccess fun _ w =>
        Pending F k f w ∧ ∃ l, (⟨k.nameSpace, key⟩, l) ∈ w.diary.merged)
      (F.mergeKey k.nameSpace key).run w := by
  refine Surroundings.Safe.bindE (safe_liveFragments hv h key) hv fun l w hv h => ?_
  rw [F.merge_eq]
  refine Surroundings.Safe.bindE (safe_readComposite h.1 h.2) hv fun x w hv h => ?_
  exact (safe_mergeOnto hv h).weakenE hv fun _ _ _ hr => ⟨hr.1, l, hr.2⟩

/-- The composites that the fragment has left are merged completely as well. -/
theorem safe_releaseStale (hv : (surroundings F k).valid w) (h : Pending F k f w) (key : String)
    (uid : Option String) :
    (surroundings F k).Safe (Surroundings.OnSuccess fun _ => Pending F k f)
      (F.releaseStale k.nameSpace key uid).run w := by
  refine F.safe_releaseStale_of_parts (C := fun _ => True) (fun u => ?_) (fun key' _ w hv h => ?_)
    uid hv h
  · refine .bindE (P := fun _ => Pending F k f)
      (safe_call fun s a w' hcall => ⟨h.unwritten, ?_⟩) hv
      fun _ _ _ h => .pureE ⟨fun _ _ => trivial, h⟩
    cases a with
    | error e => exact trivial
    | ok found => exact ⟨h.toRests.later (hcall.later rfl), hcall.wrote.trans h.unwritten⟩
  · exact (safe_mergeKey hv h key').weakenE hv fun _ _ _ hr => hr.1

/-- **The merging part of a pass** leaves on record what it has merged. -/
theorem safe_mergeAll (hv : (surroundings F k).valid w) (h : Pending F k f w)
    (hlabel : f.metadata.label? F.keyLabel = some key) (uid : Option String) :
    (surroundings F k).Safe (Surroundings.OnSuccess fun _ => Merged F k f)
      (F.mergeAll k.nameSpace key uid).run w := by
  rw [Family.mergeAll]
  refine Surroundings.Safe.bindE (safe_mergeKey hv h key) hv fun _ w hv hmerged => ?_
  obtain ⟨h, l, hl⟩ := hmerged
  have hkeep := (safe_releaseStale hv h key uid).frameE
    (K := fun w => (⟨k.nameSpace, key⟩, l) ∈ w.diary.merged) hv hl
    (fun w w' hr _ hl => hr.2 ▸ hl) (fun _ _ w w' hg _ hl => hg.2 hl)
  exact .bindE hkeep hv fun _ w _ h => .pureE ⟨h.1.toRests, key, l, hlabel, h.2⟩

/-! ## The fragment itself -/

/-- **The finalizer is taken off only a fragment that no merged listing holds.**  What the pass goes
on with is a copy of what is stored then. -/
theorem safe_reconcileFinalizer (hv : (surroundings F k).valid w) (h : Merged F k f w) :
    (surroundings F k).Safe
      (Surroundings.OnSuccess fun settled w =>
        Merged F k settled.object w ∧ settled.object.bare = f.bare)
      (reconcileFinalizer (Pass.updateFragment (κ := κ)) fragmentFinalizer f).run w := by
  rw [reconcileFinalizer_eq]
  cases hm : f.metadata.finalizerChange? fragmentFinalizer with
  | none => exact .pureE ⟨h, rfl⟩
  | some m =>
    obtain ⟨fs, rfl, htoken⟩ := Metadata.of_finalizerChange?_eq_some hm
    let o : Fragment φ := { f with metadata := { f.metadata with finalizers := some fs } }
    refine Surroundings.Safe.bindE (P := fun g w => Merged F k g w ∧ g.bare = f.bare)
      (safe_call (q := .fragments (.update o)) fun s a w' hcall => ?_) hv
      fun g w _ h => .pureE h
    cases a with
    | error e => exact ⟨trivial, trivial⟩
    | ok g =>
      obtain ⟨stored, hc, rfl, hs⟩ := hcall.answers.of_update
      -- the version check lets the write through only while the copy is what is stored
      obtain ⟨rfl, hstored, hshows⟩ := h.of_current hcall.waited rfl rfl hc
      obtain ⟨key, l, hlabel, hl⟩ := h.own
      refine ⟨⟨stored, key, hstored, h.place, hlabel, h.completed, ⟨l, hl⟩,
        fun _ hoff m hm g hg hk => ?_⟩,
        h.rewritten (hs ▸ s.holds_replaced o stored) h.place rfl hshows (hcall.later rfl), rfl⟩
      have hdeleted : (!stored.metadata.isBeingDeleted) = false := htoken.symm.trans hoff
      have hlive := ((hshows m hm).only g hg (hk.trans h.place.symm)).2.2
      rw [hlive] at hdeleted
      cases hdeleted

/-- **A fingerprint is recorded only on the content that was merged.** -/
theorem safe_updateStatus (h : Merged F k f w) (hlive : f.metadata.isBeingDeleted = false)
    {status : FragmentStatus} (hstatus : status.fingerprint? = some (F.fingerprint f)) :
    (surroundings F k).Safe (Surroundings.OnSuccess fun _ _ => True)
      (Pass.onFragments (κ := κ) (.updateStatus { f with status := some status })).run w := by
  refine safe_call fun s a w' hcall => ?_
  cases a with
  | error e => exact ⟨trivial, trivial⟩
  | ok g =>
    obtain ⟨stored, hc, -, hs⟩ := hcall.answers.of_updateStatus
    obtain ⟨rfl, hstored, hshows⟩ := h.of_current hcall.waited rfl rfl hc
    obtain ⟨key, l, hlabel, hl⟩ := h.own
    let f' : Fragment φ := { stored with status := some status }.atVersion s.nextVersion
    have hcontent : F.fingerprint f' = F.fingerprint stored := rfl
    have hrecorded : Family.recorded? f' = some (F.fingerprint f') := hcontent ▸ hstatus
    have hlisted {l'} (hl' : (⟨k.nameSpace, key⟩, l') ∈ w.diary.begun) :
        stored.IsListed k l' := by
      obtain ⟨g, hg, hbare⟩ := (hshows _ hl').live ⟨hlabel, hlive⟩
      exact ⟨g, hg, (Object.key_eq_of_bare_eq hbare).trans h.place,
        Object.uid_eq_of_bare_eq hbare, Object.spec_eq_of_bare_eq hbare⟩
    refine ⟨⟨stored, f', key, hstored, h.place, ?_, rfl, hrecorded, hlive, hlabel, h.completed,
      ⟨l, hl, hlisted (w.diary.merged_begun hl)⟩, fun l' hl' => hlisted hl'⟩, trivial⟩
    rw [hs, ← h.place]
    exact (Store.changes_write s stored.key { stored with status := some status }).here

/-- The part of a pass that writes the fragment is faithful. -/
theorem safe_recordMerge (time : Instant) (outcome : MergeOutcome)
    (hv : (surroundings F k).valid w) (h : Merged F k f w) :
    (surroundings F k).Safe (Surroundings.OnSuccess fun _ _ => True)
      (F.recordMerge time f outcome : Pass φ κ Report).run w := by
  unfold Family.recordMerge
  refine Surroundings.Safe.bindE (safe_reconcileFinalizer hv h) hv
    fun settled w hv ⟨h, hbare⟩ => ?_
  split
  next hwrite =>
    obtain ⟨hlive, -⟩ : f.metadata.isBeingDeleted = false ∧ F.isChanged f = true := by
      simpa using hwrite
    refine .bindE (safe_updateStatus h ?_ ?_) hv fun _ _ _ h => .pureE h
    · rw [Object.isBeingDeleted_eq_of_bare_eq hbare, hlive]
    · rw [F.fingerprint_eq_of_bare_eq hbare]
      exact FragmentStatus.fingerprint?_eq_some (F.fingerprint_ne_empty f) _
  · exact .pureE trivial

/-! ## A whole pass -/

/-- A pass begins by reading its fragment, and knows that copy while it has begun no merge. -/
theorem safe_getFragment (hnew : w.diary = {}) :
    (surroundings F k).Safe
      (Surroundings.OnSuccess fun found w => ∀ f, found = some f → Pending F k f w)
      (Pass.onFragments (κ := κ) (.get k.nameSpace k.name)).run w := by
  refine safe_call fun s a w' hcall => ⟨by cases a <;> exact trivial, ?_⟩
  cases a with
  | error e => exact trivial
  | ok found =>
    obtain ⟨rfl, hsame⟩ := hcall.answers.of_get
    have hbegun : w'.diary.begun = [] := by
      rw [hcall.begun, hnew]
      rfl
    have hunwritten : w'.diary.wrote = false := by
      rw [hcall.wrote, hnew]
      rfl
    intro f hf
    have hplace : f.key = k := hcall.keyed k f hf
    refine ⟨⟨⟨hsame ▸ hcall.numbered.holds hf hplace, hplace, fun _ m hm => ?_⟩, ?_⟩, hunwritten⟩
    · rw [hbegun] at hm
      cases hm
    · rw [hbegun]
      exact List.nil_subset _

/-- **Every call of a pass is faithful**, whatever goes on around it. -/
theorem safe_reconcile (time : Instant) (hv : (surroundings F k).valid w)
    (hnew : w.diary = {}) :
    (surroundings F k).Safe (fun _ _ => True) (F.reconcile time k.nameSpace k.name).run w := by
  refine Surroundings.Safe.weaken (P := Surroundings.OnSuccess fun _ _ => True) ?_ hv
    fun _ _ _ _ => trivial
  refine F.safe_reconcile_of_parts (M := fun f => Surroundings.OnSuccess fun _ => Merged F k f)
    time hv (safe_getFragment hnew) (fun _ _ => trivial) (fun f key w hkey hv h => ?_)
    (fun _ _ _ _ => trivial) fun f outcome w hv h => safe_recordMerge time outcome hv h
  exact safe_mergeAll hv (h f rfl) (Family.of_aggregationKey_eq_ok hkey).1 f.metadata.uid

end View

/-! ## Traffic -/

namespace Traffic

variable [DecidableEq κ] [DecidableEq π] {F : Family φ κ ι} {target : π → ObjectKey}
  {t : Traffic φ κ π}

/-- The stored objects are in order. -/
structure World.InOrder (w : World φ κ π) : Prop where
  keyed : w.stores.fragments.store.Keyed
  numbered : w.stores.fragments.store.Numbered
  composites : w.stores.composites.store.Keyed

/-- What a pass sees of the world. -/
def World.view (w : World φ κ π) (i : π) : View φ := ⟨w.stores.fragments.store, w.diaries i⟩

/-- What is said of the passes of a traffic over the fragments at these keys. -/
def company (F : Family φ κ ι) (target : π → ObjectKey) :
    Company (PassCall.Answer (φ := φ) (κ := κ)) (World φ κ π) (View φ) π
      (Except Error Report) where
  view i w := w.view i
  surroundings i := View.surroundings F (target i)
  outcome _ _ _ := True
  valid := World.InOrder
  valid_view _ hw := ⟨hw.keyed, hw.numbered⟩
  outcome_lasts _ _ _ _ := trivial

/-- A call is answered as the surroundings of its pass say. -/
theorem World.InOrder.serve_answer {w : World φ κ π} (hw : w.InOrder) (i : π) (now : Instant)
    (q : PassCall φ κ) :
    (View.surroundings F (target i)).serve q (w.answer F i now q).1 (w.view i)
      ((w.answer F i now q).2.view i) :=
  ⟨Stores.answers F now q w.stores, Stores.places hw.composites F now q,
    w.diaries_answer_self F i now q⟩

/-- **What a call does, the other passes rely on.** -/
theorem World.InOrder.leaves_answer {w : World φ κ π} (hw : w.InOrder) (i : π) (now : Instant)
    (q : PassCall φ κ) :
    (company F target).Leaves (· ≠ i) w (w.answer F i now q).2 := by
  have hanswers := Stores.answers F now q w.stores
  exact ⟨⟨hanswers.keyed hw.keyed, hw.numbered.ages hanswers.ages,
    Stores.keyed_composites hw.composites F now q⟩,
    fun j hj => ⟨hanswers.ages, w.diaries_answer_of_ne F hj now q⟩⟩

omit [DecidableEq π] in
theorem good_start {s : Stores φ κ} (hs : s.fragments.store.Keyed)
    (hn : s.fragments.store.Numbered) (hc : s.composites.store.Keyed) (target : π → ObjectKey)
    (time : π → Instant) : (start F s target time).Good (company F target) where
  valid := ⟨hs, hn, hc⟩
  safe i := View.safe_reconcile (w := (start F s target time).world.view i) (time i) ⟨hs, hn⟩ rfl

/-- **Every move keeps the traffic good.** -/
theorem good_step (h : t.Good (company F target)) {m : Move φ π} (hm : m.Proper) :
    (t.step F m).Good (company F target) := by
  cases m with
  | operate operation now =>
    have hages := operation.ages_apply hm now t.stores.fragments.store
    exact h.leaves ⟨⟨operation.keyed_apply hm now h.valid.keyed, h.valid.numbered.ages hages,
      h.valid.composites⟩, fun _ _ => ⟨hages, rfl⟩⟩
  | call i now =>
    change (t.ask (World.answer F i now) i).Good _
    exact h.ask (fun q _ _ => h.valid.serve_answer i now q)
      fun q _ _ _ _ => h.valid.leaves_answer i now q

/-- …and so does any run. -/
theorem good_run (h : t.Good (company F target)) {moves : List (Move φ π)}
    (hm : ∀ m ∈ moves, m.Proper) : (t.run F moves).Good (company F target) :=
  List.foldlRecOn moves (Traffic.step F) h fun _ ht m hmem => good_step ht (hm m hmem)

/-- **Every call of every pass is faithful**, at any point of any run: whatever users and other
passes have done since, a fingerprint is recorded, and a finalizer is taken off, only when every
merge that the pass has begun is completed, one into the composite of the fragment's own key among
them, and only on the fragment as all those listings have shown it; and no merge begins after that.
What is planned to be refused does not matter, nor what is in the composites. -/
theorem calls_faithful (F : Family φ κ ι) (s : Stores φ κ)
    (hkeyed : s.fragments.store.Keyed) (hnumbered : s.fragments.store.Numbered)
    (hcomposites : s.composites.store.Keyed)
    (target : π → ObjectKey) (time : π → Instant) (moves : List (Move φ π))
    (hproper : ∀ m ∈ moves, m.Proper) (i : π) (now : Instant) (q : PassCall φ κ)
    (next : q.Answer → Program (PassCall.Answer (φ := φ) (κ := κ)) (Except Error Report))
    (hask : ((start F s target time).run F moves).passes i = .ask q next) :
    let t := (start F s target time).run F moves
    let t' := t.step F (.call i now)
    q.Faithful F (target i) (t.diaries i) t.stores.fragments.store t'.stores.fragments.store
      (Stores.answer F now q t.stores).1 := by
  intro t t'
  have ht' : t' = t.goOn i (next (World.answer F i now q t.world).1)
      (World.answer F i now q t.world).2 := step_call F hask now
  have hgood : t.Good (company F target) :=
    good_run (good_start hkeyed hnumbered hcomposites target time) hproper
  rw [ht']
  exact (hgood.question hask (hgood.valid.serve_answer i now q)).2.1.1

/-! ## Two passes and a user -/

/-- A pass is to write the status of its fragment. -/
def WritesStatus : Program (PassCall.Answer (φ := φ) (κ := κ)) (Except Error Report) → Prop
  | .ask (.fragments (.updateStatus _)) _ => True
  | _ => False

instance : DecidablePred (WritesStatus (φ := φ) (κ := κ))
  | .ask (.fragments (.updateStatus _)) _ => inferInstanceAs (Decidable True)
  | .ask (.fragments (.get ..)) _ | .ask (.fragments (.list _)) _
  | .ask (.fragments (.listByLabel ..)) _ | .ask (.fragments (.create _)) _
  | .ask (.fragments (.update _)) _ | .ask (.fragments (.delete _)) _
  | .ask (.composites _) _ | .done _ => inferInstanceAs (Decidable False)

omit [DecidableEq κ] in
theorem WritesStatus.exists_eq
    {p : Program (PassCall.Answer (φ := φ) (κ := κ)) (Except Error Report)} (h : WritesStatus p) :
    ∃ o next, p = .ask (.fragments (.updateStatus o)) next := by
  cases p with
  | done result => exact h.elim
  | ask q next =>
    cases q with
    | composites c => exact h.elim
    | fragments c =>
      cases c with
      | updateStatus o => exact ⟨o, next, rfl⟩
      | get | list | listByLabel | create | update | delete => exact h.elim

/-- Two passes over the fragment that has moved.  The first one makes all calls but its last one;
meanwhile the second one begins, and a user creates a sibling. -/
def meeting : List (Move RouteSpec Bool) :=
  [.call false ⟨1, 0⟩, .call true ⟨1, 0⟩, .call false ⟨2, 0⟩,
    .operate (.seed (Fragment.ofPathPrefix "late" "svc-a" "/late")) ⟨2, 0⟩,
    .call false ⟨2, 0⟩, .call false ⟨3, 0⟩, .call false ⟨3, 0⟩, .call false ⟨4, 0⟩,
    .call false ⟨4, 0⟩, .call false ⟨4, 0⟩, .call false ⟨5, 0⟩]

/-- The traffic after that. -/
abbrev met : Traffic RouteSpec RouterSpec Bool :=
  (start .routes Stores.disordered (fun _ => ⟨"default", "moved"⟩) (fun _ => ⟨6, 0⟩)).run .routes
    meeting

/-- The first pass has completed two merges, and is to write the status.  Nothing is recorded on the
fragment before that call, and a fingerprint after it, which is faithful to those merges. -/
theorem calls_faithful_meeting :
    (met.diaries false).merged.map (·.1) = [⟨"default", "svc-old"⟩, ⟨"default", "svc-a"⟩] ∧
      (met.stores.fragments.store.objects.get? ⟨"default", "moved"⟩).bind Family.recorded? = none ∧
      ((met.step .routes (.call false ⟨6, 0⟩)).stores.fragments.store.objects.get?
        ⟨"default", "moved"⟩).bind Family.recorded? ≠ none ∧
      ∃ o next, met.passes false = .ask (.fragments (.updateStatus o)) next ∧
        (PassCall.fragments (.updateStatus o)).Faithful .routes ⟨"default", "moved"⟩
          (met.diaries false) met.stores.fragments.store
          (met.step .routes (.call false ⟨6, 0⟩)).stores.fragments.store
          (Stores.answer .routes ⟨6, 0⟩ (.fragments (.updateStatus o)) met.stores).1 := by
  have hwrites : WritesStatus (met.passes false) := by decide +kernel
  obtain ⟨o, next, hask⟩ := hwrites.exists_eq
  have hnumbered : Stores.disordered.fragments.store.Numbered :=
    (Store.numbered_empty.seed _ _).seed _ _
  have hproper : ∀ m ∈ meeting, m.Proper := by
    simp [meeting, Move.Proper, Store.Operation.Proper]
  have hfaithful := calls_faithful .routes Stores.disordered (by decide +kernel) hnumbered
    (by decide +kernel) (fun _ : Bool => ⟨"default", "moved"⟩) (fun _ => ⟨6, 0⟩) meeting hproper
    false ⟨6, 0⟩
  have hmerged : (met.diaries false).merged.map (·.1) =
      [⟨"default", "svc-old"⟩, ⟨"default", "svc-a"⟩] := by decide +kernel
  have hbefore : (met.stores.fragments.store.objects.get? ⟨"default", "moved"⟩).bind
      Family.recorded? = none := by decide +kernel
  have hafter : ((met.step .routes (.call false ⟨6, 0⟩)).stores.fragments.store.objects.get?
      ⟨"default", "moved"⟩).bind Family.recorded? ≠ none := by decide +kernel
  exact ⟨hmerged, hbefore, hafter, o, next, hask, hfaithful _ next hask⟩

end Traffic

end ConfigMerge
