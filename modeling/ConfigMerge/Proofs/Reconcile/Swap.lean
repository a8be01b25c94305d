import ConfigMerge.Proofs.Reconcile.Contention
import ConfigMerge.Proofs.Reconcile.Convergence

/-!
# Proofs/Reconcile/Swap — composites are compared before they are swapped

A write to a composite goes through exactly when what its merge has read is what is stored
(`Contention.composite_writes_swap`).  A copy is told from all that is stored later by its version, so
a composite that was removed and created anew does not pass for it.  A write that does not go through
changes nothing, and ends its pass with a request for another one before the pass has written its own
fragment.
-/

namespace ConfigMerge

variable {φ κ ι π ρ : Type}

/-! ## What a note says -/

namespace Note

variable {n : Note κ} {s s' : Store κ Empty} {k : ObjectKey} {c : Composite κ}

/-- The note is right about the composites: what was read is stored unless it is overtaken.  A
composite that was read is a good copy, and is not stored again once it is overtaken. -/
structure Right (n : Note κ) (s : Store κ Empty) : Prop where
  current : ∀ k x, n.read = some (k, x) → n.overtaken = false → s.objects.get? k = x
  copy : ∀ k c, n.read = some (k, some c) → s.Holds c ∧ c.key = k
  gone : ∀ k c, n.read = some (k, some c) → n.overtaken → s.objects.get? k ≠ some c

/-- Nothing is wrong with a note that has read nothing. -/
theorem right_of_read_eq_none (h : n.read = none) : n.Right s where
  current k x hr := by
    rw [h] at hr
    cases hr
  copy k c hr := by
    rw [h] at hr
    cases hr
  gone k c hr := by
    rw [h] at hr
    cases hr

/-- …nor with one that has read what is stored. -/
theorem right_of_read_stored (hs : s.Keyed) (hn : s.Numbered)
    (hr : n.read = some (k, s.objects.get? k)) (ho : n.overtaken = false) : n.Right s where
  current k' x hr' _ := by
    obtain ⟨rfl, rfl⟩ := Prod.mk.inj (Option.some.inj (hr.symm.trans hr'))
    rfl
  copy k' c hr' := by
    obtain ⟨rfl, hc⟩ := Prod.mk.inj (Option.some.inj (hr.symm.trans hr'))
    exact ⟨hn.holds hc (hs k c hc), hs k c hc⟩
  gone k' c _ ho' := by
    rw [ho] at ho'
    cases ho'

/-- **A note stays right** beside the moves of others. -/
theorem Right.beside [DecidableEq κ] (h : n.Right s) (ha : s.Ages s') :
    (n.beside s s').Right s' where
  current k x hr ho := by
    have hread : n.read = some (k, x) := hr
    obtain ⟨hold, hsame⟩ : n.overtaken = false ∧ s.objects.get? k = s'.objects.get? k := by
      simpa [Note.beside, hread] using ho
    exact hsame.symm.trans (h.current k x hread hold)
  copy k c hr := ⟨(h.copy k c hr).1.ages ha, (h.copy k c hr).2⟩
  gone k c hr ho hc := by
    have hread : n.read = some (k, some c) := hr
    obtain ⟨hholds, rfl⟩ := h.copy k c hread
    -- versions are given once, so the composite can only be stored now if it was stored all along
    have hstored := hholds.stored_of_ages ha hc
    have hold : n.overtaken := by simpa [Note.beside, hread, hstored, hc] using ho
    exact h.gone c.key c hread hold hstored

end Note

/-! ## The calls of a merge -/

section Write

variable {s : Store κ Empty} {c : Call (Composite κ)} {k : ObjectKey}
  {x : Option (Composite κ)}

/-- A write that is based on what is stored goes through. -/
theorem Store.perform_of_based (now : Instant) (hc : c.BasedOn x) (hk : c.target? = some k)
    (hx : s.objects.get? k = x) : ∃ r, s.perform now c = (.ok r, s.written now c x) := by
  cases c with
  | get | list | listByLabel | updateStatus => exact hc.elim
  | create o =>
    obtain rfl : o.key = k := Option.some.inj hk
    exact ⟨_, perform_create now (hx.trans hc)⟩
  | update o =>
    obtain ⟨stored, expected, rfl, rfl⟩ := hc
    obtain rfl : stored.key = k := Option.some.inj hk
    exact ⟨_, perform_update now (current_eq_ok hx rfl)⟩
  | delete o =>
    obtain rfl : o.key = k := Option.some.inj hk
    obtain rfl : x = some o := hc
    exact ⟨_, perform_delete now (current_eq_ok hx rfl)⟩

/-- A write that carries the version of a copy is refused when the copy is not stored. -/
theorem Store.Holds.current_refused {o stored : Composite κ} (h : s.Holds stored)
    (hkey : o.key = stored.key)
    (hversion : o.metadata.resourceVersion = stored.metadata.resourceVersion)
    (hx : s.objects.get? stored.key ≠ some stored) : ∃ e, s.current o = .error e := by
  cases hr : s.current o with
  | error e => exact ⟨e, rfl⟩
  | ok found =>
    obtain rfl := h.eq_of_current hkey hversion hr
    exact absurd (hkey ▸ (Store.of_current_eq_ok hr).1) hx

/-- **A write that is based on anything else is refused** and changes nothing. -/
theorem Store.perform_of_not_based (now : Instant) (hc : c.BasedOn x) (hk : c.target? = some k)
    (hcopy : ∀ stored, x = some stored → s.Holds stored ∧ stored.key = k)
    (hx : s.objects.get? k ≠ x) : ∃ e, s.perform now c = (.error e, s) := by
  cases c with
  | get | list | listByLabel | updateStatus => exact hc.elim
  | create o =>
    obtain rfl : o.key = k := Option.some.inj hk
    obtain rfl : x = none := hc
    obtain ⟨stored, hstored⟩ := Option.ne_none_iff_exists'.mp hx
    exact ⟨_, perform_create_refused now hstored⟩
  | update o =>
    obtain ⟨stored, expected, rfl, rfl⟩ := hc
    obtain ⟨hholds, rfl⟩ := hcopy stored rfl
    obtain ⟨e, he⟩ := hholds.current_refused (o := Family.renewed stored expected) rfl rfl hx
    exact ⟨e, perform_update_refused now he⟩
  | delete o =>
    obtain rfl : x = some o := hc
    obtain ⟨hholds, rfl⟩ := hcopy o rfl
    obtain ⟨e, he⟩ := hholds.current_refused rfl rfl hx
    exact ⟨e, perform_delete_refused now he⟩

end Write

/-! ## The calls of one pass -/

section Answer

variable (F : Family φ κ ι) (now : Instant)

/-- A write is answered as the store answers it. -/
theorem Collections.answer_of_target? {s : Collections φ κ} {c : Call (Composite κ)}
    {k : ObjectKey} (hk : c.target? = some k) {a : Except Refusal c.Result} {s' : Store κ Empty}
    (h : s.composites.perform now c = (a, s')) :
    (s.answer F now (.composites c)).1 = a.mapError (Refusal.toError F.composites.kind c) ∧
      (s.answer F now (.composites c)).2 = { s with composites := s' } := by
  cases c with
  | get | list | listByLabel => cases hk
  | create | update | updateStatus | delete =>
    rw [answer, h]
    exact ⟨rfl, rfl⟩

/-- Any call only adds new versions of composites. -/
theorem Stores.ages_composites {s : Stores φ κ} (h : s.Undisturbed) (q : PassCall φ κ) :
    s.composites.store.Ages (answer F now q s).2.composites.store := by
  have hheld := congrArg Collections.composites (answer_of_undisturbed F now h q).2.1
  cases q with
  | fragments c => exact .refl _
  | composites c =>
    change (answer F now (.composites c) s).2.composites.store = _ at hheld
    rw [hheld]
    exact Store.ages_perform _ now c

end Answer

/-- What matters to a pass: what is held, and its note. -/
structure Contention.View (φ κ : Type) where
  held : Collections φ κ
  note : Note κ

namespace Contention.View

variable (F : Family φ κ ι)

/-- The surroundings of a pass.  The others leave what its note has read; a write of the pass to the
composites is based on that, and is made before it writes to fragments. -/
def surroundings : Surroundings (PassCall.Answer (φ := φ) (κ := κ)) (View φ κ) where
  serve q a w w' := (∃ now, w.held.answer F now q = (a, w'.held)) ∧ w'.note = w.note.after q a
  valid w := w.held.composites.Keyed ∧ w.held.composites.Numbered ∧ w.note.Right w.held.composites
  rely w w' := w'.note.read = w.note.read ∧ w'.note.wrote = w.note.wrote
  guarantee q _ w _ := ∀ c, q = .composites c → ∀ k, c.target? = some k →
    w.note.wrote = false ∧ ∃ x, w.note.read = some (k, x) ∧ c.BasedOn x
  rely_refl _ := ⟨rfl, rfl⟩
  rely_trans h h' := ⟨h'.1.trans h.1, h'.2.trans h.2⟩

variable {F} {w w' : View φ κ} {ns key : String}

/-- **A call leaves what always holds.** -/
theorem valid_of_serve {q : PassCall φ κ} {a : q.Answer} (h : (surroundings F).valid w)
    (hs : (surroundings F).serve q a w w') : (surroundings F).valid w' := by
  obtain ⟨hkeyed, hnumbered, -⟩ := h
  obtain ⟨⟨now, hanswer⟩, hnote⟩ := hs
  obtain ⟨ha, hheld⟩ := Prod.mk.inj hanswer
  cases q with
  | fragments c =>
    have hsame : w'.held.composites = w.held.composites := (congrArg (·.composites) hheld).symm
    change w'.held.composites.Keyed ∧ _
    rw [hsame]
    exact ⟨hkeyed, hnumbered, Note.right_of_read_eq_none (by rw [hnote]; rfl)⟩
  | composites c =>
    have hafter : w'.held.composites = (w.held.composites.perform now c).2 :=
      (congrArg (·.composites) hheld).symm
    refine ⟨hafter ▸ Store.keyed_perform hkeyed now c,
      hafter ▸ hnumbered.ages (w.held.composites.ages_perform now c), ?_⟩
    cases c with
    | list | listByLabel | create | update | updateStatus | delete =>
      exact Note.right_of_read_eq_none (by rw [hnote]; rfl)
    | get nameSpace name =>
      subst ha
      have hsame : w'.held.composites = w.held.composites := hafter
      rw [hsame]
      exact Note.right_of_read_stored hkeyed hnumbered (by rw [hnote]; rfl) (by rw [hnote]; rfl)

/-- A call is safe when it is no write to the composites, or one that is based on what was read. -/
theorem safe_call {q : PassCall φ κ} {outcome : q.Answer → View φ κ → Prop}
    (hbased : ∀ c, q = .composites c → ∀ k, c.target? = some k →
      w.note.wrote = false ∧ ∃ x, w.note.read = some (k, x) ∧ c.BasedOn x)
    (hout : ∀ (n : Note κ) a w', n.wrote = w.note.wrote → w'.note = n.after q a → outcome a w') :
    (surroundings F).Safe outcome (Program.question q) w := by
  intro w₁ hrely hvalid a w₂ hserve
  refine ⟨valid_of_serve hvalid hserve, fun c hc k hk => ?_, hout w₁.note a w₂ hrely.2 hserve.2⟩
  rw [hrely.1, hrely.2]
  exact hbased c hc k hk

/-- The pass has not written to fragments. -/
def Clean (w : View φ κ) : Prop := w.note.wrote = false

/-- A call that reads fragments. -/
theorem safe_reading {c : Call (Fragment φ)} (hc : c.verb.isWrite = false) (h : w.Clean) :
    (surroundings F).Safe (Surroundings.OnSuccess fun _ => Clean)
      (Pass.onFragments (κ := κ) c).run w := by
  refine safe_call (fun _ hq => by cases hq) fun n a w' hn hw' => ?_
  cases a with
  | error e => exact trivial
  | ok r =>
    change w'.note.wrote = false
    rw [hw', Note.after, hc, hn, h]
    rfl

/-- …and one that may write them. -/
theorem safe_fragments (c : Call (Fragment φ)) :
    (surroundings F).Safe (Surroundings.OnSuccess fun _ _ => True)
      (Pass.onFragments (κ := κ) c).run w := by
  refine safe_call (fun _ hq => by cases hq) fun n a w' _ _ => ?_
  cases a <;> exact trivial

/-- A call to the composites, other than the one that begins a merge. -/
theorem safe_composites {c : Call (Composite κ)} (hc : ∀ ns name, c ≠ .get ns name) (h : w.Clean)
    (hbased : ∀ k, c.target? = some k → ∃ x, w.note.read = some (k, x) ∧ c.BasedOn x) :
    (surroundings F).Safe (Surroundings.OnSuccess fun _ => Clean)
      (Pass.onComposites (φ := φ) c).run w := by
  refine safe_call (fun c' hq k hk => ?_) fun n a w' hn hw' => ?_
  · obtain rfl := PassCall.composites.inj hq
    exact ⟨h, hbased k hk⟩
  · have hwrote : w'.note.wrote = w.note.wrote := by
      rw [hw', ← hn]
      cases c with
      | get ns name => exact absurd rfl (hc ns name)
      | list | listByLabel | create | update | updateStatus | delete => rfl
    cases a with
    | error e => exact trivial
    | ok r => exact hwrote.trans h

/-- **A merge begins by reading its composite.** -/
theorem safe_get (h : w.Clean) :
    (surroundings F).Safe
      (Surroundings.OnSuccess fun x w => w.Clean ∧ w.note.read = some (⟨ns, key⟩, x))
      (Pass.onComposites (φ := φ) (κ := κ) (.get ns key)).run w := by
  refine safe_call (fun c hq k hk => ?_) fun n a w' hn hw' => ?_
  · obtain rfl := PassCall.composites.inj hq
    cases hk
  · cases a with
    | error e => exact trivial
    | ok x =>
      refine ⟨?_, by rw [hw']; rfl⟩
      change w'.note.wrote = false
      rw [hw', ← h, ← hn]
      rfl

variable [DecidableEq κ]

/-- **Every write of a merge is based on what it has read.** -/
theorem safe_mergeOnto (hv : (surroundings F).valid w) (h : w.Clean) {x : Option (Composite κ)}
    (hread : w.note.read = some (⟨ns, key⟩, x)) (l : List (Fragment φ)) :
    (surroundings F).Safe (Surroundings.OnSuccess fun _ => Clean)
      (F.mergeOnto key ns l x).run w := by
  have hplace : ∀ c, x = some c → c.key = ⟨ns, key⟩ := by
    rintro c rfl
    exact (hv.2.2.copy _ c hread).2
  obtain ⟨-, hnothing⟩ | ⟨c, o, hwrite, honce⟩ := F.mergeOnto_cases key ns l x
  · rw [hnothing]
    exact .pureE h
  · have htarget := hwrite.target? hplace
    rw [honce]
    refine .bindE (safe_composites hwrite.ne_get h fun k hk => ⟨x, ?_, ?_⟩) hv
      fun _ _ _ h => .pureE h
    · exact Option.some.inj (htarget.symm.trans hk) ▸ hread
    · cases hwrite with
      | create | delete => rfl
      | update c => exact ⟨c, _, rfl, rfl⟩

/-- A merge of a key leaves the fragments alone. -/
theorem safe_mergeKey (hv : (surroundings F).valid w) (h : w.Clean) (ns key : String) :
    (surroundings F).Safe (Surroundings.OnSuccess fun _ => Clean) (F.mergeKey ns key).run w := by
  have hlisted : (surroundings F).Safe (Surroundings.OnSuccess fun _ => Clean)
      (F.liveFragments ns key : Pass φ κ _).run w :=
    .bindE (safe_reading rfl h) hv fun _ _ _ h => .pureE h
  refine Surroundings.Safe.bindE hlisted hv fun l w hv h => ?_
  rw [F.merge_eq]
  exact .bindE (safe_get h) hv fun x w hv h => safe_mergeOnto hv h.1 h.2 l

/-- …and so do the merges of the keys that a fragment has left. -/
theorem safe_releaseStale (hv : (surroundings F).valid w) (h : w.Clean) (ns key : String)
    (uid : Option String) :
    (surroundings F).Safe (Surroundings.OnSuccess fun _ => Clean)
      (F.releaseStale ns key uid).run w := by
  refine F.safe_releaseStale_of_parts (C := fun _ => True) (fun u => ?_)
    (fun key' _ w hv h => safe_mergeKey hv h ns key') uid hv h
  exact .bindE (safe_composites (by simp) h fun k hk => by cases hk) hv
    fun _ _ _ h => .pureE ⟨fun _ _ => trivial, h⟩

/-- …and so does the merging part of a pass. -/
theorem safe_mergeAll (hv : (surroundings F).valid w) (h : w.Clean) (ns key : String)
    (uid : Option String) :
    (surroundings F).Safe (Surroundings.OnSuccess fun _ => Clean)
      (F.mergeAll ns key uid).run w := by
  rw [Family.mergeAll]
  exact .bindE (safe_mergeKey hv h ns key) hv fun _ w hv h =>
    .bindE (safe_releaseStale hv h ns key uid) hv fun _ _ _ h => .pureE h

omit [DecidableEq κ] in
theorem safe_recordMerge (hv : (surroundings F).valid w) (time : Instant) (f : Fragment φ)
    (outcome : MergeOutcome) :
    (surroundings F).Safe (Surroundings.OnSuccess fun _ _ => True)
      (F.recordMerge time f outcome : Pass φ κ Report).run w := by
  have hsettled : (surroundings F).Safe (Surroundings.OnSuccess fun _ _ => True)
      (reconcileFinalizer (Pass.updateFragment (κ := κ)) fragmentFinalizer f).run w := by
    rw [reconcileFinalizer_eq]
    split
    · exact .pureE trivial
    · exact .bindE (safe_fragments _) hv fun _ _ _ _ => .pureE trivial
  unfold Family.recordMerge
  refine Surroundings.Safe.bindE hsettled hv fun settled w hv _ => ?_
  split
  · exact .bindE (safe_fragments _) hv fun _ _ _ _ => .pureE trivial
  · exact .pureE trivial

/-- **A pass makes all its calls to the composites before it writes to fragments**, and each write
among them is based on what its merge has read. -/
theorem safe_reconcile (hv : (surroundings F).valid w) (h : w.Clean) (time : Instant)
    (ns name : String) :
    (surroundings F).Safe (fun _ _ => True) (F.reconcile time ns name).run w := by
  refine Surroundings.Safe.weaken (P := Surroundings.OnSuccess fun _ _ => True) ?_ hv
    fun _ _ _ _ => trivial
  exact F.safe_reconcile_of_parts time hv (safe_reading rfl h) (fun _ _ => trivial)
    (fun f key w _ hv h => safe_mergeAll hv h ns key f.metadata.uid) (fun _ _ _ _ => trivial)
    fun f outcome w hv _ => safe_recordMerge hv time f outcome

end Contention.View

/-! ## Any run -/

/-- A refusal by a store is expected to go away. -/
theorem Refusal.clearsOnRetry_toError {σ τ : Type} (kind : ResourceKind) (c : Call (Object σ τ))
    (r : Refusal) : (r.toError kind c).clearsOnRetry := by
  cases r <;> rfl

namespace Contention

/-- What a pass sees of the world. -/
def World.view (w : World φ κ π) (i : π) : View φ κ := ⟨w.stores.collections, w.notes i⟩

/-- No refusal is planned, the composites are in order, and all notes are right about them. -/
structure World.InOrder (w : World φ κ π) : Prop where
  undisturbed : w.stores.Undisturbed
  keyed : w.stores.composites.store.Keyed
  numbered : w.stores.composites.store.Numbered
  right : ∀ i, (w.notes i).Right w.stores.composites.store

/-- What is said of the passes of a contention. -/
def company (F : Family φ κ ι) : Company (PassCall.Answer (φ := φ) (κ := κ)) (World φ κ π)
    (View φ κ) π (Except Error Report) where
  view i w := w.view i
  surroundings _ := View.surroundings F
  outcome _ _ _ := True
  valid := World.InOrder
  valid_view i hw := ⟨hw.keyed, hw.numbered, hw.right i⟩
  outcome_lasts _ _ _ _ := trivial

variable [DecidableEq κ] [DecidableEq π] {F : Family φ κ ι} {t : Contention φ κ π}

/-- A call is answered as the surroundings of its pass say. -/
theorem World.InOrder.serve_answer {w : World φ κ π} (hw : w.InOrder) (i : π) (now : Instant)
    (q : PassCall φ κ) :
    (View.surroundings F).serve q (w.answer F i now q).1 (w.view i)
      ((w.answer F i now q).2.view i) := by
  obtain ⟨hanswer, hheld, -⟩ := Stores.answer_of_undisturbed F now hw.undisturbed q
  exact ⟨⟨now, Prod.ext hanswer.symm hheld.symm⟩, w.notes_answer_self F i now q⟩

/-- **What a call does, the other passes rely on**: they note it. -/
theorem World.InOrder.leaves_answer {w : World φ κ π} (hw : w.InOrder) (i : π) (now : Instant)
    (q : PassCall φ κ) :
    (company F).Leaves (· ≠ i) w (w.answer F i now q).2 := by
  have hages := Stores.ages_composites F now hw.undisturbed q
  have hvalid : (View.surroundings F).valid (w.view i) := ⟨hw.keyed, hw.numbered, hw.right i⟩
  obtain ⟨hkeyed, hnumbered, hright⟩ := View.valid_of_serve hvalid (hw.serve_answer i now q)
  have hcalm := (Stores.answer_of_undisturbed F now hw.undisturbed q).2.2
  refine ⟨⟨hcalm, hkeyed, hnumbered, fun j => ?_⟩, fun j hj => ?_⟩
  · by_cases hj : j = i
    · exact hj ▸ hright
    · rw [w.notes_answer_of_ne F hj now q]
      exact (hw.right j).beside hages
  · have hnote := w.notes_answer_of_ne F hj now q
    exact ⟨(congrArg Note.read hnote :), (congrArg Note.wrote hnote :)⟩

omit [DecidableEq π] in
theorem good_start {s : Stores φ κ} (hs : s.Undisturbed) (hk : s.composites.store.Keyed)
    (hn : s.composites.store.Numbered) (target : π → ObjectKey) (time : π → Instant) :
    (start F s target time).Good (company F) where
  valid := ⟨hs, hk, hn, fun _ => Note.right_of_read_eq_none rfl⟩
  safe i := View.safe_reconcile (w := (start F s target time).world.view i)
    ⟨hk, hn, Note.right_of_read_eq_none rfl⟩ rfl _ _ _

/-- **Every move keeps the contention good.** -/
theorem good_step (h : t.Good (company F)) {m : Move φ κ π} (hm : m.Proper) :
    (t.step F m).Good (company F) := by
  obtain ⟨hcalm, hkeyed, hnumbered, hright⟩ := h.valid
  cases m with
  | onFragments operation now =>
    exact h.leaves ⟨⟨⟨hcalm.fragments, hcalm.composites⟩, hkeyed, hnumbered, hright⟩,
      fun _ _ => ⟨rfl, rfl⟩⟩
  | onComposites operation now =>
    have hages := operation.ages_apply hm now t.stores.composites.store
    exact h.leaves ⟨⟨⟨hcalm.fragments, hcalm.composites⟩, operation.keyed_apply hm now hkeyed,
      hnumbered.ages hages, fun i => (hright i).beside hages⟩, fun _ _ => ⟨rfl, rfl⟩⟩
  | call i now =>
    change (t.ask (World.answer F i now) i).Good _
    exact h.ask (fun q _ _ => h.valid.serve_answer i now q)
      fun q _ _ _ _ => h.valid.leaves_answer i now q

/-- …and so does any run. -/
theorem good_run (h : t.Good (company F)) {moves : List (Move φ κ π)}
    (hm : ∀ m ∈ moves, m.Proper) : (t.run F moves).Good (company F) :=
  List.foldlRecOn moves (Contention.step F) h fun _ ht m hmem => good_step ht (hm m hmem)

/-- **A pass ends with the first refusal that it meets**, at any point of any run. -/
theorem stopsBy_run (h : ∀ i, (t.passes i).StopsBy Family.StoppedBy) (moves : List (Move φ κ π)) :
    ∀ i, ((t.run F moves).passes i).StopsBy Family.StoppedBy := by
  refine List.foldlRecOn (motive := fun t => ∀ i, (t.passes i).StopsBy Family.StoppedBy) moves
    (Contention.step F) h fun t ht m _ => ?_
  cases m with
  | onFragments | onComposites => exact ht
  | call i now => exact Pool.forall_programs_ask ht fun hask a => hask.2 a

/-- A write to the composites that is made now. -/
theorem swaps_of_good (h : t.Good (company F)) {i : π}
    (hstops : (t.passes i).StopsBy Family.StoppedBy) {c : Call (Composite κ)} {k : ObjectKey}
    (hk : c.target? = some k)
    {next : (PassCall.composites (φ := φ) c).Answer →
      Program (PassCall.Answer (φ := φ) (κ := κ)) (Except Error Report)}
    (hp : t.passes i = .ask (.composites c) next) (now : Instant) :
    let answer := Stores.answer F now (.composites c) t.stores
    ∃ x, Swaps (t.notes i) now t.stores.collections answer.2.collections c k x answer.1
      (next answer.1) := by
  intro answer
  obtain ⟨hcalm, hkeyed, hnumbered, hrights⟩ := h.valid
  obtain ⟨hanswer, hheld, -⟩ := Stores.answer_of_undisturbed F now hcalm (.composites c)
  obtain ⟨-, hguarantee, -⟩ := h.question hp (h.valid.serve_answer i now (.composites c))
  obtain ⟨hwrote, x, hread, hbased⟩ := hguarantee c rfl k hk
  have hright : (t.notes i).Right t.stores.composites.store := hrights i
  rw [hp] at hstops
  refine ⟨x, hread, hbased, fun hx => ?_, fun hx => ?_, fun hx => ?_⟩
  · obtain ⟨stored, rfl⟩ := Option.isSome_iff_exists.mp hx
    refine ⟨hright.gone k stored hread, fun hne => ?_⟩
    by_contra hover
    exact hne (hright.current k _ hread (by simpa using hover))
  · obtain ⟨r, hr⟩ := Store.perform_of_based now hbased hk hx
    obtain ⟨ha, hs⟩ := Collections.answer_of_target? (s := t.stores.collections) F now hk hr
    exact ⟨⟨r, hanswer.trans ha⟩, hheld.trans hs⟩
  · obtain ⟨e, he⟩ := Store.perform_of_not_based now hbased hk
      (fun stored hstored => hright.copy k stored (hstored ▸ hread)) hx
    obtain ⟨ha, hs⟩ := Collections.answer_of_target? (s := t.stores.collections) F now hk he
    have herror : answer.1 = PassCall.failure (.composites c) (e.toError F.composites.kind c) :=
      hanswer.trans ha
    obtain ⟨result, hdone, -, hretry⟩ := hstops.1 (e.toError F.composites.kind c)
    obtain ⟨intent, rfl⟩ := hretry (e.clearsOnRetry_toError F.composites.kind c)
    exact ⟨⟨_, herror⟩, hheld.trans hs, hwrote, intent, herror ▸ hdone⟩

/-- **Writes to composites compare and swap**, at any point of any run: whatever users and other
passes have done since, a write of a pass goes through exactly when what its merge has read is what
is stored, and is then made on that; otherwise it changes nothing, and its pass asks for another one
with its own fragment as it was.  What users do to fragments does not matter. -/
theorem composite_writes_swap (F : Family φ κ ι) (s : Stores φ κ) (hcalm : s.Undisturbed)
    (hkeyed : s.composites.store.Keyed) (hnumbered : s.composites.store.Numbered)
    (target : π → ObjectKey) (time : π → Instant) (moves : List (Move φ κ π))
    (hproper : ∀ m ∈ moves, m.Proper) (i : π) (now : Instant) (c : Call (Composite κ))
    (k : ObjectKey) (hk : c.target? = some k)
    (next : (PassCall.composites (φ := φ) c).Answer →
      Program (PassCall.Answer (φ := φ) (κ := κ)) (Except Error Report))
    (hask : ((start F s target time).run F moves).passes i = .ask (.composites c) next) :
    let t := (start F s target time).run F moves
    let t' := t.step F (.call i now)
    ∃ x, Swaps (t.notes i) now t.stores.collections t'.stores.collections c k x
      (Stores.answer F now (.composites c) t.stores).1 (t'.passes i) := by
  intro t t'
  have ht' : t' = t.goOn i (next (World.answer F i now (.composites c) t.world).1)
      (World.answer F i now (.composites c) t.world).2 := step_call F hask now
  have hpass : t'.passes i = next (Stores.answer F now (.composites c) t.stores).1 := by
    rw [ht']
    exact Function.update_self ..
  rw [hpass, ht']
  exact swaps_of_good (good_run (good_start hcalm hkeyed hnumbered target time) hproper)
    (stopsBy_run (fun _ => F.stopsBy_reconcile _ _ _) moves i) hk hask now

/-! ## A composite that is created anew -/

/-- The call to the composites that a program makes next, if it does. -/
def compositeCall? : Program (PassCall.Answer (φ := φ) (κ := κ)) ρ → Option (Call (Composite κ))
  | .ask (.composites c) _ => some c
  | .ask (.fragments _) _ | .done _ => none

omit [DecidableEq κ] in
theorem of_compositeCall?_eq_some {p : Program (PassCall.Answer (φ := φ) (κ := κ)) ρ}
    {c : Call (Composite κ)} (h : compositeCall? p = some c) :
    ∃ next, p = .ask (.composites c) next := by
  cases p with
  | done r => cases h
  | ask q next =>
    cases q with
    | fragments d => cases h
    | composites d =>
      obtain rfl : d = c := Option.some.inj h
      exact ⟨next, rfl⟩

/-- A pass over the fragment that has moved makes all its calls up to the release of the composite
that it has left.  A user removes that composite then, and creates it anew as it was. -/
def recreation : List (Move RouteSpec RouterSpec Unit) :=
  let left : Composite RouterSpec :=
    { metadata := { name := some "svc-old", nameSpace := some "default" }
      spec := ⟨[.ofPathPrefix "moved" "/moved"]⟩ }
  [.call () ⟨1, 0⟩, .call () ⟨1, 0⟩, .call () ⟨1, 0⟩, .call () ⟨2, 0⟩, .call () ⟨2, 0⟩,
    .call () ⟨2, 0⟩, .call () ⟨3, 0⟩, .onComposites (.remove ⟨"default", "svc-old"⟩) ⟨3, 0⟩,
    .onComposites (.seed left) ⟨4, 0⟩]

/-- The contention after that. -/
abbrev recreated : Contention RouteSpec RouterSpec Unit :=
  (start .routes Stores.disordered (fun _ => ⟨"default", "moved"⟩) (fun _ => ⟨6, 0⟩)).run .routes
    recreation

/-- The release of the old composite leaves the new one, and the pass asks for another one. -/
theorem composite_writes_swap_recreation :
    let t := recreated.step .routes (.call () ⟨6, 0⟩)
    (compositeCall? (recreated.passes ())).map (·.verb) = some .delete ∧
      t.stores.collections = recreated.stores.collections ∧
      ∃ intent, t.passes () = .done (.ok (.requeue intent)) := by
  intro t
  have hverb : (compositeCall? (recreated.passes ())).map (·.verb) = some .delete := by
    decide +kernel
  obtain ⟨c, hc, -⟩ := Option.map_eq_some_iff.mp hverb
  have htarget : (compositeCall? (recreated.passes ())).bind (·.target?) =
      some ⟨"default", "svc-old"⟩ := by decide +kernel
  rw [hc] at htarget
  obtain ⟨next, hask⟩ := of_compositeCall?_eq_some hc
  have hnumbered : Stores.disordered.composites.store.Numbered :=
    (Store.numbered_empty.seed _ _).seed _ _
  have hproper : ∀ m ∈ recreation, m.Proper := by
    simp [recreation, Move.Proper, Store.Operation.Proper]
  obtain ⟨x, hswaps⟩ := composite_writes_swap .routes Stores.disordered
    ⟨fun _ => rfl, fun _ => rfl⟩ (by decide +kernel) hnumbered (fun _ => ⟨"default", "moved"⟩)
    (fun _ => ⟨6, 0⟩) recreation hproper () ⟨6, 0⟩ c ⟨"default", "svc-old"⟩ htarget next hask
  have hread : (recreated.notes ()).read.map (·.2.isSome) = some true := by decide +kernel
  have hovertaken : (recreated.notes ()).overtaken := by decide +kernel
  have hsome : x.isSome := by
    rw [hswaps.read] at hread
    exact Option.some.inj hread
  obtain ⟨-, hheld, -, hrest⟩ := hswaps.refused ((hswaps.overtaken hsome).mp hovertaken)
  exact ⟨hverb, hheld, hrest⟩

end Contention

end ConfigMerge
