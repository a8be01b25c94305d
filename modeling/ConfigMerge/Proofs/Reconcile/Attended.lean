import ConfigMerge.Proofs.Reconcile.Answer
import ConfigMerge.Proofs.Reconcile.Interruption

/-!
# Proofs/Reconcile/Attended — one pass by itself, whatever its calls meet

`Stores.attend` runs a pass to its end while some of its calls are refused, and keeps every call with
its answer.  Of such a log `statusWrites` picks the contents whose fingerprints were recorded.

Nobody else is at the stores, so the copy of its fragment that a pass has read is stored until it
writes the fragment itself.  What therefore holds after each call, errors or not, is `Vigil.Kept`.
-/

namespace ConfigMerge

variable {φ κ ι ρ υ : Type}

/-! ## Logs -/

/-- A call of a pass, with the answer that it got. -/
abbrev PassCall.Exchange (φ κ : Type) := (q : PassCall φ κ) × q.Answer

/-- The call is one to write a status. -/
def PassCall.IsStatusWrite : PassCall φ κ → Prop
  | .fragments (.updateStatus _) => True
  | _ => False

/-- The content of the fragment at `k`, if this is an answer to a write of its status. -/
def PassCall.recorded? (k : ObjectKey) : (q : PassCall φ κ) → q.Answer → Option φ
  | .fragments (.updateStatus _), .ok g => if g.key = k then some g.spec else none
  | _, _ => none

/-- The contents of the fragment at `k` at the status writes that succeeded. -/
def statusWrites (k : ObjectKey) (log : List (PassCall.Exchange φ κ)) : List φ :=
  log.filterMap fun e => e.1.recorded? k e.2

theorem PassCall.recorded?_eq_none {q : PassCall φ κ} (h : ¬ q.IsStatusWrite) (k : ObjectKey)
    (a : q.Answer) : q.recorded? k a = none := by
  cases q with
  | composites c => rfl
  | fragments c =>
    cases c with
    | updateStatus o => exact absurd trivial h
    | get | list | listByLabel | create | update | delete => rfl

theorem statusWrites_append (k : ObjectKey) (log log' : List (PassCall.Exchange φ κ)) :
    statusWrites k (log ++ log') = statusWrites k log ++ statusWrites k log' :=
  List.filterMap_append

/-- Where no status was to be written, none was. -/
theorem statusWrites_eq_nil {log : List (PassCall.Exchange φ κ)} (h : ∀ e ∈ log, ¬ e.1.IsStatusWrite)
    (k : ObjectKey) : statusWrites k log = [] :=
  List.filterMap_eq_nil_iff.mpr fun e he => e.1.recorded?_eq_none (h e he) k e.2

/-- Any other exchange is no status write. -/
theorem statusWrites_singleton {k : ObjectKey} {q : PassCall φ κ} {a : q.Answer}
    (h : q.recorded? k a = none) : statusWrites k [⟨q, a⟩] = [] := by
  simp [statusWrites, h]

/-- A status that was written is a write. -/
theorem statusWrites_ok {k : ObjectKey} {o g : Fragment φ} (hk : g.key = k) :
    statusWrites (κ := κ) k [⟨.fragments (.updateStatus o), .ok g⟩] = [g.spec] := by
  simp [statusWrites, PassCall.recorded?, hk]

/-- How a program ended: its result, the stores that it left, and all that was said. -/
structure Attended (φ κ ρ : Type) where
  result : ρ
  stores : Stores φ κ
  log : List (PassCall.Exchange φ κ)

namespace Stores

/-- Runs a program to its end.  Its calls meet what is said, each a refusal or none, and the later
ones meet none. -/
def attend (F : Family φ κ ι) (now : Instant) :
    List (Option Refusal) → Program (PassCall.Answer (φ := φ) (κ := κ)) ρ → Stores φ κ →
      Attended φ κ ρ
  | _, .done r, s => ⟨r, s, []⟩
  | fates, .ask q next, s =>
    let (a, s') := meet F now q s fates.head?.join
    let rest := attend F now fates.tail (next a) s'
    { rest with log := ⟨q, a⟩ :: rest.log }

/-- A call that meets a refusal or none is answered. -/
theorem answers_meet (F : Family φ κ ι) (now : Instant) (q : PassCall φ κ) (s : Stores φ κ)
    (fate : Option Refusal) :
    q.Answers (meet F now q s fate).1 s.fragments.store (meet F now q s fate).2.fragments.store := by
  cases fate with
  | none => exact answers F now q s
  | some r =>
    have hsame : (s.planRefusal r q).fragments.store = s.fragments.store := by
      cases q <;> rfl
    exact hsame ▸ answers F now q (s.planRefusal r q)

end Stores

/-! ## Calls that leave the fragments alone -/

/-- The call leaves the fragments alone. -/
def PassCall.Spares : PassCall φ κ → Prop
  | .fragments c => c.verb.isWrite = false
  | .composites _ => True

theorem PassCall.Spares.not_isStatusWrite {q : PassCall φ κ} (h : q.Spares) : ¬ q.IsStatusWrite := by
  cases q with
  | composites c => exact not_false
  | fragments c =>
    cases c with
    | updateStatus o => cases h
    | get | list | listByLabel | create | update | delete => exact not_false

theorem PassCall.Answers.of_spares {q : PassCall φ κ} {a : q.Answer} {s s' : Store φ FragmentStatus}
    (h : q.Answers a s s') (hq : q.Spares) : s' = s := by
  cases q with
  | composites c => exact h
  | fragments c =>
    rcases h with ⟨e, -, hs⟩ | ⟨now, -, -, -, hs⟩
    · exact hs
    · exact hs.trans (s.perform_of_target?_eq_none now (Call.target?_of_isWrite_eq_false hq))

theorem PassCall.spares_of_isMerging {q : PassCall φ κ} (h : q.isMerging) : q.Spares := by
  cases q with
  | composites c => exact trivial
  | fragments c =>
    cases c with
    | listByLabel => rfl
    | get | list | create | update | updateStatus | delete => cases h

/-- **The merging part of a pass leaves the fragments alone.** -/
theorem Family.spares_mergeAll [DecidableEq κ] (F : Family φ κ ι) (ns key : String)
    (uid : Option String) : (F.mergeAll ns key uid).run.Asks PassCall.Spares :=
  (F.strictOn_mergeAll ns key uid).asks.mono fun _ => PassCall.spares_of_isMerging

/-! ## What holds after every call -/

/-- The fragments while a pass is attended, and its log. -/
structure Vigil (φ κ : Type) where
  fragments : Store φ FragmentStatus
  log : List (PassCall.Exchange φ κ) := []

namespace Vigil

variable {F : Family φ κ ι} {k : ObjectKey} {s₀ : Store φ FragmentStatus} {w : Vigil φ κ}

/-- The fragment at `k` is what `f` was but for its finalizers, and its status says what was
recorded on the way: nothing new, or the content. -/
def Agrees (F : Family φ κ ι) (k : ObjectKey) (f f' : Fragment φ) (w : Vigil φ κ) : Prop :=
  f'.bare = f.bare ∧
    (statusWrites k w.log = [] ∧ f'.status = f.status ∨
      statusWrites k w.log = [f.spec] ∧ Family.recorded? f' = some (F.fingerprint f))

/-- What a pass over the fragment at `k`, which began with `s₀`, has made of it so far.  It writes no
other fragment, and a status only when the fragment is live and was changed. -/
structure Kept (F : Family φ κ ι) (k : ObjectKey) (s₀ : Store φ FragmentStatus) (w : Vigil φ κ) :
    Prop where
  keyed : w.fragments.Keyed
  elsewhere : ∀ k' ≠ k, w.fragments.objects.get? k' = s₀.objects.get? k' ∧ statusWrites k' w.log = []
  due : (∃ e ∈ w.log, e.1.IsStatusWrite) → ∃ f, s₀.objects.get? k = some f ∧
    f.metadata.isBeingDeleted = false ∧ F.isChanged f = true
  here : ∀ f', w.fragments.objects.get? k = some f' →
    ∃ f, s₀.objects.get? k = some f ∧ Agrees F k f f' w

/-- The surroundings of a pass over the fragment at `k` that is alone at the stores. -/
def surroundings (F : Family φ κ ι) (k : ObjectKey) (s₀ : Store φ FragmentStatus) :
    Surroundings (PassCall.Answer (φ := φ) (κ := κ)) (Vigil φ κ) where
  serve q a w w' := q.Answers a w.fragments w'.fragments ∧ w'.log = w.log ++ [⟨q, a⟩]
  valid := Kept F k s₀
  rely w w' := w' = w
  guarantee _ _ _ _ := True
  rely_refl _ := rfl
  rely_trans h h' := h'.trans h

theorem kept_start (hs : s₀.Keyed) : Kept F k s₀ (⟨s₀, []⟩ : Vigil φ κ) where
  keyed := hs
  elsewhere _ _ := ⟨rfl, rfl⟩
  due h := by
    obtain ⟨e, he, -⟩ := h
    cases he
  here f hf := ⟨f, hf, rfl, Or.inl ⟨rfl, rfl⟩⟩

/-- What was kept at every call of a safe program is kept at its end, and it has its outcome. -/
theorem attend_of_safe {P : ρ → Vigil φ κ → Prop} {now : Instant}
    {p : Program (PassCall.Answer (φ := φ) (κ := κ)) ρ}
    (h : (surroundings F k s₀).Safe P p w) (hw : Kept F k s₀ w) {s : Stores φ κ}
    (hs : s.fragments.store = w.fragments) (fates : List (Option Refusal)) :
    let t := s.attend F now fates p
    Kept F k s₀ ⟨t.stores.fragments.store, w.log ++ t.log⟩ ∧
      P t.result ⟨t.stores.fragments.store, w.log ++ t.log⟩ := by
  induction p generalizing w s fates with
  | done r =>
    have hsame : (⟨s.fragments.store, w.log ++ []⟩ : Vigil φ κ) = w := by
      rw [hs, List.append_nil]
    simp only [Stores.attend, hsame]
    exact ⟨hw, h⟩
  | ask q next ih =>
    have hanswers := hs ▸ Stores.answers_meet F now q s fates.head?.join
    have hserve : (surroundings F k s₀).serve q _ w ⟨_, w.log ++ [⟨q, _⟩]⟩ := ⟨hanswers, rfl⟩
    obtain ⟨hvalid, -, hrest⟩ := h.ask hw hserve
    have hend := ih _ hrest hvalid rfl fates.tail
    simp only [List.append_assoc, List.singleton_append] at hend
    exact hend

/-! ## The calls of a pass -/

/-- One more call keeps what it has to keep itself. -/
theorem Kept.append (h : Kept F k s₀ w) {w' : Vigil φ κ} {q : PassCall φ κ} {a : q.Answer}
    (hlog : w'.log = w.log ++ [⟨q, a⟩]) (hkeyed : w'.fragments.Keyed)
    (helsewhere : ∀ k' ≠ k, w'.fragments.objects.get? k' = w.fragments.objects.get? k' ∧
      q.recorded? k' a = none)
    (hdue : q.IsStatusWrite → ∃ f, s₀.objects.get? k = some f ∧
      f.metadata.isBeingDeleted = false ∧ F.isChanged f = true)
    (hhere : ∀ f', w'.fragments.objects.get? k = some f' →
      ∃ f, s₀.objects.get? k = some f ∧ Agrees F k f f' w') : Kept F k s₀ w' where
  keyed := hkeyed
  elsewhere k' hk := by
    refine ⟨(helsewhere k' hk).1.trans (h.elsewhere k' hk).1, ?_⟩
    rw [hlog, statusWrites_append, (h.elsewhere k' hk).2,
      statusWrites_singleton (helsewhere k' hk).2, List.append_nil]
  due hasked := by
    obtain ⟨e, he, hstatus⟩ := hasked
    rw [hlog, List.mem_append, List.mem_singleton] at he
    rcases he with he | rfl
    · exact h.due ⟨e, he, hstatus⟩
    · exact hdue hstatus
  here := hhere

/-- A call that leaves what is stored alone keeps everything, if a status write was due. -/
theorem Kept.unchanged (h : Kept F k s₀ w) {w' : Vigil φ κ} {q : PassCall φ κ} {a : q.Answer}
    (hlog : w'.log = w.log ++ [⟨q, a⟩]) (hsame : w'.fragments = w.fragments)
    (hnone : ∀ k', q.recorded? k' a = none)
    (hdue : q.IsStatusWrite → ∃ f, s₀.objects.get? k = some f ∧
      f.metadata.isBeingDeleted = false ∧ F.isChanged f = true) : Kept F k s₀ w' := by
  refine h.append hlog (hsame ▸ h.keyed) (fun k' _ => ⟨hsame ▸ rfl, hnone k'⟩) hdue
    fun f' hf' => ?_
  obtain ⟨f, hf, hagrees⟩ := h.here f' (hsame ▸ hf')
  have hwrites : statusWrites k w'.log = statusWrites k w.log := by
    rw [hlog, statusWrites_append, statusWrites_singleton (hnone k), List.append_nil]
  exact ⟨f, hf, hagrees.1, hwrites ▸ hagrees.2⟩

/-- …as it need not be for any other call. -/
theorem Kept.quiet (h : Kept F k s₀ w) {w' : Vigil φ κ} {q : PassCall φ κ} {a : q.Answer}
    (hlog : w'.log = w.log ++ [⟨q, a⟩]) (hsame : w'.fragments = w.fragments)
    (hq : ¬ q.IsStatusWrite) : Kept F k s₀ w' :=
  h.unchanged hlog hsame (fun k' => q.recorded?_eq_none hq k' a) fun hasked => absurd hasked hq

/-- A pass has read its fragment, which is still what is stored, and has written no status. -/
structure Read (k : ObjectKey) (s₀ : Store φ FragmentStatus) (f : Fragment φ) (w : Vigil φ κ) :
    Prop where
  begun : s₀.objects.get? k = some f
  stored : w.fragments.objects.get? k = some f
  quiet : ∀ e ∈ w.log, ¬ e.1.IsStatusWrite

theorem Read.append {f : Fragment φ} (h : Read k s₀ f w) {w' : Vigil φ κ} {q : PassCall φ κ}
    {a : q.Answer} (hlog : w'.log = w.log ++ [⟨q, a⟩]) (hsame : w'.fragments = w.fragments)
    (hq : ¬ q.IsStatusWrite) : Read k s₀ f w' where
  begun := h.begun
  stored := hsame ▸ h.stored
  quiet e he := by
    rw [hlog, List.mem_append, List.mem_singleton] at he
    rcases he with he | rfl
    · exact h.quiet e he
    · exact hq

/-- What leaves the fragments alone keeps what was read. -/
theorem safe_of_asks {f : Fragment φ} {p : Program (PassCall.Answer (φ := φ) (κ := κ)) ρ}
    (hp : p.Asks PassCall.Spares) (h : Read k s₀ f w) :
    (surroundings F k s₀).Safe (fun _ => Read k s₀ f) p w := by
  refine hp.safe h fun {q a w w' w''} hspares h hrely hv hserved => ?_
  obtain rfl : w' = w := hrely
  obtain ⟨hanswers, hlog⟩ := hserved
  have hsame := hanswers.of_spares hspares
  exact ⟨Kept.quiet hv hlog hsame hspares.not_isStatusWrite, trivial,
    h.append hlog hsame hspares.not_isStatusWrite⟩

/-- A pass has looked at the finalizers of its fragment, and a live one is stored as it is now. -/
structure Guarded (k : ObjectKey) (s₀ : Store φ FragmentStatus) (f g : Fragment φ)
    (w : Vigil φ κ) : Prop where
  begun : s₀.objects.get? k = some f
  bare : g.bare = f.bare
  status : g.status = f.status
  stored : f.metadata.isBeingDeleted = false → w.fragments.objects.get? k = some g
  quiet : ∀ e ∈ w.log, ¬ e.1.IsStatusWrite

theorem safe_reconcileFinalizer {f : Fragment φ} (hv : Kept F k s₀ w) (h : Read k s₀ f w) :
    (surroundings F k s₀).Safe
      (Surroundings.OnSuccess fun settled => Guarded k s₀ f settled.object)
      (reconcileFinalizer (Pass.updateFragment (κ := κ)) fragmentFinalizer f).run w := by
  rw [reconcileFinalizer_eq]
  cases hm : f.metadata.finalizerChange? fragmentFinalizer with
  | none => exact .pureE ⟨h.begun, rfl, rfl, fun _ => h.stored, h.quiet⟩
  | some m =>
    obtain ⟨fs, rfl, htoken⟩ := Metadata.of_finalizerChange?_eq_some hm
    let o : Fragment φ := { f with metadata := { f.metadata with finalizers := some fs } }
    refine Surroundings.Safe.bindE (P := fun g => Guarded k s₀ f g) ?_ hv
      fun g w _ h => .pureE h
    rintro w' rfl hv a w'' ⟨hanswers, hlog⟩
    have hq : ¬ (PassCall.fragments (κ := κ) (.update o)).IsStatusWrite := not_false
    have hkey : o.key = k := hv.keyed k f h.stored
    cases a with
    | error e => exact ⟨hv.quiet hlog hanswers.of_error hq, trivial, trivial⟩
    | ok g =>
      obtain ⟨stored, hc, rfl, hs⟩ := hanswers.of_update
      obtain rfl := Store.eq_of_current_eq_ok hc (hkey.symm ▸ h.stored)
      have hchange := hkey ▸ Store.changes_replaced w'.fragments o stored
      rw [← hs] at hchange
      have hquiet : ∀ e ∈ w''.log, ¬ e.1.IsStatusWrite := by
        rw [hlog]
        exact List.forall_mem_append.mpr ⟨h.quiet, List.forall_mem_singleton.mpr hq⟩
      refine ⟨hv.append hlog (hanswers.keyed hv.keyed)
        (fun k' hk => ⟨hchange.elsewhere k' hk, PassCall.recorded?_eq_none hq k' _⟩)
        (fun hasked => absurd hasked hq) fun f' hf' => ?_, trivial,
        ⟨h.begun, rfl, rfl, fun hlive => ?_, hquiet⟩⟩
      · rw [hchange.here] at hf'
        split at hf'
        · cases hf'
        · cases hf'
          exact ⟨stored, h.begun, rfl, Or.inl ⟨statusWrites_eq_nil hquiet k, rfl⟩⟩
      · rw [hchange.here, if_neg (Object.not_isGone_inPlaceOf o hlive)]

/-- A pass over a live fragment is at its end: the fragment is there, and its status was written if
it was to be. -/
structure Ended (F : Family φ κ ι) (k : ObjectKey) (f : Fragment φ) (w : Vigil φ κ) : Prop where
  stored : ∃ f', w.fragments.objects.get? k = some f'
  written : F.isChanged f = true → statusWrites k w.log = [f.spec]

/-- **A status write that succeeds** leaves the content on record. -/
theorem safe_updateStatus {f g : Fragment φ} (hv : Kept F k s₀ w) (h : Guarded k s₀ f g w)
    (hlive : f.metadata.isBeingDeleted = false) (hchanged : F.isChanged f = true)
    {status : FragmentStatus} (hstatus : status.fingerprint? = some (F.fingerprint f)) :
    (surroundings F k s₀).Safe (Surroundings.OnSuccess fun _ => Ended F k f)
      (Pass.onFragments (κ := κ) (.updateStatus { g with status := some status })).run w := by
  rintro w' rfl hv' a w'' ⟨hanswers, hlog⟩
  have hstored := h.stored hlive
  have hkey : g.key = k := hv.keyed k g hstored
  have hspec : g.spec = f.spec := Object.spec_eq_of_bare_eq h.bare
  have hdue : ∃ f, s₀.objects.get? k = some f ∧ f.metadata.isBeingDeleted = false ∧
      F.isChanged f = true := ⟨f, h.begun, hlive, hchanged⟩
  cases a with
  | error e =>
    exact ⟨hv.unchanged hlog hanswers.of_error (fun _ => rfl) fun _ => hdue, trivial, trivial⟩
  | ok g' =>
    obtain ⟨stored, hc, rfl, hs⟩ := hanswers.of_updateStatus
    obtain rfl : stored = g := Store.eq_of_current_eq_ok hc (hkey.symm ▸ hstored)
    have hchange := Store.changes_write w'.fragments stored.key { stored with status := some status }
    replace hs : w''.fragments =
      (w'.fragments.write stored.key { stored with status := some status }).2 := hs
    rw [← hs, hkey] at hchange
    have hwrites : statusWrites k w''.log = [f.spec] := by
      rw [hlog, statusWrites_append, statusWrites_eq_nil h.quiet, ← hspec]
      exact statusWrites_ok (g := Object.atVersion _ _) hkey
    refine ⟨hv.append hlog (hanswers.keyed hv.keyed)
      (fun k' hk => ⟨hchange.elsewhere k' hk, if_neg fun hk' => hk (hk'.symm.trans hkey)⟩)
      (fun _ => hdue) fun f' hf' => ?_, trivial, ⟨⟨_, hchange.here⟩, fun _ => hwrites⟩⟩
    obtain rfl := Option.some.inj (hchange.here.symm.trans hf')
    exact ⟨f, h.begun, h.bare, Or.inr ⟨hwrites, hstatus⟩⟩

/-- The part of a pass that writes the fragment comes to its end. -/
theorem safe_recordMerge (time : Instant) {f : Fragment φ} (outcome : MergeOutcome)
    (hv : Kept F k s₀ w) (h : Read k s₀ f w) :
    (surroundings F k s₀).Safe
      (Surroundings.OnSuccess fun _ w => f.metadata.isBeingDeleted = false → Ended F k f w)
      (F.recordMerge time f outcome : Pass φ κ Report).run w := by
  unfold Family.recordMerge
  refine Surroundings.Safe.bindE (safe_reconcileFinalizer hv h) hv fun settled w hv h => ?_
  split
  next hwrite =>
    obtain ⟨hlive, hchanged⟩ : f.metadata.isBeingDeleted = false ∧ F.isChanged f = true := by
      simpa using hwrite
    exact .bindE (safe_updateStatus hv h hlive hchanged
      (FragmentStatus.fingerprint?_eq_some (F.fingerprint_ne_empty f) _)) hv
      fun _ _ _ h => .pureE fun _ => h
  next hwrite =>
    refine .pureE fun hlive => ⟨⟨_, h.stored hlive⟩, fun hchanged => absurd ?_ hwrite⟩
    rw [hlive, hchanged]
    rfl

/-- A pass begins by reading its fragment. -/
theorem safe_getFragment (hv : Kept F k s₀ ⟨s₀, []⟩) :
    (surroundings F k s₀).Safe
      (Surroundings.OnSuccess fun found w =>
        found = s₀.objects.get? k ∧ ∀ f, found = some f → Read k s₀ f w)
      (Pass.onFragments (κ := κ) (.get k.nameSpace k.name)).run ⟨s₀, []⟩ := by
  rintro w rfl - a w' ⟨hanswers, hlog⟩
  cases a with
  | error e => exact ⟨hv.quiet hlog hanswers.of_error not_false, trivial, trivial⟩
  | ok found =>
    obtain ⟨rfl, hsame⟩ := hanswers.of_get
    refine ⟨hv.quiet hlog hsame not_false, trivial, rfl, fun f hf => ⟨hf, hsame ▸ hf, ?_⟩⟩
    rw [hlog]
    exact List.forall_mem_singleton.mpr not_false

/-- **A pass that is done has come to its end** on a live fragment. -/
theorem safe_reconcile [DecidableEq κ] (time : Instant) (hv : Kept F k s₀ ⟨s₀, []⟩) :
    (surroundings F k s₀).Safe (fun result w => IsDone result → ∀ f,
        s₀.objects.get? k = some f → f.metadata.isBeingDeleted = false → Ended F k f w)
      (F.reconcile time k.nameSpace k.name).run ⟨s₀, []⟩ := by
  refine Surroundings.Safe.weaken (P := Surroundings.OnSuccess fun report w =>
      report.disposition = .done → ∀ f, s₀.objects.get? k = some f →
        f.metadata.isBeingDeleted = false → Ended F k f w) ?_ hv fun result w _ h hdone => ?_
  · refine F.safe_reconcile_of_parts (M := fun f _ => Read k s₀ f) time hv
      (safe_getFragment hv) (fun w hfound _ f hf => ?_)
      (fun f key w _ _ hfound => safe_of_asks (F.spares_mergeAll _ _ _) (hfound.2 f rfl))
      (fun _ _ _ _ => nofun) fun f outcome w hv hread => ?_
    · rw [← hfound.1] at hf
      cases hf
    · refine (safe_recordMerge time outcome hv hread).weakenE hv fun _ w _ h _ f' hf' hlive => ?_
      obtain rfl := Option.some.inj (hread.begun.symm.trans hf')
      exact h hlive
  · cases result with
    | error e => exact hdone.elim
    | ok report => exact h hdone

/-- At the end of a pass the status says the digest of the content. -/
theorem Ended.recorded {f : Fragment φ} (h : Ended F k f w) (hv : Kept F k s₀ w)
    (hf : s₀.objects.get? k = some f) :
    ∃ f', w.fragments.objects.get? k = some f' ∧ f'.spec = f.spec ∧
      Family.recorded? f' = some (F.fingerprint f') := by
  obtain ⟨f', hf'⟩ := h.stored
  obtain ⟨f₀, hf₀, hbare, hstatus⟩ := hv.here f' hf'
  obtain rfl := Option.some.inj (hf.symm.trans hf₀)
  have hspec : f'.spec = f.spec := Object.spec_eq_of_bare_eq hbare
  refine ⟨f', hf', hspec, ?_⟩
  rw [Family.fingerprint, hspec]
  rcases hstatus with ⟨hnone, hstatus⟩ | ⟨-, hrecorded⟩
  · -- no status was written, so none was to be
    have hunchanged : ¬ F.isChanged f = true := fun hchanged => by
      rw [h.written hchanged] at hnone
      cases hnone
    have hrecorded : Family.recorded? f = some (F.fingerprint f) := by
      simpa [Family.isChanged] using hunchanged
    rw [Family.recorded?, hstatus]
    exact hrecorded
  · exact hrecorded

/-- **A status was written exactly when it was to be.** -/
theorem Ended.isStatusWrite_iff {f : Fragment φ} (h : Ended F k f w) (hv : Kept F k s₀ w)
    (hf : s₀.objects.get? k = some f) :
    ((∃ e ∈ w.log, e.1.IsStatusWrite) ↔ F.isChanged f = true) ∧
      (statusWrites k w.log = [f.spec] ↔ F.isChanged f = true) := by
  have hdue : (∃ e ∈ w.log, e.1.IsStatusWrite) → F.isChanged f = true := fun hasked => by
    obtain ⟨f₀, hf₀, -, hchanged⟩ := hv.due hasked
    obtain rfl := Option.some.inj (hf.symm.trans hf₀)
    exact hchanged
  have hasked : statusWrites k w.log = [f.spec] → ∃ e ∈ w.log, e.1.IsStatusWrite := fun hwritten => by
    by_contra hnone
    rw [statusWrites_eq_nil (fun e he hstatus => hnone ⟨e, he, hstatus⟩)] at hwritten
    cases hwritten
  exact ⟨⟨hdue, fun hchanged => hasked (h.written hchanged)⟩, fun hwritten => hdue (hasked hwritten),
    h.written⟩

/-- **One pass**, to its end. -/
theorem attend_reconcile [DecidableEq κ] (F : Family φ κ ι) (k : ObjectKey) (now : Instant)
    {s : Stores φ κ} (hs : s.fragments.store.Keyed) (fates : List (Option Refusal)) :
    let t := s.attend F now fates (F.reconcile now k.nameSpace k.name).run
    Kept F k s.fragments.store ⟨t.stores.fragments.store, t.log⟩ ∧
      (IsDone t.result → ∀ f, s.fragments.store.objects.get? k = some f →
        f.metadata.isBeingDeleted = false → Ended F k f ⟨t.stores.fragments.store, t.log⟩) :=
  attend_of_safe (safe_reconcile now (kept_start hs)) (kept_start hs) rfl fates

end Vigil

end ConfigMerge
