import ConfigMerge.Proofs.Reconcile.Attended
import ConfigMerge.Proofs.Reconcile.Convergence

/-!
# Proofs/Reconcile/Failure — what an error in answer to a call leads to

What a pass asks falls into three phases: it reads its fragment, it merges, and it writes the
fragment (`Family.pairwise_of_concludes`).  An error in answer to a call is the end of the pass, so
one that is met while merging comes before every write of the fragment.  Classification, the end of
the pass and the schedule together come to one table of actions, `Config.actionOnRefusal`, by the
class of the error and the phase of the call (`Config.handle_of_failure`).
-/

namespace ConfigMerge

variable {φ κ ι ρ υ : Type}

/-! ## Transcripts -/

namespace Program

/-- The program may ask the questions of a log, get the answers in it, and end with a result. -/
inductive Concludes {Q : Type} {A : Q → Type} :
    Program A ρ → List ((q : Q) × A q) → ρ → Prop where
  | done (r : ρ) : Concludes (.done r) [] r
  | ask {q : Q} {next : A q → Program A ρ} (a : A q) {log : List ((q : Q) × A q)} {r : ρ} :
    Concludes (next a) log r → Concludes (.ask q next) (⟨q, a⟩ :: log) r

section Concludes

variable {Q : Type} {A : Q → Type} {p : Program A ρ} {log : List ((q : Q) × A q)} {r : ρ}

theorem Concludes.eq_nil {r' : ρ} (h : Concludes (A := A) (.done r') log r) : log = [] := by
  cases h
  rfl

/-- **What a sequence says is what its parts say**, one after the other. -/
theorem Concludes.of_bind {f : ρ → Program A υ} {r : υ} (h : (p >>= f).Concludes log r) :
    ∃ first second mid, log = first ++ second ∧ p.Concludes first mid ∧
      (f mid).Concludes second r := by
  induction p generalizing log with
  | done mid => exact ⟨[], log, mid, rfl, .done mid, h⟩
  | ask q next ih =>
    cases h with
    | ask a h =>
      obtain ⟨first, second, mid, rfl, hfirst, hsecond⟩ := ih a h
      exact ⟨⟨q, a⟩ :: first, second, mid, rfl, .ask a hfirst, hsecond⟩

/-- A program says only what it may ask. -/
theorem Asks.of_mem {K : Q → Prop} (hp : p.Asks K) (h : p.Concludes log r) : ∀ x ∈ log, K x.1 := by
  induction h with
  | done r => exact fun _ hx => absurd hx List.not_mem_nil
  | ask a h ih => exact List.forall_mem_cons.mpr ⟨hp.1, ih (hp.2 a)⟩

end Concludes

/-- **Nothing is said after an error**, and the error makes the result. -/
theorem StopsBy.of_concludes {B : PassCall φ κ → Error → ρ → Prop}
    {p : Program (PassCall.Answer (φ := φ) (κ := κ)) ρ} (hp : p.StopsBy B)
    {before after : List (PassCall.Exchange φ κ)} {q : PassCall φ κ} {e : Error} {r : ρ}
    (h : p.Concludes (before ++ ⟨q, q.failure e⟩ :: after) r) : after = [] ∧ B q e r := by
  induction before generalizing p with
  | nil =>
    cases h with
    | ask a h =>
      obtain ⟨r', hr', hB⟩ := hp.1 e
      rw [hr'] at h
      cases h
      exact ⟨rfl, hB⟩
  | cons x before ih =>
    cases h with
    | ask a h => exact ih (hp.2 a) h

end Program

/-- **Every run to the end is said by a log**, whatever its calls meet. -/
theorem Stores.concludes_attend (F : Family φ κ ι) (now : Instant) (fates : List (Option Refusal))
    (p : Program (PassCall.Answer (φ := φ) (κ := κ)) ρ) (s : Stores φ κ) :
    p.Concludes (s.attend F now fates p).log (s.attend F now fates p).result := by
  induction p generalizing fates s with
  | done r => exact .done r
  | ask q next ih => exact .ask _ (ih _ _ _)

/-! ## Phases -/

/-- In calls of the merging part with others after them, none that writes a fragment comes before
one that merges. -/
theorem PassCall.pairwise_spares {merging writing : List (PassCall.Exchange φ κ)}
    (hmerging : ∀ x ∈ merging, x.1.isMerging) (hwriting : ∀ x ∈ writing, ¬ x.1.isMerging) :
    (merging ++ writing).Pairwise fun earlier later => later.1.isMerging → earlier.1.Spares := by
  have hspares : ∀ x ∈ merging, x.1.Spares := fun x hx =>
    spares_of_isMerging (hmerging x hx)
  refine List.pairwise_append.mpr ⟨?_, ?_, fun x hx _ _ _ => hspares x hx⟩
  · exact List.pairwise_of_forall_mem_list fun x hx _ _ _ => hspares x hx
  · exact List.pairwise_of_forall_mem_list fun _ _ y hy h => absurd h (hwriting y hy)

namespace Family

variable [DecidableEq κ] (F : Family φ κ ι) {now : Instant} {ns name : String}

/-- **A pass reads its fragment, then merges, then writes the fragment**, as far as it comes: no
call that writes the fragment comes before one of the merging part. -/
theorem pairwise_of_concludes {log : List (PassCall.Exchange φ κ)} {result : Except Error Report}
    (h : (F.reconcile now ns name).run.Concludes log result) :
    log.Pairwise fun earlier later => later.1.isMerging → earlier.1.Spares := by
  unfold reconcile at h
  obtain ⟨_, rest, found, rfl, hread, hrest⟩ :=
    Program.Concludes.of_bind (f := ExceptT.bindCont _) h
  cases hread with
  | ask a hread =>
  obtain rfl := hread.eq_nil
  suffices hphases : rest.Pairwise fun earlier later => later.1.isMerging → earlier.1.Spares from
    List.pairwise_cons.mpr ⟨fun _ _ _ => rfl, hphases⟩
  have hended (hnil : rest = []) :
      rest.Pairwise fun earlier later => later.1.isMerging → earlier.1.Spares := hnil ▸ .nil
  cases found with
  | error e => exact hended (Program.Concludes.eq_nil hrest)
  | ok found =>
    cases found with
    | none => exact hended (Program.Concludes.eq_nil hrest)
    | some f =>
      dsimp only [ExceptT.bindCont] at hrest
      cases hkey : F.aggregationKey f with
      | error e =>
        rw [hkey] at hrest
        exact hended (Program.Concludes.eq_nil hrest)
      | ok key =>
        rw [hkey] at hrest
        change ((F.mergeAll ns key f.metadata.uid).attempt >>= _).run.Concludes rest result at hrest
        rw [Pass.run_attempt_bind] at hrest
        obtain ⟨merging, writing, r, rfl, hmerge, hwrite⟩ := hrest.of_bind
        have hmerging := (F.strictOn_mergeAll ns key f.metadata.uid).asks.of_mem hmerge
        refine PassCall.pairwise_spares hmerging ?_
        cases r with
        | ok outcome => exact (F.strictOn_recordMerge now f outcome).asks.of_mem hwrite
        | error e =>
          obtain rfl : writing = [] := by
            dsimp only at hwrite
            split at hwrite <;> exact Program.Concludes.eq_nil hwrite
          simp

/-- **Before a call of the merging part no call has written a fragment.** -/
theorem spares_of_concludes {before after : List (PassCall.Exchange φ κ)}
    {x : PassCall.Exchange φ κ} {result : Except Error Report}
    (h : (F.reconcile now ns name).run.Concludes (before ++ x :: after) result)
    (hx : x.1.isMerging) : ∀ y ∈ before, y.1.Spares := fun y hy =>
  (List.pairwise_append.mp (F.pairwise_of_concludes h)).2.2 y hy x List.mem_cons_self hx

end Family

/-! ## What follows an error -/

/-- What follows an error in answer to a call of a pass, by the class of the error and by whether it
was met while merging. -/
def Config.actionOnRefusal (c : Config) (merging : Bool) : Error → Action
  | .badRequest _ | .invalid .. => .awaitChange
  | .conflict .. | .transient .. | .timeout _ => .requeueAfter c.requeueSeconds
  | .notFound .. | .alreadyExists .. =>
    .requeueAfter (if merging then c.requeueSeconds else c.errorRequeueSeconds)
  | .client _ | .serialization | .config _ => .requeueAfter c.errorRequeueSeconds

/-- …and so by the status code of a refusal: one that the object is to blame for waits for a change,
one of a write that came too late or of a server in trouble is followed soon. -/
theorem Config.actionOnRefusal_classify (c : Config) (merging : Bool) (kind name : String)
    (s : ApiStatus) :
    c.actionOnRefusal merging (.classify kind name (.api s)) =
      if s.code = 400 ∨ s.code = 422 then .awaitChange
      else if s.code = 409 ∧ s.reason ≠ "AlreadyExists" ∨ s.code = 429 ∨ 500 ≤ s.code then
        .requeueAfter c.requeueSeconds
      else if s.code = 404 ∨ s.code = 409 then
        .requeueAfter (if merging then c.requeueSeconds else c.errorRequeueSeconds)
      else .requeueAfter c.errorRequeueSeconds := by
  simp only [Error.classify]
  split
  next h404 => simp [h404, actionOnRefusal]
  next h404 =>
  split
  next h409 =>
    split
    next hexists => simp [h409, hexists, actionOnRefusal]
    next hexists => simp [h409, hexists, actionOnRefusal]
  next h409 =>
  simp only [h404, h409, false_and, false_or, or_self, if_false]
  split
  next => rfl
  next => split <;> rfl

/-- The action that an event leads to, with an error or without. -/
def EventResult.next : EventResult → Action
  | .action a => a
  | .error _ a => a

theorem Config.actionOnRefusal_eq (c : Config) (merging : Bool) (e : Error) :
    c.actionOnRefusal merging e =
      if merging && e.clearsOnRetry then .requeueAfter c.requeueSeconds else c.actionOnError e := by
  cases merging <;> cases e <;> rfl

namespace Family.EndsBy

variable {q : PassCall φ κ} {e : Error} {result : Except Error Report}

theorem next_eventResult (h : EndsBy q e result) (c : Config) :
    (c.eventResult result).next = c.actionOnRefusal q.isMerging e := by
  rw [c.actionOnRefusal_eq]
  unfold EndsBy at h
  split at h
  next hretry =>
    obtain ⟨intent, rfl⟩ := h
    rw [if_pos hretry]
    rfl
  next hretry =>
    subst h
    rw [if_neg hretry]
    rfl

theorem not_isDone (h : EndsBy q e result) : ¬ IsDone result := by
  unfold EndsBy at h
  split at h
  · obtain ⟨intent, rfl⟩ := h
    exact Disposition.noConfusion
  · subst h
    exact not_false

end Family.EndsBy

/-- **An error in answer to any call of a leader's pass stops it and is scheduled by its class**:
nothing is asked after it, the pass is not done, what follows is as the table of actions says, and if
the call was one of the merging part then no call before it has written a fragment. -/
theorem Config.handle_of_failure [DecidableEq κ] {S : Type} (c : Config) (F : Family φ κ ι)
    (now : Instant) (f : Fragment φ)
    (run : String → String → S → Option (Except Error Report) × Float × S) (s : S) (m : Metrics)
    {result : Except Error Report} {before after : List (PassCall.Exchange φ κ)}
    {q : PassCall φ κ} {e : Error} (hrun : (run f.place.1 f.place.2 s).1 = some result)
    (hpass : (F.reconcile now f.place.1 f.place.2).run.Concludes
      (before ++ ⟨q, q.failure e⟩ :: after) result) :
    after = [] ∧ ¬ IsDone result ∧
      (c.handle F.controller true f run s m).1.next = c.actionOnRefusal q.isMerging e ∧
      (q.isMerging → ∀ x ∈ before, x.1.Spares) := by
  obtain ⟨hafter, hends⟩ := (F.endsBy_reconcile now f.place.1 f.place.2).of_concludes hpass
  have hevent : (c.handle F.controller true f run s m).1 = c.eventResult result := by
    simp only [handle, if_true, hrun, Option.getD_some]
  refine ⟨hafter, hends.not_isDone, ?_, F.spares_of_concludes hpass⟩
  rw [hevent, hends.next_eventResult]

/-- A pass that is told that the fragments of its key are not found, when it lists them, is repeated
soon. -/
theorem Config.handle_of_failure_unlisted :
    let c : Config := {}
    let f : Fragment RouteSpec := Fragment.ofPathPrefix "moved" "svc-a" "/moved"
    let run (ns name : String) (s : Stores RouteSpec RouterSpec) :=
      let pass := s.attend .routes ⟨1, 0⟩ [none, some .notFound]
        (Family.routes.reconcile ⟨1, 0⟩ ns name).run
      (some pass.result, (0.5 : Float), pass.stores)
    ∃ result, (run "default" "moved" Stores.disordered).1 = some result ∧ ¬ IsDone result ∧
      (c.handle Family.routes.controller true f run Stores.disordered {}).1.next =
        .requeueAfter 15 := by
  intro c f run
  let p := (Family.routes.reconcile ⟨1, 0⟩ "default" "moved").run
  let pass := Stores.disordered.attend .routes ⟨1, 0⟩ [none, some .notFound] p
  let found := Stores.disordered.fragments.store.objects.get? ⟨"default", "moved"⟩
  let q : PassCall RouteSpec RouterSpec :=
    .fragments (.listByLabel "default" Family.routes.keyLabel "svc-a")
  have hlog : pass.log = [⟨.fragments (.get "default" "moved"), .ok found⟩] ++
      ⟨q, q.failure (.notFound "ConsulServiceRoute" "svc-a")⟩ :: [] := by rfl
  have hpass : p.Concludes ([⟨.fragments (.get "default" "moved"), .ok found⟩] ++
      ⟨q, q.failure (.notFound "ConsulServiceRoute" "svc-a")⟩ :: []) pass.result :=
    hlog ▸ Stores.concludes_attend .routes ⟨1, 0⟩ [none, some .notFound] p Stores.disordered
  obtain ⟨-, hdone, hnext, -⟩ :=
    handle_of_failure c .routes ⟨1, 0⟩ f run Stores.disordered {} rfl hpass
  exact ⟨pass.result, rfl, hdone, hnext⟩

end ConfigMerge
