import ConfigMerge.Proofs.Store.Change
import ConfigMerge.Reconcile.Controller

/-!
# Proofs/Store/Collections — stores that refuse nothing answer by what they hold

`Collections` is what a pair of stores holds, without counters and planned refusals.  A pass on
undisturbed stores runs exactly as it does on their collections (`Stores.run_of_undisturbed`), so
what a pass does is computed on collections, call by call.
-/

namespace ConfigMerge

variable {σ τ φ κ ι ρ υ : Type}

/-! ## Planned refusals -/

/-- A call for which a refusal is planned is refused, and changes nothing that is held. -/
theorem FaultyStore.perform_of_planned {s : FaultyStore σ τ} {c : Call (Object σ τ)} {r : Refusal}
    {rest : List Refusal} (now : Instant) (h : s.refusals c.verb = r :: rest) :
    s.perform now c = (.error r, (s.enter c.verb).2) := by
  have hr : (s.enter c.verb).1 = some r := by simp [enter, h]
  simp only [perform, hr]

/-- …and any other call is answered by what is held. -/
theorem FaultyStore.perform_of_unplanned {s : FaultyStore σ τ} {c : Call (Object σ τ)}
    (now : Instant) (h : s.refusals c.verb = []) :
    s.perform now c = (arrange s.reversed c (s.store.perform now c).1,
      { (s.enter c.verb).2 with store := (s.store.perform now c).2 }) := by
  have hr : (s.enter c.verb).1 = none := by simp [enter, h]
  simp only [perform, hr]
  rfl

/-- A call that is refused as planned leaves the store, and any other is answered by it. -/
theorem FaultyStore.store_perform (s : FaultyStore σ τ) (now : Instant) (c : Call (Object σ τ)) :
    (s.perform now c).2.store = s.store ∨
      (s.perform now c).2.store = (s.store.perform now c).2 := by
  cases hr : s.refusals c.verb with
  | cons r rest =>
    rw [perform_of_planned now hr]
    exact Or.inl rfl
  | nil =>
    rw [perform_of_unplanned now hr]
    exact Or.inr rfl

/-- A refused call leaves what is stored as it was. -/
theorem FaultyStore.perform_of_error {s : FaultyStore σ τ} {now : Instant} {c : Call (Object σ τ)}
    {e : Refusal} (h : (s.perform now c).1 = .error e) :
    (s.perform now c).2.store = s.store ∧ (s.perform now c).2.reversed = s.reversed := by
  cases hr : s.refusals c.verb with
  | cons r rest =>
    rw [perform_of_planned now hr]
    exact ⟨rfl, rfl⟩
  | nil =>
    rw [perform_of_unplanned now hr] at h ⊢
    refine ⟨?_, rfl⟩
    cases ha : (s.store.perform now c).1 with
    | error e' => exact Store.perform_of_error ha
    | ok r =>
      rw [ha] at h
      cases c <;> cases h

/-- A write that nothing is planned against is made where the store allows it. -/
theorem FaultyStore.perform_update {s : FaultyStore σ τ} {o stored : Object σ τ} (now : Instant)
    (hr : s.refusals .update = []) (hc : s.store.current o = .ok stored) :
    (s.perform now (.update o)).1 = .ok ((o.inPlaceOf stored).atVersion s.store.nextVersion) ∧
      (s.perform now (.update o)).2.store = s.store.replaced o stored := by
  rw [perform_of_unplanned now hr, Store.perform_update now hc]
  exact ⟨rfl, rfl⟩

/-- No refusal is planned. -/
def FaultyStore.Undisturbed (s : FaultyStore σ τ) : Prop := ∀ v, s.refusals v = []

theorem FaultyStore.perform_of_undisturbed {s : FaultyStore σ τ} (h : s.Undisturbed)
    (now : Instant) (c : Call (Object σ τ)) :
    s.perform now c = (arrange s.reversed c (s.store.perform now c).1,
      { (s.enter c.verb).2 with store := (s.store.perform now c).2 }) :=
  perform_of_unplanned now (h c.verb)

theorem FaultyStore.Undisturbed.enter {s : FaultyStore σ τ} (h : s.Undisturbed) (v : Call.Verb) :
    (s.enter v).2.Undisturbed := by
  intro v'
  by_cases hv : v' = v
  · simp [FaultyStore.enter, hv, h v]
  · simp [FaultyStore.enter, hv, h v']

theorem FaultyStore.Undisturbed.perform {s : FaultyStore σ τ} (h : s.Undisturbed)
    (now : Instant) (c : Call (Object σ τ)) : (s.perform now c).2.Undisturbed := by
  rw [perform_of_undisturbed h]
  exact h.enter c.verb

/-- Neither store of a family has planned a refusal. -/
structure Stores.Undisturbed (s : Stores φ κ) : Prop where
  fragments : s.fragments.Undisturbed
  composites : s.composites.Undisturbed

/-! ## What the stores hold -/

/-- What the stores of a family hold, and which of them list by label in reverse. -/
structure Collections (φ κ : Type) where
  fragments : Store φ FragmentStatus
  composites : Store κ Empty
  fragmentsReversed : Bool
  compositesReversed : Bool

/-- What a pair of stores holds. -/
def Stores.collections (s : Stores φ κ) : Collections φ κ :=
  ⟨s.fragments.store, s.composites.store, s.fragments.reversed, s.composites.reversed⟩

namespace Collections

/-- The answer to a call, and what is held after it. -/
def answer (F : Family φ κ ι) (now : Instant) :
    (q : PassCall φ κ) → Collections φ κ → q.Answer × Collections φ κ
  | .fragments c, s =>
    ((FaultyStore.arrange s.fragmentsReversed c (s.fragments.perform now c).1).mapError
        (Refusal.toError F.fragments.kind c),
      { s with fragments := (s.fragments.perform now c).2 })
  | .composites c, s =>
    ((FaultyStore.arrange s.compositesReversed c (s.composites.perform now c).1).mapError
        (Refusal.toError F.composites.kind c),
      { s with composites := (s.composites.perform now c).2 })

/-- Runs a pass to its end. -/
def run (F : Family φ κ ι) (now : Instant) (s : Collections φ κ) (p : Pass φ κ ρ) :
    Except Error ρ × Collections φ κ :=
  Program.run (answer F now) p.run s

end Collections

namespace Stores

theorem answer_of_undisturbed (F : Family φ κ ι) (now : Instant) {s : Stores φ κ}
    (h : s.Undisturbed) (q : PassCall φ κ) :
    (answer F now q s).1 = (s.collections.answer F now q).1 ∧
      (answer F now q s).2.collections = (s.collections.answer F now q).2 ∧
      (answer F now q s).2.Undisturbed := by
  cases q with
  | fragments c =>
    have hp := FaultyStore.perform_of_undisturbed h.fragments now c
    refine ⟨?_, ?_, h.fragments.perform now c, h.composites⟩ <;>
      simp only [answer, hp] <;> rfl
  | composites c =>
    have hp := FaultyStore.perform_of_undisturbed h.composites now c
    refine ⟨?_, ?_, h.fragments, h.composites.perform now c⟩ <;>
      simp only [answer, hp] <;> rfl

theorem program_run_of_undisturbed (F : Family φ κ ι) (now : Instant) {s : Stores φ κ}
    (h : s.Undisturbed) (p : Program (PassCall.Answer (φ := φ) (κ := κ)) ρ) :
    (p.run (answer F now) s).1 = (p.run (Collections.answer F now) s.collections).1 ∧
      (p.run (answer F now) s).2.collections =
        (p.run (Collections.answer F now) s.collections).2 ∧
      (p.run (answer F now) s).2.Undisturbed := by
  induction p generalizing s with
  | done r => exact ⟨rfl, rfl, h⟩
  | ask q next ih =>
    obtain ⟨hanswer, hheld, hcalm⟩ := answer_of_undisturbed F now h q
    have hrest := ih (answer F now q s).1 hcalm
    rw [hheld, hanswer] at hrest
    simp only [Program.run, hanswer]
    exact hrest

/-- **Undisturbed stores answer by what they hold**, and stay undisturbed. -/
theorem run_of_undisturbed (F : Family φ κ ι) (now : Instant) {s : Stores φ κ}
    (h : s.Undisturbed) (p : Pass φ κ ρ) :
    (s.run F now p).1 = (s.collections.run F now p).1 ∧
      (s.run F now p).2.collections = (s.collections.run F now p).2 ∧
      (s.run F now p).2.Undisturbed :=
  program_run_of_undisturbed F now h p.run

end Stores

/-! ## Running the parts of a pass -/

/-- A sequence goes on where its first part ended. -/
theorem Pass.run_bind_of_ok {W : Type} {answer : (q : PassCall φ κ) → W → q.Answer × W}
    {p : Pass φ κ ρ} {f : ρ → Pass φ κ υ} {a : ρ} {w w' : W}
    (h : Program.run answer p.run w = (.ok a, w')) :
    Program.run answer (p >>= f).run w = Program.run answer (f a).run w' :=
  calc Program.run answer (p >>= f).run w
      = (ExceptT.bindCont f ((p.run.run answer w).1)).run answer (p.run.run answer w).2 :=
        Program.run_bind _ _ _ _
    _ = Program.run answer (f a).run w' := by rw [h]; rfl

namespace Collections

variable (F : Family φ κ ι) (now : Instant) {s s' : Collections φ κ}

@[simp] theorem run_pure (a : ρ) : s.run F now (pure a : Pass φ κ ρ) = (.ok a, s) := rfl

theorem run_liftM_ok (a : ρ) :
    s.run F now (liftM (Except.ok a : Except Error ρ) : Pass φ κ ρ) = (.ok a, s) := rfl

@[simp] theorem run_onFragments (c : Call (Fragment φ)) :
    s.run F now (Pass.onFragments (κ := κ) c) = answer F now (.fragments c) s := rfl

@[simp] theorem run_onComposites (c : Call (Composite κ)) :
    s.run F now (Pass.onComposites (φ := φ) c) = answer F now (.composites c) s := rfl

/-- A call to the fragments that succeeds. -/
theorem run_fragments {c : Call (Fragment φ)} {a : c.Result} {t : Store φ FragmentStatus}
    (h : s.fragments.perform now c = (.ok a, t))
    (hc : FaultyStore.arrange s.fragmentsReversed c (.ok a) = .ok a) :
    s.run F now (Pass.onFragments (κ := κ) c) = (.ok a, { s with fragments := t }) := by
  rw [run_onFragments, answer, h, hc]
  rfl

/-- A call to the composites that succeeds. -/
theorem run_composites {c : Call (Composite κ)} {a : c.Result} {t : Store κ Empty}
    (h : s.composites.perform now c = (.ok a, t))
    (hc : FaultyStore.arrange s.compositesReversed c (.ok a) = .ok a) :
    s.run F now (Pass.onComposites (φ := φ) c) = (.ok a, { s with composites := t }) := by
  rw [run_onComposites, answer, h, hc]
  rfl

variable {F now}

theorem run_bind_of_ok {p : Pass φ κ ρ} {f : ρ → Pass φ κ υ} {a : ρ}
    (h : s.run F now p = (.ok a, s')) : s.run F now (p >>= f) = s'.run F now (f a) :=
  Pass.run_bind_of_ok h

/-- The outcome of a part, as the result of a pass. -/
theorem run_attempt {p : Pass φ κ ρ} {r : Except Error ρ} (h : s.run F now p = (r, s')) :
    s.run F now p.attempt = (.ok r, s') := by
  have hp : Program.run (answer F now) p.run s = (r, s') := h
  calc s.run F now p.attempt
      = ((pure (.ok (p.run.run (answer F now) s).1) :
            Program PassCall.Answer (Except Error (Except Error ρ)))).run (answer F now)
          (p.run.run (answer F now) s).2 := Program.run_bind _ _ _ _
    _ = (.ok r, s') := by rw [hp]; rfl

end Collections

end ConfigMerge
