import ConfigMerge.Proofs.Reconcile.Safe

/-!
# Proofs/Reconcile/Concurrent — what passes that interleave with edits leave behind

When all passes of a race are done, the composite of the key is right exactly when the listing that
the last writer of it had made still calls for the same composite
(`Race.right_iff_basisCurrent`).  A pass that listed its siblings before an edit can be that writer,
for its listing is not tied to the composite's version (`Race.stale_listing_wins`).
-/

namespace ConfigMerge

variable {φ κ ι π : Type}

namespace Race

variable [DecidableEq π] {F : Family φ κ ι} {ns key : String} {name : π → String}
  {r : Race φ κ π}

/-! ## Any run -/

/-- What is said of the passes of a race. -/
def company (F : Family φ κ ι) (ns key : String) (name : π → String) :
    Company (PassCall.Answer (φ := φ) (κ := κ)) (Scene φ κ π) (Scene φ κ π) π
      (Except Error Report) where
  view _ s := s
  surroundings := Scene.surroundings F ns key name
  outcome := Scene.Ended F ns key
  valid := Scene.Valid F ns key name
  valid_view _ hv := hv
  outcome_lasts hrely hv hv' hended hdone := by
    obtain ⟨b, hb⟩ := hended hdone
    exact ⟨b, hb.grows hrely.1 hv hv'⟩

/-- **Every move keeps a race good**, a call and an edit. -/
theorem good_step (h : r.Good (company F ns key name)) (m : Move φ π) :
    (r.step F ns key m).Good (company F ns key name) := by
  cases m with
  | call i now =>
    change (r.ask (fun q s => s.call F ns key i now q) i).Good _
    -- the others rely on no more than a call grants
    exact h.ask (fun _ _ _ => ⟨now, rfl⟩) fun _ _ _ hv hg => ⟨hv, fun j hj => ⟨hg.1, hg.2 j hj⟩⟩
  | edit n spec =>
    obtain ⟨hv, hg, hl⟩ := h.valid.edit n spec
    exact h.leaves ⟨hv, fun i _ => ⟨hg, congrFun hl i⟩⟩

/-- …and so does any run. -/
theorem good_run (h : r.Good (company F ns key name)) (moves : List (Move φ π)) :
    (r.run F ns key moves).Good (company F ns key name) :=
  List.foldlRecOn moves (Race.step F ns key) h fun _ hr m _ => good_step hr m

/-! ## The start of a race -/

/-- What is asked of the stores at the start: everything is stored under its own key and has a
version that was given out, the composite of the key is not about to go, and the fragments of the
passes are live and have the key. -/
structure Ready (F : Family φ κ ι) (ns key : String) (name : π → String) (s : Stores φ κ) :
    Prop where
  undisturbed : s.Undisturbed
  fragments : s.fragments.store.Keyed
  fragmentsNumbered : s.fragments.store.Numbered
  composites : s.composites.store.Keyed
  compositesNumbered : s.composites.store.Numbered
  stays : ∀ c, s.composites.store.objects.get? ⟨ns, key⟩ = some c → ¬ c.IsGone
  present : ∀ i, ∃ f, s.fragments.store.objects.get? ⟨ns, name i⟩ = some f ∧ F.IsLive key f
  key : key ≠ ""

theorem good_start [DecidableEq κ] {s : Stores φ κ} (h : Ready F ns key name s)
    (time : π → Instant) :
    (Race.start F ns s name time).Good (company F ns key name) := by
  have hv : (Race.start F ns s name time).scene.Valid F ns key name := {
    undisturbed := h.undisturbed
    fragments := h.fragments
    fragmentsNumbered := h.fragmentsNumbered
    composites := h.composites
    compositesNumbered := h.compositesNumbered
    stays := h.stays
    present := h.present
    basis := fun l hl => by cases hl
    begun := fun i b hb => by cases hb
    lastEdit := Or.inl rfl }
  exact ⟨hv, fun i => Scene.safe_reconcile (time i) h.key hv⟩

/-- Some pass began after the last edit. -/
theorem exists_begun_eq_edits [Nonempty π] (h : r.Good (company F ns key name))
    (hdone : r.AllDone) (hseen : r.EditsSeen name) :
    ∃ i, Scene.Settled F ns key i r.scene.edits r.scene := by
  have hvalid : r.scene.Valid F ns key name := h.valid
  have hended : ∀ i, ∃ b, Scene.Settled F ns key i b r.scene := by
    intro i
    have hsafe : (Scene.surroundings F ns key name i).Safe (Scene.Ended F ns key i) (r.passes i)
      r.scene := h.safe i
    have hend := hdone i
    cases hp : r.passes i with
    | ask q next =>
      rw [hp] at hend
      exact hend.elim
    | done result =>
      rw [hp] at hsafe hend
      exact hsafe hend
  have hwitness : ∃ i b, r.scene.begun i = some b ∧ r.scene.edits ≤ b := by
    obtain ⟨i₀⟩ := ‹Nonempty π›
    rcases Nat.eq_zero_or_pos r.scene.edits with hnone | hsome
    · obtain ⟨b, hb⟩ := hended i₀
      exact ⟨i₀, b, hb.1, by omega⟩
    · obtain ⟨n, hn⟩ := hvalid.lastEdit.resolve_left (by omega)
      obtain ⟨i, b, -, hb, hle⟩ := hseen n (by omega)
      exact ⟨i, b, hb, by omega⟩
  obtain ⟨i, b, hb, hle⟩ := hwitness
  obtain ⟨b', hsettled⟩ := hended i
  have hbb : b' = b := Option.some.inj (hsettled.1.symm.trans hb)
  have hb_le := hvalid.begun i b hb
  obtain rfl : b' = r.scene.edits := by omega
  exact ⟨i, hsettled⟩

/-! ## The end of a race -/

/-- The composite of the key is what the fragments call for as they are stored now. -/
def Right (F : Family φ κ ι) (ns key : String) (r : Race φ κ π) : Prop :=
  F.Matches key ns (F.live r.scene.fragments ns key) (r.scene.composite ns key)

/-- The listing that the last writer of the composite had made, if there was one, calls for the same
composite as the fragments that are stored now. -/
def BasisCurrent [DecidableEq κ] (F : Family φ κ ι) (ns key : String) (r : Race φ κ π) : Prop :=
  ∀ l, r.scene.basis = some l →
    Family.agree (F.expected key ns l) (F.expected key ns (F.live r.scene.fragments ns key))

/-- **Passes that interleave with edits leave the composite right exactly when the last writer's
listing is still current.** -/
theorem right_iff_basisCurrent [DecidableEq κ] [Nonempty π] {s : Stores φ κ}
    (hs : Ready F ns key name s) (time : π → Instant) (moves : List (Move φ π))
    (hdone : ((Race.start F ns s name time).run F ns key moves).AllDone)
    (hseen : ((Race.start F ns s name time).run F ns key moves).EditsSeen name) :
    ((Race.start F ns s name time).run F ns key moves).Right F ns key ↔
      ((Race.start F ns s name time).run F ns key moves).BasisCurrent F ns key := by
  have hgood := good_run (good_start hs time) moves
  set r := (Race.start F ns s name time).run F ns key moves
  have hlive : F.live r.scene.fragments ns key ≠ [] := by
    obtain ⟨i⟩ := ‹Nonempty π›
    obtain ⟨f, hf, hlive⟩ := hgood.valid.present i
    exact List.ne_nil_of_mem (F.mem_live.mpr ⟨⟨_, rfl, hf⟩, hlive⟩)
  cases hbasis : r.scene.basis with
  | none =>
    -- nobody wrote, so a pass that began after the last edit has found the composite right
    obtain ⟨i, hsettled⟩ := exists_begun_eq_edits hgood hdone hseen
    have hnone : r.BasisCurrent F ns key := fun l hl => by rw [hbasis] at hl; cases hl
    exact iff_of_true (hsettled.2 rfl hbasis) hnone
  | some l =>
    obtain ⟨hne, hmatch⟩ := hgood.valid.basis l hbasis
    have hiff := F.matches_iff_agree hne hlive hmatch
    constructor
    · intro hright l' hl'
      obtain rfl : l = l' := Option.some.inj (hbasis.symm.trans hl')
      exact hiff.mp hright
    · intro hcurrent
      exact hiff.mpr (hcurrent l hbasis)

/-! ## Two passes and an edit -/

/-- A fragment that no move edits was never edited. -/
theorem lastEdit_run {n : String} {moves : List (Move φ π)}
    (h : ∀ n' spec, Move.edit n' spec ∈ moves → n ≠ n') :
    (r.run F ns key moves).scene.lastEdit n = r.scene.lastEdit n := by
  induction moves generalizing r with
  | nil => rfl
  | cons m rest ih =>
    have hstep : (r.step F ns key m).scene.lastEdit n = r.scene.lastEdit n := by
      cases m with
      | call i now =>
        cases hp : r.passes i <;> simp only [Race.step, Pool.ask, Pool.goOn, hp, Scene.call]
      | edit n' spec =>
        simp only [Race.step, Scene.edit]
        split
        · rfl
        · exact Function.update_of_ne (h n' spec List.mem_cons_self) _ _
    exact (ih fun n' spec hmem => h n' spec (List.mem_cons_of_mem m hmem)).trans hstep

/-- Two fragments of one key, without a composite. -/
def pair : Stores RouteSpec RouterSpec where
  fragments.store :=
    let one := Fragment.ofPathPrefix "r1" "svc-a" "/one"
    let two := Fragment.ofPathPrefix "r2" "svc-a" "/two"
    (((({} : Store RouteSpec FragmentStatus).seed ⟨0, 0⟩ one).2).seed ⟨0, 0⟩ two).2
  composites.store := {}

/-- The fragments of the two passes. -/
def pairName (second : Bool) : String := if second then "r2" else "r1"

/-- A pass over the first fragment is interrupted after some calls by an edit of the second one and
the whole pass over it. -/
def interruption (n : Nat) : List (Move RouteSpec Bool) :=
  List.replicate n (.call false ⟨2, 0⟩)
  ++ .edit "r2" (Fragment.ofPathPrefix "r2" "svc-a" "/new").spec ::
    List.replicate 7 (.call true ⟨2, 0⟩)
  ++ List.replicate (7 - n) (.call false ⟨2, 0⟩)

/-- The passes over both fragments, with that interruption. -/
def interrupted (n : Nat) : Race RouteSpec RouterSpec Bool :=
  (start .routes "default" pair pairName fun _ => ⟨1, 0⟩).run .routes "default" "svc-a"
    (interruption n)

theorem editsSeen_interrupted (n : Nat) (h : ∃ b, (interrupted n).scene.begun true = some b ∧
    (interrupted n).scene.lastEdit "r2" ≤ b) : (interrupted n).EditsSeen pairName := by
  intro name hpos
  obtain ⟨b, hb, hle⟩ := h
  by_cases hname : name = "r2"
  · subst hname
    exact ⟨true, b, rfl, hb, hle⟩
  · have hnever : (interrupted n).scene.lastEdit name = 0 := by
      refine lastEdit_run fun n' spec hmem => ?_
      obtain rfl : n' = "r2" := by simp_all [interruption]
      exact hname
    omega

theorem ready_pair : Ready .routes "default" "svc-a" pairName pair where
  undisturbed := ⟨fun _ => rfl, fun _ => rfl⟩
  fragments := by decide +kernel
  fragmentsNumbered := (Store.numbered_empty.seed _ _).seed _ _
  composites := by decide +kernel
  compositesNumbered := Store.numbered_empty
  stays c hc := by cases hc
  present i := by
    cases i with
    | false => exact ⟨_, rfl, by decide +kernel⟩
    | true => exact ⟨_, rfl, by decide +kernel⟩
  key := by decide

/-- A pass that has written before the edit is overtaken by the one that follows. -/
theorem right_of_interruption_after_write :
    Ready .routes "default" "svc-a" pairName pair ∧ (interrupted 4).AllDone ∧
      (interrupted 4).EditsSeen pairName ∧ (interrupted 4).Right .routes "default" "svc-a" := by
  have hdone : ∀ i, HasEnded ((interrupted 4).passes i) := by decide +kernel
  have hseen : (interrupted 4).EditsSeen pairName :=
    editsSeen_interrupted 4 ⟨1, by decide +kernel, by decide +kernel⟩
  have hcurrent : (interrupted 4).BasisCurrent .routes "default" "svc-a" := by
    have h : (interrupted 4).scene.basis.all fun l =>
        Family.agree (Family.routes.expected "svc-a" "default" l)
          (Family.routes.expected "svc-a" "default"
            (Family.routes.live (interrupted 4).scene.fragments "default" "svc-a")) := by
      decide +kernel
    intro l hl
    rw [hl] at h
    exact h
  exact ⟨ready_pair, hdone, hseen,
    (right_iff_basisCurrent ready_pair _ (interruption 4) hdone hseen).mpr hcurrent⟩

/-- **A stale listing can win**: the pass that had listed before the edit writes last, all passes
are done, and the composite holds the old item. -/
theorem stale_listing_wins :
    Function.Injective pairName ∧ Ready .routes "default" "svc-a" pairName pair ∧
      (interrupted 2).AllDone ∧ (interrupted 2).EditsSeen pairName ∧
      ¬ (interrupted 2).Right .routes "default" "svc-a" := by
  have hinj : ∀ i j, pairName i = pairName j → i = j := by decide
  have hdone : ∀ i, HasEnded ((interrupted 2).passes i) := by decide +kernel
  refine ⟨hinj, ready_pair, hdone, ?_, ?_⟩
  · exact editsSeen_interrupted 2 ⟨1, by decide +kernel, by decide +kernel⟩
  · unfold Right
    decide +kernel

end Race

end ConfigMerge
