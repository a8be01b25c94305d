import ConfigMerge.Pass
import Mathlib.Logic.Function.Basic

/-!
# Proofs/Interleaving — programs that run among others

Several programs ask their questions in turn, and the world changes between two questions of one of
them.  A `Surroundings` says how questions are answered and what the others may do meanwhile;
`Surroundings.Safe` says of what is left of a program that it stays within its own bounds and ends
with a given outcome.  A safe program is built from safe parts (`Safe.bind`), and stays safe while
the others move (`Safe.mono`).

A `Pool` lets programs take turns in one world.  It is `Pool.Good` when each program is safe in its
own surroundings, and stays so as long as what one program may do is what the others rely on
(`Pool.Good.ask`).
-/

namespace ConfigMerge

/-- The surroundings of one program: how its questions are answered, what always holds, what others
may do between two questions, and what the program itself may ask and do with the answer. -/
structure Surroundings {Q : Type} (A : Q → Type) (W : Type) where
  serve : (q : Q) → A q → W → W → Prop
  valid : W → Prop
  rely : W → W → Prop
  guarantee : (q : Q) → A q → W → W → Prop
  rely_refl : ∀ w, rely w w
  rely_trans : ∀ {w w' w''}, rely w w' → rely w' w'' → rely w w''

namespace Surroundings

variable {Q W ρ υ : Type} {A : Q → Type} (S : Surroundings A W)

/-- Whatever the others do, every question of the program keeps what always holds and stays within
the guarantee, and the program ends with the outcome. -/
def Safe (P : ρ → W → Prop) : Program A ρ → W → Prop
  | .done r, w => P r w
  | .ask q next, w => ∀ w', S.rely w w' → S.valid w' → ∀ a w'', S.serve q a w' w'' →
      S.valid w'' ∧ S.guarantee q a w' w'' ∧ Safe P (next a) w''

variable {S} {P P' : ρ → W → Prop} {w w' : W}

/-- A question that is asked now is within bounds, and the rest of the program is safe. -/
theorem Safe.ask {q : Q} {next : A q → Program A ρ} (h : S.Safe P (.ask q next) w)
    (hw : S.valid w) {a : A q} {w' : W} (hs : S.serve q a w w') :
    S.valid w' ∧ S.guarantee q a w w' ∧ S.Safe P (next a) w' :=
  h w (S.rely_refl w) hw a w' hs

/-- **What others do leaves a program safe** while it has questions to ask. -/
theorem Safe.mono_ask {q : Q} {next : A q → Program A ρ} (h : S.Safe P (.ask q next) w)
    (hw : S.rely w w') : S.Safe P (.ask q next) w' :=
  fun w'' hw'' => h w'' (S.rely_trans hw hw'')

/-- …and one that is done, if it leaves the outcome. -/
theorem Safe.mono {p : Program A ρ} (h : S.Safe P p w) (hw : S.rely w w')
    (hdone : ∀ r, P r w → P r w') : S.Safe P p w' := by
  cases p with
  | done r => exact hdone r h
  | ask q next => exact h.mono_ask hw

theorem Safe.weaken {p : Program A ρ} (h : S.Safe P p w) (hw : S.valid w)
    (himp : ∀ r w, S.valid w → P r w → P' r w) : S.Safe P' p w := by
  induction p generalizing w with
  | done r => exact himp r w hw h
  | ask q next ih =>
    intro w' hrely hw' a w'' hs
    obtain ⟨hvalid, hguar, hrest⟩ := h w' hrely hw' a w'' hs
    exact ⟨hvalid, hguar, ih a hrest hvalid⟩

/-- What neither the others nor the program can change still holds at the end. -/
theorem Safe.frame {p : Program A ρ} {K : W → Prop} (h : S.Safe P p w) (hK : K w)
    (hrely : ∀ w w', S.rely w w' → S.valid w' → K w → K w')
    (hguar : ∀ q a w w', S.guarantee q a w w' → S.valid w' → K w → K w') :
    S.Safe (fun r w => P r w ∧ K w) p w := by
  induction p generalizing w with
  | done r => exact ⟨h, hK⟩
  | ask q next ih =>
    intro w' hr hw' a w'' hs
    obtain ⟨hvalid, hg, hrest⟩ := h w' hr hw' a w'' hs
    exact ⟨hvalid, hg, ih a hrest (hguar q a w' w'' hg hvalid (hrely w w' hr hw' hK))⟩

/-- **A program is safe when its parts are**, the second from wherever the first may end. -/
theorem Safe.bind {p : Program A ρ} {f : ρ → Program A υ} {P' : υ → W → Prop}
    (h : S.Safe P p w) (hw : S.valid w)
    (hf : ∀ r w, S.valid w → P r w → S.Safe P' (f r) w) :
    S.Safe P' (p >>= f) w := by
  induction p generalizing w with
  | done r => exact hf r w hw h
  | ask q next ih =>
    intro w' hr hw' a w'' hs
    obtain ⟨hvalid, hg, hrest⟩ := h w' hr hw' a w'' hs
    exact ⟨hvalid, hg, ih a hrest hvalid⟩

/-! ## Programs that can fail -/

/-- An outcome that is only about success. -/
def OnSuccess {ε : Type} (P : ρ → W → Prop) : Except ε ρ → W → Prop
  | .ok r, w => P r w
  | .error _, _ => True

variable {ε : Type}

theorem Safe.pureE {r : ρ} (h : P r w) :
    S.Safe (OnSuccess P) (pure r : ExceptT ε (Program A) ρ).run w := by
  change S.Safe (OnSuccess P) (.done (.ok r)) w
  exact h

/-- Weakening and framing of what is only about success. -/
theorem Safe.weakenE {p : Program A (Except ε ρ)} (h : S.Safe (OnSuccess P) p w) (hw : S.valid w)
    (himp : ∀ r w, S.valid w → P r w → P' r w) : S.Safe (OnSuccess P') p w :=
  h.weaken hw fun r w hw hr => by
    cases r with
    | error e => exact trivial
    | ok a => exact himp a w hw hr

theorem Safe.frameE {p : Program A (Except ε ρ)} {K : W → Prop} (h : S.Safe (OnSuccess P) p w)
    (hw : S.valid w) (hK : K w) (hrely : ∀ w w', S.rely w w' → S.valid w' → K w → K w')
    (hguar : ∀ q a w w', S.guarantee q a w w' → S.valid w' → K w → K w') :
    S.Safe (OnSuccess fun r w => P r w ∧ K w) p w :=
  (h.frame hK hrely hguar).weaken hw fun r w _ hr => by
    cases r with
    | error e => exact trivial
    | ok a => exact hr

/-- A sequence of parts that can fail: the first error ends it. -/
theorem Safe.bindE {p : ExceptT ε (Program A) ρ} {f : ρ → ExceptT ε (Program A) υ}
    {P' : υ → W → Prop} (h : S.Safe (OnSuccess P) p.run w) (hw : S.valid w)
    (hf : ∀ r w, S.valid w → P r w → S.Safe (OnSuccess P') (f r).run w) :
    S.Safe (OnSuccess P') (p >>= f).run w := by
  refine Safe.bind h hw fun r w hw hr => ?_
  cases r with
  | error e => exact trivial
  | ok a => exact hf a w hw hr

end Surroundings

/-! ## Programs that take turns

The proof that a pool stays good is one for all pools: the program that asks is safe by what its own
program says of the question, and every other one by what it relies on. -/

/-- Programs that take turns: the world that they share, and what is left of each. -/
structure Pool {Q : Type} (A : Q → Type) (W π ρ : Type) where
  world : W
  programs : π → Program A ρ

/-- What is to be said of the programs of a pool.  Each one sees the world in its own way, has its
own surroundings there, and ends with an outcome that the others leave; and something always holds
of the world. -/
structure Company {Q : Type} (A : Q → Type) (W V π ρ : Type) where
  view : π → W → V
  surroundings : π → Surroundings A V
  outcome : π → ρ → V → Prop
  valid : W → Prop
  valid_view : ∀ {w} i, valid w → (surroundings i).valid (view i w)
  outcome_lasts : ∀ {i r v v'}, (surroundings i).rely v v' → (surroundings i).valid v →
    (surroundings i).valid v' → outcome i r v → outcome i r v'

/-- The world changes in a way that the programs `J` rely on. -/
structure Company.Leaves {Q W V π ρ : Type} {A : Q → Type} (C : Company A W V π ρ) (J : π → Prop)
    (w w' : W) : Prop where
  valid : C.valid w'
  rely : ∀ j, J j → (C.surroundings j).rely (C.view j w) (C.view j w')

namespace Pool

variable {Q W V π ρ : Type} {A : Q → Type} {C : Company A W V π ρ} {p : Pool A W π ρ} {w' : W}

/-- What every turn keeps: what always holds of the world, and what is left of each program is
safe. -/
structure Good (C : Company A W V π ρ) (p : Pool A W π ρ) : Prop where
  valid : C.valid p.world
  safe : ∀ i, (C.surroundings i).Safe (C.outcome i) (p.programs i) (C.view i p.world)

/-- What is left of a program stays safe through what it relies on. -/
theorem Good.safe_of_leaves (h : p.Good C) {J : π → Prop} (hw : C.Leaves J p.world w') {j : π}
    (hj : J j) :
    (C.surroundings j).Safe (C.outcome j) (p.programs j) (C.view j w') := by
  have hrely := hw.rely j hj
  exact (h.safe j).mono hrely fun _ hr =>
    C.outcome_lasts hrely (C.valid_view j h.valid) (C.valid_view j hw.valid) hr

/-- **Others may do what all programs rely on.** -/
theorem Good.leaves (h : p.Good C) (hw : C.Leaves (fun _ => True) p.world w') :
    Good C { p with world := w' } :=
  ⟨hw.valid, fun _ => h.safe_of_leaves hw trivial⟩

/-- The question that a program is to ask, with the answer that it gets: it is within bounds, and
the rest of the program is as good as the whole. -/
theorem Good.question (h : p.Good C) {i : π} {q : Q} {next : A q → Program A ρ}
    (hp : p.programs i = .ask q next) {a : A q}
    (hserve : (C.surroundings i).serve q a (C.view i p.world) (C.view i w')) :
    (C.surroundings i).valid (C.view i w') ∧
      (C.surroundings i).guarantee q a (C.view i p.world) (C.view i w') ∧
      (C.surroundings i).Safe (C.outcome i) (next a) (C.view i w') := by
  have hsafe := h.safe i
  rw [hp] at hsafe
  exact hsafe.ask (C.valid_view i h.valid) hserve

variable [DecidableEq π]

/-- One program goes on, as what it is now. -/
def goOn (p : Pool A W π ρ) (i : π) (rest : Program A ρ) (w : W) : Pool A W π ρ where
  world := w
  programs := Function.update p.programs i rest

theorem Good.goOn (h : p.Good C) {i : π} {rest : Program A ρ}
    (hrest : (C.surroundings i).Safe (C.outcome i) rest (C.view i w'))
    (hw : C.Leaves (· ≠ i) p.world w') : (p.goOn i rest w').Good C :=
  ⟨hw.valid, (Function.forall_update_iff p.programs fun j program =>
    (C.surroundings j).Safe (C.outcome j) program (C.view j w')).mpr
      ⟨hrest, fun _ hj => h.safe_of_leaves hw hj⟩⟩

/-- Program `i` asks its next question; one that is done asks none. -/
def ask (p : Pool A W π ρ) (answer : (q : Q) → W → A q × W) (i : π) : Pool A W π ρ :=
  match p.programs i with
  | .done _ => p
  | .ask q next =>
    let (a, world) := answer q p.world
    p.goOn i (next a) world

variable {answer : (q : Q) → W → A q × W} {i : π}

theorem ask_of_done (answer : (q : Q) → W → A q × W) {r : ρ} (h : p.programs i = .done r) :
    p.ask answer i = p := by
  simp only [ask, h]

theorem ask_of_ask (answer : (q : Q) → W → A q × W) {q : Q} {next : A q → Program A ρ}
    (h : p.programs i = .ask q next) :
    p.ask answer i = p.goOn i (next (answer q p.world).1) (answer q p.world).2 := by
  simp only [ask, h]

/-- **A turn keeps a pool good**: the question is answered as the program expects, and what the
program may do with it is what the others rely on. -/
theorem Good.ask (h : p.Good C)
    (hserve : ∀ q next, p.programs i = .ask q next → (C.surroundings i).serve q
      (answer q p.world).1 (C.view i p.world) (C.view i (answer q p.world).2))
    (hleaves : ∀ q next, p.programs i = .ask q next →
      (C.surroundings i).valid (C.view i (answer q p.world).2) →
      (C.surroundings i).guarantee q (answer q p.world).1 (C.view i p.world)
        (C.view i (answer q p.world).2) →
      C.Leaves (· ≠ i) p.world (answer q p.world).2) : (p.ask answer i).Good C := by
  cases hp : p.programs i with
  | done r =>
    rw [ask_of_done answer hp]
    exact h
  | ask q next =>
    obtain ⟨hvalid, hguarantee, hrest⟩ := h.question hp (hserve q next hp)
    rw [ask_of_ask answer hp]
    exact h.goOn hrest (hleaves q next hp hvalid hguarantee)

/-- What every program hands on to the rest of it, whatever the answer, all programs keep. -/
theorem forall_programs_ask {K : Program A ρ → Prop} (h : ∀ j, K (p.programs j))
    (hrest : ∀ {q next}, K (.ask q next) → ∀ a, K (next a)) (j : π) :
    K ((p.ask answer i).programs j) := by
  cases hp : p.programs i with
  | done r =>
    rw [ask_of_done answer hp]
    exact h j
  | ask q next =>
    have hnext : K (next (answer q p.world).1) := hrest (hp ▸ h i) _
    rw [ask_of_ask answer hp]
    exact (Function.forall_update_iff p.programs fun _ => K).mpr ⟨hnext, fun j _ => h j⟩ j

end Pool

end ConfigMerge
