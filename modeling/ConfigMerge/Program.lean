/-!
# Program — computations that ask an outside world

A `Program` either is done or asks a question and goes on with the answer.  Nothing says who
answers: `Program.run` lets a state answer every question at once, while a scheduler may answer the
questions of several programs in turn, or leave one unanswered for ever.
-/

namespace ConfigMerge

/-- A computation that asks questions `Q`, gets an `A q` for each, and ends with an `ρ`. -/
inductive Program {Q : Type} (A : Q → Type) (ρ : Type) where
  | done (result : ρ)
  | ask (question : Q) (next : A question → Program A ρ)

namespace Program

variable {Q : Type} {A : Q → Type} {ρ υ S : Type}

/-- Goes on with the result of a program. -/
def andThen (p : Program A ρ) (f : ρ → Program A υ) : Program A υ :=
  match p with
  | .done r => f r
  | .ask q next => .ask q (fun a => (next a).andThen f)

instance : Monad (Program A) where
  pure := .done
  bind := andThen

/-- Asks one question. -/
def question (q : Q) : Program A (A q) := .ask q .done

/-- Lets a state answer the questions, in order. -/
def run (answer : (q : Q) → S → A q × S) : Program A ρ → S → ρ × S
  | .done r, s => (r, s)
  | .ask q next, s => (next (answer q s).1).run answer (answer q s).2

/-- Answers every question by a program that asks other questions. -/
def translate {Q' : Type} {A' : Q' → Type} (f : (q : Q) → Program A' (A q)) :
    Program A ρ → Program A' ρ
  | .done r => .done r
  | .ask q next => (f q).andThen (fun a => (next a).translate f)

@[simp] theorem pure_andThen (r : ρ) (f : ρ → Program A υ) : (pure r >>= f) = f r := rfl

theorem andThen_done (p : Program A ρ) : p.andThen .done = p := by
  induction p with
  | done r => rfl
  | ask q next ih => exact congrArg (ask q) (funext ih)

theorem andThen_assoc {χ : Type} (p : Program A ρ) (f : ρ → Program A υ) (g : υ → Program A χ) :
    (p.andThen f).andThen g = p.andThen (fun r => (f r).andThen g) := by
  induction p with
  | done r => rfl
  | ask q next ih => exact congrArg (ask q) (funext ih)

instance : LawfulMonad (Program A) :=
  LawfulMonad.mk' (Program A) andThen_done (fun _ _ => rfl) andThen_assoc

/-- **A sequence runs its parts in order.** -/
theorem run_bind (answer : (q : Q) → S → A q × S) (p : Program A ρ) (f : ρ → Program A υ) (s : S) :
    (p >>= f).run answer s = (f (p.run answer s).1).run answer (p.run answer s).2 := by
  induction p generalizing s with
  | done r => rfl
  | ask q next ih => exact ih _ _

end Program

end ConfigMerge
