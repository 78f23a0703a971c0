import Mathlib.Data.List.Basic

/-!
# Runs of a step function

A system is a step function `σ → α → σ`; a run is a list of actions, folded over
a state.  An action that is not possible in a state leaves it as it is, so every
list of actions is a run and an arbitrary list is an arbitrary interleaving.

What a result assumes of the single steps is a predicate on the state before a
step and the action; `Along` says that it holds at every step of a run.  The
inductions over runs are done here, once: `Along.simulation` and `invariant`.
-/

namespace Crabstash.Run

variable {σ α : Type*} {step : σ → α → σ}

/-- The state after a run. -/
def run (step : σ → α → σ) (s : σ) (actions : List α) : σ := actions.foldl step s

/-- Every step of the run from `s` meets `P`. -/
def Along (step : σ → α → σ) (P : σ → α → Prop) : σ → List α → Prop
  | _, [] => True
  | s, action :: rest => P s action ∧ Along step P (step s action) rest

instance Along.instDecidable (step : σ → α → σ) (P : σ → α → Prop) [∀ s a, Decidable (P s a)] :
    ∀ (s : σ) (actions : List α), Decidable (Along step P s actions)
  | _, [] => inferInstanceAs (Decidable True)
  | s, action :: rest =>
      have := Along.instDecidable step P (step s action) rest
      inferInstanceAs (Decidable (_ ∧ _))

@[simp] theorem run_nil (s : σ) : run step s [] = s := rfl

@[simp] theorem run_cons (s : σ) (action : α) (rest : List α) :
    run step s (action :: rest) = run step (step s action) rest := rfl

theorem run_append (s : σ) (actions actions' : List α) :
    run step s (actions ++ actions') = run step (run step s actions) actions' := by
  simp [run]

/-- What every step of two systems preserves between them holds after a run of both. -/
theorem Along.simulation {τ : Type*} {step' : τ → α → τ} {P : σ → α → Prop} {R : σ → τ → Prop}
    (hstep : ∀ s t action, R s t → P s action → R (step s action) (step' t action)) {s : σ} {t : τ}
    {actions : List α} (hinit : R s t) (hrun : Along step P s actions) :
    R (run step s actions) (run step' t actions) := by
  induction actions generalizing s t with
  | nil => exact hinit
  | cons action rest ih => exact ih (hstep s t action hinit hrun.1) hrun.2

/-- A system whose steps are each some steps of another one, or none, runs as the other does. -/
theorem exists_run {τ β : Type*} {step' : τ → β → τ} {R : σ → τ → Prop}
    (hstep : ∀ s t action, R s t → ∃ actions', R (step s action) (run step' t actions')) {s : σ}
    {t : τ} (hinit : R s t) (actions : List α) :
    ∃ actions', R (run step s actions) (run step' t actions') := by
  induction actions generalizing s t with
  | nil => exact ⟨[], hinit⟩
  | cons action rest ih =>
      obtain ⟨first, hfirst⟩ := hstep s t action hinit
      obtain ⟨others, hothers⟩ := ih hfirst
      refine ⟨first ++ others, ?_⟩
      rw [run_append]
      exact hothers

/-- What every step of a run preserves holds after the run. -/
theorem Along.invariant {P : σ → α → Prop} (Inv : σ → Prop)
    (hstep : ∀ s action, Inv s → P s action → Inv (step s action)) {s : σ} {actions : List α}
    (hinit : Inv s) (hrun : Along step P s actions) : Inv (run step s actions) := by
  induction actions generalizing s with
  | nil => exact hinit
  | cons action rest ih => exact ih (hstep s action hinit hrun.1) hrun.2

theorem Along.and {P Q : σ → α → Prop} {s : σ} {actions : List α} (hP : Along step P s actions)
    (hQ : Along step Q s actions) : Along step (fun s action => P s action ∧ Q s action) s actions := by
  induction actions generalizing s with
  | nil => trivial
  | cons action rest ih => exact ⟨⟨hP.1, hQ.1⟩, ih hP.2 hQ.2⟩

/-- A weaker condition. -/
theorem Along.imp {P Q : σ → α → Prop} (hPQ : ∀ s action, P s action → Q s action) {s : σ}
    {actions : List α} (hP : Along step P s actions) : Along step Q s actions := by
  induction actions generalizing s with
  | nil => trivial
  | cons action rest ih => exact ⟨hPQ s action hP.1, ih hP.2⟩

/-- A run is made of a first part and of what follows from there. -/
theorem along_append {P : σ → α → Prop} {s : σ} {actions actions' : List α} :
    Along step P s (actions ++ actions') ↔
      Along step P s actions ∧ Along step P (run step s actions) actions' := by
  induction actions generalizing s with
  | nil => exact (iff_of_eq (true_and _)).symm
  | cons action rest ih => exact (and_congr_right fun _ => ih).trans and_assoc.symm

/-- A condition on the actions alone. -/
theorem along_of_forall {P : α → Prop} {actions : List α} (h : ∀ action ∈ actions, P action)
    (s : σ) : Along step (fun _ action => P action) s actions := by
  induction actions generalizing s with
  | nil => trivial
  | cons action rest ih =>
      rw [List.forall_mem_cons] at h
      exact ⟨h.1, ih h.2 _⟩

theorem invariant (Inv : σ → Prop) (hstep : ∀ s action, Inv s → Inv (step s action)) {s : σ}
    (hinit : Inv s) (actions : List α) : Inv (run step s actions) := by
  induction actions generalizing s with
  | nil => exact hinit
  | cons action rest ih => exact ih (hstep s action hinit)

end Crabstash.Run
