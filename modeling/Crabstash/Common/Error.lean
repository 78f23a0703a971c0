import Mathlib.Data.Nat.Notation

/-!
# Errors and fallible actions

`Error` of `error.rs`, and the shape of every method that ends in `Result`: an
action on a state that either returns or throws.  A throwing action keeps what
it did to the state before it threw, as a Rust method does when it leaves
through `?`.

Which input/output calls fail is not decided by the program.  An action that
performs some takes a set of `Faults`, and `attempt` is the point at which one
of them strikes.
-/

namespace Crabstash

/-- `Error`; the operating system's error inside `Io` is left out. -/
inductive Error where
  | io
  | corruption (msg : String)
  | keyNotFound
  | transactionConflict
  | transactionAborted
  | invalidArgument (msg : String)
  | lockTimeout
  | deadlock
  | lockConflict
  | writeSkew
  | phantomRead
  | serializableConflict
  deriving DecidableEq, Repr

/-- A method on a state `σ` that returns an `α` or throws. -/
abbrev Action (σ α : Type) := ExceptT Error (StateM σ) α

namespace Action

variable {σ α : Type}

/-- Run an action: what it returned or threw, and the state it left. -/
def exec (act : Action σ α) (s : σ) : Except Error α × σ := act.run.run s

/-- The calls that are going to fail. -/
abbrev Faults (ι : Type) := ι → Bool

/-- Every call succeeds. -/
def noFaults {ι : Type} : Faults ι := fun _ => false

/-- An input/output call followed by `?`. -/
def attempt {ι : Type} (faults : Faults ι) (call : ι) : Action σ Unit :=
  if faults call then throw .io else pure ()

/-- One action after another, when the first returns. -/
theorem exec_bind_ok {β : Type} {act : Action σ α} {s s' : σ} {a : α}
    (hact : exec act s = (.ok a, s')) (next : α → Action σ β) :
    exec (act >>= next) s = exec (next a) s' := by
  show StateT.bind act (fun r => ExceptT.bindCont next r) s = _
  have hact : (act s : Except Error α × σ) = (.ok a, s') := hact
  unfold StateT.bind
  rw [hact]
  rfl

/-- One action after another, when the first throws. -/
theorem exec_bind_error {β : Type} {act : Action σ α} {s s' : σ} {e : Error}
    (hact : exec act s = (.error e, s')) (next : α → Action σ β) :
    exec (act >>= next) s = (.error e, s') := by
  show StateT.bind act (fun r => ExceptT.bindCont next r) s = _
  have hact : (act s : Except Error α × σ) = (.error e, s') := hact
  unfold StateT.bind
  rw [hact]
  rfl

/-- What has returned `Ok` did so in both of its parts. -/
theorem of_exec_bind_ok {β : Type} {act : Action σ α} {next : α → Action σ β} {s s'' : σ} {b : β}
    (hok : exec (act >>= next) s = (.ok b, s'')) :
    ∃ a s', exec act s = (.ok a, s') ∧ exec (next a) s' = (.ok b, s'') := by
  cases hact : exec act s with
  | mk result s' =>
      cases result with
      | ok a =>
          rw [exec_bind_ok hact] at hok
          exact ⟨a, s', rfl, hok⟩
      | error e =>
          rw [exec_bind_error hact] at hok
          cases hok

/-- An action whose result is only renamed. -/
theorem exec_bind_pure {β : Type} (act : Action σ α) (f : α → β) (s : σ) :
    exec (act >>= fun a => pure (f a)) s = ((exec act s).1.map f, (exec act s).2) := by
  cases hact : exec act s with
  | mk result s' =>
      cases result with
      | ok a => exact exec_bind_ok hact _
      | error e => exact exec_bind_error hact _

variable {β γ : Type} (s : σ) (next : β → Action σ γ)

theorem exec_get_bind (next : σ → Action σ γ) :
    exec ((MonadState.get : Action σ σ) >>= next) s = exec (next s) s := rfl

theorem exec_modify_bind (f : σ → σ) (next : PUnit → Action σ γ) :
    exec ((modify f : Action σ PUnit) >>= next) s = exec (next ()) (f s) := rfl

theorem exec_modifyGet_bind (f : σ → β × σ) :
    exec ((modifyGet f : Action σ β) >>= next) s = exec (next (f s).1) (f s).2 := rfl

theorem exec_ofExcept_bind (b : β) :
    exec ((MonadExcept.ofExcept (.ok b : Except Error β) : Action σ β) >>= next) s =
      exec (next b) s := rfl

theorem exec_ofExcept_error_bind (e : Error) :
    exec ((MonadExcept.ofExcept (.error e : Except Error β) : Action σ β) >>= next) s =
      (.error e, s) := rfl

theorem exec_attempt_bind {ι : Type} (call : ι) (next : Unit → Action σ γ) :
    exec (attempt noFaults call >>= next) s = exec (next ()) s := rfl

theorem exec_attempt_bind_eq {ι : Type} (faults : Faults ι) (call : ι)
    (next : Unit → Action σ γ) :
    exec (attempt faults call >>= next) s =
      if faults call then (.error .io, s) else exec (next ()) s := by
  unfold attempt
  split <;> rfl

/-! ## Actions that only input/output can make fail -/

/-- Whatever the action throws is an input/output error. -/
def OnlyIo (act : Action σ α) : Prop := ∀ s e, (exec act s).1 = .error e → e = .io

theorem OnlyIo.bind {act : Action σ α} {next : α → Action σ β} (hact : OnlyIo act)
    (hnext : ∀ a, OnlyIo (next a)) : OnlyIo (act >>= next) := by
  intro s e herror
  cases hexec : exec act s with
  | mk result s' =>
      cases result with
      | ok a =>
          rw [exec_bind_ok hexec] at herror
          exact hnext a s' e herror
      | error e' =>
          rw [exec_bind_error hexec] at herror
          apply hact s e
          rw [hexec]
          exact congrArg Except.error (Except.error.inj herror)

theorem onlyIo_modifyGet (f : σ → β × σ) : OnlyIo (modifyGet f : Action σ β) := by
  intro s e herror
  contradiction

theorem onlyIo_modify (f : σ → σ) : OnlyIo (modify f : Action σ PUnit) := onlyIo_modifyGet _

theorem onlyIo_get : OnlyIo (MonadState.get : Action σ σ) := by
  intro s e herror
  contradiction

theorem onlyIo_pure (a : α) : OnlyIo (pure a : Action σ α) := by
  intro s e herror
  contradiction

theorem onlyIo_attempt {ι : Type} (faults : Faults ι) (call : ι) :
    OnlyIo (attempt faults call : Action σ Unit) := by
  intro s e herror
  unfold attempt at herror
  split at herror
  · exact (Except.error.inj herror).symm
  · contradiction

end Action
end Crabstash
