import EnvCompose.Manifest.File

/-!
# The active environment

At most one environment is active at a time. What is done with an environment active ends with none
active, whether it succeeds or not.
-/
namespace EnvCompose.Activation

variable {m : Type → Type} [Monad m] [Machine m]

/-- Makes an environment the active one, if there is none. -/
def activate (p : Path) : Build m Unit := do
  match ← (Machine.active : m (Option Path)) with
  | some current => throw (.alreadyActive current)
  | none =>
    (Machine.setActive (some p) : m Unit)
    (Machine.debug s!"activated environment {p}" : m Unit)

/-- Ends what `activate` began. -/
def release (p : Path) : m Unit := do
  Machine.setActive none
  Machine.debug s!"deactivated environment {p}"

/-- Does something with an environment active. -/
def during {α : Type} (p : Path) (body : Build m α) : Build m α := ExceptT.mk do
  match ← (activate p : Build m Unit).run with
  | .error e => return .error e
  | .ok () =>
    let result ← body.run
    release p
    return result

end EnvCompose.Activation
