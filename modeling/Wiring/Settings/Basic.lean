import Wiring.Document.Record
import Wiring.Document.Text

set_option autoImplicit false

namespace Wiring

structure Settings where
  autoBinding : Bool := true
  parallel : Bool := false
  workerThreads : Option Nat := none
  timeoutMs : Option Nat := none
  deriving DecidableEq, Repr

structure Layer where
  autoBinding : Option Bool := none
  parallel : Option Bool := none
  workerThreads : Option Nat := none
  timeoutMs : Option Nat := none
  deriving DecidableEq, Repr

def Settings.override (s : Settings) (l : Layer) : Settings where
  autoBinding := l.autoBinding.getD s.autoBinding
  parallel := l.parallel.getD s.parallel
  workerThreads := l.workerThreads <|> s.workerThreads
  timeoutMs := l.timeoutMs <|> s.timeoutMs

namespace Settings

def workerThreadsField : Field (Option Nat) :=
  ⟨"worker_threads", Reader.optional (Reader.natural "usize")⟩

def timeoutField : Field (Option Nat) := ⟨"timeout_ms", Reader.optional (Reader.natural "u64")⟩

/-- Other fields are passed over. -/
def read : Reader Settings := fun d => do
  let autoBinding : Field Bool := ⟨"auto_binding", Reader.bool⟩
  let parallel : Field Bool := ⟨"parallel", Reader.bool⟩
  let fs ← Fields.read "ResolverConfig" false
    [autoBinding.check, parallel.check, workerThreadsField.check, timeoutField.check] d
  .ok {
    autoBinding := ← fs.required autoBinding
    parallel := ← fs.required parallel
    workerThreads := ← fs.nullable workerThreadsField
    timeoutMs := ← fs.nullable timeoutField }

end Settings

/-- Other fields are refused, so that a misspelt one is noticed. -/
def Layer.read : Reader Layer := fun d => do
  let autoBinding : Field (Option Bool) := ⟨"auto_binding", Reader.optional Reader.bool⟩
  let parallel : Field (Option Bool) := ⟨"parallel", Reader.optional Reader.bool⟩
  let fs ← Fields.read "PartialResolverConfig" true
    [autoBinding.check, parallel.check, Settings.workerThreadsField.check,
      Settings.timeoutField.check] d
  .ok {
    autoBinding := ← fs.nullable autoBinding
    parallel := ← fs.nullable parallel
    workerThreads := ← fs.nullable Settings.workerThreadsField
    timeoutMs := ← fs.nullable Settings.timeoutField }

end Wiring
