import KernelBoot.Uefi.Status

/-!
When the calls of a service fail: always, or from some call on. Calls are numbered from zero.
-/
namespace KernelBoot

/-- The outcome of a step that always fails, if it has a status to fail with. -/
def UefiStatus.outcome : Option UefiStatus → Except UefiStatus Unit
  | none => .ok ()
  | some status => .error status

/-- The first call that fails, and the status of it and of all after it. -/
structure CallScript where
  failure : Option (Nat × UefiStatus)

namespace CallScript

def reliable : CallScript := ⟨none⟩

def outcome (s : CallScript) (call : Nat) : Except UefiStatus Unit :=
  match s.failure with
  | none => .ok ()
  | some (first, status) => if call < first then .ok () else .error status

end CallScript
end KernelBoot
