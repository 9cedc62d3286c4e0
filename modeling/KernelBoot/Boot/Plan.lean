import KernelBoot.Boot.Config
import KernelBoot.Boot.Error

/-!
Where the segments go. Load addresses come from the header unless a platform variable overrides
them. Memory is claimed in windows of whole pages around the exact range of a segment, and a
ramdisk that has outgrown its place moves above everything claimed so far.
-/
namespace KernelBoot

def addressOverride (firmware : Firmware σ) (name : String) : Effect σ (Option Nat) := do
  match ← firmware.readVariable name with
  | none => return none
  | some value =>
    if value.length = 8 then
      let address := Bytes.ofLe value
      Effect.log (LogTarget.plan.line .debug
        s!"{name} overrides the load address with {Address.text address}")
      return some address
    else
      Effect.log (LogTarget.plan.line .warn
        s!"Ignoring {name}: expected 8 bytes, got {value.length}")
      return none

structure MemoryPlan where
  kernel : Nat
  ramdisk : Nat
  second : Nat
  tags : Nat
  claimed : List AddressRange
deriving DecidableEq

namespace MemoryPlan

def resolve (firmware : Firmware σ) (h : BootHeader) (arm64 : Bool) : Effect σ MemoryPlan := do
  let kernel ← addressOverride firmware
    (if arm64 then Variable.kernel64Address else Variable.kernelAddress)
  let ramdisk ← addressOverride firmware Variable.ramdiskAddress
  let tags ← addressOverride firmware Variable.tagsAddress
  return {
    kernel := kernel.getD h.kernel.address
    ramdisk := ramdisk.getD h.ramdisk.address
    second := h.second.address
    tags := tags.getD h.tagsAddress
    claimed := [] }

def window? (address len : Nat) : Option AddressRange := do
  let stop ← checkedAdd address len
  let stop ← PageSize.platform.alignUp stop
  return .between (PageSize.platform.alignDown address) stop

/-- Claims `len` bytes at exactly `address`. Nothing is claimed for an empty segment. -/
def claim (firmware : Firmware σ) (plan : MemoryPlan) (what : String) (address len : Nat) :
    Effect σ (Except PlanError AddressRange × MemoryPlan) := do
  if len = 0 then return (.ok (.sized address 0), plan)
  else
    match window? address len with
    | none => return (.error (.addressOverflow what address len), plan)
    | some window =>
      Effect.log (LogTarget.plan.line .debug s!"Claiming {window.text} for the {what}")
      match ← (firmware.allocateAt window).run with
      | .error e => return (.error (.allocationFailure what address len e), plan)
      | .ok granted =>
        return (.ok (.sized address len), { plan with claimed := plan.claimed ++ [granted] })

/-- The end of every claimed window and of the tag area, claimed or not. -/
def relocationFloor (plan : MemoryPlan) (tagArea : Nat) : Nat :=
  (plan.claimed.map (·.stop)).foldl max (AddressRange.sized plan.tags tagArea).stop

/-- A ramdisk of `len` bytes stays where it is loaded if it fits there. Otherwise memory above
    everything claimed becomes its place; that memory stays claimed even if it lies too low. -/
def placeRamdisk (firmware : Firmware σ) (plan : MemoryPlan) (current : AddressRange)
    (len tagArea : Nat) : Effect σ (Except PlanError AddressRange × MemoryPlan) := do
  if len ≤ current.len then return (.ok (.sized current.start len), plan)
  else
    let minimum := plan.relocationFloor tagArea
    match checkedAdd len relocationSlack with
    | none => return (.error (.addressOverflow "ramdisk" minimum len), plan)
    | some request =>
      match ← (firmware.allocateAbove minimum request).run with
      | .error e => return (.error (.allocationFailure "ramdisk" minimum request e), plan)
      | .ok granted =>
        let plan := { plan with claimed := plan.claimed ++ [granted] }
        match PageSize.platform.alignUp granted.start with
        | none => return (.error (.addressOverflow "ramdisk" granted.start len), plan)
        | some address =>
          if address < minimum then
            return (.error (.invalidRamdiskAddress address minimum), plan)
          else
            Effect.log (LogTarget.plan.line .debug
              s!"Relocating the ramdisk from {Address.text current.start} to {Address.text address}")
            return (.ok (.sized address len), { plan with ramdisk := address })

end MemoryPlan
end KernelBoot
