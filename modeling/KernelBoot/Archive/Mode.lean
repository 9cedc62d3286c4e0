import KernelBoot.Text.Number

/-!
The mode word of an archive member: nine permission bits, three special bits, four bits for the
kind of file, and sixteen bits without a meaning that are kept as they are.
-/
namespace KernelBoot

inductive FileType where
  | none
  | fifo
  | charDevice
  | directory
  | blockDevice
  | regular
  | symlink
  | socket
  | unknown (code : UInt8)
deriving DecidableEq

namespace FileType

def code : FileType → UInt8
  | .none => 0
  | .fifo => 1
  | .charDevice => 2
  | .directory => 4
  | .blockDevice => 6
  | .regular => 8
  | .symlink => 10
  | .socket => 12
  | .unknown code => code

def ofCode (code : UInt8) : FileType :=
  if code = 0 then .none
  else if code = 1 then .fifo
  else if code = 2 then .charDevice
  else if code = 4 then .directory
  else if code = 6 then .blockDevice
  else if code = 8 then .regular
  else if code = 10 then .symlink
  else if code = 12 then .socket
  else .unknown code

end FileType

structure Mode where
  bits : UInt32
deriving DecidableEq

namespace Mode

def permissions (m : Mode) : UInt32 := m.bits &&& 0x1FF

def special (m : Mode) : UInt32 := (m.bits >>> 9) &&& 7

def fileType (m : Mode) : FileType := .ofCode (m.bits >>> 12 &&& 15 : UInt32).toUInt8

def isDirectory (m : Mode) : Bool := m.fileType == .directory

/-- Each part is cut to the bits it has. -/
def ofParts (permissions special : UInt32) (fileType : FileType) : Mode :=
  let low : UInt32 := permissions &&& 0x1FF
  let middle : UInt32 := special &&& 7
  let high : UInt32 := fileType.code.toUInt32 &&& 15
  ⟨low ||| (middle <<< 9) ||| (high <<< 12)⟩

def file : Mode := ofParts 0o644 0 .regular

def executable : Mode := ofParts 0o755 0 .regular

def directory : Mode := ofParts 0o755 0 .directory

def trailer : Mode := ofParts 0o644 0 .none

def text (m : Mode) : String := Text.octal 6 m.bits.toNat

end Mode
end KernelBoot
