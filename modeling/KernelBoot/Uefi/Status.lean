import KernelBoot.Boot.Error

/-!
The status codes that a UEFI application and its firmware give each other, by name, and the one
that stands for each way to fail.
-/
namespace KernelBoot

inductive UefiStatus where
  | success
  | loadError
  | invalidParameter
  | unsupported
  | badBufferSize
  | bufferTooSmall
  | deviceError
  | outOfResources
  | volumeCorrupted
  | noMedia
  | mediaChanged
  | notFound
  | accessDenied
  | aborted
  | securityViolation
  | endOfFile
  | compromisedData
deriving DecidableEq

namespace UefiStatus

def name : UefiStatus → String
  | .success => "SUCCESS"
  | .loadError => "LOAD_ERROR"
  | .invalidParameter => "INVALID_PARAMETER"
  | .unsupported => "UNSUPPORTED"
  | .badBufferSize => "BAD_BUFFER_SIZE"
  | .bufferTooSmall => "BUFFER_TOO_SMALL"
  | .deviceError => "DEVICE_ERROR"
  | .outOfResources => "OUT_OF_RESOURCES"
  | .volumeCorrupted => "VOLUME_CORRUPTED"
  | .noMedia => "NO_MEDIA"
  | .mediaChanged => "MEDIA_CHANGED"
  | .notFound => "NOT_FOUND"
  | .accessDenied => "ACCESS_DENIED"
  | .aborted => "ABORTED"
  | .securityViolation => "SECURITY_VIOLATION"
  | .endOfFile => "END_OF_FILE"
  | .compromisedData => "COMPROMISED_DATA"

def all : List UefiStatus :=
  [.success, .loadError, .invalidParameter, .unsupported, .badBufferSize, .bufferTooSmall,
    .deviceError, .outOfResources, .volumeCorrupted, .noMedia, .mediaChanged, .notFound,
    .accessDenied, .aborted, .securityViolation, .endOfFile, .compromisedData]

def ofName? (text : String) : Option UefiStatus := all.find? fun s => s.name == text

def ofFirmware : FirmwareError → UefiStatus
  | .outOfResources => .outOfResources
  | .addressUnavailable _ => .notFound
  | .notAllocated _ => .accessDenied
  | .decompression => .compromisedData
  | .unsupported _ => .unsupported
  | .platform _ => .deviceError

def ofLoad : LoadError → UefiStatus
  | .badArgument _ | .invalidRamdiskAddress _ _ | .invalidAddress _ _ => .invalidParameter
  | .invalidMagic | .invalidHeader _ | .badArchive _ | .invalidRamdiskFormat _ | .tags _ => .loadError
  | .prematureEnd _ _ => .endOfFile
  | .read _ _ => .deviceError
  | .bufferTooSmall _ _ => .bufferTooSmall
  | .allocationFailure _ e | .firmware e => ofFirmware e
  | .unsupported _ => .unsupported
  | .kernelReturned | .bug _ => .aborted

end UefiStatus
end KernelBoot
