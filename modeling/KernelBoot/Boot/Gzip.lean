import KernelBoot.Bytes

/-!
The frame of a gzip member: a header of ten bytes, optional fields that its flags announce, the
deflate stream, and a trailer of eight bytes that ends with the size of the data.
-/
namespace KernelBoot.Gzip

def isGzip (data : Bytes) : Bool := data.take 2 == [0x1F, 0x8B]

/-- The size from the last four bytes; it is known modulo 2^32 only. -/
def uncompressedSize? (data : Bytes) : Option UInt32 :=
  if data.length < 4 then none else Bytes.word32? data (data.length - 4)

def skipExtra : Bytes → Option Bytes
  | a :: b :: rest =>
    let length := a.toNat + 256 * b.toNat
    if length ≤ rest.length then some (rest.drop length) else none
  | _ => none

def skipString : Bytes → Option Bytes
  | [] => none
  | b :: rest => if b = 0 then some rest else skipString rest

def skipChecksum : Bytes → Option Bytes
  | _ :: _ :: rest => some rest
  | _ => none

def skipWhen (present : Bool) (skip : Bytes → Option Bytes) (bytes : Bytes) : Option Bytes :=
  if present then skip bytes else some bytes

/-- The deflate stream between the header with its optional fields and the trailer. -/
def deflatePayload (data : Bytes) : Option Bytes :=
  match data with
  | 0x1F :: 0x8B :: 8 :: flags :: _ :: _ :: _ :: _ :: _ :: _ :: body => do
    let body ← skipWhen (flags &&& 0x04 != 0) skipExtra body
    let body ← skipWhen (flags &&& 0x08 != 0) skipString body
    let body ← skipWhen (flags &&& 0x10 != 0) skipString body
    let body ← skipWhen (flags &&& 0x02 != 0) skipChecksum body
    if body.length < 8 then none else some (body.take (body.length - 8))
  | _ => none

end KernelBoot.Gzip
