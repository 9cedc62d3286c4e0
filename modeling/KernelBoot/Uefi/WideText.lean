import KernelBoot.Bytes

/-!
Text in 16-bit units with a NUL at its end, as UEFI passes it. A character of such a text is one
unit; what would need two is refused.
-/
namespace KernelBoot.WideText

def isRepresentable (s : String) : Bool :=
  s.toList.all fun c => c ≠ '\x00' && c.toNat < 0x10000

/-- The units of a character; one beyond the first 65536 has two, a surrogate each. -/
def units (c : Char) : List Nat :=
  if c.toNat < 0x10000 then [c.toNat]
  else [0xD800 + (c.toNat - 0x10000) / 0x400, 0xDC00 + (c.toNat - 0x10000) % 0x400]

def upToNul (s : String) : String := String.ofList (s.toList.takeWhile (· ≠ '\x00'))

/-- A text as the firmware's caller reads it: up to its first NUL, with a replacement character for
    each surrogate. -/
def shown (s : String) : String :=
  String.ofList ((upToNul s).toList.flatMap fun c =>
    if c.toNat < 0x10000 then [c] else ['\uFFFD', '\uFFFD'])

def encode (s : String) : Bytes := (s.toList.flatMap units ++ [0]).flatMap (Bytes.le 2)

def unitsOf? : Bytes → Option (List Nat)
  | [] => some []
  | [_] => none
  | low :: high :: rest => (unitsOf? rest).map ((low.toNat + 256 * high.toNat) :: ·)

def isCharacter (unit : Nat) : Bool := unit ≠ 0 && !(0xD800 ≤ unit && unit < 0xE000)

/-- The text, if the bytes are characters with a NUL behind them and nothing else. -/
def text? (bytes : Bytes) : Option String :=
  match unitsOf? bytes with
  | none => none
  | some units =>
    if units.getLast? = some 0 ∧ units.dropLast.all isCharacter then
      some (String.ofList (units.dropLast.map Char.ofNat))
    else none

end KernelBoot.WideText
