/-!
Numbers as messages show them: hexadecimal and octal digits, padded with zeros to a least width.
-/
namespace KernelBoot.Text

def padZeros (width : Nat) (digits : List Char) : List Char :=
  List.replicate (width - digits.length) '0' ++ digits

/-- Lower-case digits behind `0x`, as few as the number needs. -/
def hex (n : Nat) : String := "0x" ++ String.ofList (Nat.toDigits 16 n)

/-- Upper-case digits behind `0x`, at least `width` of them. -/
def hexUpper (width n : Nat) : String :=
  "0x" ++ String.ofList (padZeros width ((Nat.toDigits 16 n).map Char.toUpper))

def octal (width n : Nat) : String := String.ofList (padZeros width (Nat.toDigits 8 n))

end KernelBoot.Text
