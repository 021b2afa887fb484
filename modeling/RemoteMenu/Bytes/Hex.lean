/-!
# Hexadecimal text

Bytes and numbers in lower-case hexadecimal.
-/

namespace RemoteMenu

/-- Two digits, the high half first. -/
def hexByte (b : UInt8) : List Char :=
  [Nat.digitChar (b.toNat / 16), Nat.digitChar (b.toNat % 16)]

def hexText (bytes : List UInt8) : String :=
  .ofList (bytes.flatMap hexByte)

/-- A number after `0x`, filled up with zeros to at least `width` digits. -/
def hexNumber (width n : Nat) : String :=
  let digits := Nat.toDigits 16 n
  "0x" ++ .ofList (List.replicate (width - digits.length) '0' ++ digits)

end RemoteMenu
