/-!
# ContractIR.Bytes — byte strings in hexadecimal and big-endian form
-/

namespace ContractIR

/-- A string of bytes. -/
abbrev Bytes := List UInt8

namespace Bytes

/-- The lower-case hexadecimal digit of a number below sixteen. -/
def hexDigit (n : Nat) : Char := if n < 10 then Char.ofNat (48 + n) else Char.ofNat (87 + n)

/-- A byte as two hexadecimal digits. -/
def hexByte (b : UInt8) : String := String.ofList [hexDigit (b.toNat / 16), hexDigit (b.toNat % 16)]

/-- Two hexadecimal digits a byte, and nothing between them. -/
def hex (bs : Bytes) : String := String.join (bs.map hexByte)

/-- The number that a hexadecimal digit stands for, in either case. -/
def hexValue (c : Char) : Nat := if c.isDigit then c.toNat - 48 else c.toLower.toNat - 87

/-- The bytes given by pairs of hexadecimal digits; a digit left over at the end is dropped. -/
def ofHexDigits : List Char → Bytes
  | high :: low :: rest => (hexValue high * 16 + hexValue low).toUInt8 :: ofHexDigits rest
  | _ => []

/-- The bytes given by two hexadecimal digits each. -/
def ofHex (s : String) : Bytes := ofHexDigits s.toList

/-- The last `n` bytes of a number in base 256, the most significant first, in front of `rest`. -/
def bigEndianOnto : Nat → Nat → Bytes → Bytes
  | 0, _, rest => rest
  | n + 1, value, rest => bigEndianOnto n (value / 256) ((value % 256).toUInt8 :: rest)

/-- The last `n` bytes of a number in base 256, the most significant first. -/
def bigEndian (n value : Nat) : Bytes := bigEndianOnto n value []

theorem bigEndianOnto_eq (n value : Nat) (rest : Bytes) :
    bigEndianOnto n value rest = bigEndian n value ++ rest := by
  induction n generalizing value rest with
  | zero => rfl
  | succ n ih =>
    have h : bigEndian (n + 1) value = bigEndian n (value / 256) ++ [(value % 256).toUInt8] :=
      ih (value / 256) _
    rw [h, bigEndianOnto, ih, List.append_assoc, List.singleton_append]

@[simp] theorem bigEndian_zero (value : Nat) : bigEndian 0 value = [] := rfl

/-- The last byte is the remainder, and those before it are the bytes of the quotient. -/
theorem bigEndian_succ (n value : Nat) :
    bigEndian (n + 1) value = bigEndian n (value / 256) ++ [(value % 256).toUInt8] :=
  bigEndianOnto_eq n (value / 256) _

@[simp] theorem length_bigEndian (n value : Nat) : (bigEndian n value).length = n := by
  induction n generalizing value with
  | zero => rfl
  | succ n ih => simp [bigEndian_succ, ih]

/-- The bytes of a text in UTF-8. -/
def ofText (s : String) : Bytes := s.toUTF8.toList

end Bytes

end ContractIR
