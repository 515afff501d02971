/-!
Byte strings: little-endian numbers and hexadecimal text.
-/

namespace CircuitPartition.Bytes

def littleEndian : (width n : Nat) → List UInt8
  | 0, _ => []
  | width + 1, n => UInt8.ofNat n :: littleEndian width (n / 256)

@[simp]
theorem length_littleEndian (width n : Nat) : (littleEndian width n).length = width := by
  induction width generalizing n with
  | zero => rfl
  | succ width ih => simp [littleEndian, ih]

def toNat : List UInt8 → Nat
  | [] => 0
  | b :: bs => b.toNat + 256 * toNat bs

theorem toNat_littleEndian (width n : Nat) :
    toNat (littleEndian width n) = n % Nat.pow 256 width := by
  induction width generalizing n with
  | zero => simp [littleEndian, toNat, Nat.mod_one]
  | succ width ih =>
    have h : (UInt8.ofNat n).toNat = n % 256 := by simp
    rw [littleEndian, toNat, ih, h]
    change _ = n % (Nat.pow 256 width * 256)
    rw [Nat.mul_comm _ 256, Nat.mod_mul]

def hexDigit (n : Nat) : Char :=
  if n < 10 then Char.ofNat ('0'.toNat + n) else Char.ofNat ('a'.toNat + (n - 10))

def toHex (bytes : List UInt8) : String :=
  String.ofList (bytes.flatMap fun b => [hexDigit (b.toNat / 16), hexDigit (b.toNat % 16)])

def ofHexDigit? (c : Char) : Option Nat :=
  if '0' ≤ c ∧ c ≤ '9' then some (c.toNat - '0'.toNat)
  else if 'a' ≤ c ∧ c ≤ 'f' then some (c.toNat - 'a'.toNat + 10)
  else if 'A' ≤ c ∧ c ≤ 'F' then some (c.toNat - 'A'.toNat + 10)
  else none

def hexValue? (digits : List Char) : Option Nat :=
  digits.foldlM (fun n c => (ofHexDigit? c).map (16 * n + ·)) 0

def ofHex? (text : String) : Option (List UInt8) :=
  go text.toList []
where
  go : List Char → List UInt8 → Option (List UInt8)
    | [], bytes => some bytes.reverse
    | [_], _ => none
    | high :: low :: rest, bytes => do
      let n ← hexValue? [high, low]
      go rest (UInt8.ofNat n :: bytes)

end CircuitPartition.Bytes
