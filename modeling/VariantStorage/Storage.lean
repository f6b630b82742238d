import VariantStorage.Decimal
import VariantStorage.Overflow

/-!
The two sections of a struct: a data section of 8-byte words, and a pointer section of 8-byte
pointers. Bit `n` of the data section is bit `n % 8` of byte `n / 8`, counted from the least
significant one. Regions of the data section are half-open byte ranges, and masks that say which
bits of one byte are kept; the byte past the end of a range is only computed where it is asked for,
so a range that reaches past the last 64-bit address is a value like any other.

A list of bits is partitioned by the bytes that it touches. A byte whose eight bits are all listed
is claimed whole, as a range of length one; of every other touched byte the mask keeps the bits that
are not listed. Order and repetition in the list do not matter: the touched bytes are kept in
ascending order, each with the union of its listed bits.
-/
namespace VariantStorage

namespace Storage

def wordBytes : UInt64 := 8

def pointerBytes : UInt64 := 8

/-- The byte that holds a bit of the data section. -/
def byteOf (bit : UInt64) : UInt64 :=
  bit >>> 3

/-- The place of a bit within its byte. -/
def shiftOf (bit : UInt64) : UInt32 :=
  (bit &&& 7).toUInt32

/-- The byte whose only set bit is at `shift`. -/
def bitAt (shift : UInt32) : Except Overflow UInt8 :=
  Byte.shiftLeft 1 shift

theorem toNat_byteOf (bit : UInt64) : (byteOf bit).toNat = bit.toNat / 8 := by
  simp [byteOf, UInt64.toNat_shiftRight, Nat.shiftRight_eq_div_pow]

theorem toNat_shiftOf (bit : UInt64) : (shiftOf bit).toNat = bit.toNat % 8 := by
  have h : bit.toNat &&& 7 = bit.toNat % 2 ^ 3 := Nat.and_two_pow_sub_one_eq_mod bit.toNat 3
  simp only [shiftOf, UInt64.toNat_toUInt32, UInt64.toNat_and, UInt64.reduceToNat, h]
  omega

/-- Byte and place say which bit it is. -/
theorem byteOf_shiftOf (bit : UInt64) :
    8 * (byteOf bit).toNat + (shiftOf bit).toNat = bit.toNat := by
  rw [toNat_byteOf, toNat_shiftOf]
  omega

theorem bitAt_of_lt {shift : UInt32} (h : shift.toNat < 8) :
    ∃ m, bitAt shift = .ok m ∧ ∀ k, m.toNat.testBit k = decide (shift.toNat = k) := by
  have hs : shift < 8 := UInt32.lt_iff_toNat_lt.2 h
  have hpow : (1 <<< shift.toUInt8 : UInt8).toNat = 2 ^ shift.toNat := by
    rw [UInt8.toNat_shiftLeft, UInt32.toNat_toUInt8]
    generalize shift.toNat = k at h
    revert k
    decide
  refine ⟨1 <<< shift.toUInt8, by simp [bitAt, Byte.shiftLeft, hs], fun k => ?_⟩
  rw [hpow, Nat.testBit_two_pow]

/-- First byte of a pointer, counted from the start of the pointer section. -/
def pointerPosition (index : UInt64) : Except Overflow UInt64 :=
  Word.mul pointerBytes index

def structSize (dataWords pointers : UInt64) : Except Overflow UInt64 := do
  let dataSize ← Word.mul dataWords wordBytes
  let pointerSize ← Word.mul pointers pointerBytes
  Word.add dataSize pointerSize

end Storage

/-- The bytes `position`, …, `position + length - 1`. -/
@[ext]
structure ByteRange where
  position : UInt64
  length : UInt64
  deriving DecidableEq, Repr

namespace ByteRange

/-- First byte past the end of the range. -/
def stop (r : ByteRange) : Except Overflow UInt64 :=
  Word.add r.position r.length

/-- Whether the range holds `byte`; a byte before the range is refused without asking for `stop`. -/
def contains (r : ByteRange) (byte : UInt64) : Except Overflow Bool :=
  if r.position ≤ byte then do
    return byte < (← r.stop)
  else
    return false

def bytes (r : ByteRange) : Except Overflow (List UInt64) := do
  let _ ← r.stop
  return (List.range r.length.toNat).map fun i => r.position + UInt64.ofNat i

/-- The range as a half-open interval, such as `[4, 6)`. -/
def text (r : ByteRange) : Except Overflow String := do
  let stop ← r.stop
  return "[" ++ Decimal.text r.position.toNat ++ ", " ++ Decimal.text stop.toNat ++ ")"

example : (⟨4, 2⟩ : ByteRange).text = .ok "[4, 6)" := by cbv

end ByteRange

/-- A byte and the bits of it that are kept when a union's storage is cleared. -/
@[ext]
structure MaskEntry where
  position : UInt64
  mask : UInt8
  deriving DecidableEq, Repr

namespace MaskEntry

def bits (mask : UInt8) : List Char :=
  [7, 6, 5, 4, 3, 2, 1, 0].map fun k => if mask.toNat.testBit k then '1' else '0'

/-- The position and the mask in binary, such as `1: 0b11111100`. -/
def text (e : MaskEntry) : String :=
  Decimal.text e.position.toNat ++ ": 0b" ++ String.ofList (bits e.mask)

example : (⟨1, 0xfc⟩ : MaskEntry).text = "1: 0b11111100" := by cbv

end MaskEntry

/-- A byte of the data section and the bits of it that are claimed. -/
structure ByteClaim where
  position : UInt64
  claimed : UInt8
  deriving DecidableEq, Repr

namespace ByteClaim

/-- Adds bits of the byte at `position` to claims in ascending order. -/
def insert (position : UInt64) (claimed : UInt8) : List ByteClaim → List ByteClaim
  | [] => [⟨position, claimed⟩]
  | c :: cs =>
    if position < c.position then ⟨position, claimed⟩ :: c :: cs
    else if position = c.position then ⟨position, c.claimed ||| claimed⟩ :: cs
    else c :: insert position claimed cs

/-- The claims of a list of bits, one for each touched byte, in ascending order. -/
def ofBits (bits : List UInt64) : Except Overflow (List ByteClaim) :=
  bits.foldlM (fun claims bit => do
    return insert (Storage.byteOf bit) (← Storage.bitAt (Storage.shiftOf bit)) claims) []

def isFull (c : ByteClaim) : Bool :=
  c.claimed == 0xff

def toRange (c : ByteClaim) : ByteRange :=
  ⟨c.position, 1⟩

def toMask (c : ByteClaim) : MaskEntry :=
  ⟨c.position, ~~~c.claimed⟩

end ByteClaim

/-- Listed bits, as bytes that are claimed whole and masks of bytes that are claimed in part. -/
structure BitPartition where
  ranges : List ByteRange
  masks : List MaskEntry
  deriving DecidableEq, Repr

/-- Splits a list of bits into whole bytes and masks, both ascending. -/
def BitPartition.ofBits (bits : List UInt64) : Except Overflow BitPartition := do
  let claims ← ByteClaim.ofBits bits
  return {
    ranges := (claims.filter ByteClaim.isFull).map ByteClaim.toRange
    masks := (claims.filter fun c => !c.isFull).map ByteClaim.toMask }

end VariantStorage
