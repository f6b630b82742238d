import VariantStorage.Field
import VariantStorage.Storage

/-!
The layout of a struct's union: all the storage that an accessor resets when the union switches to
another variant. The byte ranges are the numbers and enums of every variant, and each byte whose
eight bits one variant claims with its booleans; ranges that overlap or touch are merged. A byte
that variants claim only in part has a mask, which keeps the bits that no variant claims there,
unless some variant stores a number or an enum in the byte. Each pointer is listed once.

A data section is a byte for each index. A range clears its bytes, and a mask clears the bits of one
byte that it does not keep; the steps only ever clear bits, so their order does not matter.
-/
namespace VariantStorage

namespace Union

/-- The byte ranges of one variant: its full bytes of booleans, then its numbers and enums. -/
def variantRanges (f : Field) : Except Overflow (List ByteRange) := do
  let whole := (← BitPartition.ofBits f.bits).ranges
  return whole ++ (← f.bytes)

/-- Extends `current` over the ranges that overlap or touch it, in ascending order of position.
The end of `current` is computed when a range follows it, and the end of that range when the two are
merged. -/
def mergeFrom (current : ByteRange) : List ByteRange → Except Overflow (List ByteRange)
  | [] => .ok [current]
  | r :: rs => do
    let stop ← current.stop
    if r.position ≤ stop then
      let reach ← r.stop
      let length ← Word.sub reach current.position
      mergeFrom ⟨current.position, max current.length length⟩ rs
    else
      let later ← mergeFrom r rs
      return current :: later

def merge : List ByteRange → Except Overflow (List ByteRange)
  | [] => .ok []
  | r :: rs => mergeFrom r rs

/-- The byte ranges to clear for the union in `fields`. -/
def ranges (fields : List Field) : Except Overflow (List ByteRange) := do
  let all ← (Field.variants fields).mapM variantRanges
  merge (all.flatten.mergeSort fun a b => decide (a.position ≤ b.position))

def variantMasks (f : Field) : Except Overflow (List MaskEntry) := do
  return (← BitPartition.ofBits f.bits).masks

def dataBytes (f : Field) : Except Overflow (List UInt64) := do
  let ranges ← f.bytes
  return (← ranges.mapM ByteRange.bytes).flatten

/-- The bytes in which some variant stores a number or an enum. -/
def clearedBytes (fields : List Field) : Except Overflow (List UInt64) := do
  return (← (Field.variants fields).mapM dataBytes).flatten

/-- Collects the entries that follow `entry` at the same position into it: a bit is kept if all of
them keep it. -/
def joinMasksFrom (entry : MaskEntry) : List MaskEntry → List MaskEntry
  | [] => [entry]
  | e :: es =>
    if e.position = entry.position then
      joinMasksFrom ⟨entry.position, entry.mask &&& e.mask⟩ es
    else
      entry :: joinMasksFrom e es

/-- One entry for each run of entries with the same position. -/
def joinMasks : List MaskEntry → List MaskEntry
  | [] => []
  | e :: es => joinMasksFrom e es

/-- The keep-masks of the union in `fields`, by descending position. -/
def masks (fields : List Field) : Except Overflow (List MaskEntry) := do
  let all ← (Field.variants fields).mapM variantMasks
  let entries := all.flatten.mergeSort fun a b => decide (b.position ≤ a.position)
  let cleared ← clearedBytes fields
  return joinMasks (entries.filter fun e => !cleared.contains e.position)

/-- Leaves out an element that equals the one before it. -/
def dropRepeats : List UInt64 → List UInt64
  | [] => []
  | [p] => [p]
  | p :: q :: ps => if p = q then dropRepeats (q :: ps) else p :: dropRepeats (q :: ps)

/-- The pointers that the variants in `fields` claim, in descending order. -/
def pointers (fields : List Field) : Except Overflow (List UInt64) := do
  let all ← (Field.variants fields).mapM Field.pointers
  return dropRepeats (all.flatten.mergeSort fun a b => decide (b ≤ a))

end Union

/-- What to reset: bits outside the masks, the bytes of the ranges, and the pointers. -/
structure UnionLayout where
  masks : List MaskEntry
  ranges : List ByteRange
  pointers : List UInt64
  deriving DecidableEq, Repr

namespace UnionLayout

/-- The layout of the union in `fields`; masks are computed first, then ranges, then pointers. -/
def resolve (fields : List Field) : Except Overflow UnionLayout := do
  let masks ← Union.masks fields
  let ranges ← Union.ranges fields
  let pointers ← Union.pointers fields
  return ⟨masks, ranges, pointers⟩

def isEmpty (layout : UnionLayout) : Bool :=
  layout.masks.isEmpty && layout.ranges.isEmpty && layout.pointers.isEmpty

end UnionLayout

abbrev DataSection := Nat → UInt8

/-- Whether a byte lies in a range, in exact numbers. -/
def ByteRange.covers (r : ByteRange) (byte : Nat) : Bool :=
  r.position.toNat ≤ byte && byte < r.position.toNat + r.length.toNat

def ByteRange.clear (r : ByteRange) (data : DataSection) : DataSection :=
  fun byte => if r.covers byte then 0 else data byte

/-- Keeps only the bits of the mask in its byte. -/
def MaskEntry.clear (e : MaskEntry) (data : DataSection) : DataSection :=
  fun byte => if byte = e.position.toNat then data byte &&& e.mask else data byte

def UnionLayout.steps (l : UnionLayout) : List (DataSection → DataSection) :=
  l.ranges.map ByteRange.clear ++ l.masks.map MaskEntry.clear

def DataSection.after (data : DataSection) (steps : List (DataSection → DataSection)) :
    DataSection :=
  steps.foldl (fun data step => step data) data

end VariantStorage
