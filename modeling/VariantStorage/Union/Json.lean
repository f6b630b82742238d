import VariantStorage.Json.Reader
import VariantStorage.Storage
import VariantStorage.Union.Layout

/-!
Byte ranges, masks and union layouts as JSON. The members of ranges and masks are required, and they
are written in a fixed order; a layout is written as its masks, its ranges and its pointers, each as
an array in the order of the layout.
-/
namespace VariantStorage

open Json (Fragment ReadError Shape)

namespace ByteRange

inductive Key where
  | position
  | length
  deriving DecidableEq, Repr

def Key.name : Key → String
  | .position => "position"
  | .length => "length"

def shape : Shape Key ByteRange where
  wanted := .range
  keys := [.position, .length]
  name := Key.name
  required := true
  blank := ⟨0, 0⟩

def set (key : Key) (v : Fragment) (r : ByteRange) : Except ReadError ByteRange :=
  match key with
  | .position => do return { r with position := ← Json.readWord64 v }
  | .length => do return { r with length := ← Json.readWord64 v }

def ofText (text : String) : Except ReadError ByteRange :=
  Json.readText (shape.read set Json.maxDepth) text

def fragment (r : ByteRange) : Fragment :=
  .object [(.text "position", .ofNat r.position.toNat),
    (.text "length", .ofNat r.length.toNat)]

end ByteRange

namespace MaskEntry

inductive Key where
  | position
  | mask
  deriving DecidableEq, Repr

def Key.name : Key → String
  | .position => "position"
  | .mask => "mask"

def shape : Shape Key MaskEntry where
  wanted := .mask
  keys := [.position, .mask]
  name := Key.name
  required := true
  blank := ⟨0, 0⟩

def set (key : Key) (v : Fragment) (e : MaskEntry) : Except ReadError MaskEntry :=
  match key with
  | .position => do return { e with position := ← Json.readWord64 v }
  | .mask => do return { e with mask := ← Json.readWord8 v }

def ofText (text : String) : Except ReadError MaskEntry :=
  Json.readText (shape.read set Json.maxDepth) text

def fragment (e : MaskEntry) : Fragment :=
  .object [(.text "position", .ofNat e.position.toNat), (.text "mask", .ofNat e.mask.toNat)]

end MaskEntry

namespace UnionLayout

def fragment (l : UnionLayout) : Fragment :=
  .object [(.text "bits", .array (l.masks.map MaskEntry.fragment)),
    (.text "bytes", .array (l.ranges.map ByteRange.fragment)),
    (.text "pointers", .array (l.pointers.map fun p => .ofNat p.toNat))]

def text (l : UnionLayout) : String :=
  l.fragment.text

end UnionLayout

end VariantStorage
