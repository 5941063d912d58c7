import Attune.CheckedMemory

namespace Attune.XSave
open Attune.Memory List

def headerOffset : Nat := 512

def headerSize : Nat := 64

def headerEnd : Nat := headerOffset + headerSize

def featurePkru : Nat := 9

structure XSaveFeatureLayout where
  offset : Nat
  size : Nat
  deriving DecidableEq

structure XSaveLayout where
  fullSize : Nat
  supportedFeatureBits : BitVec 64
  featureLayouts : List XSaveFeatureLayout
  deriving DecidableEq

/-- The features that the data uses, in the width of the result: a PKRU area that holds zeroes only
is not used. -/
def featuresUsed (data : Bytes) (layout : XSaveLayout) : Except Fault (BitVec 32) := do
  let features := BitVec.ofNat 64 (← load data headerOffset 8)
  match layout.featureLayouts[featurePkru]? with
  | some fl =>
    if features.getLsbD featurePkru ∧ fl.offset + fl.size ≤ layout.fullSize then do
      let area ← copy data fl.offset fl.size
      if area.all (· == 0) then return (features &&& ~~~BitVec.twoPow 64 featurePkru).setWidth 32
      else return features.setWidth 32
    else return features.setWidth 32
  | none => return features.setWidth 32

def copyFeatures (native layout : XSaveLayout) (data : Bytes) (features : BitVec 64) :
    List Nat → Bytes → Except Fault (Bool × Bytes)
  | [], out => .ok (true, out)
  | i :: is, out =>
    if features.getLsbD i then
      match layout.featureLayouts[i]? with
      | none => .ok (false, out)
      | some feature =>
        if feature.offset + feature.size > layout.fullSize then .ok (false, out)
        else
          match native.featureLayouts[i]? with
          | none => .error .outOfBounds
          | some nativeFeature =>
            if feature.size ≠ nativeFeature.size then .ok (false, out)
            else do
              let area ← copy data feature.offset feature.size
              let out ← store out nativeFeature.offset area
              copyFeatures native layout data features is out
    else copyFeatures native layout data features is out

def resize (m : Bytes) (size : Nat) : Bytes := m.take size ++ replicate (size - m.length) 0

def usesUnsupported (native layout : XSaveLayout) (data : Bytes) : Except Fault Bool :=
  if headerEnd ≤ layout.fullSize then do
    let features ← featuresUsed data layout
    return features.setWidth 64 &&& ~~~native.supportedFeatureBits != 0
  else .ok false

/-- `set_to_raw_data` for the XSAVE format: what it returns and the bytes it leaves in `data_`, which
held `old`. -/
def setToRawData (native layout : XSaveLayout) (data old : Bytes) : Except Fault (Bool × Bytes) :=
  if data.length ≠ layout.fullSize then .ok (false, old)
  else if layout.fullSize < headerOffset then .ok (false, resize old native.fullSize)
  else do
    let out ← store (resize old native.fullSize) 0 (← copy data 0 headerOffset)
    let out ← store out headerOffset (replicate (native.fullSize - headerOffset) 0)
    if ← usesUnsupported native layout data then return (false, out)
    else if native.fullSize < headerEnd then return (true, out)
    else if layout.fullSize < headerEnd then return (true, ← store out headerOffset (encode 8 3))
    else
      let features := (← featuresUsed data layout).setWidth 64
      let out ← store out headerOffset (encode 8 features.toNat)
      let out ← store out (headerOffset + 8) (← copy data (headerOffset + 8) (headerSize - 8))
      copyFeatures native layout data features (range' 2 62) out

def XSaveLayout.Area (layout : XSaveLayout) (i : Nat) (fl : XSaveFeatureLayout) : Prop :=
  layout.featureLayouts[i]? = some fl

/-- What the CPU guarantees of its layout: room for the legacy area, and feature areas behind the
header, inside and apart. -/
structure XSaveLayout.WellFormed (native : XSaveLayout) : Prop where
  legacy : headerOffset ≤ native.fullSize
  entry : ∀ i, 2 ≤ i → native.supportedFeatureBits.getLsbD i → ∃ fl, native.Area i fl ∧
    headerEnd ≤ fl.offset ∧ fl.offset + fl.size ≤ native.fullSize
  disjoint : ∀ i j fl fl', 2 ≤ i → 2 ≤ j → i ≠ j → native.supportedFeatureBits.getLsbD i →
    native.supportedFeatureBits.getLsbD j → native.Area i fl → native.Area j fl' →
    fl.offset + fl.size ≤ fl'.offset ∨ fl'.offset + fl'.size ≤ fl.offset

section
variable (native layout : XSaveLayout) (data : Bytes)

/-- The PKRU area is inside the data and holds zeroes only. -/
def PkruZero : Prop := ∃ fl, layout.Area featurePkru fl ∧ fl.offset + fl.size ≤ layout.fullSize ∧
  ∀ b ∈ slice data fl.offset fl.size, b = 0

def Uses (i : Nat) : Prop :=
  (peek data headerOffset 8).testBit i = true ∧ ¬ (i = featurePkru ∧ PkruZero layout data)

structure Converted (out : Bytes) : Prop where
  size : out.length = native.fullSize
  areas : ∀ i, 2 ≤ i → i < 64 → Uses layout data i → ∃ fl nfl, layout.Area i fl ∧
    native.Area i nfl ∧ slice out nfl.offset nfl.size = slice data fl.offset fl.size
  header : ∀ i < 64, (peek out headerOffset 8).testBit i = true ↔ Uses layout data i
  legacy : slice out 0 headerOffset = slice data 0 headerOffset
  zero : ∀ j, headerEnd ≤ j → j < native.fullSize → (∀ i nfl, 2 ≤ i → i < 64 → Uses layout data i →
    native.Area i nfl → ¬ (nfl.offset ≤ j ∧ j < nfl.offset + nfl.size)) → out[j]? = some 0

/-- The conversion stays within bounds, and between layouts with a header is refused or moves every
area to its place. -/
def Converts (old : Bytes) : Prop :=
  ∃ ok out, setToRawData native layout data old = .ok (ok, out) ∧
    (headerEnd ≤ native.fullSize → headerEnd ≤ layout.fullSize →
      ((∃ i < 64, Uses layout data i ∧ native.supportedFeatureBits.getLsbD i = false) → ok = false) ∧
      (ok = true → Converted native layout data out))

def Movable (i : Nat) : Prop := ∃ fl nfl, layout.Area i fl ∧ native.Area i nfl ∧
  fl.offset + fl.size ≤ layout.fullSize ∧ fl.size = nfl.size

/-- A feature that the low half of the header shows is in the way. -/
def LowRejected : Prop := ∃ i < 32, Uses layout data i ∧
  (native.supportedFeatureBits.getLsbD i = false ∨ 2 ≤ i ∧ ¬ Movable native layout i)

end

end Attune.XSave
