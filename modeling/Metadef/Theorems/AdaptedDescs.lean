import Metadef.TensorAdapter
import Metadef.Theorems.ShapeSizes

/-!
# Descriptors across the graph

A descriptor survives the translation into the graph and back exactly when its shapes hold no sign of an unknown rank among other
numbers, its formats have texts, and its counter of dimensions fits into an unsigned word of 32 bits.
-/

namespace Metadef

namespace TensorAdapter

/-! ## Fields -/

theorem readRange_map (range l : List (Int64 × Int64)) :
    TensorDescriptor.readRange range (l.map fun e => [e.1, e.2]) = (true, range ++ l) := by
  induction l generalizing range with
  | nil => simp [TensorDescriptor.readRange]
  | cons e l ih => simp [TensorDescriptor.readRange, ih]

/-- A shape that says nothing else when its rank is unknown. -/
def KeepsRank (shape : Shape) : Prop := unknownDimNum ∈ shape.dims → shape.dims = [unknownDimNum]

theorem make_dims_iff (shape : Shape) : Shape.make shape.dims = shape ↔ KeepsRank shape := by
  obtain ⟨dims⟩ := shape
  by_cases h : unknownDimNum ∈ dims
  · simp [Shape.make, KeepsRank, h, eq_comm]
  · simp [Shape.make, KeepsRank, h]

/-- A format whose text leads back to it. -/
def HasText (format : Format) : Prop := format < 2 ^ 24 ∧ format % 256 ≤ 41 ∧ format % 256 ≠ 28

theorem kept_iff (format : Format) : format.kept = format ↔ HasText format := by
  unfold Format.kept Format.getPrimaryFormat HasText Format.reserved
  split
  next h =>
    constructor
    · intro hmod
      exact ⟨by rw [← hmod]; exact Nat.mod_lt _ (by decide), h⟩
    · exact fun h' => Nat.mod_eq_of_lt h'.1
  next h =>
    constructor
    · rintro rfl
      exact absurd ⟨by decide, by decide⟩ h
    · exact fun h' => absurd h'.2 h

/-- A number goes through a word of 32 bits. -/
theorem ofNat_toUInt32_iff (x : Int64) : Int64.ofNat x.toUInt64.toUInt32.toNat = x ↔ 0 ≤ x.toInt ∧ x.toInt < 2 ^ 32 := by
  have hlt : x.toUInt64.toUInt32.toNat < 2 ^ 32 := x.toUInt64.toUInt32.toNat_lt
  have hmod : x.toUInt64.toUInt32.toNat = x.toUInt64.toNat % 2 ^ 32 := UInt64.toNat_toUInt32 ..
  rw [← Int64.toInt_inj, Int64.toInt_ofNat_of_lt (hlt.trans (by decide))]
  constructor
  · intro h
    omega
  · rintro ⟨h0, h1⟩
    have hnat := toNat_toUInt64_of_nonneg h0
    omega

theorem toUInt32_ofNat (u : UInt32) : (Int64.ofNat u.toNat).toUInt64.toUInt32 = u := by
  have hlt : u.toNat < 2 ^ 32 := u.toNat_lt
  refine UInt32.toNat_inj.mp ?_
  rw [UInt64.toNat_toUInt32, Int64.toUInt64_ofNat', UInt64.toNat_ofNat']
  omega

/-! ## Both ways -/

/-- The descriptor that comes back. -/
def adapted (d : TensorDesc) : TensorDesc := geTensorDesc2TensorDesc (tensorDesc2GeTensorDesc d)

/-- The message a descriptor is taken in by. -/
theorem tensorDesc2GeTensorDesc_some (impl : TensorDescImpl) : tensorDesc2GeTensorDesc ⟨some impl⟩ =
    { name := impl.name, dtype := impl.dataType, shape := ⟨impl.shape.dims⟩, layout := impl.format.kept, size := impl.size
      realDimCnt := Int64.ofNat impl.realDimCnt.toUInt64.toUInt32.toNat, originShape := some impl.originShape.dims
      originFormat := some (if impl.originFormat = Format.reserved then Format.reserved else impl.originFormat.kept)
      shapeRange := some (impl.range.map fun e => [e.1, e.2]) } := rfl

/-- The descriptor a message is taken out to, when its ranges are pairs. -/
theorem geTensorDesc2TensorDesc_of_pairs (m : TensorDescriptor) (range : List (Int64 × Int64))
    (hrange : m.shapeRange = some (range.map fun e => [e.1, e.2])) : geTensorDesc2TensorDesc m =
      ⟨some { shape := Shape.make m.shape.dims, range, format := m.layout, originFormat := m.getOriginFormat, dataType := m.dtype
              originShape := Shape.make (m.originShape.getD []), size := m.size, realDimCnt := Int64.ofNat m.getRealDimCnt.toNat
              name := m.name }⟩ := by
  have hread : m.getShapeRange [] = (true, range) := by
    rw [TensorDescriptor.getShapeRange, hrange, Option.getD_some, readRange_map, List.nil_append]
  simp only [geTensorDesc2TensorDesc, hread]
  rfl

theorem adapted_some (impl : TensorDescImpl) : adapted ⟨some impl⟩ = ⟨some { impl with
    shape := Shape.make impl.shape.dims, originShape := Shape.make impl.originShape.dims, format := impl.format.kept
    originFormat := impl.originFormat.kept, realDimCnt := Int64.ofNat impl.realDimCnt.toUInt64.toUInt32.toNat }⟩ := by
  have hreserved : (if impl.originFormat = Format.reserved then Format.reserved else impl.originFormat.kept) =
    impl.originFormat.kept := by
    split
    next h => rw [h]; rfl
    · rfl
  rw [adapted, tensorDesc2GeTensorDesc_some, geTensorDesc2TensorDesc_of_pairs _ impl.range rfl]
  simp only [TensorDescriptor.getOriginFormat, TensorDescriptor.getRealDimCnt, toUInt32_ofNat, hreserved, Option.getD_some]

/-- A descriptor reads the same after it was taken into the graph and out again. -/
structure RoundTrips (d : TensorDesc) : Prop where
  shape : (adapted d).getShape = d.getShape
  format : (adapted d).getFormat = d.getFormat
  dataType : (adapted d).getDataType = d.getDataType
  originShape : (adapted d).getOriginShape = d.getOriginShape
  originFormat : (adapted d).getOriginFormat = d.getOriginFormat
  name : (adapted d).getName = d.getName
  range : ((adapted d).getShapeRange []).2 = (d.getShapeRange []).2
  size : (adapted d).getSize = d.getSize
  realDimCnt : (adapted d).getRealDimCnt = d.getRealDimCnt

/-- A descriptor that was moved from reads the same. -/
theorem roundTrips_none : RoundTrips ⟨none⟩ := ⟨rfl, rfl, rfl, rfl, rfl, rfl, rfl, rfl, rfl⟩

/-- A descriptor survives both translations exactly when its shapes are of unknown rank only as a whole, its formats have texts and
its counter of dimensions is a word of 32 bits. -/
theorem roundTrips_iff (d : TensorDesc) : RoundTrips d ↔ ∀ impl, d.impl = some impl →
    KeepsRank impl.shape ∧ KeepsRank impl.originShape ∧ HasText impl.format ∧ HasText impl.originFormat ∧
      0 ≤ impl.realDimCnt.toInt ∧ impl.realDimCnt.toInt < 2 ^ 32 := by
  obtain ⟨_ | impl⟩ := d
  · exact iff_of_true roundTrips_none fun _ hd => by cases hd
  · simp only [Option.some.injEq, forall_eq', ← ofNat_toUInt32_iff, ← kept_iff, ← make_dims_iff]
    have hback := adapted_some impl
    constructor
    · intro h
      have hshape := h.shape
      have horigin := h.originShape
      have hformat := h.format
      have horiginFormat := h.originFormat
      have hcnt := h.realDimCnt
      rw [hback] at hshape horigin hformat horiginFormat hcnt
      exact ⟨hshape, horigin, hformat, horiginFormat, hcnt⟩
    · rintro ⟨hshape, horigin, hformat, horiginFormat, hcnt⟩
      have hsame : adapted ⟨some impl⟩ = ⟨some impl⟩ := by rw [hback, hshape, horigin, hformat, horiginFormat, hcnt]
      constructor <;> rw [hsame]

/-- A dimension set to the sign of an unknown rank is all that comes back. -/
theorem roundTrips_false : ¬RoundTrips ⟨some { shape := (Shape.make [3, 4]).setDim 1 (-2) }⟩ := fun h => absurd h.shape (by decide)

end TensorAdapter

end Metadef
