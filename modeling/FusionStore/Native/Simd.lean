import Mathlib.Algebra.Group.Nat.Defs
import FusionStore.Native.Error
import FusionStore.Native.Kernels

/-!
# Distances

The kernels of `vector/simd.rs` at the type of the store.  `f32` values are bit patterns; the
rounding operations are a parameter (`F32Arith`), comparisons are computed on the
patterns.
-/

namespace FusionStore

/-- The `f32` operations the kernels use. -/
structure F32Arith where
  add : F32 → F32 → F32
  sub : F32 → F32 → F32
  mul : F32 → F32 → F32
  div : F32 → F32 → F32
  sqrt : F32 → F32

namespace F32

/-- `f32::INFINITY`. -/
def infinity : F32 := 0x7f800000

/-- `1.0f32`. -/
def one : F32 := 0x3f800000

/-- The pattern without its sign bit. -/
def magnitude (x : F32) : Nat := x.toNat % 2 ^ 31

def isNaN (x : F32) : Bool := magnitude x > 0x7f800000

/-- The integer whose order is `f32::total_cmp`. -/
def totalKey (x : F32) : Int :=
  if x.toNat < 2 ^ 31 then x.toNat else -(magnitude x : Int) - 1

/-- `a.total_cmp(&b) != Greater`. -/
def totalLe (a b : F32) : Bool := totalKey a ≤ totalKey b

/-- The IEEE comparison `a < b`: false on NaN, and the two zeros are equal. -/
def lt (a b : F32) : Bool :=
  !isNaN a && !isNaN b && !(magnitude a == 0 && magnitude b == 0) && totalKey a < totalKey b

end F32

/-- The arithmetic of `f32`. -/
def F32Arith.toArith (A : F32Arith) : Arith F32 where
  zero := 0
  one := F32.one
  add := A.add
  sub := A.sub
  mul := A.mul
  div := A.div
  sqrt := A.sqrt
  isZero x := F32.magnitude x == 0

/-- `simd::distance` on `f32`.  The scalar kernels stand for those of every target
    (`Kernels.distance_target`). -/
def Simd.distance (A : F32Arith) (metric : MetricKind) (a b : List F32) : F32 :=
  Kernels.distance A.toArith none metric a b

end FusionStore
