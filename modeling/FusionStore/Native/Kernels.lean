import Mathlib.Data.Fin.VecNotation

/-!
# Distance kernels over any arithmetic

The kernels of `vector/simd.rs` with the operations on `f32` as a parameter over any type of
numbers (`Arith`): the scalar loops, the NEON loops with their registers and intrinsics as a
second parameter (`Neon`), and the functions that choose between them by the target.  A slice
`a[i..]` is the rest of the list.  On slices of different lengths the source panics
(`debug_assert_eq!`, in a release build the index past `b`); the loops here stop at the
shorter list, and what they give then stands for nothing.
-/

namespace FusionStore

/-- `MetricKind`. -/
inductive MetricKind where
  | cosine
  | l2
  | dot
  deriving DecidableEq, Repr

/-- The operations of the kernels. -/
structure Arith (α : Type) where
  zero : α
  one : α
  add : α → α → α
  sub : α → α → α
  mul : α → α → α
  div : α → α → α
  sqrt : α → α
  isZero : α → Bool

/-- The registers of four lanes and the intrinsics the kernels call; each acts lane by lane,
    and `vmlaq` rounds its product before it adds. -/
structure Neon {α : Type} (A : Arith α) where
  Reg : Type
  vgetqLane : Reg → Fin 4 → α
  vdupqN : α → Reg
  vld1q : α → α → α → α → Reg
  vmulq : Reg → Reg → Reg
  vaddq : Reg → Reg → Reg
  vsubq : Reg → Reg → Reg
  vmlaq : Reg → Reg → Reg → Reg
  lane_dup : ∀ x k, vgetqLane (vdupqN x) k = x
  lane_ld : ∀ x0 x1 x2 x3 k, vgetqLane (vld1q x0 x1 x2 x3) k = ![x0, x1, x2, x3] k
  lane_mul : ∀ x y k, vgetqLane (vmulq x y) k = A.mul (vgetqLane x k) (vgetqLane y k)
  lane_add : ∀ x y k, vgetqLane (vaddq x y) k = A.add (vgetqLane x k) (vgetqLane y k)
  lane_sub : ∀ x y k, vgetqLane (vsubq x y) k = A.sub (vgetqLane x k) (vgetqLane y k)
  lane_mla : ∀ acc x y k, vgetqLane (vmlaq acc x y) k =
    A.add (vgetqLane acc k) (A.mul (vgetqLane x k) (vgetqLane y k))

/-- Registers as four values side by side. -/
def Neon.lanewise {α : Type} (A : Arith α) : Neon A where
  Reg := Fin 4 → α
  vgetqLane x k := x k
  vdupqN x := fun _ => x
  vld1q x0 x1 x2 x3 := ![x0, x1, x2, x3]
  vmulq x y := fun k => A.mul (x k) (y k)
  vaddq x y := fun k => A.add (x k) (y k)
  vsubq x y := fun k => A.sub (x k) (y k)
  vmlaq acc x y := fun k => A.add (acc k) (A.mul (x k) (y k))
  lane_dup _ _ := rfl
  lane_ld _ _ _ _ _ := rfl
  lane_mul _ _ _ := rfl
  lane_add _ _ _ := rfl
  lane_sub _ _ _ := rfl
  lane_mla _ _ _ _ := rfl

namespace Kernels

variable {α : Type} (A : Arith α)

/-- The tail loop of `dot_scalar` and of `dot_neon`. -/
def dotTail (s : α) : List α → List α → α
  | a :: as, b :: bs => dotTail (A.add s (A.mul a b)) as bs
  | _, _ => s

/-- The four accumulators of `dot_scalar`, then the tail. -/
def dotLoop (sum0 sum1 sum2 sum3 : α) : List α → List α → α
  | a0 :: a1 :: a2 :: a3 :: as, b0 :: b1 :: b2 :: b3 :: bs =>
    dotLoop (A.add sum0 (A.mul a0 b0)) (A.add sum1 (A.mul a1 b1)) (A.add sum2 (A.mul a2 b2))
      (A.add sum3 (A.mul a3 b3)) as bs
  | as, bs => dotTail A (A.add (A.add sum0 sum1) (A.add sum2 sum3)) as bs

/-- `dot_scalar`. -/
def dotScalar (a b : List α) : α := dotLoop A A.zero A.zero A.zero A.zero a b

/-- The tail loop of `l2_scalar` and of `l2_neon`. -/
def l2Tail (s : α) : List α → List α → α
  | a :: as, b :: bs =>
    let d := A.sub a b
    l2Tail (A.add s (A.mul d d)) as bs
  | _, _ => s

/-- The four accumulators of `l2_scalar`, then the tail. -/
def l2Loop (sum0 sum1 sum2 sum3 : α) : List α → List α → α
  | a0 :: a1 :: a2 :: a3 :: as, b0 :: b1 :: b2 :: b3 :: bs =>
    let d0 := A.sub a0 b0
    let d1 := A.sub a1 b1
    let d2 := A.sub a2 b2
    let d3 := A.sub a3 b3
    l2Loop (A.add sum0 (A.mul d0 d0)) (A.add sum1 (A.mul d1 d1)) (A.add sum2 (A.mul d2 d2))
      (A.add sum3 (A.mul d3 d3)) as bs
  | as, bs => l2Tail A (A.add (A.add sum0 sum1) (A.add sum2 sum3)) as bs

/-- `l2_scalar`. -/
def l2Scalar (a b : List α) : α := l2Loop A A.zero A.zero A.zero A.zero a b

section Neon

variable {A} (N : Neon A)

/-- The horizontal sum `(s0 + s1) + (s2 + s3)`. -/
def reduce (acc : N.Reg) : α :=
  let s0 := N.vgetqLane acc 0
  let s1 := N.vgetqLane acc 1
  let s2 := N.vgetqLane acc 2
  let s3 := N.vgetqLane acc 3
  A.add (A.add s0 s1) (A.add s2 s3)

/-- The loop of `dot_neon`, the horizontal sum, then the tail. -/
def dotNeonLoop (acc : N.Reg) : List α → List α → α
  | a0 :: a1 :: a2 :: a3 :: as, b0 :: b1 :: b2 :: b3 :: bs =>
    let va := N.vld1q a0 a1 a2 a3
    let vb := N.vld1q b0 b1 b2 b3
    let prod := N.vmulq va vb
    dotNeonLoop (N.vaddq acc prod) as bs
  | as, bs => dotTail A (reduce N acc) as bs

/-- `dot_neon`. -/
def dotNeon (a b : List α) : α := dotNeonLoop N (N.vdupqN A.zero) a b

/-- The loop of `l2_neon`, the horizontal sum, then the tail. -/
def l2NeonLoop (acc : N.Reg) : List α → List α → α
  | a0 :: a1 :: a2 :: a3 :: as, b0 :: b1 :: b2 :: b3 :: bs =>
    let va := N.vld1q a0 a1 a2 a3
    let vb := N.vld1q b0 b1 b2 b3
    let d := N.vsubq va vb
    l2NeonLoop (N.vmlaq acc d d) as bs
  | as, bs => l2Tail A (reduce N acc) as bs

/-- `l2_neon`. -/
def l2Neon (a b : List α) : α := l2NeonLoop N (N.vdupqN A.zero) a b

end Neon

/-! ### The functions the store calls

`target` is `none` except on aarch64. -/

variable (target : Option (Neon A))

/-- `dot`. -/
def dot (a b : List α) : α :=
  match target with
  | some N => dotNeon N a b
  | none => dotScalar A a b

/-- `l2`. -/
def l2 (a b : List α) : α :=
  match target with
  | some N => l2Neon N a b
  | none => l2Scalar A a b

/-- `cosine`. -/
def cosine (a b : List α) : α :=
  let d := dot A target a b
  let na := A.sqrt (dot A target a a)
  let nb := A.sqrt (dot A target b b)
  let denom := A.mul na nb
  if A.isZero denom then A.one else A.sub A.one (A.div d denom)

/-- `distance`. -/
def distance (metric : MetricKind) (a b : List α) : α :=
  match metric with
  | .dot => dot A target a b
  | .cosine => cosine A target a b
  | .l2 => l2 A target a b

end Kernels

end FusionStore
