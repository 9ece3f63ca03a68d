import Mathlib.Algebra.Order.Field.Rat
import Mathlib.Tactic.Linarith
import Mathlib.Tactic.Ring
import FusionStore.Native.Simd

/-!
# What the distance kernels compute

The NEON kernels keep in lane `k` what the scalar kernels keep in `sum_k`, so they perform the
same operations in the same order, whatever the operations are.  Over exact arithmetic both
compute plain sums: `l2` the squared distance of the two vectors, which is least for equal
ones, `dot` their inner product, which among vectors of one norm is greatest for equal ones.

## Key results

- `Kernels.neon_eq_scalar`: the NEON kernels and the scalar kernels agree
- `Kernels.distance_toArith`: the kernels the index uses are an instance
- `Kernels.identical_first_iff`: which metric ranks an identical vector first
-/

namespace FusionStore

namespace Kernels

/-! ### NEON and scalar kernels -/

section Neon

variable {α : Type} {A : Arith α} (N : Neon A)

/-- Lane by lane, one step of the NEON loop is one step of the scalar loop. -/
theorem dotNeonLoop_eq (acc : N.Reg) (as bs : List α) :
    dotNeonLoop N acc as bs =
      dotLoop A (N.vgetqLane acc 0) (N.vgetqLane acc 1) (N.vgetqLane acc 2) (N.vgetqLane acc 3)
        as bs := by
  fun_induction dotNeonLoop N acc as bs with
  | case1 acc a0 a1 a2 a3 as b0 b1 b2 b3 bs va vb prod ih =>
    rw [ih, dotLoop]
    simp only [prod, va, vb, N.lane_add, N.lane_mul, N.lane_ld]
    rfl
  | case2 acc as bs hshort =>
    -- fewer than four elements are left
    rw [dotLoop, reduce]
    exact hshort

theorem l2NeonLoop_eq (acc : N.Reg) (as bs : List α) :
    l2NeonLoop N acc as bs =
      l2Loop A (N.vgetqLane acc 0) (N.vgetqLane acc 1) (N.vgetqLane acc 2) (N.vgetqLane acc 3)
        as bs := by
  fun_induction l2NeonLoop N acc as bs with
  | case1 acc a0 a1 a2 a3 as b0 b1 b2 b3 bs va vb d ih =>
    rw [ih, l2Loop]
    simp only [d, va, vb, N.lane_mla, N.lane_sub, N.lane_ld]
    rfl
  | case2 acc as bs hshort =>
    rw [l2Loop, reduce]
    exact hshort

/-- The NEON kernels are the scalar kernels, for every interpretation of the operations and
    every length. -/
theorem neon_eq_scalar (a b : List α) :
    dotNeon N a b = dotScalar A a b ∧ l2Neon N a b = l2Scalar A a b := by
  constructor
  · rw [dotNeon, dotNeonLoop_eq]
    simp only [N.lane_dup]
    rfl
  · rw [l2Neon, l2NeonLoop_eq]
    simp only [N.lane_dup]
    rfl

end Neon

/-- Which kernels the target has does not matter. -/
theorem distance_target {α : Type} (A : Arith α) (target : Option (Neon A))
    (metric : MetricKind) (a b : List α) :
    distance A target metric a b = distance A none metric a b := by
  cases target with
  | none => rfl
  | some N =>
    cases metric with
    | dot => exact (neon_eq_scalar N a b).1
    | l2 => exact (neon_eq_scalar N a b).2
    | cosine =>
      show cosine A (some N) a b = cosine A none a b
      simp only [cosine, dot, (neon_eq_scalar N _ _).1]
      rfl

/-! ### The kernels of the index -/

/-- The distances of the index are these kernels over `f32`, on every target. -/
theorem distance_toArith (A : F32Arith) (target : Option (Neon A.toArith))
    (metric : MetricKind) (a b : List F32) :
    distance A.toArith target metric a b = Simd.distance A metric a b :=
  distance_target A.toArith target metric a b

/-! ### Exact arithmetic -/

/-- The rationals, with any function for the square root. -/
def ratArith (sqrt : ℚ → ℚ) : Arith ℚ where
  zero := 0
  one := 1
  add x y := x + y
  sub x y := x - y
  mul x y := x * y
  div x y := x / y
  sqrt := sqrt
  isZero x := decide (x = 0)

/-- The inner product. -/
def inner (a b : List ℚ) : ℚ := (List.zipWith (fun x y => x * y) a b).sum

/-- The squared Euclidean distance. -/
def sqDist (a b : List ℚ) : ℚ := (List.zipWith (fun x y => (x - y) * (x - y)) a b).sum

variable (sqrt : ℚ → ℚ)

theorem dotTail_eq (s : ℚ) (as bs : List ℚ) :
    dotTail (ratArith sqrt) s as bs = s + inner as bs := by
  fun_induction dotTail (ratArith sqrt) s as bs with
  | case1 s a as b bs ih =>
    rw [ih]
    simp only [ratArith, inner, List.zipWith_cons_cons, List.sum_cons]
    ring
  | case2 as s bs hshort =>
    -- one of the slices is at its end
    cases as with
    | nil => simp [inner]
    | cons a as =>
      cases bs with
      | nil => simp [inner]
      | cons b bs => exact (hshort a as b bs rfl rfl).elim

theorem dotLoop_eq (s0 s1 s2 s3 : ℚ) (as bs : List ℚ) :
    dotLoop (ratArith sqrt) s0 s1 s2 s3 as bs = (s0 + s1 + (s2 + s3)) + inner as bs := by
  fun_induction dotLoop (ratArith sqrt) s0 s1 s2 s3 as bs with
  | case1 s0 s1 s2 s3 a0 a1 a2 a3 as b0 b1 b2 b3 bs ih =>
    rw [ih]
    simp only [ratArith, inner, List.zipWith_cons_cons, List.sum_cons]
    ring
  | case2 s0 s1 s2 s3 as bs hshort => exact dotTail_eq sqrt _ as bs

/-- `dot_scalar` is the inner product, for every length. -/
theorem dotScalar_eq (as bs : List ℚ) : dotScalar (ratArith sqrt) as bs = inner as bs := by
  rw [dotScalar, dotLoop_eq]
  simp [ratArith]

theorem l2Tail_eq (s : ℚ) (as bs : List ℚ) :
    l2Tail (ratArith sqrt) s as bs = s + sqDist as bs := by
  fun_induction l2Tail (ratArith sqrt) s as bs with
  | case1 s a as b bs d ih =>
    rw [ih]
    simp only [d, ratArith, sqDist, List.zipWith_cons_cons, List.sum_cons]
    ring
  | case2 as s bs hshort =>
    cases as with
    | nil => simp [sqDist]
    | cons a as =>
      cases bs with
      | nil => simp [sqDist]
      | cons b bs => exact (hshort a as b bs rfl rfl).elim

theorem l2Loop_eq (s0 s1 s2 s3 : ℚ) (as bs : List ℚ) :
    l2Loop (ratArith sqrt) s0 s1 s2 s3 as bs = (s0 + s1 + (s2 + s3)) + sqDist as bs := by
  fun_induction l2Loop (ratArith sqrt) s0 s1 s2 s3 as bs with
  | case1 s0 s1 s2 s3 a0 a1 a2 a3 as b0 b1 b2 b3 bs d0 d1 d2 d3 ih =>
    rw [ih]
    simp only [d0, d1, d2, d3, ratArith, sqDist, List.zipWith_cons_cons, List.sum_cons]
    ring
  | case2 s0 s1 s2 s3 as bs hshort => exact l2Tail_eq sqrt _ as bs

/-- `l2_scalar` is the squared distance, for every length. -/
theorem l2Scalar_eq (as bs : List ℚ) : l2Scalar (ratArith sqrt) as bs = sqDist as bs := by
  rw [l2Scalar, l2Loop_eq]
  simp [ratArith]

/-! ### Equal and unequal vectors of one norm -/

theorem sqDist_nonneg (as bs : List ℚ) : 0 ≤ sqDist as bs := by
  induction as generalizing bs with
  | nil => simp [sqDist]
  | cons a as ih =>
    cases bs with
    | nil => simp [sqDist]
    | cons b bs =>
      have hhead := mul_self_nonneg (a - b)
      have htail := ih bs
      simp only [sqDist, List.zipWith_cons_cons, List.sum_cons] at htail ⊢
      linarith

/-- The binomial formula, summed up. -/
theorem sqDist_eq {as bs : List ℚ} (h : as.length = bs.length) :
    sqDist as bs = inner as as + inner bs bs - 2 * inner as bs := by
  induction as generalizing bs with
  | nil =>
    obtain rfl := List.length_eq_zero_iff.mp h.symm
    simp [sqDist, inner]
  | cons a as ih =>
    cases bs with
    | nil => simp at h
    | cons b bs =>
      have htail := ih (Nat.succ.inj h)
      simp only [sqDist, inner, List.zipWith_cons_cons, List.sum_cons] at htail ⊢
      rw [htail]
      ring

theorem sqDist_self (as : List ℚ) : sqDist as as = 0 := by
  rw [sqDist_eq rfl]
  ring

theorem sqDist_eq_zero_iff {as bs : List ℚ} (h : as.length = bs.length) :
    sqDist as bs = 0 ↔ as = bs := by
  constructor
  · intro hz
    induction as generalizing bs with
    | nil => exact (List.length_eq_zero_iff.mp h.symm).symm
    | cons a as ih =>
      cases bs with
      | nil => simp at h
      | cons b bs =>
        -- a sum of squares is zero only if every square is
        have hhead := mul_self_nonneg (a - b)
        have htail := sqDist_nonneg as bs
        have hsum : (a - b) * (a - b) + sqDist as bs = 0 := by
          simpa only [sqDist, List.zipWith_cons_cons, List.sum_cons] using hz
        have hab : (a - b) * (a - b) = 0 := by linarith
        have hrest : sqDist as bs = 0 := by linarith
        rw [sub_eq_zero.mp (mul_self_eq_zero.mp hab), ih (Nat.succ.inj h) hrest]
  · rintro rfl
    exact sqDist_self as

/-- Among vectors of one norm the inner product is greatest for equal ones. -/
theorem inner_self_le_iff {q b : List ℚ} (hlen : q.length = b.length)
    (hnorm : inner q q = inner b b) : inner q q ≤ inner q b ↔ q = b := by
  have hbinom := sqDist_eq hlen
  have hpos := sqDist_nonneg q b
  rw [← sqDist_eq_zero_iff hlen, hbinom]
  constructor
  · intro hle
    linarith
  · intro hz
    linarith

/-- By ascending distance a vector of the query's norm can never come before the query itself,
    unless it is the query, exactly under `L2`; under `Dot` every vector of the norm comes
    first. -/
theorem identical_first_iff (target : Option (Neon (ratArith sqrt))) (metric : MetricKind)
    (hmetric : metric = .l2 ∨ metric = .dot) (q b : List ℚ) (hlen : q.length = b.length)
    (hnorm : inner q q = inner b b) :
    (distance (ratArith sqrt) target metric q q ≤ distance (ratArith sqrt) target metric q b ↔
      metric = .l2 ∨ q = b) ∧
    (distance (ratArith sqrt) target metric q b ≤ distance (ratArith sqrt) target metric q q ↔
      metric = .dot ∨ q = b) := by
  rw [distance_target, distance_target (ratArith sqrt) target metric q b]
  have hpos := sqDist_nonneg q b
  obtain rfl | rfl := hmetric
  · simp only [distance, l2, l2Scalar_eq, sqDist_self, true_or, reduceCtorEq, false_or]
    refine ⟨iff_of_true hpos trivial, ?_⟩
    rw [← sqDist_eq_zero_iff hlen]
    exact ⟨fun hle => le_antisymm hle hpos, fun hz => hz.le⟩
  · simp only [distance, dot, dotScalar_eq, true_or, reduceCtorEq, false_or]
    refine ⟨inner_self_le_iff hlen hnorm, iff_of_true ?_ trivial⟩
    have hbinom := sqDist_eq hlen
    linarith

/-- Two orthogonal unit vectors, on the NEON target. -/
theorem identical_first_orthogonal :
    distance (ratArith id) (some (.lanewise _)) .l2 [1, 0] [1, 0] ≤
      distance (ratArith id) (some (.lanewise _)) .l2 [1, 0] [0, 1] :=
  (identical_first_iff id (some (.lanewise _)) .l2 (.inl rfl) [1, 0] [0, 1] rfl
    (by simp [inner])).1.mpr (.inl rfl)

/-- Under `Dot` the vector orthogonal to the query is nearer than the query itself. -/
theorem dot_ranks_identical_last :
    inner [1, 0] [1, 0] = inner [0, 1] [0, 1] ∧
    ¬(distance (ratArith id) none .dot [1, 0] [1, 0] ≤
      distance (ratArith id) none .dot [1, 0] [0, 1]) := by
  simp [inner, distance, dot, dotScalar_eq]

end Kernels

end FusionStore
