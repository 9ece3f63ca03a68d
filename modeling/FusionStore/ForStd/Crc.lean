import Mathlib.Algebra.GroupWithZero.Nat
import Mathlib.Logic.Function.Iterate

/-!
# Reflected CRCs

A reflected CRC of width `w` shifts its register right and folds the polynomial in whenever
a one falls out (`round`); a chunk of `k` bits is XORed into the low end and followed by `k`
rounds (`absorb`).  A round is linear, and injective if the polynomial has its top bit set.
Bits that have not reached the low end yet only move, so a few chunks in a row can be XORed
in all at once (`digest_eq`): data that differ in at most `w` bits in a row have different
checksums (`digest_ne_of_window`).
-/

namespace Crc

variable {w : Nat} {poly : BitVec w}

/-- One shift of the register. -/
def round (poly x : BitVec w) : BitVec w :=
  if x.getLsbD 0 then (x >>> 1) ^^^ poly else x >>> 1

/-- A chunk of `k` bits. -/
def absorb (poly : BitVec w) (k : Nat) (c x : BitVec w) : BitVec w := (round poly)^[k] (c ^^^ x)

/-- The register after the chunks `xs`. -/
def digest (poly : BitVec w) (k : Nat) (c : BitVec w) (xs : List (BitVec w)) : BitVec w :=
  xs.foldl (absorb poly k) c

/-! ### Rounds -/

/-- A round is linear. -/
theorem round_xor (poly a b : BitVec w) : round poly (a ^^^ b) = round poly a ^^^ round poly b := by
  simp only [round, BitVec.getLsbD_xor, BitVec.ushiftRight_xor_distrib]
  cases a.getLsbD 0 <;> cases b.getLsbD 0
  · simp
  · simp [BitVec.xor_assoc]
  · simp only [Bool.xor_false, Bool.false_eq_true, if_true, if_false]
    rw [BitVec.xor_assoc, BitVec.xor_assoc, BitVec.xor_comm poly]
  · -- the polynomial cancels
    simp only [bne_self_eq_false, Bool.false_eq_true, if_true, if_false]
    rw [BitVec.xor_assoc, BitVec.xor_comm (b >>> 1), ← BitVec.xor_assoc poly, BitVec.xor_self,
      BitVec.zero_xor]

/-- So are several. -/
theorem iterate_round_xor (poly a b : BitVec w) (n : Nat) :
    (round poly)^[n] (a ^^^ b) = (round poly)^[n] a ^^^ (round poly)^[n] b := by
  induction n generalizing a b with
  | zero => rfl
  | succ n ih =>
    rw [Function.iterate_succ_apply, round_xor, ih]
    rfl

/-- The top bit tells whether the polynomial was folded in. -/
theorem eq_zero_of_round (hpoly : poly.msb = true) {x : BitVec w} (h : round poly x = 0#w) :
    x = 0#w := by
  unfold round at h
  have hw : 0 < w := by
    by_contra hw
    obtain rfl : w = 0 := by omega
    simp [BitVec.msb] at hpoly
  split at h
  · have htop := congrArg BitVec.msb h
    simp [hpoly] at htop
  · rename_i hlow
    apply BitVec.eq_of_getLsbD_eq
    intro i hi
    cases i with
    | zero => simpa using hlow
    | succ i =>
      have hbit := congrArg (fun y => y.getLsbD i) h
      simpa [Nat.add_comm 1 i] using hbit

/-- A round loses nothing if the polynomial has its top bit. -/
theorem round_injective (hpoly : poly.msb = true) : Function.Injective (round poly) := by
  intro a b h
  have hzero : round poly (a ^^^ b) = 0#w := by rw [round_xor, h, BitVec.xor_self]
  exact BitVec.xor_eq_zero_iff.mp (eq_zero_of_round hpoly hzero)

/-- Bits above the low end only move. -/
theorem round_shiftLeft (poly z : BitVec w) (n : Nat) (h : z.toNat < 2 ^ (w - (n + 1))) :
    round poly (z <<< (n + 1)) = z <<< n := by
  have hlow : (z <<< (n + 1)).getLsbD 0 = false := by simp
  rw [round, if_neg (by simp [hlow])]
  apply BitVec.eq_of_getLsbD_eq
  intro i hi
  have hle : (1 + i - (n + 1)) = i - n := by omega
  simp only [BitVec.getLsbD_ushiftRight, BitVec.getLsbD_shiftLeft, hle]
  by_cases htop : i = w - 1
  · -- the bit that would have fallen off is zero
    have hz : n ≤ i → z.getLsbD (i - n) = false := by
      intro hn
      apply Nat.testBit_lt_two_pow
      have hexp : w - (n + 1) = i - n := by omega
      rwa [← hexp]
    by_cases hn : n ≤ i
    · simp [hz hn]
    · have hlow : 1 + i < n + 1 := by omega
      simp [hlow, show i < n by omega]
  · have h1 : 1 + i < w := by omega
    have h2 : (1 + i < n + 1) ↔ i < n := by omega
    simp [h1, hi, h2]

/-- Zeros that are shifted out feed nothing back. -/
theorem iterate_round_shiftLeft (poly z : BitVec w) (n : Nat) (h : z.toNat < 2 ^ (w - n)) :
    (round poly)^[n] (z <<< n) = z := by
  induction n with
  | zero => simp
  | succ n ih =>
    have hle : 2 ^ (w - (n + 1)) ≤ 2 ^ (w - n) := Nat.pow_le_pow_right (by omega) (by omega)
    rw [Function.iterate_succ_apply, round_shiftLeft poly z n h]
    exact ih (by omega)

/-! ### Chunks -/

/-- Chunks of `k` bits side by side, the first one lowest. -/
def pack (k : Nat) : List (BitVec w) → BitVec w
  | [] => 0#w
  | x :: xs => x ^^^ (pack k xs <<< k)

/-- Packed chunks fit the bits they need. -/
theorem toNat_pack_lt {k : Nat} {xs : List (BitVec w)} (hxs : ∀ x ∈ xs, x.toNat < 2 ^ k)
    (hlen : k * xs.length ≤ w) : (pack k xs).toNat < 2 ^ (k * xs.length) := by
  induction xs with
  | nil => simp [pack]
  | cons x xs ih =>
    rw [List.length_cons, Nat.mul_succ] at hlen ⊢
    have hx := hxs x List.mem_cons_self
    have hrest := ih (fun y hy => hxs y (List.mem_cons_of_mem _ hy)) (by omega)
    have hwide : 2 ^ k ≤ 2 ^ (k * xs.length + k) := Nat.pow_le_pow_right (by omega) (by omega)
    rw [pack, BitVec.toNat_xor]
    refine Nat.xor_lt_two_pow (by omega) ?_
    rw [BitVec.toNat_shiftLeft, Nat.shiftLeft_eq]
    have hmul : (pack k xs).toNat * 2 ^ k < 2 ^ (k * xs.length + k) := by
      rw [Nat.pow_add]
      exact Nat.mul_lt_mul_of_pos_right hrest (Nat.two_pow_pos k)
    exact Nat.lt_of_le_of_lt (Nat.mod_le _ _) hmul

/-- A few chunks are XORed in all at once. -/
theorem digest_eq (poly : BitVec w) {k : Nat} (c : BitVec w) {xs : List (BitVec w)}
    (hxs : ∀ x ∈ xs, x.toNat < 2 ^ k) (hlen : k * xs.length ≤ w) :
    digest poly k c xs = (round poly)^[k * xs.length] (c ^^^ pack k xs) := by
  induction xs generalizing c with
  | nil => simp [digest, pack]
  | cons x xs ih =>
    rw [List.length_cons, Nat.mul_succ] at hlen ⊢
    have hrest : ∀ y ∈ xs, y.toNat < 2 ^ k := fun y hy => hxs y (List.mem_cons_of_mem _ hy)
    have hpack := toNat_pack_lt hrest (by omega)
    have hwide : 2 ^ (k * xs.length) ≤ 2 ^ (w - k) := Nat.pow_le_pow_right (by omega) (by omega)
    -- what comes later passes through the first `k` rounds
    have hlater : pack k xs = (round poly)^[k] (pack k xs <<< k) :=
      (iterate_round_shiftLeft poly _ k (by omega)).symm
    calc digest poly k c (x :: xs)
        = digest poly k (absorb poly k c x) xs := rfl
      _ = (round poly)^[k * xs.length] (absorb poly k c x ^^^ pack k xs) := ih _ hrest (by omega)
      _ = (round poly)^[k * xs.length]
            ((round poly)^[k] (c ^^^ x) ^^^ (round poly)^[k] (pack k xs <<< k)) := by
          rw [← hlater, absorb]
      _ = (round poly)^[k * xs.length + k] (c ^^^ pack k (x :: xs)) := by
          rw [← iterate_round_xor, ← Function.iterate_add_apply, pack, BitVec.xor_assoc]

/-- Chunks can be read back from their packing. -/
theorem pack_injective {k : Nat} {xs ys : List (BitVec w)} (hxs : ∀ x ∈ xs, x.toNat < 2 ^ k)
    (hys : ∀ y ∈ ys, y.toNat < 2 ^ k) (hlen : k * xs.length ≤ w) (hsame : xs.length = ys.length)
    (h : pack k xs = pack k ys) : xs = ys := by
  induction xs generalizing ys with
  | nil => exact (List.length_eq_zero_iff.mp hsame.symm).symm
  | cons x xs ih =>
    cases ys with
    | nil => simp at hsame
    | cons y ys =>
      rw [List.length_cons, Nat.mul_succ] at hlen
      simp only [List.length_cons, Nat.add_right_cancel_iff] at hsame
      have hx := hxs x List.mem_cons_self
      have hy := hys y List.mem_cons_self
      have hxs : ∀ z ∈ xs, z.toNat < 2 ^ k := fun z hz => hxs z (List.mem_cons_of_mem _ hz)
      have hys : ∀ z ∈ ys, z.toNat < 2 ^ k := fun z hz => hys z (List.mem_cons_of_mem _ hz)
      -- the low `k` bits are the first chunk
      have hbits : ∀ {z u : BitVec w}, z.toNat < 2 ^ k → ∀ i, k ≤ i →
          (z ^^^ u <<< k).getLsbD i = (u <<< k).getLsbD i := by
        intro z u hz i hi
        have hzero : z.getLsbD i = false := Nat.testBit_lt_two_pow
          (Nat.lt_of_lt_of_le hz (Nat.pow_le_pow_right (by omega) hi))
        rw [BitVec.getLsbD_xor, hzero, Bool.false_xor]
      have hlow : ∀ {u : BitVec w} {i}, i < k → (u <<< k).getLsbD i = false := by
        intro u i hi
        simp [BitVec.getLsbD_shiftLeft, hi]
      -- so the remaining chunks agree
      have hshift : pack k xs <<< k = pack k ys <<< k := by
        apply BitVec.eq_of_getLsbD_eq
        intro i _
        by_cases hi : i < k
        · rw [hlow hi, hlow hi]
        · rw [← hbits hx i (by omega), ← hbits hy i (by omega)]
          exact congrArg (fun z => z.getLsbD i) h
      have hhead : x = y := by
        simp only [pack, hshift] at h
        exact (BitVec.xor_left_inj _).mp h
      have htail : pack k xs = pack k ys := by
        have hpx := toNat_pack_lt hxs (by omega)
        have hpy := toNat_pack_lt hys (by rw [← hsame]; omega)
        have hwide : 2 ^ (k * xs.length) ≤ 2 ^ (w - k) :=
          Nat.pow_le_pow_right (by omega) (by omega)
        rw [← hsame] at hpy
        rw [← iterate_round_shiftLeft 0#w (pack k xs) k (by omega), hshift,
          iterate_round_shiftLeft 0#w (pack k ys) k (by omega)]
      rw [hhead, ih hxs hys (by omega) hsame htail]

/-! ### Windows -/

/-- Different registers digest the same data differently. -/
theorem digest_injective (hpoly : poly.msb = true) (k : Nat) (xs : List (BitVec w)) :
    Function.Injective fun c => digest poly k c xs := by
  induction xs with
  | nil => exact fun a b h => h
  | cons x xs ih =>
    intro a b h
    have hrounds : (round poly)^[k] (a ^^^ x) = (round poly)^[k] (b ^^^ x) := ih h
    exact (BitVec.xor_left_inj _).mp ((round_injective hpoly).iterate k hrounds)

/-- A change of at most `w` bits in a row changes the register. -/
theorem digest_ne_of_window (hpoly : poly.msb = true) {k : Nat} (c : BitVec w)
    (before after : List (BitVec w)) {xs ys : List (BitVec w)} (hxs : ∀ x ∈ xs, x.toNat < 2 ^ k)
    (hys : ∀ y ∈ ys, y.toNat < 2 ^ k) (hlen : k * xs.length ≤ w) (hsame : xs.length = ys.length)
    (hne : xs ≠ ys) :
    digest poly k c (before ++ (xs ++ after)) ≠ digest poly k c (before ++ (ys ++ after)) := by
  intro h
  have happend : ∀ (d : BitVec w) (us vs : List (BitVec w)),
      digest poly k d (us ++ vs) = digest poly k (digest poly k d us) vs :=
    fun d us vs => List.foldl_append
  simp only [happend] at h
  have hwindow := digest_injective hpoly k after h
  rw [digest_eq poly _ hxs hlen, digest_eq poly _ hys (hsame ▸ hlen), ← hsame] at hwindow
  have hpack := (BitVec.xor_right_inj _).mp ((round_injective hpoly).iterate _ hwindow)
  exact hne (pack_injective hxs hys hlen hsame hpack)

end Crc
