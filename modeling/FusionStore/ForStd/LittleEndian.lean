import Mathlib.Data.List.Basic
import Mathlib.Tactic.Ring

/-!
# Little-endian byte codecs

Fixed-width little-endian encoding of natural numbers as byte lists, with the
two round trips.  `toLE n v` keeps the low `n` bytes of `v` and drops the rest,
which is what a fixed-width machine integer does.
-/

namespace LittleEndian

/-- The low `n` bytes of `v`, least significant first. -/
def toLE : Nat → Nat → List UInt8
  | 0, _ => []
  | n + 1, v => UInt8.ofNat v :: toLE n (v / 256)

/-- The number a little-endian byte list denotes. -/
def ofLE : List UInt8 → Nat
  | [] => 0
  | b :: bs => b.toNat + 256 * ofLE bs

@[simp] theorem length_toLE (n v : Nat) : (toLE n v).length = n := by
  induction n generalizing v with
  | zero => rfl
  | succ n ih => simp only [toLE, List.length_cons, ih]

/-- Decoding an encoding recovers the number modulo the width. -/
theorem ofLE_toLE (n v : Nat) : ofLE (toLE n v) = v % 256 ^ n := by
  induction n generalizing v with
  | zero => simp only [toLE, ofLE, Nat.pow_zero, Nat.mod_one]
  | succ n ih =>
    simp only [toLE, ofLE, ih]
    rw [UInt8.toNat_ofNat', show 2 ^ 8 = 256 from rfl, Nat.pow_succ', Nat.mod_mul]

/-- A number that fits is read back. -/
theorem ofLE_toLE_of_lt {n v : Nat} (h : v < 256 ^ n) : ofLE (toLE n v) = v := by
  rw [ofLE_toLE, Nat.mod_eq_of_lt h]

/-- What is read from some bytes fits in as many. -/
theorem ofLE_lt (bs : List UInt8) : ofLE bs < 256 ^ bs.length := by
  induction bs with
  | nil => simp only [ofLE, List.length_nil, Nat.pow_zero, Nat.lt_one_iff]
  | cons b bs ih =>
    have hb := b.toNat_lt
    simp only [ofLE, List.length_cons, Nat.pow_succ']
    omega

/-- Encoding a decoding recovers the bytes. -/
theorem toLE_ofLE (bs : List UInt8) : toLE bs.length (ofLE bs) = bs := by
  induction bs with
  | nil => rfl
  | cons b bs ih =>
    have hb : b.toNat < 256 := b.toNat_lt
    have hdiv : (b.toNat + 256 * ofLE bs) / 256 = ofLE bs := by omega
    have hhead : UInt8.ofNat (b.toNat + 256 * ofLE bs) = b := by
      apply UInt8.toNat_inj.mp
      rw [UInt8.toNat_ofNat']
      omega
    simp only [List.length_cons, toLE, ofLE, hdiv, ih, hhead]

/-- Numbers that agree modulo the width have the same bytes. -/
theorem toLE_mod (n v : Nat) : toLE n (v % 256 ^ n) = toLE n v := by
  have h := toLE_ofLE (toLE n v)
  rwa [ofLE_toLE, length_toLE] at h

/-! ### Tables -/

/-- The numbers of a table, `n` bytes each. -/
def toLEs (n : Nat) (vs : List Nat) : List UInt8 := vs.flatMap (toLE n)

@[simp] theorem length_toLEs (n : Nat) (vs : List Nat) : (toLEs n vs).length = vs.length * n := by
  simp [toLEs, List.length_flatMap]

@[simp] theorem toLEs_append (n : Nat) (vs ws : List Nat) :
    toLEs n (vs ++ ws) = toLEs n vs ++ toLEs n ws := List.flatMap_append

@[simp] theorem toLEs_nil (n : Nat) : toLEs n [] = [] := rfl

@[simp] theorem toLEs_cons (n v : Nat) (vs : List Nat) :
    toLEs n (v :: vs) = toLE n v ++ toLEs n vs := rfl

end LittleEndian
