import Mathlib.Algebra.Order.BigOperators.Group.Finset

/-!
# A counter over the entries of a table

A counter `used` is kept beside a table of sizes: setting an entry books its growth,
clearing it gives its size back.  Shrinking an entry gives nothing back, so the counter
may exceed the sum of the sizes.  `Slack p used len` says by how much at least; it never
gets smaller.
-/

namespace Ledger

variable {κ : Type*} {p used : Nat} {len : κ → Nat}

/-- The counter exceeds the sizes of any finite set of entries by `p`. -/
def Slack (p used : Nat) (len : κ → Nat) : Prop := ∀ K : Finset κ, ∑ k ∈ K, len k + p ≤ used

/-- An empty ledger has no slack. -/
theorem slack_zero : Slack 0 0 (fun _ : κ => 0) := by
  intro K
  simp

/-- Where only finitely many entries count, the slack can be computed. -/
theorem slack_of_support (K : Finset κ) (hK : ∀ k, k ∉ K → len k = 0)
    (h : ∑ k ∈ K, len k + p ≤ used) : Slack p used len := by
  intro L
  have hle : ∑ k ∈ L, len k ≤ ∑ k ∈ K, len k := by
    apply Finset.sum_le_sum_of_ne_zero
    intro k _ hne
    by_contra hk
    exact hne (hK k hk)
  omega

variable [DecidableEq κ]

private theorem sum_insert_erase (K : Finset κ) (k : κ) (len : κ → Nat) :
    ∑ j ∈ insert k K, len j = len k + ∑ j ∈ K.erase k, len j := by
  rw [← Finset.add_sum_erase _ _ (Finset.mem_insert_self k K), Finset.erase_insert_eq_erase]

private theorem sum_erase_update (K : Finset κ) (k : κ) (len : κ → Nat) (n : Nat) :
    ∑ j ∈ K.erase k, Function.update len k n j = ∑ j ∈ K.erase k, len j := by
  apply Finset.sum_congr rfl
  intro j hj
  rw [Function.update_of_ne (Finset.ne_of_mem_erase hj)]

/-- Setting an entry exchanges its size in the sum. -/
theorem sum_update_add {K : Finset κ} {k : κ} (hk : k ∈ K) (len : κ → Nat) (n : Nat) :
    ∑ j ∈ K, Function.update len k n j + len k = ∑ j ∈ K, len j + n := by
  rw [← Finset.add_sum_erase _ _ hk, ← Finset.add_sum_erase K len hk, sum_erase_update,
    Function.update_self]
  omega

private theorem sum_update (K : Finset κ) (k : κ) (len : κ → Nat) (n : Nat) :
    ∑ j ∈ K, Function.update len k n j ≤ n + ∑ j ∈ K.erase k, len j := by
  have herase := sum_erase_update K k len n
  have hle : ∑ j ∈ K, Function.update len k n j ≤ ∑ j ∈ insert k K, Function.update len k n j :=
    Finset.sum_le_sum_of_subset (Finset.subset_insert k K)
  rw [sum_insert_erase, Function.update_self, herase] at hle
  exact hle

/-- Setting an entry keeps the slack. -/
theorem Slack.set (h : Slack p used len) (k : κ) (n : Nat) :
    Slack p (used + (n - len k)) (Function.update len k n) := by
  intro K
  have hsum := sum_update K k len n
  have hall := h (insert k K)
  rw [sum_insert_erase] at hall
  omega

/-- Clearing an entry keeps it too. -/
theorem Slack.clear (h : Slack p used len) (k : κ) :
    Slack p (used - len k) (Function.update len k 0) := by
  intro K
  have hsum := sum_update K k len 0
  have hall := h (insert k K)
  rw [sum_insert_erase] at hall
  omega

/-- Setting an entry in a table whose entries are all at least as large books at least
    as much. -/
theorem Slack.le_set {g : κ → Nat} (h : Slack p used len) (hle : ∀ k, g k ≤ len k)
    (K : Finset κ) (k : κ) (n : Nat) :
    ∑ j ∈ K, g j + p + (n - g k) ≤ used + (n - len k) := by
  have hall := h (insert k K)
  rw [sum_insert_erase] at hall
  have hrest : ∑ j ∈ K.erase k, g j ≤ ∑ j ∈ K.erase k, len j :=
    Finset.sum_le_sum fun j _ => hle j
  have hg : ∑ j ∈ K, g j ≤ g k + ∑ j ∈ K.erase k, g j := by
    rw [← sum_insert_erase]
    exact Finset.sum_le_sum_of_subset (Finset.subset_insert k K)
  have hk := hle k
  omega

end Ledger
