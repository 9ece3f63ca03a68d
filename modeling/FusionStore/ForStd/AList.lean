import Mathlib.Algebra.GroupWithZero.Nat
import Mathlib.Data.List.AList
import Mathlib.Data.List.Perm.Subperm

/-!
# Finite maps built by repeated insertion

Lookups in a map that a loop filled entry by entry, the sum of the sizes of the values of a
map, and when a duplicate-free list covers another one.
-/

namespace AList

variable {α β γ : Type*} [DecidableEq α]

/-- Insert the entries of `es` one after the other. -/
def insertAll (key : γ → α) (val : γ → β) (m : AList fun _ : α => β) (es : List γ) :
    AList fun _ : α => β :=
  es.foldl (fun m e => m.insert (key e) (val e)) m

@[simp] theorem insertAll_nil (key : γ → α) (val : γ → β) (m : AList fun _ : α => β) :
    insertAll key val m [] = m := rfl

@[simp] theorem insertAll_cons (key : γ → α) (val : γ → β) (m : AList fun _ : α => β) (e : γ)
    (es : List γ) :
    insertAll key val m (e :: es) = insertAll key val (m.insert (key e) (val e)) es := rfl

/-- A key that is not written is looked up as before. -/
theorem lookup_insertAll_of_notMem {key : γ → α} {val : γ → β} {m : AList fun _ : α => β}
    {es : List γ} {a : α} (h : a ∉ es.map key) :
    (insertAll key val m es).lookup a = m.lookup a := by
  induction es generalizing m with
  | nil => rfl
  | cons e es ih =>
    simp only [List.map_cons, List.mem_cons, not_or] at h
    rw [insertAll_cons, ih h.2, lookup_insert_ne h.1]

/-- With distinct keys every entry is found again. -/
theorem lookup_insertAll_of_mem {key : γ → α} {val : γ → β} {m : AList fun _ : α => β}
    {es : List γ} (hnd : (es.map key).Nodup) {e : γ} (h : e ∈ es) :
    (insertAll key val m es).lookup (key e) = some (val e) := by
  induction es generalizing m with
  | nil => exact nomatch h
  | cons x es ih =>
    simp only [List.map_cons, List.nodup_cons] at hnd
    rw [insertAll_cons]
    rcases List.mem_cons.mp h with rfl | h
    · rw [lookup_insertAll_of_notMem hnd.1, lookup_insert]
    · exact ih hnd.2 h

/-- What is found was there before or is one of the entries. -/
theorem mem_of_lookup_insertAll {key : γ → α} {val : γ → β} {m : AList fun _ : α => β}
    {es : List γ} {a : α} {b : β} (h : (insertAll key val m es).lookup a = some b) :
    m.lookup a = some b ∨ ∃ e ∈ es, key e = a ∧ val e = b := by
  induction es generalizing m with
  | nil => exact Or.inl h
  | cons e es ih =>
    obtain hm | ⟨e', he', hk⟩ := ih h
    · by_cases ha : a = key e
      · subst ha
        rw [lookup_insert, Option.some.injEq] at hm
        exact Or.inr ⟨e, List.mem_cons_self, rfl, hm⟩
      · rw [lookup_insert_ne ha] at hm
        exact Or.inl hm
    · exact Or.inr ⟨e', List.mem_cons_of_mem _ he', hk⟩

/-- A map has entries exactly when some key is found. -/
theorem entries_ne_nil {m : AList fun _ : α => β} :
    m.entries ≠ [] ↔ ∃ a b, m.lookup a = some b := by
  constructor
  · intro hne
    obtain ⟨e, he⟩ := List.exists_mem_of_ne_nil _ hne
    exact ⟨e.1, e.2, mem_lookup_iff.mpr he⟩
  · rintro ⟨a, b, hl⟩ hnil
    have hmem := mem_lookup_iff.mp hl
    rw [hnil] at hmem
    exact nomatch hmem

/-! ### The size of a map -/

variable (size : β → Nat) (m : AList fun _ : α => β) (a : α)

/-- The sizes of all values together. -/
def total : Nat := (m.entries.map fun e => size e.2).sum

/-- The size of the value under `a`, `0` if there is none. -/
def sizeAt : Nat := ((m.lookup a).map size).getD 0

omit [DecidableEq α] in
@[simp] theorem total_empty : (∅ : AList fun _ : α => β).total size = 0 := rfl

private theorem sum_kerase (l : List (Sigma fun _ : α => β)) :
    ((l.kerase a).map fun e => size e.2).sum + ((l.dlookup a).map size).getD 0 =
      (l.map fun e => size e.2).sum := by
  induction l with
  | nil => rfl
  | cons e l ih =>
    obtain ⟨k, b⟩ := e
    by_cases h : a = k
    · subst h
      simp only [List.kerase_cons_eq, List.dlookup_cons_eq, Option.map_some, Option.getD_some,
        List.map_cons, List.sum_cons]
      omega
    · rw [List.kerase_cons_ne h, List.dlookup_cons_ne l _ h]
      simp only [List.map_cons, List.sum_cons]
      omega

/-- Erasing a key takes its size off the total. -/
theorem total_erase : (m.erase a).total size + m.sizeAt size a = m.total size :=
  sum_kerase size a m.entries

/-- Inserting replaces the size of the key. -/
theorem total_insert (b : β) :
    (m.insert a b).total size + m.sizeAt size a = m.total size + size b := by
  have herase := total_erase size m a
  have hinsert : (m.insert a b).total size = size b + (m.erase a).total size := by
    simp only [total, entries_insert, List.map_cons, List.sum_cons]
    rfl
  omega

/-- No entry is larger than all of them together. -/
theorem sizeAt_le_total : m.sizeAt size a ≤ m.total size := by
  have herase := total_erase size m a
  omega

/-- Two maps whose values agree in size. -/
def SameSizes {γ : Type*} (size : β → Nat) (size' : γ → Nat) (m : AList fun _ : α => β)
    (m' : AList fun _ : α => γ) : Prop :=
  ∀ a, (m.lookup a).map size = (m'.lookup a).map size'

section SameSizes

variable {γ : Type*} {size : β → Nat} {size' : γ → Nat} {m : AList fun _ : α => β}
  {m' : AList fun _ : α => γ}

/-- Maps of the same sizes agree at every key. -/
theorem SameSizes.sizeAt_eq (h : SameSizes size size' m m') (a : α) :
    m.sizeAt size a = m'.sizeAt size' a := by
  rw [sizeAt, sizeAt, h a]

/-- Inserting values of one size keeps the sizes the same. -/
theorem SameSizes.insert (h : SameSizes size size' m m') (a : α) {b : β} {c : γ}
    (hbc : size b = size' c) : SameSizes size size' (m.insert a b) (m'.insert a c) := by
  intro k
  by_cases hk : k = a
  · subst hk
    simp only [lookup_insert, Option.map_some, hbc]
  · rw [lookup_insert_ne hk, lookup_insert_ne hk]
    exact h k

/-- So does erasing one key in both. -/
theorem SameSizes.erase (h : SameSizes size size' m m') (a : α) :
    SameSizes size size' (m.erase a) (m'.erase a) := by
  intro k
  by_cases hk : k = a
  · subst hk
    rw [lookup_erase, lookup_erase]
    rfl
  · rw [lookup_erase_ne hk, lookup_erase_ne hk]
    exact h k

end SameSizes

end AList

/-- A duplicate-free list inside a list that is not longer covers it. -/
theorem List.Nodup.mem_of_length_le {α : Type*} {l₁ l₂ : List α} (hnd : l₁.Nodup) (hsub : l₁ ⊆ l₂)
    (hlen : l₂.length ≤ l₁.length) {a : α} (ha : a ∈ l₂) : a ∈ l₁ :=
  ((List.subperm_of_subset hnd hsub).perm_of_length_le hlen).mem_iff.mpr ha
