import FusionStore.Native.Simd

/-!
# The order of `f32`

`total_cmp` is a total order of all bit patterns and sorts results; `<` is the IEEE order,
where the two zeros are equal and NaN compares with nothing.  `ieeeKey` maps a number to its
place in the second one: `total_cmp` refines it, and without NaN it decides `<`.
-/

namespace FusionStore

namespace F32

/-- The place of a number in the IEEE order: that of `total_cmp` with the two zeros made
    one. -/
def ieeeKey (x : F32) : Int := if magnitude x = 0 then 0 else totalKey x

/-- The two orders differ at the zeros only. -/
theorem ieeeKey_cases (x : F32) :
    (magnitude x = 0 ∧ ieeeKey x = 0 ∧ (totalKey x = 0 ∨ totalKey x = -1)) ∨
    (magnitude x ≠ 0 ∧ ieeeKey x = totalKey x ∧ (1 ≤ totalKey x ∨ totalKey x ≤ -2)) := by
  by_cases hz : magnitude x = 0
  · refine Or.inl ⟨hz, if_pos hz, ?_⟩
    unfold totalKey magnitude at *
    split <;> omega
  · refine Or.inr ⟨hz, if_neg hz, ?_⟩
    unfold totalKey magnitude at *
    split <;> omega

/-- So they never contradict each other. -/
theorem ieeeKey_mono {a b : F32} (h : totalKey a ≤ totalKey b) : ieeeKey a ≤ ieeeKey b := by
  have ha := ieeeKey_cases a
  have hb := ieeeKey_cases b
  omega

/-- What is less by value has the smaller key. -/
theorem ieeeKey_lt_of_lt {a b : F32} (h : lt a b = true) : ieeeKey a < ieeeKey b := by
  simp only [lt, Bool.and_eq_true, Bool.not_eq_true', Bool.and_eq_false_iff, beq_eq_false_iff_ne,
    decide_eq_true_eq] at h
  obtain ⟨⟨-, hzero⟩, hlt⟩ := h
  have ha := ieeeKey_cases a
  have hb := ieeeKey_cases b
  omega

/-- Numbers that are not below each other are in the other order. -/
theorem ieeeKey_le_of_not_lt {a b : F32} (ha : isNaN a = false) (hb : isNaN b = false)
    (h : lt a b = false) : ieeeKey b ≤ ieeeKey a := by
  simp only [lt, ha, hb, Bool.not_false, Bool.true_and, Bool.and_eq_false_iff, Bool.not_eq_false',
    Bool.and_eq_true, beq_iff_eq, decide_eq_false_iff_not] at h
  have ha := ieeeKey_cases a
  have hb := ieeeKey_cases b
  omega

/-- And what has no smaller key is not less. -/
theorem lt_eq_false_of_ieeeKey_le {a b : F32} (h : ieeeKey b ≤ ieeeKey a) : lt a b = false := by
  cases hlt : lt a b with
  | false => rfl
  | true =>
    have := ieeeKey_lt_of_lt hlt
    omega

end F32

end FusionStore
