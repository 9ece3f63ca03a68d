import Mathlib.Data.List.Sort

/-!
# The first `k` of a list

`IsTopK r k xs ys`: `ys` are `k` smallest elements of `xs` in ascending order, or all of
them if there are fewer.  Ties may be broken in any way.  If every one of several lists is
cut to its first `k`, sorting what is left and cutting it again gives the first `k` of all
lists together (`IsTopK.flatten`): an element that was cut has `k` elements of its own list
before it.
-/

namespace TopK

variable {α : Type*} {r : α → α → Prop} {k : Nat}

/-- `ys` are the first `k` elements of `xs`. -/
structure IsTopK (r : α → α → Prop) (k : Nat) (xs ys : List α) : Prop where
  sorted : ys.Pairwise r
  rest : ∃ rest, xs.Perm (ys ++ rest) ∧ ∀ y ∈ ys, ∀ z ∈ rest, r y z
  length : ys.length = min k xs.length

/-- The best elements are among the elements. -/
theorem IsTopK.subperm {xs ys : List α} (h : IsTopK r k xs ys) : ys.Subperm xs := by
  obtain ⟨rest, hperm, -⟩ := h.rest
  exact (List.sublist_append_left ys rest).subperm.trans hperm.symm.subperm

/-- Keys that do not repeat do not repeat among the best. -/
theorem IsTopK.nodup_map {β : Type*} {f : α → β} {xs ys : List α} (h : IsTopK r k xs ys)
    (hnd : (xs.map f).Nodup) : (ys.map f).Nodup := by
  obtain ⟨rest, hperm, -⟩ := h.rest
  have hmap := (hperm.map f).nodup_iff.mp hnd
  rw [List.map_append] at hmap
  exact (List.nodup_append'.mp hmap).1

/-- Only the order of the elements of the list counts. -/
theorem IsTopK.imp {s : α → α → Prop} {xs ys : List α} (h : IsTopK r k xs ys)
    (himp : ∀ a ∈ xs, ∀ b ∈ xs, r a b → s a b) : IsTopK s k xs ys := by
  have hmem : ∀ y ∈ ys, y ∈ xs := fun y hy => h.subperm.subset hy
  obtain ⟨rest, hperm, hle⟩ := h.rest
  refine ⟨?_, ⟨rest, hperm, fun y hy z hz => ?_⟩, h.length⟩
  · exact h.sorted.imp_of_mem fun ha hb => himp _ (hmem _ ha) _ (hmem _ hb)
  · exact himp y (hmem y hy) z (hperm.mem_iff.mpr (List.mem_append_right _ hz)) (hle y hy z hz)

/-- What is true of the parts that were kept and of the rests that were cut. -/
theorem exists_rests {xss yss : List (List α)} (h : List.Forall₂ (IsTopK r k) xss yss) :
    ∃ rests, xss.flatten.Perm (yss.flatten ++ rests) ∧
      ∀ z ∈ rests, ∃ ys ∈ yss, ys.length = k ∧ ∀ y ∈ ys, r y z := by
  induction h with
  | nil => exact ⟨[], by simp, by simp⟩
  | @cons xs ys xss yss hxs _ ih =>
    obtain ⟨rest, hperm, hle⟩ := hxs.rest
    obtain ⟨rests, hperms, hrests⟩ := ih
    refine ⟨rest ++ rests, ?_, ?_⟩
    · -- what each part has cut off, put together at the end
      have hswap : ((ys ++ rest) ++ (yss.flatten ++ rests)).Perm
          ((ys ++ yss.flatten) ++ (rest ++ rests)) := by
        rw [List.append_assoc, List.append_assoc]
        refine List.Perm.append_left ys ?_
        rw [← List.append_assoc, ← List.append_assoc]
        exact List.perm_append_comm.append_right rests
      rw [List.flatten_cons, List.flatten_cons]
      exact (hperm.append hperms).trans hswap
    · intro z hz
      obtain hz | hz := List.mem_append.mp hz
      · refine ⟨ys, List.mem_cons_self, ?_, fun y hy => hle y hy z hz⟩
        -- something was cut, so the part is full
        have hlen := hperm.length_eq
        have hk := hxs.length
        have hpos := List.length_pos_of_mem hz
        rw [List.length_append] at hlen
        omega
      · obtain ⟨ys', hys', hfull, hall⟩ := hrests z hz
        exact ⟨ys', List.mem_cons_of_mem _ hys', hfull, hall⟩

variable [DecidableRel r] [Std.Total r]

/-- Fewer than `k` elements are not at or above one of the first `k`. -/
theorem countP_lt_of_mem_take {zs : List α} (hsorted : zs.Pairwise r) {y : α}
    (hy : y ∈ zs.take k) : zs.countP (fun z => ¬ r y z) < k := by
  obtain ⟨j, hj, rfl⟩ := List.getElem_of_mem hy
  rw [List.length_take] at hj
  have hlt : j < zs.length := by omega
  have hget : (zs.take k)[j] = zs[j] := List.getElem_take
  rw [hget]
  -- from its own place on the list is above the element
  have hafter : (zs.drop j).countP (fun z => ¬ r zs[j] z) = 0 := by
    rw [List.countP_eq_zero]
    intro z hz
    obtain ⟨i, hi, rfl⟩ := List.getElem_of_mem hz
    rw [List.getElem_drop]
    rw [List.length_drop] at hi
    simp only [decide_eq_true_eq, not_not]
    obtain rfl | hpos := Nat.eq_zero_or_pos i
    · exact (Std.Total.total (r := r) zs[j] zs[j]).elim id id
    · exact List.pairwise_iff_getElem.mp hsorted j (j + i) hlt (by omega) (by omega)
  have hsplit : zs.countP (fun z => ¬ r zs[j] z) =
      (zs.take j).countP (fun z => ¬ r zs[j] z) + (zs.drop j).countP fun z => ¬ r zs[j] z := by
    rw [← List.countP_append, List.take_append_drop]
  -- and before its own place there are fewer than `k`
  have hbefore : (zs.take j).countP (fun z => ¬ r zs[j] z) ≤ (zs.take j).length :=
    List.countP_le_length
  rw [List.length_take] at hbefore
  omega

/-- Cutting every list first loses nothing. -/
theorem IsTopK.flatten [IsTrans α r] {xss yss : List (List α)}
    (h : List.Forall₂ (IsTopK r k) xss yss) :
    IsTopK r k xss.flatten ((yss.flatten.insertionSort r).take k) := by
  have hsorted := List.pairwise_insertionSort r yss.flatten
  have hperm := List.perm_insertionSort r yss.flatten
  obtain ⟨rests, hall, hrests⟩ := exists_rests h
  generalize yss.flatten.insertionSort r = zs at hsorted hperm ⊢
  refine ⟨hsorted.sublist (List.take_sublist _ _), ⟨zs.drop k ++ rests, ?_, ?_⟩, ?_⟩
  · rw [← List.append_assoc, List.take_append_drop]
    exact hall.trans (hperm.symm.append_right rests)
  · intro y hy z hz
    obtain hz | hz := List.mem_append.mp hz
    · rw [← List.take_append_drop k zs] at hsorted
      exact (List.pairwise_append.mp hsorted).2.2 y hy z hz
    · -- an element that was cut has `k` elements of its part below it
      obtain ⟨ys, hys, hfull, hle⟩ := hrests z hz
      by_contra hyz
      have hbelow : ys.countP (fun x => ¬ r y x) = ys.length := by
        rw [List.countP_eq_length]
        intro x hx
        simp only [decide_eq_true_eq]
        exact fun hyx => hyz (IsTrans.trans y x z hyx (hle x hx))
      have hsub : ys.countP (fun x => ¬ r y x) ≤ zs.countP (fun x => ¬ r y x) := by
        rw [hperm.countP_eq]
        exact (List.sublist_flatten_of_mem hys).countP_le
      have hfew := countP_lt_of_mem_take hsorted hy
      omega
  · have hlen := hall.length_eq
    have hzs := hperm.length_eq
    rw [List.length_append] at hlen
    rw [List.length_take]
    -- a full part alone gives `k` elements
    by_cases hnil : rests = []
    · simp only [hnil, List.length_nil] at hlen
      omega
    · obtain ⟨z, hz⟩ := List.exists_mem_of_ne_nil _ hnil
      obtain ⟨ys, hys, hfull, -⟩ := hrests z hz
      have hle := (List.sublist_flatten_of_mem hys).length_le
      omega

end TopK
