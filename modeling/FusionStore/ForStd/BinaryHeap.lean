import Mathlib.Data.List.Basic
import Mathlib.Order.Defs.Unbundled

/-!
# Binary heaps

`std::collections::BinaryHeap`: a max-heap in one array, position `i` below position
`(i - 1) / 2`.  `push` sifts the new last element up; `pop` puts the last element in the
place of the first, sifts it down to the bottom and then up again.  The heap order is part
of the type, so every pop returns a greatest element.  What lies in which place matters as
well: iterating over a heap lists the array.
-/

namespace BinaryHeap

variable {α : Type*} (le : α → α → Bool)

/-- Exchange the elements at two positions. -/
def swap (l : List α) (i j : Nat) : List α :=
  match l[i]?, l[j]? with
  | some a, some b => (l.set i b).set j a
  | _, _ => l

/-- `sift_up(0, pos)`.  One turn of fuel for each position above is enough. -/
def siftUp : Nat → Nat → List α → List α
  | 0, _, l => l
  | fuel + 1, pos, l =>
    if pos = 0 then l
    else
      match l[pos]?, l[(pos - 1) / 2]? with
      | some x, some p =>
        if le x p then l else siftUp fuel ((pos - 1) / 2) (swap l pos ((pos - 1) / 2))
      | _, _ => l

/-- The loop of `sift_down_to_bottom(pos)`: the greater child takes the place of its parent,
    the right one if they are equal.  Returns where the hole ends up. -/
def siftDown : Nat → Nat → List α → List α × Nat
  | 0, pos, l => (l, pos)
  | fuel + 1, pos, l =>
    match l[2 * pos + 1]?, l[2 * pos + 2]? with
    | some a, some b =>
      let child := if le a b then 2 * pos + 2 else 2 * pos + 1
      siftDown fuel child (swap l pos child)
    -- a last child without a sibling
    | some _, none => (swap l pos (2 * pos + 1), 2 * pos + 1)
    | none, _ => (l, pos)

/-- `sift_down_to_bottom(0)`. -/
def siftDownToBottom (l : List α) : List α :=
  let (l, pos) := siftDown le l.length 0 l
  siftUp le pos pos l

/-- No element is greater than its parent. -/
def Ordered (l : List α) : Prop :=
  ∀ i x p, 0 < i → l[i]? = some x → l[(i - 1) / 2]? = some p → le x p = true

variable {le} {l : List α} {pos : Nat}

/-! ### Positions -/

/-- Swapping two places permutes the list. -/
theorem swap_perm (l : List α) (i j : Nat) : (swap l i j).Perm l := by
  unfold swap
  split
  · rename_i a b ha hb
    obtain ⟨hi, rfl⟩ := List.getElem?_eq_some_iff.mp ha
    obtain ⟨hj, rfl⟩ := List.getElem?_eq_some_iff.mp hb
    exact List.set_set_perm hi hj
  · exact .refl _

/-- What stands at each place after the swap. -/
theorem getElem?_swap {i j : Nat} (hi : i < l.length) (hj : j < l.length) (k : Nat) :
    (swap l i j)[k]? = if k = j then l[i]? else if k = i then l[j]? else l[k]? := by
  unfold swap
  rw [List.getElem?_eq_getElem hi, List.getElem?_eq_getElem hj]
  simp only [List.getElem?_set, List.length_set]
  by_cases hkj : k = j
  · subst hkj
    simp [hj]
  · by_cases hki : k = i
    · subst hki
      simp [hkj, Ne.symm hkj, hi]
    · simp [Ne.symm hkj, Ne.symm hki, hkj, hki]

/-! ### Sifting up -/

/-- In order except that the element at `pos` may be greater than its parent; its children
    are in order with both. -/
structure UpOrder (le : α → α → Bool) (l : List α) (pos : Nat) : Prop where
  others : ∀ i x p, 0 < i → i ≠ pos → l[i]? = some x → l[(i - 1) / 2]? = some p → le x p = true
  grand : ∀ i x p, 0 < i → (i - 1) / 2 = pos → 0 < pos → l[i]? = some x →
    l[(pos - 1) / 2]? = some p → le x p = true

/-- If the one open pair is in order, so is the whole heap. -/
theorem UpOrder.done (h : UpOrder le l pos)
    (hpos : ∀ x p, 0 < pos → l[pos]? = some x → l[(pos - 1) / 2]? = some p → le x p = true) :
    Ordered le l := by
  intro i x p hi hx hp
  by_cases hip : i = pos
  · subst hip
    exact hpos x p hi hx hp
  · exact h.others i x p hi hip hx hp

/-- Sifting up permutes the list. -/
theorem siftUp_perm (fuel pos : Nat) (l : List α) : (siftUp le fuel pos l).Perm l := by
  induction fuel generalizing pos l with
  | zero => exact .refl _
  | succ fuel ih =>
    unfold siftUp
    split
    · exact .refl _
    split
    · split
      · exact .refl _
      · exact (ih _ _).trans (swap_perm _ _ _)
    · exact .refl _

/-! ### Sifting down -/

/-- In order except at `pos`, whose children are in order with its parent. -/
structure DownOrder (le : α → α → Bool) (l : List α) (pos : Nat) : Prop where
  others : ∀ i x p, 0 < i → i ≠ pos → (i - 1) / 2 ≠ pos → l[i]? = some x →
    l[(i - 1) / 2]? = some p → le x p = true
  grand : ∀ i x p, 0 < i → (i - 1) / 2 = pos → 0 < pos → l[i]? = some x →
    l[(pos - 1) / 2]? = some p → le x p = true

/-- A child that is not smaller than its sibling changes places with its parent. -/
theorem DownOrder.move (h : DownOrder le l pos) {child : Nat} {y : α} (hpos : pos < l.length)
    (hchild : child = 2 * pos + 1 ∨ child = 2 * pos + 2) (hy : l[child]? = some y)
    (hmax : ∀ i x, (i - 1) / 2 = pos → 0 < i → i ≠ child → l[i]? = some x → le x y = true) :
    DownOrder le (swap l pos child) child := by
  have hlen := (List.getElem?_eq_some_iff.mp hy).1
  have hget := getElem?_swap (l := l) hpos hlen
  refine ⟨fun i x p hi hne hpar hx hp => ?_, fun i x p hi hpar hc0 hx hp => ?_⟩
  · rw [hget, if_neg hne] at hx
    rw [hget, if_neg hpar] at hp
    -- the place that the child has left
    by_cases hip : i = pos
    · subst hip
      rw [if_pos rfl] at hx
      rw [if_neg (by omega)] at hp
      obtain rfl := Option.some.inj (hy.symm.trans hx)
      exact h.grand child y p (by omega) (by omega) hi hy hp
    rw [if_neg hip] at hx
    -- the other child of that place
    by_cases hq : (i - 1) / 2 = pos
    · rw [if_pos hq] at hp
      obtain rfl := Option.some.inj (hy.symm.trans hp)
      exact hmax i x hq hi hne hx
    · rw [if_neg hq] at hp
      exact h.others i x p hi hip hq hx hp
  · -- a place below the child, whose parent has moved up
    rw [hget, if_neg (by omega), if_neg (by omega)] at hx
    rw [hget, if_neg (by omega), if_pos (by omega)] at hp
    obtain rfl := Option.some.inj (hy.symm.trans hp)
    exact h.others i x y hi (by omega) (by omega) hx (hpar ▸ hy)

/-- At the bottom there are no children left to be in order with. -/
theorem DownOrder.bottom (h : DownOrder le l pos) (hleaf : l[2 * pos + 1]? = none) :
    UpOrder le l pos := by
  have hno : ∀ i x, 0 < i → (i - 1) / 2 = pos → l[i]? ≠ some x := by
    intro i x hi hpar hx
    have hlen := (List.getElem?_eq_some_iff.mp hx).1
    have hleaf := List.getElem?_eq_none_iff.mp hleaf
    omega
  refine ⟨fun i x p hi hne hx hp => ?_, fun i x p hi hpar _ hx _ => ?_⟩
  · by_cases hpar : (i - 1) / 2 = pos
    · exact absurd hx (hno i x hi hpar)
    · exact h.others i x p hi hne hpar hx hp
  · exact absurd hx (hno i x hi hpar)

/-- Sifting down permutes the list. -/
theorem siftDown_perm (fuel pos : Nat) (l : List α) : (siftDown le fuel pos l).1.Perm l := by
  induction fuel generalizing pos l with
  | zero => exact .refl _
  | succ fuel ih =>
    unfold siftDown
    split
    · exact (ih _ _).trans (swap_perm _ _ _)
    · exact swap_perm _ _ _
    · exact .refl _

/-- So does sifting to the bottom and up again. -/
theorem siftDownToBottom_perm (l : List α) : (siftDownToBottom le l).Perm l :=
  (siftUp_perm _ _ _).trans (siftDown_perm _ _ _)

/-! ### The heap order -/

variable [Std.Total fun a b => le a b = true]

/-- Sifted down to a leaf, an element is out of order with its parent at most. -/
theorem upOrder_siftDown {fuel : Nat} (h : DownOrder le l pos) (hpos : pos < l.length)
    (hfuel : l.length ≤ fuel + pos) :
    UpOrder le (siftDown le fuel pos l).1 (siftDown le fuel pos l).2 := by
  induction fuel generalizing pos l with
  | zero => omega
  | succ fuel ih =>
    unfold siftDown
    split
    · rename_i a b ha hb
      have hlen := (List.getElem?_eq_some_iff.mp hb).1
      have hlen' := (swap_perm l pos (if le a b = true then 2 * pos + 2 else 2 * pos + 1)).length_eq
      -- of two children the greater one moves up
      refine ih ?_ (by rw [hlen']; split <;> omega) (by rw [hlen']; split <;> omega)
      by_cases hab : le a b = true
      · rw [if_pos hab]
        refine h.move hpos (.inr rfl) hb fun i x hpar hi hne hx => ?_
        obtain rfl : i = 2 * pos + 1 := by omega
        obtain rfl := Option.some.inj (ha.symm.trans hx)
        exact hab
      · rw [if_neg hab]
        refine h.move hpos (.inl rfl) ha fun i x hpar hi hne hx => ?_
        obtain rfl : i = 2 * pos + 2 := by omega
        obtain rfl := Option.some.inj (hb.symm.trans hx)
        exact (Std.Total.total (r := fun a b => le a b = true) a b).resolve_left hab
    · -- a single child moves up, and the bottom is reached
      rename_i a ha hb
      have hlen := (swap_perm l pos (2 * pos + 1)).length_eq
      have hend := List.getElem?_eq_none_iff.mp hb
      refine (h.move hpos (.inl rfl) ha fun i x hpar hi hne hx => ?_).bottom ?_
      · have hi' := (List.getElem?_eq_some_iff.mp hx).1
        omega
      · rw [List.getElem?_eq_none_iff, hlen]
        omega
    · -- no child: this is the bottom
      rename_i hleaf
      exact h.bottom hleaf

variable [IsTrans α fun a b => le a b = true]

/-- The element changes places with a smaller parent. -/
theorem UpOrder.move (h : UpOrder le l pos) {x p : α} (hpos : 0 < pos) (hx : l[pos]? = some x)
    (hp : l[(pos - 1) / 2]? = some p) (hle : le x p = false) :
    UpOrder le (swap l pos ((pos - 1) / 2)) ((pos - 1) / 2) := by
  have hlen := (List.getElem?_eq_some_iff.mp hx).1
  have hlen' := (List.getElem?_eq_some_iff.mp hp).1
  have hpx : le p x = true := by
    have htotal := Std.Total.total (r := fun a b => le a b = true) p x
    rwa [hle, or_iff_left Bool.false_ne_true] at htotal
  have htrans : ∀ {a b c : α}, le a b = true → le b c = true → le a c = true :=
    fun hab hbc => IsTrans.trans (r := fun a b => le a b = true) _ _ _ hab hbc
  have hget := getElem?_swap (l := l) hlen hlen'
  refine ⟨fun i y q hi hne hy hq => ?_, fun i y q hi hpar hq0 hy hq => ?_⟩
  · rw [hget, if_neg hne] at hy
    rw [hget] at hq
    by_cases hip : i = pos
    · -- what was the parent lies below the element now
      subst hip
      rw [if_pos rfl] at hy hq
      obtain rfl := Option.some.inj (hp.symm.trans hy)
      obtain rfl := Option.some.inj (hx.symm.trans hq)
      exact hpx
    rw [if_neg hip] at hy
    by_cases hq1 : (i - 1) / 2 = (pos - 1) / 2
    · -- the sibling
      rw [if_pos hq1] at hq
      obtain rfl := Option.some.inj (hx.symm.trans hq)
      exact htrans (h.others i y p hi hip hy (hq1 ▸ hp)) hpx
    rw [if_neg hq1] at hq
    by_cases hq2 : (i - 1) / 2 = pos
    · -- a child of the old place
      rw [if_pos hq2] at hq
      obtain rfl := Option.some.inj (hp.symm.trans hq)
      exact h.grand i y p hi hq2 hpos hy hp
    · rw [if_neg hq2] at hq
      exact h.others i y q hi hip hy hq
  · rw [hget, if_neg (by omega)] at hy
    rw [hget, if_neg (by omega), if_neg (by omega)] at hq
    have hup : le p q = true := h.others _ p q hq0 (by omega) hp hq
    by_cases hip : i = pos
    · rw [if_pos hip] at hy
      obtain rfl := Option.some.inj (hp.symm.trans hy)
      exact hup
    · rw [if_neg hip] at hy
      exact htrans (h.others i y p hi hip hy (hpar ▸ hp)) hup

/-- Sifting up restores the order. -/
theorem ordered_siftUp {fuel : Nat} (h : UpOrder le l pos) (hfuel : pos ≤ fuel) :
    Ordered le (siftUp le fuel pos l) := by
  induction fuel generalizing pos l with
  | zero =>
    refine h.done fun x p hpos => ?_
    omega
  | succ fuel ih =>
    unfold siftUp
    split
    · -- the root has no parent
      refine h.done fun x p hpos => ?_
      omega
    rename_i hpos
    split
    · rename_i x p hx hp
      split
      · -- the element has found its place
        rename_i hle
        refine h.done fun y q _ hy hq => ?_
        rw [hx] at hy
        rw [hp] at hq
        obtain rfl := Option.some.inj hy
        obtain rfl := Option.some.inj hq
        exact hle
      · -- it goes up one place
        rename_i hle
        exact ih (h.move (Nat.pos_of_ne_zero hpos) hx hp (Bool.eq_false_iff.mpr hle)) (by omega)
    · -- outside the list there is nothing to order
      rename_i hnone
      refine h.done fun x p _ hx hp => ?_
      exact absurd hp (hnone x p hx)

/-- A heap whose first element was replaced. -/
theorem ordered_siftDownToBottom (h : DownOrder le l 0) : Ordered le (siftDownToBottom le l) := by
  cases l with
  | nil => exact fun i x p _ hx => nomatch hx
  | cons x l =>
    have hup := upOrder_siftDown h (Nat.succ_pos _) (Nat.le_refl (x :: l).length)
    exact ordered_siftUp hup (Nat.le_refl _)

/-- The first element is a greatest one. -/
theorem Ordered.le_head {x : α} (h : Ordered le (x :: l)) : ∀ y ∈ l, le y x = true := by
  have hpath : ∀ (i : Nat) y, (x :: l)[i]? = some y → le y x = true := by
    intro i
    induction i using Nat.strongRecOn with
    | _ i ih =>
      intro y hy
      by_cases hi : i = 0
      · subst hi
        obtain rfl := Option.some.inj hy
        exact (Std.Total.total (r := fun a b => le a b = true) x x).elim id id
      -- along the path to the first place
      have hlen := (List.getElem?_eq_some_iff.mp hy).1
      have hlt : (i - 1) / 2 < (x :: l).length := by omega
      have hp := List.getElem?_eq_getElem hlt
      exact IsTrans.trans (r := fun a b => le a b = true) _ _ _
        (h i y _ (Nat.pos_of_ne_zero hi) hy hp) (ih _ (by omega) _ hp)
  intro y hy
  obtain ⟨i, hi⟩ := List.mem_iff_getElem?.mp hy
  exact hpath (i + 1) y hi

end BinaryHeap

/-- `BinaryHeap<T>`, ordered by `le`. -/
structure BinaryHeap {α : Type*} (le : α → α → Bool) where
  data : List α
  ordered : BinaryHeap.Ordered le data

namespace BinaryHeap

variable {α : Type*} {le : α → α → Bool}

/-- `BinaryHeap::new`. -/
def empty : BinaryHeap le := ⟨[], fun _ _ _ _ hx => nomatch hx⟩

/-- `len`. -/
def len (h : BinaryHeap le) : Nat := h.data.length

/-- `peek`: the first element of the array. -/
def peek (h : BinaryHeap le) : Option α := h.data.head?

@[simp] theorem data_empty : (empty : BinaryHeap le).data = [] := rfl

@[simp] theorem len_empty : (empty : BinaryHeap le).len = 0 := rfl

/-- A new last element is out of order with its parent at most. -/
theorem upOrder_append {l : List α} (h : Ordered le l) (x : α) :
    UpOrder le (l ++ [x]) l.length := by
  refine ⟨fun i y p hi hne hy hp => ?_, fun i y p hi hpar _ hy _ => ?_⟩
  · have hlen := (List.getElem?_eq_some_iff.mp hy).1
    rw [List.length_append, List.length_singleton] at hlen
    rw [List.getElem?_append_left (by omega)] at hy hp
    exact h i y p hi hy hp
  · have hlen := (List.getElem?_eq_some_iff.mp hy).1
    rw [List.length_append, List.length_singleton] at hlen
    omega

/-- A new first element is out of order with its children at most. -/
theorem downOrder_replace {x y : α} {l : List α} (h : Ordered le (x :: l)) :
    DownOrder le (y :: l.dropLast) 0 := by
  have hget : ∀ (i : Nat) z, 0 < i → (y :: l.dropLast)[i]? = some z → (x :: l)[i]? = some z := by
    intro i z hi hz
    obtain ⟨j, rfl⟩ := Nat.exists_eq_succ_of_ne_zero (Nat.ne_of_gt hi)
    rw [List.getElem?_cons_succ] at hz ⊢
    rw [List.getElem?_dropLast] at hz
    split at hz
    · exact hz
    · cases hz
  refine ⟨fun i z p hi _ hpar hz hp => ?_, fun i z p _ _ h0 => ?_⟩
  · exact h i z p hi (hget i z hi hz) (hget _ p (Nat.pos_of_ne_zero hpar) hp)
  · omega

variable [Std.Total fun a b => le a b = true] [IsTrans α fun a b => le a b = true]

/-- `push`. -/
def push (h : BinaryHeap le) (x : α) : BinaryHeap le where
  data := siftUp le h.data.length h.data.length (h.data ++ [x])
  ordered := ordered_siftUp (upOrder_append h.ordered x) (Nat.le_refl _)

/-- `pop`. -/
def pop : BinaryHeap le → Option (α × BinaryHeap le)
  | ⟨[], _⟩ => none
  | ⟨x :: l, h⟩ =>
    match l.getLast? with
    | none => some (x, empty)
    | some y =>
      some (x, ⟨siftDownToBottom le (y :: l.dropLast),
        ordered_siftDownToBottom (downOrder_replace h)⟩)

/-- A push adds the element. -/
theorem push_perm (h : BinaryHeap le) (x : α) : (h.push x).data.Perm (x :: h.data) :=
  (siftUp_perm _ _ _).trans List.perm_append_comm

/-- The elements after a push. -/
theorem mem_push {h : BinaryHeap le} {x y : α} : y ∈ (h.push x).data ↔ y = x ∨ y ∈ h.data := by
  rw [(h.push_perm x).mem_iff, List.mem_cons]

/-- What a heap of one element holds. -/
theorem mem_singleton {x y : α} : y ∈ ((empty : BinaryHeap le).push x).data ↔ y = x := by
  simp [mem_push]

/-- The number of elements after a push. -/
theorem len_push (h : BinaryHeap le) (x : α) : (h.push x).len = h.len + 1 :=
  (h.push_perm x).length_eq

/-- Only an empty heap has nothing to pop. -/
theorem pop_eq_none {h : BinaryHeap le} (hp : h.pop = none) : h.data = [] := by
  obtain ⟨l, hl⟩ := h
  cases l with
  | nil => rfl
  | cons x l =>
    unfold pop at hp
    simp only at hp
    split at hp <;> cases hp

/-- An empty heap has nothing to pop. -/
theorem pop_of_nil {h : BinaryHeap le} (hd : h.data = []) : h.pop = none := by
  obtain ⟨l, hl⟩ := h
  obtain rfl : l = [] := hd
  rfl

variable {h rest : BinaryHeap le} {x : α}

/-- A pop takes one element out. -/
theorem pop_perm (hp : h.pop = some (x, rest)) : h.data.Perm (x :: rest.data) := by
  obtain ⟨l, hl⟩ := h
  cases l with
  | nil => cases hp
  | cons y l =>
    unfold pop at hp
    simp only at hp
    split at hp
    · -- a single element
      rename_i hlast
      obtain ⟨rfl, rfl⟩ := Prod.mk.inj (Option.some.inj hp)
      obtain rfl := List.getLast?_eq_none_iff.mp hlast
      exact .refl _
    · rename_i z hlast
      obtain ⟨rfl, rfl⟩ := Prod.mk.inj (Option.some.inj hp)
      -- the last element has gone to the front
      have hback : (z :: l.dropLast).Perm l := by
        have heq := List.dropLast_append_getLast? z hlast
        have hcomm : ([z] ++ l.dropLast).Perm (l.dropLast ++ [z]) := List.perm_append_comm
        exact hcomm.trans (List.Perm.of_eq heq)
      exact (hback.symm.trans (siftDownToBottom_perm _).symm).cons y

/-- The number of elements after a pop. -/
theorem len_pop (hp : h.pop = some (x, rest)) : rest.len + 1 = h.len :=
  (pop_perm hp).length_eq.symm

/-- What is left after a pop was there before. -/
theorem mem_of_pop {y : α} (hp : h.pop = some (x, rest)) (hy : y ∈ rest.data) : y ∈ h.data :=
  (pop_perm hp).mem_iff.mpr (List.mem_cons_of_mem _ hy)

/-- A heap pops a greatest element. -/
theorem pop_max (hp : h.pop = some (x, rest)) : ∀ y ∈ rest.data, le y x = true := by
  have hperm := pop_perm hp
  obtain ⟨l, hl⟩ := h
  cases l with
  | nil => cases hp
  | cons z l =>
    have hx : x = z := by
      unfold pop at hp
      simp only at hp
      split at hp <;> exact (congrArg Prod.fst (Option.some.inj hp)).symm
    subst hx
    intro y hy
    exact hl.le_head y (((List.perm_cons x).mp hperm).mem_iff.mpr hy)

/-- `peek` shows what `pop` would return. -/
theorem peek_eq (h : BinaryHeap le) : h.peek = h.pop.map Prod.fst := by
  obtain ⟨l, hl⟩ := h
  cases l with
  | nil => rfl
  | cons x l =>
    unfold pop peek
    simp only
    split <;> rfl

end BinaryHeap
