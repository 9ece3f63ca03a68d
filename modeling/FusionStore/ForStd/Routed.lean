import Mathlib.Data.List.Basic
import Mathlib.Logic.Function.Basic

/-!
# One map in several parts

A partial map `m` is spread over a list of stores: the store at place `i` holds `m`
restricted to the keys that `route` sends to `i`.  Setting a key in its own store sets it in
`m`; entries can be set store by store; and the keys of the stores, one store after the
other, are the keys of `m`, each of them once.
-/

namespace Routed

variable {κ β : Type*}

section Update

variable [DecidableEq κ]

/-- Set the entries one after the other. -/
def setAll (m : κ → Option β) (es : List (κ × β)) : κ → Option β :=
  es.foldl (fun m e => Function.update m e.1 (some e.2)) m

@[simp] theorem setAll_nil (m : κ → Option β) : setAll m [] = m := rfl

@[simp] theorem setAll_cons (m : κ → Option β) (e : κ × β) (es : List (κ × β)) :
    setAll m (e :: es) = setAll (Function.update m e.1 (some e.2)) es := rfl

/-- Writing the same entries keeps two maps alike at a key. -/
theorem setAll_congr {m n : κ → Option β} {k : κ} (h : m k = n k) (es : List (κ × β)) :
    setAll m es k = setAll n es k := by
  induction es generalizing m n with
  | nil => exact h
  | cons e es ih =>
    rw [setAll_cons, setAll_cons]
    apply ih
    by_cases hk : k = e.1
    · rw [hk, Function.update_self, Function.update_self]
    · rw [Function.update_of_ne hk, Function.update_of_ne hk, h]

/-- Keys without an entry keep their value. -/
theorem setAll_of_notMem {m : κ → Option β} {es : List (κ × β)} {k : κ}
    (h : k ∉ es.map Prod.fst) : setAll m es k = m k := by
  induction es generalizing m with
  | nil => rfl
  | cons e es ih =>
    simp only [List.map_cons, List.mem_cons, not_or] at h
    rw [setAll_cons, ih h.2, Function.update_of_ne h.1]

/-- The keys after writing some entries. -/
theorem setAll_isSome {m : κ → Option β} {es : List (κ × β)} {k : κ} :
    (setAll m es k).isSome ↔ (m k).isSome ∨ k ∈ es.map Prod.fst := by
  induction es generalizing m with
  | nil => simp
  | cons e es ih =>
    rw [setAll_cons, ih, List.map_cons, List.mem_cons]
    by_cases hk : k = e.1
    · subst hk
      simp
    · rw [Function.update_of_ne hk]
      simp [hk]

/-- With distinct keys every entry is found again. -/
theorem setAll_of_mem {m : κ → Option β} {es : List (κ × β)} (hnd : (es.map Prod.fst).Nodup)
    {e : κ × β} (h : e ∈ es) : setAll m es e.1 = some e.2 := by
  induction es generalizing m with
  | nil => exact nomatch h
  | cons x es ih =>
    simp only [List.map_cons, List.nodup_cons] at hnd
    rw [setAll_cons]
    rcases List.mem_cons.mp h with rfl | h
    · rw [setAll_of_notMem hnd.1, Function.update_self]
    · exact ih hnd.2 h

/-- What is found was there before or comes from an entry. -/
theorem setAll_eq_some {m : κ → Option β} {es : List (κ × β)} {k : κ} {b : β}
    (h : setAll m es k = some b) : m k = some b ∨ (k, b) ∈ es := by
  induction es generalizing m with
  | nil => exact .inl h
  | cons e es ih =>
    rw [setAll_cons] at h
    obtain hm | hmem := ih h
    · by_cases hk : k = e.1
      · subst hk
        rw [Function.update_self] at hm
        obtain rfl := Option.some.inj hm
        exact .inr List.mem_cons_self
      · rw [Function.update_of_ne hk] at hm
        exact .inl hm
    · exact .inr (List.mem_cons_of_mem _ hmem)

/-- The entries a filter keeps decide the keys it keeps. -/
theorem setAll_filter (m : κ → Option β) (es : List (κ × β)) (p : κ → Bool) (k : κ) :
    setAll m (es.filter fun e => p e.1) k = if p k then setAll m es k else m k := by
  induction es generalizing m with
  | nil => simp
  | cons e es ih =>
    rw [List.filter_cons]
    by_cases hk : k = e.1
    · subst hk
      split
      · rename_i hp
        rw [setAll_cons, setAll_cons, ih, if_pos hp]
      · rename_i hp
        rw [ih, if_neg hp]
    · have hsame : Function.update m e.1 (some e.2) k = m k := Function.update_of_ne hk _ _
      split
      · rw [setAll_cons, setAll_cons, ih, hsame]
      · rw [setAll_cons, ih, setAll_congr hsame.symm]

end Update

/-- Keys are distinct if they are among those routed to each place. -/
theorem nodup_of_filter (route : κ → Nat) {es : List (κ × β)}
    (h : ∀ i, ((es.filter fun e => route e.1 = i).map Prod.fst).Nodup) :
    (es.map Prod.fst).Nodup := by
  rw [List.Nodup, List.pairwise_map, List.pairwise_iff_forall_sublist]
  intro a b hab heq
  -- two entries of one key are routed to the same place
  have hroute : route a.1 = route b.1 := by rw [heq]
  have hsub := hab.filter fun e => decide (route e.1 = route b.1)
  have hpair : [a, b].filter (fun e => decide (route e.1 = route b.1)) = [a, b] := by
    simp [hroute]
  rw [hpair] at hsub
  have hnd := h (route b.1)
  rw [List.Nodup, List.pairwise_map] at hnd
  exact List.pairwise_iff_forall_sublist.mp hnd hsub heq

section Part

variable (route : κ → Nat) (m : κ → Option β)

/-- What belongs to place `i` of a map. -/
def part (route : κ → Nat) (i : Nat) (m : κ → Option β) : κ → Option β :=
  fun k => if route k = i then m k else none

/-- The part a key is routed to holds it. -/
theorem part_route (k : κ) : part route (route k) m k = m k := if_pos rfl

variable [DecidableEq κ]

/-- A key is set at its own place. -/
theorem part_update (k : κ) (v : Option β) : part route (route k) (Function.update m k v) =
    Function.update (part route (route k) m) k v := by
  funext j
  by_cases hj : j = k
  · subst hj
    simp [part]
  · simp [part, hj]

/-- Other places do not see it. -/
theorem part_update_of_ne {k : κ} {i : Nat} (h : route k ≠ i) (v : Option β) :
    part route i (Function.update m k v) = part route i m := by
  funext j
  by_cases hj : j = k
  · subst hj
    simp [part, h]
  · simp [part, hj]

/-- Each place takes the entries that are routed to it. -/
theorem part_setAll (i : Nat) (es : List (κ × β)) : part route i (setAll m es) =
    setAll (part route i m) (es.filter fun e => route e.1 = i) := by
  funext k
  rw [setAll_filter _ _ (fun k => decide (route k = i))]
  by_cases hk : route k = i
  · have hsame : m k = part route i m k := by simp [part, hk]
    simp [part, hk, setAll_congr hsame]
  · simp [part, hk]

end Part

/-- What holds of the elements of a list, with their places counted from `base`. -/
theorem forall_from_cons {S : Type*} (p : Nat → S → Prop) {base : Nat} {s : S} {ss : List S} :
    (∀ i t, (s :: ss)[i]? = some t → p (base + i) t) ↔
      p base s ∧ ∀ i t, ss[i]? = some t → p (base + 1 + i) t := by
  constructor
  · intro h
    refine ⟨h 0 s rfl, fun i t ht => ?_⟩
    rw [Nat.add_right_comm base 1 i, Nat.add_assoc base i 1]
    exact h (i + 1) t ht
  · rintro ⟨hs, hrest⟩ i t ht
    cases i with
    | zero =>
      obtain rfl : s = t := Option.some.inj ht
      exact hs
    | succ i =>
      have hp := hrest i t ht
      rwa [Nat.add_right_comm base 1 i, Nat.add_assoc base i 1] at hp

section Parts

variable {S : Type*} {route : κ → Nat} {held : S → κ → Option β} {ss : List S}
  {m : κ → Option β} {base : Nat}

/-- The stores from place `base` on: each one holds `m` on the keys routed to its place. -/
def PartsFrom (base : Nat) (route : κ → Nat) (held : S → κ → Option β) (ss : List S)
    (m : κ → Option β) : Prop :=
  ∀ i s, ss[i]? = some s → ∀ k, held s k = if route k = base + i then m k else none

/-- The first store and the rest. -/
theorem partsFrom_cons {s : S} :
    PartsFrom base route held (s :: ss) m ↔
      (∀ k, held s k = if route k = base then m k else none) ∧
        PartsFrom (base + 1) route held ss m :=
  forall_from_cons fun i s => ∀ k, held s k = if route k = i then m k else none

/-- A map that differs only outside the places of the stores has the same parts. -/
theorem PartsFrom.congr {n : κ → Option β} (h : PartsFrom base route held ss m)
    (hmn : ∀ k, base ≤ route k → m k = n k) : PartsFrom base route held ss n := by
  intro i s hs k
  rw [h i s hs k]
  split
  · rename_i hk
    exact hmn k (by omega)
  · rfl

/-- A store answers for the keys that are routed to it. -/
theorem PartsFrom.get (h : PartsFrom 0 route held ss m) {k : κ} {s : S}
    (hs : ss[route k]? = some s) : held s k = m k := by
  rw [h _ s hs k, Nat.zero_add, if_pos rfl]

/-- Only what the stores hold matters. -/
theorem PartsFrom.of_map_eq {ss' : List S} (h : PartsFrom base route held ss m)
    (heq : ss'.map held = ss.map held) : PartsFrom base route held ss' m := by
  intro i s hs k
  have hmap : (ss.map held)[i]? = some (held s) := by
    rw [← heq, List.getElem?_map, hs, Option.map_some]
  rw [List.getElem?_map] at hmap
  obtain ⟨t, ht, hst⟩ := Option.map_eq_some_iff.mp hmap
  rw [← hst]
  exact h i t ht k

/-- Replacing a store by one that holds the same. -/
theorem PartsFrom.set_same (h : PartsFrom 0 route held ss m) {i : Nat} {s s' : S}
    (hs : ss[i]? = some s) (hsame : held s' = held s) :
    PartsFrom 0 route held (ss.set i s') m := by
  intro j t ht k
  rw [List.getElem?_set] at ht
  split at ht
  · rename_i hij
    subst hij
    split at ht
    · obtain rfl : s' = t := Option.some.inj ht
      rw [hsame]
      exact h i s hs k
    · exact nomatch ht
  · exact h j t ht k

/-- Setting one key in its own store. -/
theorem PartsFrom.set [DecidableEq κ] (h : PartsFrom 0 route held ss m) {k : κ} {v : Option β}
    {s s' : S} (hs : ss[route k]? = some s) (hset : held s' = Function.update (held s) k v) :
    PartsFrom 0 route held (ss.set (route k) s') (Function.update m k v) := by
  intro j t ht x
  rw [Nat.zero_add]
  rw [List.getElem?_set] at ht
  split at ht
  · -- the store of `k` itself
    rename_i hij
    subst hij
    split at ht
    · obtain rfl : s' = t := Option.some.inj ht
      rw [hset]
      by_cases hx : x = k
      · subst hx
        rw [Function.update_self, Function.update_self, if_pos rfl]
      · rw [Function.update_of_ne hx, Function.update_of_ne hx, h _ s hs x, Nat.zero_add]
    · exact nomatch ht
  · -- another store: it holds no key routed to the place of `k`
    rename_i hij
    have hold := h j t ht x
    rw [Nat.zero_add] at hold
    rw [hold]
    by_cases hx : x = k
    · subst hx
      rw [if_neg hij, if_neg hij]
    · rw [Function.update_of_ne hx]

/-- The keys listed store by store are the keys of `m`, each of them once. -/
theorem PartsFrom.keys {keys : S → List κ} (h : PartsFrom base route held ss m)
    (hnd : ∀ s ∈ ss, (keys s).Nodup) (hmem : ∀ s ∈ ss, ∀ k, k ∈ keys s ↔ (held s k).isSome) :
    (ss.flatMap keys).Nodup ∧
      ∀ k, k ∈ ss.flatMap keys ↔
        (m k).isSome ∧ base ≤ route k ∧ route k < base + ss.length := by
  induction ss generalizing base with
  | nil =>
    refine ⟨List.nodup_nil, fun k => ?_⟩
    simp only [List.flatMap_nil, List.not_mem_nil, List.length_nil, false_iff, not_and]
    omega
  | cons s ss ih =>
    obtain ⟨hs, hrest⟩ := partsFrom_cons.mp h
    obtain ⟨ihnd, ihmem⟩ := ih hrest (fun t ht => hnd t (List.mem_cons_of_mem s ht))
      (fun t ht => hmem t (List.mem_cons_of_mem s ht))
    -- the keys of the first store are those routed to its place
    have hfirst : ∀ k, k ∈ keys s ↔ (m k).isSome ∧ route k = base := by
      intro k
      rw [hmem s List.mem_cons_self k, hs k]
      split
      · rename_i hk
        simp [hk]
      · rename_i hk
        simp [hk]
    rw [List.flatMap_cons]
    constructor
    · -- the first store and the later ones share no key
      refine List.nodup_append.mpr ⟨hnd s List.mem_cons_self, ihnd, ?_⟩
      rintro k hk k' hk' rfl
      have hbase := ((hfirst k).mp hk).2
      have hge := ((ihmem k).mp hk').2.1
      omega
    · intro k
      rw [List.mem_append, hfirst, ihmem, List.length_cons]
      constructor
      · -- a key of the whole is the first store's or a later one's
        rintro (⟨hm, hk⟩ | ⟨hm, hlo, hhi⟩)
        · exact ⟨hm, by omega, by omega⟩
        · exact ⟨hm, by omega, by omega⟩
      · rintro ⟨hm, hlo, hhi⟩
        by_cases hk : route k = base
        · exact .inl ⟨hm, hk⟩
        · exact .inr ⟨hm, by omega, by omega⟩

/-- Keys that are found in the stores one after the other: no key comes twice. -/
theorem PartsFrom.nodup_flatten {lists : List (List κ)} (h : PartsFrom base route held ss m)
    (hlists : List.Forall₂ (fun s ks => ks.Nodup ∧ ∀ k ∈ ks, (held s k).isSome) ss lists) :
    lists.flatten.Nodup ∧ ∀ k ∈ lists.flatten, base ≤ route k := by
  induction hlists generalizing base with
  | nil => simp
  | @cons s ks ss lists hfirst hlists ih =>
    obtain ⟨hs, hrest⟩ := partsFrom_cons.mp h
    obtain ⟨hnd, hheld⟩ := hfirst
    obtain ⟨ihnd, ihroute⟩ := ih hrest
    -- the keys of the first store are those routed to its place
    have hplace : ∀ k, (held s k).isSome → route k = base := by
      intro k hk
      rw [hs k] at hk
      by_contra hne
      rw [if_neg hne] at hk
      cases hk
    rw [List.flatten_cons]
    constructor
    · refine List.nodup_append.mpr ⟨hnd, ihnd, ?_⟩
      rintro k hk k' hk' rfl
      have heq := hplace k (hheld k hk)
      have hge := ihroute k hk'
      omega
    · intro k hk
      rcases List.mem_append.mp hk with hk | hk
      · have heq := hplace k (hheld k hk)
        omega
      · have hge := ihroute k hk
        omega

/-- What a store holds is in the map. -/
theorem PartsFrom.mem_of_held (h : PartsFrom base route held ss m) {s : S} (hs : s ∈ ss) {k : κ}
    {v : β} (hv : held s k = some v) : m k = some v := by
  obtain ⟨i, hi⟩ := List.mem_iff_getElem?.mp hs
  rw [h i s hi k] at hv
  split at hv
  · exact hv
  · cases hv

end Parts

end Routed
