import FusionStore.ForStd.TopK
import FusionStore.Native.Sharded
import FusionStore.Spec.FloatOrder
import FusionStore.Spec.SessionCorrect

/-!
# Searching all shards

The fan-out of `search_knn` asks every shard for its `top_k`, sorts what comes back and cuts
it again.  If every shard answers, that is the `top_k` of all shards together
(`searchKnn_merges`).  A shard that fails is logged and left out, so with two shards or more
the caller does not learn of it (`searchKnn_reports_iff`).
-/

namespace FusionStore

open TopK

namespace ShardedEngine

variable {S O : Type}

/-! ### The merge -/

/-- The parts of shards that all answered. -/
theorem exists_parts (good : S → List (NodeId × F32) → Prop) (shards : List S)
    (answer : Nat → S → Except StoreError (List (NodeId × F32)))
    (h : ∀ i s, shards[i]? = some s → ∃ part, answer i s = .ok part ∧ good s part) :
    ∃ parts, List.Forall₂ good shards parts ∧
      collectHits (shards.mapIdx answer) = parts.flatten := by
  induction shards generalizing answer with
  | nil => exact ⟨[], .nil, rfl⟩
  | cons s shards ih =>
    obtain ⟨part, hpart, hgood⟩ := h 0 s rfl
    obtain ⟨parts, hparts, hall⟩ := ih (fun i => answer (i + 1)) fun i t ht => h (i + 1) t ht
    refine ⟨part :: parts, .cons hgood hparts, ?_⟩
    rw [List.mapIdx_cons, hpart, collectHits, hall, List.flatten_cons]

/-- The order by which the merge sorts, without NaN. -/
theorem hitLe_iff {a b : NodeId × F32} (ha : F32.isNaN a.2 = false) (hb : F32.isNaN b.2 = false) :
    hitLe a b = true ↔ F32.ieeeKey a.2 ≤ F32.ieeeKey b.2 := by
  rw [hitLe, Bool.not_eq_true']
  constructor
  · exact F32.ieeeKey_le_of_not_lt hb ha
  · exact F32.lt_eq_false_of_ieeeKey_le

/-- Sorting by `partial_cmp` is sorting by the place in the IEEE order, without NaN. -/
theorem insertionSort_hitLe {hits : List (NodeId × F32)}
    (h : ∀ a ∈ hits, F32.isNaN a.2 = false) :
    (hits.insertionSort fun a b => hitLe a b) =
      hits.insertionSort fun a b => F32.ieeeKey a.2 ≤ F32.ieeeKey b.2 := by
  have hmap := List.map_insertionSort (fun a b => hitLe a b = true)
    (fun a b : NodeId × F32 => F32.ieeeKey a.2 ≤ F32.ieeeKey b.2) id hits
    fun a ha b hb => hitLe_iff (h a ha) (h b hb)
  rwa [List.map_id, List.map_id] at hmap

/-- Every shard returns the `top_k` nearest of its vectors, no id is on two shards and no
    distance is NaN: the hits are the `top_k` nearest vectors of all shards, each id once. -/
theorem searchKnn_merges (se : ShardedEngine S)
    (knn : S → List F32 → Nat → O → Except StoreError (List (NodeId × F32))) (query : List F32)
    (topK : Nat) (o : Nat → O) (live : S → List (NodeId × F32))
    (hshards : ∀ i s, se.shards[i]? = some s → ∃ part, knn s query topK (o i) = .ok part ∧
      IsTopK (fun a b => hitLe a b = true) topK (live s) part)
    (hids : ((se.shards.flatMap live).map Prod.fst).Nodup)
    (hnan : ∀ hit ∈ se.shards.flatMap live, F32.isNaN hit.2 = false) :
    ∃ hits, se.searchKnn knn query topK o = .ok hits ∧
      IsTopK (fun a b => hitLe a b = true) topK (se.shards.flatMap live) hits ∧
      (hits.map Prod.fst).Nodup := by
  suffices h : ∃ hits, se.searchKnn knn query topK o = .ok hits ∧
      IsTopK (fun a b => hitLe a b = true) topK (se.shards.flatMap live) hits by
    obtain ⟨hits, hok, htop⟩ := h
    exact ⟨hits, hok, htop, htop.nodup_map hids⟩
  unfold searchKnn
  split
  · -- the only shard answers for itself
    rename_i s hs
    obtain ⟨part, hpart, htop⟩ := hshards 0 s (by rw [hs]; rfl)
    refine ⟨part, hpart, ?_⟩
    simpa [hs] using htop
  · refine ⟨_, rfl, ?_⟩
    -- the parts in the order of the keys, which is total
    have htotal : Std.Total fun a b : NodeId × F32 => F32.ieeeKey a.2 ≤ F32.ieeeKey b.2 :=
      ⟨fun a b => le_total _ _⟩
    have htrans : IsTrans (NodeId × F32) fun a b => F32.ieeeKey a.2 ≤ F32.ieeeKey b.2 :=
      ⟨fun a b c => le_trans⟩
    obtain ⟨parts, hparts, hall⟩ := exists_parts (fun s part =>
      IsTopK (fun a b => F32.ieeeKey a.2 ≤ F32.ieeeKey b.2) topK (live s) part) se.shards
        (fun i s => knn s query topK (o i)) fun i s hs => by
      obtain ⟨part, hpart, htop⟩ := hshards i s hs
      have hmem : s ∈ se.shards := List.mem_of_getElem? hs
      have hlive : ∀ hit ∈ live s, F32.isNaN hit.2 = false :=
        fun hit hhit => hnan hit (List.mem_flatMap.mpr ⟨s, hmem, hhit⟩)
      exact ⟨part, hpart, htop.imp fun a ha b hb => (hitLe_iff (hlive a ha) (hlive b hb)).mp⟩
    have htops := List.forall₂_map_left_iff.mpr hparts
    have hnan' : ∀ hit ∈ parts.flatten, F32.isNaN hit.2 = false := by
      intro hit hhit
      obtain ⟨rests, hperm, -⟩ := exists_rests htops
      rw [List.flatMap_def] at hnan
      exact hnan hit (hperm.mem_iff.mpr (List.mem_append_left _ hhit))
    have hmerged := IsTopK.flatten htops
    rw [← List.flatMap_def] at hmerged
    rw [hall, insertionSort_hitLe hnan']
    exact hmerged.imp fun a ha b hb => (hitLe_iff (hnan a ha) (hnan b hb)).mpr

/-- Two shards, one of which has more vectors than are asked for. -/
theorem searchKnn_merges_two :
    let knn : List (NodeId × F32) → List F32 → Nat → Unit →
      Except StoreError (List (NodeId × F32)) := fun hits _ topK _ => .ok (hits.take topK)
    let se : ShardedEngine (List (NodeId × F32)) :=
      ⟨[[(1, 0), (3, F32.one), (5, F32.infinity)], [(2, F32.one)]], hashRouter fun _ => 0⟩
    se.searchKnn knn [] 2 (fun _ => ()) = .ok [(1, 0), (3, F32.one)] ∧
      ∃ hits, se.searchKnn knn [] 2 (fun _ => ()) = .ok hits ∧
        IsTopK (fun a b => hitLe a b = true) 2
          [(1, 0), (3, F32.one), (5, F32.infinity), (2, F32.one)] hits := by
  have hshards : ∀ (i : Nat) (s : List (NodeId × F32)),
      [[(1, 0), (3, F32.one), (5, F32.infinity)], [(2, F32.one)]][i]? = some s →
        ∃ part, (.ok (s.take 2) : Except StoreError (List (NodeId × F32))) = .ok part ∧
          IsTopK (fun a b => hitLe a b = true) 2 s part := by
    intro i s hs
    have hcases : s = [(1, 0), (3, F32.one), (5, F32.infinity)] ∨ s = [(2, F32.one)] := by
      have hmem := List.mem_of_getElem? hs
      simpa using hmem
    refine ⟨s.take 2, rfl, ?_⟩
    obtain rfl | rfl := hcases
    · refine ⟨by decide, ⟨[(5, F32.infinity)], .refl _, ?_⟩, rfl⟩
      simp only [List.take, List.mem_cons, List.not_mem_nil, or_false, forall_eq_or_imp, forall_eq]
      decide
    · refine ⟨by decide, ⟨[], .refl _, ?_⟩, rfl⟩
      simp
  obtain ⟨hits, hok, htop, -⟩ := searchKnn_merges (S := List (NodeId × F32)) (O := Unit)
    ⟨[[(1, 0), (3, F32.one), (5, F32.infinity)], [(2, F32.one)]], hashRouter fun _ => 0⟩
    (fun hits _ topK _ => .ok (hits.take topK)) [] 2 (fun _ => ()) id hshards (by decide) (by
      simp only [List.flatMap_cons, List.flatMap_nil, id, List.cons_append, List.nil_append,
        List.mem_cons, List.not_mem_nil, or_false, forall_eq_or_imp, forall_eq]
      decide)
  exact ⟨rfl, hits, hok, htop⟩

/-! ### Failures -/

/-- Whether a shard's answer is an error. -/
def Fails (se : ShardedEngine S)
    (knn : S → List F32 → Nat → O → Except StoreError (List (NodeId × F32))) (query : List F32)
    (topK : Nat) (o : Nat → O) : Prop :=
  ∃ i s err, se.shards[i]? = some s ∧ knn s query topK (o i) = .error err

/-- That a shard fails is reported, as the error of a shard, exactly with a single shard: the
    fan-out logs it. -/
theorem searchKnn_reports_iff (se : ShardedEngine S)
    (knn : S → List F32 → Nat → O → Except StoreError (List (NodeId × F32))) (query : List F32)
    (topK : Nat) (o : Nat → O) :
    (se.Fails knn query topK o → ∃ i s err, se.shards[i]? = some s ∧
        knn s query topK (o i) = .error err ∧ se.searchKnn knn query topK o = .error err) ↔
      se.numShards = 1 ∨ ¬ se.Fails knn query topK o := by
  by_cases hone : se.numShards = 1
  · refine iff_of_true ?_ (Or.inl hone)
    rintro ⟨i, s, err, hs, herr⟩
    obtain ⟨s', hs'⟩ := List.length_eq_one_iff.mp hone
    have hlt : i < 1 := by
      have hlen := (List.getElem?_eq_some_iff.mp hs).1
      rwa [hs'] at hlen
    obtain rfl : i = 0 := by omega
    rw [hs'] at hs
    obtain rfl := Option.some.inj hs
    refine ⟨0, s', err, by rw [hs']; rfl, herr, ?_⟩
    simp only [searchKnn, hs', herr]
  · have hok : ∃ hits, se.searchKnn knn query topK o = .ok hits := by
      unfold searchKnn
      split
      · rename_i s hs
        simp [numShards, hs] at hone
      · exact ⟨_, rfl⟩
    obtain ⟨hits, hok⟩ := hok
    simp [hok, hone]

/-- A query of the wrong dimension: an error with one shard, an empty answer with two. -/
theorem wrong_dimension_hidden : ∃ e,
    (Engine.open zeroArith noIpc .empty (some flatSchema) 0 .id).1 = .ok e ∧
    e.searchKnn zeroArith [0, 0] 5 (fun _ => false) = .error (.dimensionMismatch 1 2) ∧
    (⟨[e], hashRouter fun _ => 0⟩ : ShardedEngine Engine).searchKnn
      (fun e => e.searchKnn zeroArith) [0, 0] 5 (fun _ _ => false) =
        .error (.dimensionMismatch 1 2) ∧
    (⟨[e, e], hashRouter fun _ => 0⟩ : ShardedEngine Engine).searchKnn
      (fun e => e.searchKnn zeroArith) [0, 0] 5 (fun _ _ => false) = .ok [] :=
  ⟨_, rfl, rfl, rfl, rfl⟩

end ShardedEngine

end FusionStore
