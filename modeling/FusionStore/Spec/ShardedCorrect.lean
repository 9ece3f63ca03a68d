import FusionStore.ForStd.AList
import FusionStore.Native.Sharded

/-!
# A sharded engine is one store

Over engines that behave as maps, the shards together are one map: each shard holds the part
of it that the router sends there, and no call moves anything between shards.  The one place
where several shards write in one call is `insert_vector_batch`.  It is not atomic across
shards: when a shard refuses its bucket, the buckets of the shards before it stay.

## Key results

- `ShardedSession.agrees`: the reads of a sharded engine are those of one map
-/

namespace FusionStore

open Routed

/-! ### Engines that behave as maps -/

/-- What an engine stores, and that its operations are those of a map: calls that return `Ok`
    do what they say, calls that fail change nothing, and an id that is live or that came up
    before in the batch is not inserted again. -/
structure EngineOps.IsMap {S O : Type} (ops : EngineOps S O) where
  kv : S → Bytes → Option Bytes
  vec : S → NodeId → Option (List F32)
  /-- An engine on an empty directory. -/
  fresh : S
  kv_fresh : kv fresh = fun _ => none
  vec_fresh : vec fresh = fun _ => none
  putKv_ok : ∀ s key value o s', ops.putKv s key value o = (.ok (), s') →
    kv s' = Function.update (kv s) key (some value) ∧ vec s' = vec s
  putKv_error : ∀ s key value o e s', ops.putKv s key value o = (.error e, s') →
    kv s' = kv s ∧ vec s' = vec s
  getKv : ∀ s key, ops.getKvZeroCopy s key = .ok (kv s key)
  deleteKv_ok : ∀ s key o removed s', ops.deleteKv s key o = (.ok removed, s') →
    kv s' = Function.update (kv s) key none ∧ vec s' = vec s
  deleteKv_error : ∀ s key o e s', ops.deleteKv s key o = (.error e, s') →
    kv s' = kv s ∧ vec s' = vec s
  insertVector_ok : ∀ s id vector o s', ops.insertVector s id vector o = (.ok (), s') →
    kv s' = kv s ∧ vec s id = none ∧ vec s' = Function.update (vec s) id (some vector)
  insertVector_error : ∀ s id vector o e s', ops.insertVector s id vector o = (.error e, s') →
    kv s' = kv s ∧ vec s' = vec s
  insertVectorBatch_ok : ∀ s items o s', ops.insertVectorBatch s items o = (.ok (), s') →
    kv s' = kv s ∧ (items.map Prod.fst).Nodup ∧ (∀ item ∈ items, vec s item.1 = none) ∧
      vec s' = setAll (vec s) items
  insertVectorBatch_error : ∀ s items o e s',
    ops.insertVectorBatch s items o = (.error e, s') → kv s' = kv s ∧ vec s' = vec s
  deleteVector_ok : ∀ s id o removed s', ops.deleteVector s id o = (.ok removed, s') →
    kv s' = kv s ∧ vec s' = Function.update (vec s) id none
  deleteVector_error : ∀ s id o e s', ops.deleteVector s id o = (.error e, s') →
    kv s' = kv s ∧ vec s' = vec s
  getVector : ∀ s id, ops.getVector s id = .ok (vec s id)
  ids : S → List NodeId
  listVectorIds : ∀ s, ops.listVectorIds s = .ok (ids s)
  nodup_ids : ∀ s, (ids s).Nodup
  mem_ids : ∀ s id, id ∈ ids s ↔ (vec s id).isSome
  vecLen : ∀ s, ops.vecLen s = some (ids s).length

/-! ### Sessions -/

/-- The writing calls; `o` gives the outcomes at the shards. -/
inductive ShardCall (O : Type) where
  | putKv (key value : Bytes) (o : O)
  | deleteKv (key : Bytes) (o : O)
  | insertVector (id : NodeId) (vector : List F32) (o : O)
  | insertVectorBatch (items : List (NodeId × List F32)) (o : Nat → O)
  | deleteVector (id : NodeId) (o : O)

/-- One store: a map of values and a map of vectors. -/
structure FlatStore where
  kv : Bytes → Option Bytes
  vec : NodeId → Option (List F32)

/-- A sharded engine beside the one store its callers may take it for. -/
structure ShardedSession (S : Type) where
  engine : ShardedEngine S
  flat : FlatStore

namespace ShardedEngine

variable {S O : Type} (ops : EngineOps S O)

/-- The number of the first shard that refuses its bucket, or of the one behind the last. -/
def stopsAt (o : Nat → O) : Nat → List S → List (List (NodeId × List F32)) → Nat
  | i, s :: shards, bucket :: buckets =>
    if bucket.isEmpty then stopsAt o (i + 1) shards buckets
    else
      match ops.insertVectorBatch s bucket (o i) with
      | (.error _, _) => i
      | (.ok _, _) => stopsAt o (i + 1) shards buckets
  | i, shards, _ => i + shards.length

/-- The items of a batch that get inserted: those routed to a shard before the first one
    that refuses its bucket. -/
def inserted (se : ShardedEngine S) (items : List (NodeId × List F32)) (o : Nat → O) :
    List (NodeId × List F32) :=
  match bucketLoop se.vectorShard items (List.replicate se.numShards []) with
  | .error _ => []
  | .ok buckets =>
    let stop := stopsAt ops o 0 se.shards buckets
    items.filter fun item => se.vectorShard item.1 < stop

end ShardedEngine

namespace ShardedSession

variable {S O : Type} (ops : EngineOps S O)

/-- `num_shards` engines on empty directories. -/
def start (fresh : S) (numShards : Nat) (router : ShardRouter) : ShardedSession S :=
  ⟨⟨List.replicate numShards fresh, router⟩, ⟨fun _ => none, fun _ => none⟩⟩

/-- One call.  The one store takes what returned `Ok`; of a batch that failed it takes the
    items of the shards before the one that failed. -/
def step (σ : ShardedSession S) : ShardCall O → ShardedSession S
  | .putKv key value o =>
    match σ.engine.putKv ops key value o with
    | (.ok _, engine) =>
      ⟨engine, { σ.flat with kv := Function.update σ.flat.kv key (some value) }⟩
    | (.error _, engine) => ⟨engine, σ.flat⟩
  | .deleteKv key o =>
    match σ.engine.deleteKv ops key o with
    | (.ok _, engine) => ⟨engine, { σ.flat with kv := Function.update σ.flat.kv key none }⟩
    | (.error _, engine) => ⟨engine, σ.flat⟩
  | .insertVector id vector o =>
    match σ.engine.insertVector ops id vector o with
    | (.ok _, engine) =>
      ⟨engine, { σ.flat with vec := Function.update σ.flat.vec id (some vector) }⟩
    | (.error _, engine) => ⟨engine, σ.flat⟩
  | .insertVectorBatch items o =>
    match σ.engine.insertVectorBatch ops items o with
    | (.ok _, engine) => ⟨engine, { σ.flat with vec := setAll σ.flat.vec items }⟩
    | (.error _, engine) =>
      ⟨engine, { σ.flat with vec := setAll σ.flat.vec (σ.engine.inserted ops items o) }⟩
  | .deleteVector id o =>
    match σ.engine.deleteVector ops id o with
    | (.ok _, engine) => ⟨engine, { σ.flat with vec := Function.update σ.flat.vec id none }⟩
    | (.error _, engine) => ⟨engine, σ.flat⟩

end ShardedSession

/-! ### The two loops of a batch -/

namespace ShardedEngine

variable {S O : Type} {ops : EngineOps S O} {route : NodeId → Nat}
  {items : List (NodeId × List F32)}

/-- The buckets: every bucket gets the items routed to it, in their order. -/
theorem bucketLoop_ok (route : NodeId → Nat) {items : List (NodeId × List F32)}
    {buckets : List (List (NodeId × List F32))}
    (h : ∀ item ∈ items, route item.1 < buckets.length) :
    ∃ bs, bucketLoop route items buckets = .ok bs ∧ bs.length = buckets.length ∧
      ∀ i b, buckets[i]? = some b →
        bs[i]? = some (b ++ items.filter fun item => route item.1 = i) := by
  induction items generalizing buckets with
  | nil =>
    refine ⟨buckets, rfl, rfl, fun i b hb => ?_⟩
    rw [hb, List.filter_nil, List.append_nil]
  | cons item items ih =>
    have hlt := h item List.mem_cons_self
    have hrest : ∀ x ∈ items,
        route x.1 < (buckets.modify (route item.1) (· ++ [item])).length := by
      intro x hx
      rw [List.length_modify]
      exact h x (List.mem_cons_of_mem _ hx)
    obtain ⟨bs, hloop, hlen, hget⟩ := ih hrest
    refine ⟨bs, ?_, hlen.trans (List.length_modify _ _ _), fun i b hb => ?_⟩
    · rw [bucketLoop, if_pos hlt]
      exact hloop
    · by_cases hi : route item.1 = i
      · subst hi
        rw [hget (route item.1) (b ++ [item]) (by simp [hb]),
          List.filter_cons_of_pos (by simp)]
        simp
      · rw [hget i b (by simp [hb, hi]), List.filter_cons_of_neg (by simpa)]

/-- What the second loop leaves: the shards before the one where it stops have taken their
    buckets, the others are as before. -/
structure Looped (laws : ops.IsMap) (route : NodeId → Nat) (items : List (NodeId × List F32))
    (i : Nat) (shards : List S) (m : NodeId → Option (List F32)) (stop : Nat)
    (res : Except StoreError Unit) (shards' : List S) : Prop where
  kv : shards'.map laws.kv = shards.map laws.kv
  parts : PartsFrom i route laws.vec shards'
    (setAll m (items.filter fun item => route item.1 < stop))
  le : i ≤ stop
  ok : res = .ok () → stop = i + shards.length ∧
    (∀ j, i ≤ j → j < i + shards.length →
      ((items.filter fun item => route item.1 = j).map Prod.fst).Nodup) ∧
    ∀ item ∈ items, i ≤ route item.1 → route item.1 < i + shards.length → m item.1 = none

/-- A shard that took its bucket, then the rest. -/
private theorem Looped.cons {laws : ops.IsMap} {i stop : Nat} {s s' : S} {shards shards' : List S}
    {m : NodeId → Option (List F32)} {res : Except StoreError Unit}
    (hs : ∀ id, laws.vec s id = if route id = i then m id else none)
    (hkv : laws.kv s' = laws.kv s)
    (hnd : ((items.filter fun item => route item.1 = i).map Prod.fst).Nodup)
    (hfresh : ∀ item ∈ items, route item.1 = i → laws.vec s item.1 = none)
    (hvec : laws.vec s' = setAll (laws.vec s) (items.filter fun item => route item.1 = i))
    (hrest : Looped laws route items (i + 1) shards m stop res shards') :
    Looped laws route items i (s :: shards) m stop res (s' :: shards') where
  kv := by rw [List.map_cons, List.map_cons, hkv, hrest.kv]
  parts := by
    have hle := hrest.le
    refine partsFrom_cons.mpr ⟨fun id => ?_, hrest.parts⟩
    have hbucket := setAll_filter (laws.vec s) items (fun id => route id = i) id
    have htaken := setAll_filter m items (fun id => route id < stop) id
    simp only [decide_eq_true_eq] at hbucket htaken
    rw [hvec, hbucket]
    split
    · -- an id of this shard: its entries are all in the bucket
      rename_i hid
      rw [htaken, if_pos (by omega)]
      exact setAll_congr (by rw [hs id, if_pos hid]) items
    · -- any other id is not stored here
      rename_i hid
      rw [hs id, if_neg hid]
  le := Nat.le_of_succ_le hrest.le
  ok := by
    intro hok
    obtain ⟨hstop, hnds, hnone⟩ := hrest.ok hok
    refine ⟨by rw [hstop, List.length_cons]; omega, fun j hlo hhi => ?_,
      fun item hitem hlo hhi => ?_⟩
    · by_cases hj : j = i
      · subst hj
        exact hnd
      · rw [List.length_cons] at hhi
        exact hnds j (by omega) (by omega)
    -- a new item of this shard, or of a later one
    by_cases hi : route item.1 = i
    · have hnew := hfresh item hitem hi
      rw [hs, if_pos hi] at hnew
      exact hnew
    · rw [List.length_cons] at hhi
      exact hnone item hitem (by omega) (by omega)

/-- The second loop of a batch, along the shards. -/
theorem insertLoop_spec (laws : ops.IsMap) (o : Nat → O) {i : Nat} {shards : List S}
    {buckets : List (List (NodeId × List F32))} {m : NodeId → Option (List F32)}
    (hlen : buckets.length = shards.length)
    (hb : ∀ j b, buckets[j]? = some b → b = items.filter fun item => route item.1 = i + j)
    (h : PartsFrom i route laws.vec shards m) :
    Looped laws route items i shards m (stopsAt ops o i shards buckets)
      (insertLoop ops o i shards buckets).1 (insertLoop ops o i shards buckets).2 := by
  induction shards generalizing i buckets with
  | nil =>
    refine ⟨rfl, fun j s hs => (nomatch hs), Nat.le_add_right _ _, fun _ => ⟨rfl, ?_, ?_⟩⟩
    · intro j hlo hhi
      exact absurd hhi (by rw [List.length_nil]; omega)
    · intro item _ hlo hhi
      exact absurd hhi (by rw [List.length_nil]; omega)
  | cons s shards ih =>
    cases buckets with
    | nil => exact nomatch hlen
    | cons bucket buckets =>
      obtain ⟨hs, hrest⟩ := partsFrom_cons.mp h
      have hlen' : buckets.length = shards.length := Nat.succ.inj hlen
      have hb' : ∀ j b, buckets[j]? = some b →
          b = items.filter fun item => route item.1 = i + 1 + j := by
        intro j b hj
        rw [hb (j + 1) b hj, Nat.add_right_comm i 1 j, Nat.add_assoc i j 1]
      have hbucket : bucket = items.filter fun item => route item.1 = i := hb 0 bucket rfl
      have hmem : ∀ item ∈ items, route item.1 = i → item ∈ bucket := by
        intro item hitem hi
        rw [hbucket]
        exact List.mem_filter.mpr ⟨hitem, by simpa using hi⟩
      unfold insertLoop stopsAt
      by_cases hempty : bucket.isEmpty = true
      · -- an empty bucket is skipped
        simp only [hempty, ↓reduceIte]
        obtain rfl : bucket = [] := List.isEmpty_iff.mp hempty
        refine Looped.cons hs rfl ?_ (fun item hitem hi => ?_) ?_ (ih hlen' hb' hrest)
        · rw [← hbucket]
          exact List.nodup_nil
        · exact nomatch hmem item hitem hi
        · rw [← hbucket]
          rfl
      simp only [hempty, Bool.false_eq_true, ↓reduceIte]
      cases hres : ops.insertVectorBatch s bucket (o i) with
      | mk res s' =>
        cases res with
        | ok u =>
          obtain ⟨hkv, hnd, hfresh, hvec⟩ := laws.insertVectorBatch_ok s bucket (o i) s' hres
          refine Looped.cons hs hkv ?_ (fun item hitem hi => ?_) ?_ (ih hlen' hb' hrest)
          · rw [← hbucket]
            exact hnd
          · exact hfresh item (hmem item hitem hi)
          · rw [← hbucket]
            exact hvec
        | error e =>
          -- the loop stops here, and the shard has changed nothing
          obtain ⟨hkv, hvec⟩ := laws.insertVectorBatch_error s bucket (o i) e s' hres
          refine ⟨by simp only [List.map_cons, hkv], ?_, Nat.le_refl _, fun hok => (nomatch hok)⟩
          have hsame : PartsFrom i route laws.vec (s' :: shards) m :=
            h.of_map_eq (by simp only [List.map_cons, hvec])
          refine hsame.congr fun id hid => ?_
          have htaken := setAll_filter m items (fun id => route id < i) id
          simp only [decide_eq_true_eq] at htaken
          rw [htaken, if_neg (by omega)]

end ShardedEngine

/-- The router names an existing shard for every key and every id. -/
structure ShardRouter.InRange (router : ShardRouter) (numShards : Nat) : Prop where
  vector : ∀ id, router.shardForVector id numShards < numShards
  key : ∀ key, router.shardForKey key numShards < numShards

/-- A remainder is in range. -/
theorem hashRouter_inRange (defaultHash : Bytes → UInt64) {numShards : Nat} (h : 1 ≤ numShards) :
    (hashRouter defaultHash).InRange numShards where
  vector id := by
    simp only [hashRouter, if_neg (Nat.one_le_iff_ne_zero.mp h)]
    exact Nat.mod_lt _ h
  key key := by
    simp only [hashRouter, if_neg (Nat.one_le_iff_ne_zero.mp h)]
    exact Nat.mod_lt _ h

/-- A call on a shard that is there. -/
theorem ShardedEngine.onShard_eq {S α : Type} {se : ShardedEngine S} {idx : Nat}
    (h : idx < se.shards.length) (call : S → Except StoreError α × S) :
    ∃ s, se.shards[idx]? = some s ∧
      se.onShard idx call = ((call s).1, { se with shards := se.shards.set idx (call s).2 }) := by
  have hs := List.getElem?_eq_getElem h
  refine ⟨_, hs, ?_⟩
  unfold onShard
  rw [hs]

namespace ShardedSession

variable {S O : Type} {ops : EngineOps S O} {laws : ops.IsMap} {numShards : Nat}
  {router : ShardRouter} {σ : ShardedSession S}

/-- Each shard holds the part of the one store that is routed to it. -/
structure Inv (laws : ops.IsMap) (numShards : Nat) (router : ShardRouter)
    (σ : ShardedSession S) : Prop where
  router_eq : σ.engine.router = router
  length : σ.engine.shards.length = numShards
  kv : PartsFrom 0 (router.shardForKey · numShards) laws.kv σ.engine.shards σ.flat.kv
  vec : PartsFrom 0 (router.shardForVector · numShards) laws.vec σ.engine.shards σ.flat.vec

/-- Empty shards hold the empty map. -/
theorem inv_start (laws : ops.IsMap) (numShards : Nat) (router : ShardRouter) :
    (start laws.fresh numShards router).Inv laws numShards router where
  router_eq := rfl
  length := List.length_replicate
  kv := by
    intro i s hs key
    obtain rfl : s = laws.fresh := List.eq_of_mem_replicate (List.mem_of_getElem? hs)
    simp only [laws.kv_fresh, start, ite_self]
  vec := by
    intro i s hs id
    obtain rfl : s = laws.fresh := List.eq_of_mem_replicate (List.mem_of_getElem? hs)
    simp only [laws.vec_fresh, start, ite_self]

/-- The shard of a vector is the one the router gives for this number of shards. -/
theorem Inv.vectorShard_eq (h : σ.Inv laws numShards router) (id : NodeId) :
    σ.engine.vectorShard id = router.shardForVector id numShards := by
  rw [ShardedEngine.vectorShard, ShardedEngine.numShards, h.router_eq, h.length]

/-- Likewise the shard of a key. -/
theorem Inv.keyShard_eq (h : σ.Inv laws numShards router) (key : Bytes) :
    σ.engine.keyShard key = router.shardForKey key numShards := by
  rw [ShardedEngine.keyShard, ShardedEngine.numShards, h.router_eq, h.length]

/-- Every number below the number of shards has its shard. -/
theorem Inv.exists_shard (h : σ.Inv laws numShards router) {i : Nat} (hi : i < numShards) :
    ∃ s, σ.engine.shards[i]? = some s := by
  rw [← h.length] at hi
  exact ⟨_, List.getElem?_eq_getElem hi⟩

/-- A shard changed without changing what it holds. -/
private theorem Inv.set_same (h : σ.Inv laws numShards router) {i : Nat} {s s' : S}
    (hs : σ.engine.shards[i]? = some s) (hkv : laws.kv s' = laws.kv s)
    (hvec : laws.vec s' = laws.vec s) :
    Inv laws numShards router
      ⟨{ σ.engine with shards := σ.engine.shards.set i s' }, σ.flat⟩ where
  router_eq := h.router_eq
  length := List.length_set.trans h.length
  kv := h.kv.set_same hs hkv
  vec := h.vec.set_same hs hvec

/-- The shard of `key` changed at `key`. -/
private theorem Inv.set_kv (h : σ.Inv laws numShards router) {key : Bytes} {v : Option Bytes}
    {s s' : S} (hs : σ.engine.shards[σ.engine.keyShard key]? = some s)
    (hkv : laws.kv s' = Function.update (laws.kv s) key v) (hvec : laws.vec s' = laws.vec s) :
    Inv laws numShards router
      ⟨{ σ.engine with shards := σ.engine.shards.set (σ.engine.keyShard key) s' },
        { σ.flat with kv := Function.update σ.flat.kv key v }⟩ where
  router_eq := h.router_eq
  length := List.length_set.trans h.length
  kv := by
    rw [h.keyShard_eq] at hs ⊢
    exact h.kv.set hs hkv
  vec := h.vec.set_same hs hvec

/-- The shard of `id` changed at `id`. -/
private theorem Inv.set_vec (h : σ.Inv laws numShards router) {id : NodeId}
    {v : Option (List F32)} {s s' : S} (hs : σ.engine.shards[σ.engine.vectorShard id]? = some s)
    (hkv : laws.kv s' = laws.kv s) (hvec : laws.vec s' = Function.update (laws.vec s) id v) :
    Inv laws numShards router
      ⟨{ σ.engine with shards := σ.engine.shards.set (σ.engine.vectorShard id) s' },
        { σ.flat with vec := Function.update σ.flat.vec id v }⟩ where
  router_eq := h.router_eq
  length := List.length_set.trans h.length
  kv := h.kv.set_same hs hkv
  vec := by
    rw [h.vectorShard_eq] at hs ⊢
    exact h.vec.set hs hvec

/-- A batch: what it returns, and the shards it leaves. -/
theorem Inv.insertVectorBatch (h : σ.Inv laws numShards router) (hr : router.InRange numShards)
    (items : List (NodeId × List F32)) (o : Nat → O) :
    let r := σ.engine.insertVectorBatch ops items o
    Inv laws numShards router
      ⟨r.2, { σ.flat with vec := setAll σ.flat.vec (σ.engine.inserted ops items o) }⟩ ∧
    (r.1 = .ok () → σ.engine.inserted ops items o = items ∧ (items.map Prod.fst).Nodup ∧
      ∀ item ∈ items, σ.flat.vec item.1 = none) := by
  have hroute : σ.engine.vectorShard = (router.shardForVector · numShards) :=
    funext h.vectorShard_eq
  have hnum : σ.engine.numShards = numShards := h.length
  have hlt : ∀ item ∈ items, router.shardForVector item.1 numShards <
      (List.replicate numShards ([] : List (NodeId × List F32))).length := by
    intro item _
    rw [List.length_replicate]
    exact hr.vector item.1
  -- the first loop fills the buckets
  obtain ⟨buckets, hloop, hlen, hget⟩ :=
    ShardedEngine.bucketLoop_ok (router.shardForVector · numShards) hlt
  rw [List.length_replicate] at hlen
  have hb : ∀ j b, buckets[j]? = some b →
      b = items.filter fun item => router.shardForVector item.1 numShards = 0 + j := by
    intro j b hj
    have hjlt : j < numShards := by
      rw [← hlen]
      exact (List.getElem?_eq_some_iff.mp hj).1
    rw [hget j [] (by rw [List.getElem?_replicate, if_pos hjlt])] at hj
    rw [← Option.some.inj hj, List.nil_append, Nat.zero_add]
  -- the second hands them out
  have hspec := ShardedEngine.insertLoop_spec laws o (hlen.trans h.length.symm) hb h.vec
  have hparts := hspec.parts
  simp only [ShardedEngine.insertVectorBatch, ShardedEngine.inserted, hroute, hnum, hloop]
  refine ⟨⟨h.router_eq, ?_, h.kv.of_map_eq hspec.kv, hparts⟩, fun hok => ?_⟩
  · have hmap := congrArg List.length hspec.kv
    rw [List.length_map, List.length_map, h.length] at hmap
    exact hmap
  · obtain ⟨hstop, hnds, hnone⟩ := hspec.ok hok
    rw [Nat.zero_add, h.length] at hstop hnds hnone
    refine ⟨?_, ?_, fun item hitem => hnone item hitem (Nat.zero_le _) (hr.vector item.1)⟩
    · -- no shard refused its bucket, so no item is left out
      rw [List.filter_eq_self]
      intro item _
      rw [hstop]
      exact decide_eq_true (hr.vector item.1)
    · -- an id that comes twice comes twice in one bucket
      apply nodup_of_filter (router.shardForVector · numShards)
      intro j
      by_cases hj : j < numShards
      · exact hnds j (Nat.zero_le _) hj
      · -- nothing is routed behind the last shard
        have hnil : (items.filter fun item => router.shardForVector item.1 numShards = j) = [] := by
          rw [List.filter_eq_nil_iff]
          intro item _ heq
          have hlt := hr.vector item.1
          rw [of_decide_eq_true heq] at hlt
          exact hj hlt
        rw [hnil]
        exact List.nodup_nil

/-- The step lemma. -/
theorem inv_step (h : σ.Inv laws numShards router) (hr : router.InRange numShards)
    (call : ShardCall O) : (σ.step ops call).Inv laws numShards router := by
  have hkey : ∀ key, σ.engine.keyShard key < σ.engine.shards.length := by
    intro key
    rw [h.keyShard_eq, h.length]
    exact hr.key key
  have hvector : ∀ id, σ.engine.vectorShard id < σ.engine.shards.length := by
    intro id
    rw [h.vectorShard_eq, h.length]
    exact hr.vector id
  -- a single call is one call on one shard; a batch is the loop over the buckets
  cases call with
  | putKv key value o =>
    obtain ⟨s, hs, hcall⟩ := ShardedEngine.onShard_eq (hkey key) fun s => ops.putKv s key value o
    simp only [step, ShardedEngine.putKv, hcall]
    rcases hres : ops.putKv s key value o with ⟨e | u, s'⟩
    · obtain ⟨hkv, hvec⟩ := laws.putKv_error s key value o e s' hres
      exact h.set_same hs hkv hvec
    · obtain ⟨hkv, hvec⟩ := laws.putKv_ok s key value o s' hres
      exact h.set_kv hs hkv hvec
  | deleteKv key o =>
    obtain ⟨s, hs, hcall⟩ := ShardedEngine.onShard_eq (hkey key) fun s => ops.deleteKv s key o
    simp only [step, ShardedEngine.deleteKv, hcall]
    rcases hres : ops.deleteKv s key o with ⟨e | removed, s'⟩
    · obtain ⟨hkv, hvec⟩ := laws.deleteKv_error s key o e s' hres
      exact h.set_same hs hkv hvec
    · obtain ⟨hkv, hvec⟩ := laws.deleteKv_ok s key o removed s' hres
      exact h.set_kv hs hkv hvec
  | insertVector id vector o =>
    obtain ⟨s, hs, hcall⟩ := ShardedEngine.onShard_eq (hvector id)
      fun s => ops.insertVector s id vector o
    simp only [step, ShardedEngine.insertVector, hcall]
    rcases hres : ops.insertVector s id vector o with ⟨e | u, s'⟩
    · obtain ⟨hkv, hvec⟩ := laws.insertVector_error s id vector o e s' hres
      exact h.set_same hs hkv hvec
    · obtain ⟨hkv, -, hvec⟩ := laws.insertVector_ok s id vector o s' hres
      exact h.set_vec hs hkv hvec
  | insertVectorBatch items o =>
    obtain ⟨hinv, hok⟩ := h.insertVectorBatch hr items o
    simp only [step]
    rcases hres : σ.engine.insertVectorBatch ops items o with ⟨e | u, engine⟩
    · rw [hres] at hinv
      exact hinv
    · rw [hres] at hinv hok
      rw [(hok rfl).1] at hinv
      exact hinv
  | deleteVector id o =>
    obtain ⟨s, hs, hcall⟩ := ShardedEngine.onShard_eq (hvector id) fun s => ops.deleteVector s id o
    simp only [step, ShardedEngine.deleteVector, hcall]
    rcases hres : ops.deleteVector s id o with ⟨e | removed, s'⟩
    · obtain ⟨hkv, hvec⟩ := laws.deleteVector_error s id o e s' hres
      exact h.set_same hs hkv hvec
    · obtain ⟨hkv, hvec⟩ := laws.deleteVector_ok s id o removed s' hres
      exact h.set_vec hs hkv hvec

/-! ### What the reads answer -/

/-- A value is found on its shard. -/
theorem Inv.getKvZeroCopy (h : σ.Inv laws numShards router) (hr : router.InRange numShards)
    (key : Bytes) : σ.engine.getKvZeroCopy ops key = .ok (σ.flat.kv key) := by
  obtain ⟨s, hs⟩ := h.exists_shard (hr.key key)
  rw [ShardedEngine.getKvZeroCopy, h.keyShard_eq, hs]
  simp only [laws.getKv]
  rw [h.kv.get hs]

/-- A vector is found on its shard. -/
theorem Inv.getVector (h : σ.Inv laws numShards router) (hr : router.InRange numShards)
    (id : NodeId) : σ.engine.getVector ops id = .ok (σ.flat.vec id) := by
  obtain ⟨s, hs⟩ := h.exists_shard (hr.vector id)
  rw [ShardedEngine.getVector, h.vectorShard_eq, hs]
  simp only [laws.getVector]
  rw [h.vec.get hs]

/-- The ids of the shards are the live ids, each of them once, and are counted. -/
theorem Inv.listVectorIds (h : σ.Inv laws numShards router) (hr : router.InRange numShards) :
    ∃ ids, σ.engine.listVectorIds ops = .ok ids ∧ ids.Nodup ∧
      (∀ id, id ∈ ids ↔ (σ.flat.vec id).isSome) ∧ σ.engine.vectorCount ops = ids.length := by
  obtain ⟨hnd, hmem⟩ := h.vec.keys (fun s _ => laws.nodup_ids s) (fun s _ => laws.mem_ids s)
  refine ⟨σ.engine.shards.flatMap laws.ids, ?_, hnd, fun id => ?_, ?_⟩
  · have hlist : ops.listVectorIds = fun s => .ok (laws.ids s) := funext laws.listVectorIds
    have hmapM : ∀ ss : List S, ss.mapM (fun s => (.ok (laws.ids s) : Except StoreError _)) =
        .ok (ss.map laws.ids) := by
      intro ss
      exact List.mapM_pure
    rw [ShardedEngine.listVectorIds, hlist, hmapM, List.flatMap_def]
    rfl
  · rw [hmem, Nat.zero_add, h.length]
    have hlt := hr.vector id
    exact ⟨fun hn => hn.1, fun hm => ⟨hm, Nat.zero_le _, hlt⟩⟩
  · have hlen : (fun s => (ops.vecLen s).getD 0) = fun s => (laws.ids s).length := by
      funext s
      rw [laws.vecLen, Option.getD_some]
    rw [ShardedEngine.vectorCount, hlen, List.length_flatMap]

/-- An id that some shard holds is routed to that shard. -/
theorem Inv.shard_of_live (h : σ.Inv laws numShards router) {i : Nat} {s : S}
    (hs : σ.engine.shards[i]? = some s) {id : NodeId} (hlive : (laws.vec s id).isSome) :
    σ.engine.vectorShard id = i := by
  rw [h.vec i s hs id, Nat.zero_add] at hlive
  rw [h.vectorShard_eq]
  by_contra hne
  rw [if_neg hne] at hlive
  exact Bool.false_ne_true hlive

/-- A live id is held by the shard the router names. -/
theorem Inv.live_on_shard (h : σ.Inv laws numShards router) (hr : router.InRange numShards)
    {id : NodeId} (hlive : (σ.flat.vec id).isSome) :
    ∃ s, σ.engine.shards[σ.engine.vectorShard id]? = some s ∧ (laws.vec s id).isSome := by
  obtain ⟨s, hs⟩ := h.exists_shard (hr.vector id)
  refine ⟨s, by rw [h.vectorShard_eq]; exact hs, ?_⟩
  rw [h.vec.get hs]
  exact hlive

/-- A batch that returns `Ok` inserts every item once. -/
theorem Inv.batch_ok (h : σ.Inv laws numShards router) (hr : router.InRange numShards)
    {items : List (NodeId × List F32)} {o : Nat → O} {engine : ShardedEngine S}
    (hbatch : σ.engine.insertVectorBatch ops items o = (.ok (), engine)) :
    (∀ item ∈ items, σ.engine.getVector ops item.1 = .ok none ∧
      engine.getVector ops item.1 = .ok (some item.2)) ∧
    engine.vectorCount ops = σ.engine.vectorCount ops + items.length := by
  obtain ⟨hinv, hok⟩ := h.insertVectorBatch hr items o
  rw [hbatch] at hinv hok
  obtain ⟨hall, hnd, hnone⟩ := hok rfl
  rw [hall] at hinv
  constructor
  · intro item hitem
    have hget := hinv.getVector hr item.1
    -- not there before, there after
    rw [h.getVector hr, hnone item hitem]
    exact ⟨rfl, hget.trans (congrArg Except.ok (setAll_of_mem hnd hitem))⟩
  · -- the ids after the batch are the old ones and those of the items
    obtain ⟨ids, -, hids, hmem, hcount⟩ := h.listVectorIds hr
    obtain ⟨ids', -, hids', hmem', hcount'⟩ := hinv.listVectorIds hr
    have hdisjoint : (ids ++ items.map Prod.fst).Nodup := by
      refine List.nodup_append.mpr ⟨hids, hnd, ?_⟩
      rintro id hold id' hnew rfl
      obtain ⟨item, hitem, rfl⟩ := List.mem_map.mp hnew
      rw [hmem, hnone item hitem] at hold
      exact Bool.false_ne_true hold
    have hperm : ids'.Perm (ids ++ items.map Prod.fst) := by
      rw [List.perm_ext_iff_of_nodup hids' hdisjoint]
      intro id
      rw [hmem', List.mem_append, hmem]
      exact setAll_isSome
    have hlength := hperm.length_eq
    rw [List.length_append, List.length_map] at hlength
    calc engine.vectorCount ops = ids'.length := hcount'
      _ = σ.engine.vectorCount ops + items.length := by rw [hlength, hcount]

/-- Over engines that behave as maps, with any number of shards and any router into them,
    the reads after any calls are those of one store; every live id is on the shard the
    router names and on no other; and a batch that returns `Ok` inserts every item once.  The
    one store takes of a batch that fails the items of the shards before the one that
    failed. -/
theorem agrees (laws : ops.IsMap) {numShards : Nat} {router : ShardRouter}
    (hr : router.InRange numShards) (calls : List (ShardCall O)) :
    let σ := Run.exec (step ops) (start laws.fresh numShards router) calls
    (∀ key, σ.engine.getKvZeroCopy ops key = .ok (σ.flat.kv key)) ∧
    (∀ id, σ.engine.getVector ops id = .ok (σ.flat.vec id)) ∧
    (∃ ids, σ.engine.listVectorIds ops = .ok ids ∧ ids.Nodup ∧
      (∀ id, id ∈ ids ↔ (σ.flat.vec id).isSome) ∧ σ.engine.vectorCount ops = ids.length) ∧
    (∀ id, (σ.flat.vec id).isSome → ∃! i : Nat, ∃ s, σ.engine.shards[i]? = some s ∧
      (laws.vec s id).isSome) ∧
    (∀ id (i : Nat) s, σ.engine.shards[i]? = some s → (laws.vec s id).isSome →
      i = router.shardForVector id numShards) ∧
    ∀ items o engine, σ.engine.insertVectorBatch ops items o = (.ok (), engine) →
      (∀ item ∈ items, σ.engine.getVector ops item.1 = .ok none ∧
        engine.getVector ops item.1 = .ok (some item.2)) ∧
      engine.vectorCount ops = σ.engine.vectorCount ops + items.length := by
  intro σ
  have h : σ.Inv laws numShards router :=
    Run.exec_invariant (Inv laws numShards router) (fun _ call h => inv_step h hr call) calls
      (inv_start laws numShards router)
  refine ⟨h.getKvZeroCopy hr, h.getVector hr, h.listVectorIds hr, fun id hlive => ?_, ?_,
    fun items o engine hbatch => h.batch_ok hr hbatch⟩
  · refine ⟨σ.engine.vectorShard id, h.live_on_shard hr hlive, ?_⟩
    rintro i ⟨s, hs, hsome⟩
    exact (h.shard_of_live hs hsome).symm
  · intro id i s hs hsome
    rw [← h.vectorShard_eq, h.shard_of_live hs hsome]

end ShardedSession

/-! ### An engine that is a map -/

/-- The smallest engine the layer can run on. -/
structure MapEngine where
  kv : AList (fun _ : Bytes => Bytes)
  vec : AList (fun _ : NodeId => List F32)

namespace MapEngine

/-- Insert a batch, unless one of its ids is there or comes up twice. -/
def insertVectorBatch (s : MapEngine) (items : List (NodeId × List F32)) :
    Except StoreError Unit × MapEngine :=
  match items.find? fun item => item.1 ∈ s.vec with
  | some item => (.error (.duplicateVector item.1), s)
  | none =>
    if (items.map Prod.fst).Nodup then
      (.ok (), { s with vec := s.vec.insertAll Prod.fst Prod.snd items })
    else (.error (.corrupt "id twice in one batch"), s)

/-- Its operations; none of them depends on an outcome. -/
def ops : EngineOps MapEngine Unit where
  putKv s key value _ := (.ok (), { s with kv := s.kv.insert key value })
  getKvZeroCopy s key := .ok (s.kv.lookup key)
  deleteKv s key _ := (.ok (decide (key ∈ s.kv)), { s with kv := s.kv.erase key })
  insertVector s id vector _ := s.insertVectorBatch [(id, vector)]
  insertVectorBatch s items _ := s.insertVectorBatch items
  deleteVector s id _ := (.ok (decide (id ∈ s.vec)), { s with vec := s.vec.erase id })
  getVector s id := .ok (s.vec.lookup id)
  listVectorIds s := .ok s.vec.keys
  vecLen s := some s.vec.keys.length

section

variable {α β : Type} [DecidableEq α]

/-- An insert into the map of an engine. -/
private theorem lookup_insert_eq (m : AList fun _ : α => β) (a : α) (b : β) :
    (fun k => (m.insert a b).lookup k) = Function.update (fun k => m.lookup k) a (some b) := by
  funext k
  by_cases hk : k = a
  · subst hk
    rw [AList.lookup_insert, Function.update_self]
  · rw [AList.lookup_insert_ne hk, Function.update_of_ne hk]

/-- A removal from it. -/
private theorem lookup_erase_eq (m : AList fun _ : α => β) (a : α) :
    (fun k => (m.erase a).lookup k) = Function.update (fun k => m.lookup k) a none := by
  funext k
  by_cases hk : k = a
  · subst hk
    rw [AList.lookup_erase, Function.update_self]
  · rw [AList.lookup_erase_ne hk, Function.update_of_ne hk]

/-- The items of a batch, one after the other. -/
private theorem lookup_insertAll_eq (m : AList fun _ : α => β) (es : List (α × β)) :
    (fun k => (m.insertAll Prod.fst Prod.snd es).lookup k) = setAll (fun k => m.lookup k) es := by
  induction es generalizing m with
  | nil => rfl
  | cons e es ih =>
    rw [AList.insertAll_cons, ih, setAll_cons, lookup_insert_eq]

end

/-- The engine over maps takes a batch whole or not at all. -/
private theorem insertVectorBatch_cases (s : MapEngine) (items : List (NodeId × List F32)) :
    (∃ e, s.insertVectorBatch items = (.error e, s)) ∨
    ((items.map Prod.fst).Nodup ∧ (∀ item ∈ items, s.vec.lookup item.1 = none) ∧
      s.insertVectorBatch items =
        (.ok (), { s with vec := s.vec.insertAll Prod.fst Prod.snd items })) := by
  unfold insertVectorBatch
  split
  · exact .inl ⟨_, rfl⟩
  · rename_i hfind
    split
    · rename_i hnd
      refine .inr ⟨hnd, fun item hitem => ?_, rfl⟩
      have hnone := List.find?_eq_none.mp hfind item hitem
      exact AList.lookup_eq_none.mpr (by simpa using hnone)
    · exact .inl ⟨_, rfl⟩

/-- What it holds then. -/
private theorem insertVectorBatch_ok {s s' : MapEngine} {items : List (NodeId × List F32)}
    (h : s.insertVectorBatch items = (.ok (), s')) :
    s'.kv = s.kv ∧ (items.map Prod.fst).Nodup ∧ (∀ item ∈ items, s.vec.lookup item.1 = none) ∧
      (fun id => s'.vec.lookup id) = setAll (fun id => s.vec.lookup id) items := by
  obtain ⟨e, he⟩ | ⟨hnd, hnone, hok⟩ := s.insertVectorBatch_cases items
  · rw [he] at h
    exact nomatch h
  · rw [hok] at h
    obtain rfl := (Prod.mk.inj h).2
    exact ⟨rfl, hnd, hnone, lookup_insertAll_eq s.vec items⟩

/-- A refused batch changes nothing. -/
private theorem insertVectorBatch_error {s s' : MapEngine} {items : List (NodeId × List F32)}
    {e : StoreError} (h : s.insertVectorBatch items = (.error e, s')) : s' = s := by
  obtain ⟨e', he⟩ | ⟨-, -, hok⟩ := s.insertVectorBatch_cases items
  · rw [he] at h
    exact (Prod.mk.inj h).2.symm
  · rw [hok] at h
    exact nomatch h

/-- It behaves as a map. -/
def isMap : ops.IsMap where
  kv s key := s.kv.lookup key
  vec s id := s.vec.lookup id
  fresh := ⟨∅, ∅⟩
  kv_fresh := rfl
  vec_fresh := rfl
  putKv_ok s key value _ s' h := by
    obtain rfl := (Prod.mk.inj h).2
    exact ⟨lookup_insert_eq s.kv key value, rfl⟩
  putKv_error s key value _ e s' h := nomatch h
  getKv _ _ := rfl
  deleteKv_ok s key _ removed s' h := by
    obtain rfl := (Prod.mk.inj h).2
    exact ⟨lookup_erase_eq s.kv key, rfl⟩
  deleteKv_error s key _ e s' h := nomatch h
  insertVector_ok s id vector _ s' h := by
    obtain ⟨hkv, -, hnone, hvec⟩ := insertVectorBatch_ok h
    exact ⟨by rw [hkv], hnone (id, vector) List.mem_cons_self, hvec⟩
  insertVector_error s id vector _ e s' h := by
    obtain rfl := insertVectorBatch_error h
    exact ⟨rfl, rfl⟩
  insertVectorBatch_ok s items _ s' h := by
    obtain ⟨hkv, hnd, hnone, hvec⟩ := insertVectorBatch_ok h
    exact ⟨by rw [hkv], hnd, hnone, hvec⟩
  insertVectorBatch_error s items _ e s' h := by
    obtain rfl := insertVectorBatch_error h
    exact ⟨rfl, rfl⟩
  deleteVector_ok s id _ removed s' h := by
    obtain rfl := (Prod.mk.inj h).2
    exact ⟨rfl, lookup_erase_eq s.vec id⟩
  deleteVector_error s id _ e s' h := nomatch h
  getVector _ _ := rfl
  ids s := s.vec.keys
  listVectorIds _ := rfl
  nodup_ids s := s.vec.keys_nodup
  mem_ids s id := by rw [AList.lookup_isSome, AList.mem_keys]
  vecLen _ := rfl

end MapEngine

namespace ShardedSession

/-- An id in use, and a batch of it and a new one. -/
private def clash : List (ShardCall Unit) :=
  [.insertVector 1 [7] (), .insertVectorBatch [(0, [5]), (1, [6])] fun _ => ()]

/-- Two shards and one: the batch fails on the id in use.  One shard then has nothing of the
    batch, two shards keep the item of the first shard. -/
theorem failed_batch_keeps_first_bucket :
    let two := Run.exec (step MapEngine.ops) (start MapEngine.isMap.fresh 2 (hashRouter fun _ => 0))
      clash
    let one := Run.exec (step MapEngine.ops) (start MapEngine.isMap.fresh 1 (hashRouter fun _ => 0))
      clash
    two.engine.getVector MapEngine.ops 0 = .ok (some [5]) ∧
      one.engine.getVector MapEngine.ops 0 = .ok none := by
  exact ⟨rfl, rfl⟩

/-- The same two shards list the two ids that are live. -/
theorem agrees_two :
    let σ := Run.exec (step MapEngine.ops) (start MapEngine.isMap.fresh 2 (hashRouter fun _ => 0))
      clash
    ∃ ids, σ.engine.listVectorIds MapEngine.ops = .ok ids ∧ ids.Nodup ∧
      (∀ id, id ∈ ids ↔ (σ.flat.vec id).isSome) ∧ σ.engine.vectorCount MapEngine.ops = 2 := by
  intro σ
  have hr : (hashRouter fun _ => 0).InRange 2 := hashRouter_inRange _ (by decide)
  obtain ⟨-, -, ⟨ids, hlist, hnd, hmem, -⟩, -⟩ := agrees MapEngine.isMap hr clash
  exact ⟨ids, hlist, hnd, hmem, rfl⟩

end ShardedSession

end FusionStore
