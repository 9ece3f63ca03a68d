import FusionStore.Native.ShardedStore
import FusionStore.Spec.EngineCalls
import FusionStore.Spec.ShardedCorrect
import FusionStore.Spec.ShardedSearch

/-!
# A sharded engine over real engines

A process that works on a sharded engine sees one store, over any number of calls, closes and
opens: each shard's engine holds the part of it that the router sends there, and its files hold
it in between.  Three things give the shards away.  A batch may be stored in part, shard by
shard; a query of another dimension finds nothing instead of failing; and hits come in the order
of `partial_cmp`, where a single engine sorts by `total_cmp`.

## Key results

- `ShardHost.sharding_invisible`: every call is answered as `StoreServes` says
-/

namespace FusionStore

/-! ### What a caller expects -/

/-- What a caller knows: whether the engine is open, and what it holds. -/
structure StoreView where
  isOpen : Bool
  contents : Contents

/-- A new vector of the right dimension. -/
def VecMap.Accepts (schema : VectorSchema) (m : VecMap) (item : NodeId × List F32) : Prop :=
  item.2.length = schema.dim ∧ m item.1 = none

/-- The vectors after the items of a batch. -/
def VecMap.batch (m : VecMap) (items : List (NodeId × List F32)) : VecMap :=
  Routed.setAll m (items.map fun item => (item.1, (item.2, false)))

namespace StoreCall

/-- Calls that open the engine. -/
def opens : StoreCall → Bool
  | .create _ _ | .reopen _ _ => true
  | _ => false

/-- A value fits a segment, and no batch names an id twice. -/
def Fine : StoreCall → Prop
  | .putKv _ value _ => value.length ≤ defaultSegmentSize
  | .insertVectorBatch items => (items.map Prod.fst).Nodup
  | _ => True

instance : ∀ call : StoreCall, Decidable call.Fine
  | .putKv _ value _ => inferInstanceAs (Decidable (value.length ≤ defaultSegmentSize))
  | .insertVectorBatch items => inferInstanceAs (Decidable (items.map Prod.fst).Nodup)
  | .create _ _ | .reopen _ _ | .close | .checkpoint | .getKv _ | .deleteKv _ _
  | .insertVector _ _ | .searchKnn _ _ _ _ | .deleteVector _ | .getVector _ | .listVectorIds
  | .vectorCount => .isTrue trivial

/-- The vectors that a call brings. -/
def vectors : StoreCall → List (List F32)
  | .insertVector _ x => [x]
  | .insertVectorBatch items => items.map Prod.snd
  | _ => []

/-- The query of a search. -/
def query : StoreCall → Option (List F32)
  | .searchKnn query _ _ _ => some query
  | _ => none

end StoreCall

variable (A : F32Arith)

/-- Hits that show stored vectors, each once, and in order if no distance is a NaN. -/
structure ShowsMerged (metric : MetricKind) (query : List F32) (topK : Nat)
    (visible : NodeId → Option (List F32)) (hits : List (NodeId × F32)) : Prop where
  length_le : hits.length ≤ topK
  nodup : (hits.map Prod.fst).Nodup
  stored : ∀ r ∈ hits, ∃ v, visible r.1 = some v ∧ r.2 = Simd.distance A metric query v
  sorted : (∀ id v, visible id = some v → F32.isNaN (Simd.distance A metric query v) = false) →
    hits.Pairwise fun a b => ShardedEngine.hitLe a b = true

/-- A call, its answer, and what the caller knows after it; `shardOf` is where a vector goes. -/
inductive StoreServes (schema : VectorSchema) (numShards : Nat) (shardOf : NodeId → Nat)
    (v : StoreView) : StoreCall → StoreReply → StoreView → Prop
  | skipped {call : StoreCall} (hwrong : call.opens = v.isOpen) :
      StoreServes schema numShards shardOf v call .skipped v
  | create {quota : Nat} {orders : Nat → MapOrder} (hclosed : v.isOpen = false) :
      StoreServes schema numShards shardOf v (.create quota orders) (.unit (.ok ()))
        { v with isOpen := true }
  | createFailed {quota : Nat} {orders : Nat → MapOrder} {msg : String}
      (hclosed : v.isOpen = false) (hdead : ∃ id x, v.contents.vectors id = some (x, true)) :
      StoreServes schema numShards shardOf v (.create quota orders)
        (.unit (.error (.corrupt msg))) v
  | reopen {quota : Nat} {orders : Nat → MapOrder} (hclosed : v.isOpen = false) :
      StoreServes schema numShards shardOf v (.reopen quota orders) (.unit (.ok ()))
        ⟨true, v.contents.revive⟩
  | close (hopen : v.isOpen = true) : StoreServes schema numShards shardOf v .close
      (.unit (.ok ())) { v with isOpen := false }
  | checkpoint (hopen : v.isOpen = true) :
      StoreServes schema numShards shardOf v .checkpoint (.unit (.ok ())) v
  | put {key value : Bytes} {locked : Bool} (hopen : v.isOpen = true) (hne : key ≠ [])
      (hle : key.length ≤ lmdbMaxKey) :
      StoreServes schema numShards shardOf v (.putKv key value locked) (.unit (.ok ()))
        { v with contents :=
          { v.contents with value := Function.update v.contents.value key (some value) } }
  | putFailed {key value : Bytes} {locked : Bool} {err : StoreError} (hopen : v.isOpen = true)
      (herr : err.NoPanic) :
      StoreServes schema numShards shardOf v (.putKv key value locked) (.unit (.error err)) v
  | get {key : Bytes} (hopen : v.isOpen = true) (hne : key ≠ []) :
      StoreServes schema numShards shardOf v (.getKv key) (.value (.ok (v.contents.value key))) v
  | getEmpty (hopen : v.isOpen = true) : StoreServes schema numShards shardOf v (.getKv [])
      (.value (.error (.heed "MDB_BAD_VALSIZE"))) v
  | deleteKv {key : Bytes} {locked : Bool} (hopen : v.isOpen = true) (hne : key ≠ []) :
      StoreServes schema numShards shardOf v (.deleteKv key locked)
        (.removed (.ok (v.contents.value key).isSome)) { v with contents :=
          { v.contents with value := Function.update v.contents.value key none } }
  | deleteKvFailed {key : Bytes} {locked : Bool} {err : StoreError} (hopen : v.isOpen = true)
      (herr : err.NoPanic)
      (hno : key = [] ∨ locked = false ∨ (encodeOp (.deleteKv key)).length > u32Max) :
      StoreServes schema numShards shardOf v (.deleteKv key locked) (.removed (.error err)) v
  | insert {id : NodeId} {x : List F32} (hopen : v.isOpen = true)
      (hnew : v.contents.vectors.Accepts schema (id, x)) :
      StoreServes schema numShards shardOf v (.insertVector id x) (.unit (.ok ()))
        { v with contents := { v.contents with
          vectors := Function.update v.contents.vectors id (some (x, false)) } }
  | insertFailed {id : NodeId} {x : List F32} {err : StoreError} (hopen : v.isOpen = true)
      (herr : err.NoPanic) (hno : ¬v.contents.vectors.Accepts schema (id, x)) :
      StoreServes schema numShards shardOf v (.insertVector id x) (.unit (.error err)) v
  | batch {items : List (NodeId × List F32)} (hopen : v.isOpen = true)
      (hall : ∀ item ∈ items, v.contents.vectors.Accepts schema item) :
      StoreServes schema numShards shardOf v (.insertVectorBatch items) (.unit (.ok ()))
        { v with contents := { v.contents with vectors := v.contents.vectors.batch items } }
  | batchFailed {items : List (NodeId × List F32)} {err : StoreError} {stop : Nat}
      (hopen : v.isOpen = true) (herr : err.NoPanic)
      (hbefore : ∀ item ∈ items, shardOf item.1 < stop → v.contents.vectors.Accepts schema item)
      (hstop : ∃ item ∈ items, shardOf item.1 = stop ∧ ¬v.contents.vectors.Accepts schema item) :
      StoreServes schema numShards shardOf v (.insertVectorBatch items) (.unit (.error err))
        { v with contents := { v.contents with
          vectors := v.contents.vectors.batch
            (items.filter fun item => shardOf item.1 < stop) } }
  | search {query : List F32} {topK : Nat} {expired : Nat → Nat → Bool} {sortPanics : Bool}
      {hits : List (NodeId × F32)} (hopen : v.isOpen = true) (hdim : query.length = schema.dim)
      (hshows : ShowsMerged A schema.metric query topK v.contents.vectors.visible hits)
      (hsorted : hits.Pairwise fun a b => ShardedEngine.hitLe a b = true) :
      StoreServes schema numShards shardOf v (.searchKnn query topK expired sortPanics)
        (.hits (.ok hits)) v
  | searchFailed {query : List F32} {topK : Nat} {expired : Nat → Nat → Bool} {sortPanics : Bool}
      (hopen : v.isOpen = true) (hdim : query.length ≠ schema.dim) (hone : numShards = 1) :
      StoreServes schema numShards shardOf v (.searchKnn query topK expired sortPanics)
        (.hits (.error (.dimensionMismatch schema.dim query.length))) v
  | searchHidden {query : List F32} {topK : Nat} {expired : Nat → Nat → Bool} {sortPanics : Bool}
      (hopen : v.isOpen = true) (hdim : query.length ≠ schema.dim) (hmany : numShards ≠ 1) :
      StoreServes schema numShards shardOf v (.searchKnn query topK expired sortPanics)
        (.hits (.ok [])) v
  | delete {id : NodeId} (hopen : v.isOpen = true) :
      StoreServes schema numShards shardOf v (.deleteVector id)
        (.removed (.ok (v.contents.vectors.visible id).isSome)) { v with contents :=
          { v.contents with vectors := v.contents.vectors.delete id } }
  | getVector {id : NodeId} (hopen : v.isOpen = true) :
      StoreServes schema numShards shardOf v (.getVector id)
        (.vector (.ok (v.contents.vectors.visible id))) v
  | list {ids : List NodeId} (hopen : v.isOpen = true) (hnodup : ids.Nodup)
      (hmem : ∀ id, id ∈ ids ↔ (v.contents.vectors.visible id).isSome) :
      StoreServes schema numShards shardOf v .listVectorIds (.ids (.ok ids)) v
  | count (hopen : v.isOpen = true) :
      StoreServes schema numShards shardOf v .vectorCount
        (.count {id | (v.contents.vectors.visible id).isSome}.ncard) v

/-! ### The parts of the shards -/

namespace ShardRouter

variable (router : ShardRouter) (numShards : Nat)

/-- Where a value goes. -/
def keyShard (key : Bytes) : Nat := router.shardForKey key numShards

/-- Where a vector goes. -/
def idShard (id : NodeId) : Nat := router.shardForVector id numShards

/-- What the router sends to one shard. -/
def part (c : Contents) (i : Nat) : Contents where
  value := Routed.part (router.keyShard numShards) i c.value
  vectors := Routed.part (router.idShard numShards) i c.vectors

end ShardRouter

namespace VecMap

variable (route : NodeId → Nat) (i : Nat) (m : VecMap)

/-- Hiding soft-deleted vectors, shard by shard. -/
theorem visible_part : visible (Routed.part route i m) = Routed.part route i m.visible := by
  funext id
  unfold visible Routed.part
  by_cases hid : route id = i <;> simp [hid]

/-- A delete, on the shard of its id. -/
theorem delete_part (id : NodeId) : delete (Routed.part route (route id) m) id =
    Routed.part route (route id) (m.delete id) := by
  unfold delete
  rw [Routed.part_update, Routed.part_route]

/-- The reopen without a schema, shard by shard. -/
theorem revive_part : revive (Routed.part route i m) = Routed.part route i m.revive := by
  funext id
  unfold revive Routed.part
  by_cases hid : route id = i <;> simp [hid]

/-- Of the items before `stop` a shard before it takes its bucket, a later one nothing. -/
theorem batch_part (items : List (NodeId × List F32)) (stop : Nat) :
    Routed.part route i (m.batch (items.filter fun item => route item.1 < stop)) =
      if i < stop then
        batch (Routed.part route i m) (items.filter fun item => route item.1 = i)
      else Routed.part route i m := by
  unfold batch
  rw [Routed.part_setAll, List.filter_map, List.filter_filter]
  -- of the items that were stored, shard `i` gets its own, all of them or none
  have hfilter : items.filter
      (fun item => decide (route item.1 = i) && decide (route item.1 < stop)) =
      if i < stop then items.filter fun item => route item.1 = i else [] := by
    split
    · rename_i hi
      apply List.filter_congr
      intro item hitem
      by_cases hroute : route item.1 = i
      · simp [hroute, hi]
      · simp [hroute]
    · rename_i hi
      -- an item of shard `i` is not before the end
      rw [List.filter_eq_nil_iff]
      intro item hitem
      simp only [Bool.and_eq_true, decide_eq_true_eq, not_and]
      omega
  have hcomp : ((fun e : NodeId × (List F32 × Bool) => decide (route e.1 = i)) ∘
      fun item : NodeId × List F32 => (item.1, (item.2, false))) =
        fun item => decide (route item.1 = i) := rfl
  rw [hcomp, hfilter]
  split <;> rfl

end VecMap

namespace ShardRouter

variable (router : ShardRouter) (numShards : Nat) (c : Contents)

/-- The same for the whole contents. -/
theorem part_revive (i : Nat) :
    router.part numShards c.revive i = (router.part numShards c i).revive := by
  unfold part Contents.revive
  rw [VecMap.revive_part]

/-- A value is set at the shard of its key. -/
theorem part_value (key : Bytes) (x : Option Bytes) :
    router.part numShards { c with value := Function.update c.value key x }
      (router.keyShard numShards key) =
    { router.part numShards c (router.keyShard numShards key) with
      value := Function.update
        (router.part numShards c (router.keyShard numShards key)).value key x } := by
  unfold part
  rw [Routed.part_update]

/-- A put does not concern the other shards. -/
theorem part_value_of_ne {key : Bytes} {i : Nat} (h : i ≠ router.keyShard numShards key)
    (x : Option Bytes) :
    router.part numShards { c with value := Function.update c.value key x } i =
      router.part numShards c i := by
  unfold part
  rw [Routed.part_update_of_ne _ _ (Ne.symm h)]

/-- A vector is set at the shard of its id. -/
theorem part_vectors (id : NodeId) (x : Option (List F32 × Bool)) :
    router.part numShards { c with vectors := Function.update c.vectors id x }
      (router.idShard numShards id) =
    { router.part numShards c (router.idShard numShards id) with
      vectors := Function.update
        (router.part numShards c (router.idShard numShards id)).vectors id x } := by
  unfold part
  rw [Routed.part_update]

/-- Nor does an insert or a delete. -/
theorem part_vectors_of_ne {id : NodeId} {i : Nat} (h : i ≠ router.idShard numShards id)
    (x : Option (List F32 × Bool)) :
    router.part numShards { c with vectors := Function.update c.vectors id x } i =
      router.part numShards c i := by
  unfold part
  rw [Routed.part_update_of_ne _ _ (Ne.symm h)]

end ShardRouter

/-! ### The shards of an open engine -/

namespace ShardedEngine

variable {schema : VectorSchema} {router : ShardRouter} {numShards : Nat}
  {se : ShardedEngine Engine} {c : Contents}

/-- Each shard holds its part. -/
structure Matches (schema : VectorSchema) (router : ShardRouter) (numShards : Nat)
    (se : ShardedEngine Engine) (c : Contents) : Prop where
  router_eq : se.router = router
  length : se.shards.length = numShards
  holds : ∀ (i : Nat) (e : Engine), se.shards[i]? = some e →
    e.Matches schema (router.part numShards c i)

/-- The shard of a key is the one the router gives for this number of shards. -/
theorem Matches.keyShard_eq (h : se.Matches schema router numShards c) (key : Bytes) :
    se.keyShard key = router.keyShard numShards key := by
  unfold keyShard ShardedEngine.numShards
  rw [h.router_eq, h.length]
  rfl

/-- Likewise the shard of a vector. -/
theorem Matches.vectorShard_eq (h : se.Matches schema router numShards c) (id : NodeId) :
    se.vectorShard id = router.idShard numShards id := by
  unfold vectorShard ShardedEngine.numShards
  rw [h.router_eq, h.length]
  rfl

/-- The shard is there and holds its part. -/
theorem Matches.exists_shard (h : se.Matches schema router numShards c) {i : Nat}
    (hi : i < numShards) :
    ∃ e, se.shards[i]? = some e ∧ e.Matches schema (router.part numShards c i) := by
  have hlt : i < se.shards.length := h.length ▸ hi
  exact ⟨_, List.getElem?_eq_getElem hlt, h.holds i _ (List.getElem?_eq_getElem hlt)⟩

/-- A call on one shard that does not concern the others. -/
theorem Matches.set (h : se.Matches schema router numShards c) {i : Nat} {e : Engine}
    {c' : Contents} (he : e.Matches schema (router.part numShards c' i))
    (hother : ∀ j, j ≠ i → router.part numShards c' j = router.part numShards c j) :
    ({ se with shards := se.shards.set i e } : ShardedEngine Engine).Matches schema router
      numShards c' where
  router_eq := h.router_eq
  length := (List.length_set).trans h.length
  holds := by
    intro j x hx
    rw [List.getElem?_set] at hx
    split at hx
    · rename_i hij
      subst hij
      split at hx
      · obtain rfl := Option.some.inj hx
        exact he
      · cases hx
    · rename_i hij
      rw [hother j (Ne.symm hij)]
      exact h.holds j x hx

/-- A call on one shard is a call on its engine. -/
theorem Matches.onShard (h : se.Matches schema router numShards c) {i : Nat} (hi : i < numShards)
    {α : Type} (call : Engine → Except StoreError α × Engine) :
    ∃ e, e.Matches schema (router.part numShards c i) ∧ se.onShard i call =
      ((call e).1, { se with shards := se.shards.set i (call e).2 }) := by
  obtain ⟨e, he, hcall⟩ := onShard_eq (h.length ▸ hi) call
  exact ⟨e, h.holds i e he, hcall⟩

/-! ### Calls that go to one shard -/

/-- A put at the shard of its key. -/
theorem Matches.putKv (h : se.Matches schema router numShards c) (hr : router.InRange numShards)
    (key : Bytes) {value : Bytes} (hlen : value.length ≤ defaultSegmentSize) (locked : Bool) :
    (key ≠ [] ∧ key.length ≤ lmdbMaxKey ∧ ∃ se', se.putKv (Engine.ops A) key value locked =
      (.ok (), se') ∧ se'.Matches schema router numShards
        { c with value := Function.update c.value key (some value) }) ∨
    (∃ err se', se.putKv (Engine.ops A) key value locked = (.error err, se') ∧ err.NoPanic ∧
      se'.Matches schema router numShards c) := by
  have hkey : router.keyShard numShards key < numShards := hr.key key
  obtain ⟨e, he, hcall⟩ := h.onShard hkey fun e => e.putKv key value locked
  have hput : se.putKv (Engine.ops A) key value locked =
      se.onShard (router.keyShard numShards key) fun e => e.putKv key value locked := by
    rw [← h.keyShard_eq]
    rfl
  rw [hput, hcall]
  obtain ⟨hne, hle, e', hres, he'⟩ | ⟨err, e', hres, herr, he'⟩ :=
    he.putKv_cases key hlen locked
  · rw [hres]
    refine .inl ⟨hne, hle, _, rfl, h.set ?_ fun j hj => router.part_value_of_ne numShards c hj _⟩
    rw [router.part_value]
    exact he'
  · rw [hres]
    exact .inr ⟨err, _, rfl, herr, h.set he' fun _ _ => rfl⟩

/-- A delete of a value at the shard of its key. -/
theorem Matches.deleteKv (h : se.Matches schema router numShards c)
    (hr : router.InRange numShards) (key : Bytes) (locked : Bool) :
    (key ≠ [] ∧ ∃ se', se.deleteKv (Engine.ops A) key locked = (.ok (c.value key).isSome, se') ∧
      se'.Matches schema router numShards
        { c with value := Function.update c.value key none }) ∨
    ((key = [] ∨ locked = false ∨ (encodeOp (.deleteKv key)).length > u32Max) ∧
      ∃ err se', se.deleteKv (Engine.ops A) key locked = (.error err, se') ∧ err.NoPanic ∧
        se'.Matches schema router numShards c) := by
  have hkey : router.keyShard numShards key < numShards := hr.key key
  -- the key's shard answers for the whole store
  obtain ⟨e, he, hcall⟩ := h.onShard hkey fun e => e.deleteKv key locked
  have hdel : se.deleteKv (Engine.ops A) key locked =
      se.onShard (router.keyShard numShards key) fun e => e.deleteKv key locked := by
    rw [← h.keyShard_eq]
    rfl
  have hvalue : (router.part numShards c (router.keyShard numShards key)).value key =
      c.value key := Routed.part_route _ _ key
  rw [hdel, hcall]
  obtain ⟨hne, e', hres, he'⟩ | ⟨hno, err, e', hres, herr, he'⟩ := he.deleteKv_cases key locked
  · rw [hres, hvalue]
    refine .inl ⟨hne, _, rfl, h.set ?_ fun j hj => router.part_value_of_ne numShards c hj _⟩
    -- the other parts do not hold the key
    rw [router.part_value]
    exact he'
  · rw [hres]
    exact .inr ⟨hno, err, _, rfl, herr, h.set he' fun _ _ => rfl⟩

/-- A value is found on its shard. -/
theorem Matches.getKv (h : se.Matches schema router numShards c) (hr : router.InRange numShards)
    {key : Bytes} (hne : key ≠ []) :
    se.getKvZeroCopy (Engine.ops A) key = .ok (c.value key) := by
  obtain ⟨e, hget, he⟩ := h.exists_shard (hr.key key)
  unfold getKvZeroCopy
  rw [h.keyShard_eq, show se.shards[router.keyShard numShards key]? = some e from hget]
  show e.getKvZeroCopy key = _
  rw [he.getKv_eq hne]
  exact congrArg Except.ok (Routed.part_route (router.keyShard numShards) c.value key)

/-- The empty key has a shard too, which refuses it. -/
theorem Matches.getKv_nil (h : se.Matches schema router numShards c)
    (hr : router.InRange numShards) :
    se.getKvZeroCopy (Engine.ops A) [] = .error (.heed "MDB_BAD_VALSIZE") := by
  obtain ⟨e, hget, -⟩ := h.exists_shard (hr.key [])
  unfold getKvZeroCopy
  rw [h.keyShard_eq, show se.shards[router.keyShard numShards []]? = some e from hget]
  rfl

/-- A part accepts the vectors of its shard that the whole accepts. -/
theorem accepts_part (router : ShardRouter) (numShards : Nat) (item : NodeId × List F32) :
    (router.part numShards c (router.idShard numShards item.1)).vectors.Accepts schema item ↔
      c.vectors.Accepts schema item := by
  unfold VecMap.Accepts
  rw [show (router.part numShards c (router.idShard numShards item.1)).vectors item.1 =
    c.vectors item.1 from Routed.part_route (router.idShard numShards) c.vectors item.1]

/-- An insert at the shard of its id. -/
theorem Matches.insertVector (h : se.Matches schema router numShards c)
    (hr : router.InRange numShards) (id : NodeId) (x : List F32) :
    (c.vectors.Accepts schema (id, x) ∧ ∃ se', se.insertVector (Engine.ops A) id x true =
      (.ok (), se') ∧ se'.Matches schema router numShards
        { c with vectors := Function.update c.vectors id (some (x, false)) }) ∨
    (¬c.vectors.Accepts schema (id, x) ∧ ∃ err se', se.insertVector (Engine.ops A) id x true =
      (.error err, se') ∧ err.NoPanic ∧ se'.Matches schema router numShards c) := by
  have hid : router.idShard numShards id < numShards := hr.vector id
  obtain ⟨e, he, hcall⟩ := h.onShard hid fun e => e.insertVector A id x
  have hins : se.insertVector (Engine.ops A) id x true =
      se.onShard (router.idShard numShards id) fun e => e.insertVector A id x := by
    rw [← h.vectorShard_eq]
    rfl
  rw [hins, hcall, ← accepts_part router numShards (id, x)]
  obtain ⟨hnew, e', hres, he'⟩ | ⟨hno, err, e', hres, herr, he'⟩ := he.insertVector_iff A id x
  · rw [hres]
    refine .inl ⟨hnew, _, rfl, h.set ?_ fun j hj => router.part_vectors_of_ne numShards c hj _⟩
    rw [router.part_vectors]
    exact he'
  · rw [hres]
    exact .inr ⟨hno, err, _, rfl, herr, h.set he' fun _ _ => rfl⟩

/-- A delete of a vector at the shard of its id. -/
theorem Matches.deleteVector (h : se.Matches schema router numShards c)
    (hr : router.InRange numShards) (id : NodeId) :
    ∃ se', se.deleteVector (Engine.ops A) id true = (.ok (c.vectors.visible id).isSome, se') ∧
      se'.Matches schema router numShards { c with vectors := c.vectors.delete id } := by
  have hid : router.idShard numShards id < numShards := hr.vector id
  obtain ⟨e, he, hcall⟩ := h.onShard hid fun e => e.deleteVector id
  have hdel : se.deleteVector (Engine.ops A) id true =
      se.onShard (router.idShard numShards id) fun e => e.deleteVector id := by
    rw [← h.vectorShard_eq]
    -- the id's shard answers for the whole store
    rfl
  obtain ⟨e', hres, -, he'⟩ := he.deleteVector_eq id
  -- the shard shows what the whole shows of this id
  have hvisible : (router.part numShards c (router.idShard numShards id)).vectors.visible id =
      c.vectors.visible id := by
    unfold ShardRouter.part
    rw [VecMap.visible_part, Routed.part_route]
  rw [hdel, hcall, hres, hvisible]
  refine ⟨_, rfl, h.set ?_ fun j hj => router.part_vectors_of_ne numShards c hj _⟩
  -- removing from the whole and from the part commute
  have hpart : router.part numShards { c with vectors := c.vectors.delete id }
      (router.idShard numShards id) =
        { router.part numShards c (router.idShard numShards id) with
          vectors :=
            (router.part numShards c (router.idShard numShards id)).vectors.delete id } := by
    unfold ShardRouter.part
    rw [VecMap.delete_part]
  rw [hpart]
  exact he'

/-! ### Calls that go to all shards -/

/-- The vector that an engine shows. -/
def shown (e : Engine) (id : NodeId) : Option (List F32) :=
  (e.getVector id).toOption.join

/-- The ids that an engine lists. -/
def listed (e : Engine) : List NodeId := e.listVectorIds.toOption.getD []

/-- The shards show the parts of what is shown. -/
theorem Matches.parts (h : se.Matches schema router numShards c) :
    Routed.PartsFrom 0 (router.idShard numShards) shown se.shards c.vectors.visible := by
  intro i e he id
  unfold shown
  rw [(h.holds i e he).getVector_eq id, ShardRouter.part, VecMap.visible_part, Nat.zero_add]
  rfl

/-- A vector is found on its shard. -/
theorem Matches.getVector (h : se.Matches schema router numShards c)
    (hr : router.InRange numShards) (id : NodeId) :
    se.getVector (Engine.ops A) id = .ok (c.vectors.visible id) := by
  have hid : router.idShard numShards id < numShards := hr.vector id
  obtain ⟨e, hget, he⟩ := h.exists_shard hid
  unfold ShardedEngine.getVector
  rw [h.vectorShard_eq, hget]
  show e.getVector id = _
  rw [he.getVector_eq id, ShardRouter.part, VecMap.visible_part, Routed.part_route]

/-- Every shard lists its ids. -/
theorem mapM_listVectorIds {es : List Engine} (h : ∀ e ∈ es, e.listVectorIds = .ok (listed e)) :
    es.mapM (Engine.ops A).listVectorIds = .ok (es.map listed) := by
  induction es with
  | nil => rfl
  | cons e es ih =>
    have hfirst : (Engine.ops A).listVectorIds e = .ok (listed e) := h e List.mem_cons_self
    rw [List.mapM_cons, hfirst, ih fun x hx => h x (List.mem_cons_of_mem _ hx)]
    rfl

/-- The ids of the shards are the ids that are shown, each of them once, and are counted. -/
theorem Matches.listVectorIds (h : se.Matches schema router numShards c)
    (hr : router.InRange numShards) :
    ∃ ids, se.listVectorIds (Engine.ops A) = .ok ids ∧ ids.Nodup ∧
      (∀ id, id ∈ ids ↔ (c.vectors.visible id).isSome) ∧
      se.vectorCount (Engine.ops A) = ids.length := by
  -- what each shard lists and counts
  have hshard : ∀ e ∈ se.shards, e.listVectorIds = .ok (listed e) ∧ (listed e).Nodup ∧
      (∀ id, id ∈ listed e ↔ (shown e id).isSome) ∧
      ((Engine.ops A).vecLen e).getD 0 = (listed e).length := by
    intro e hmem
    obtain ⟨i, hi⟩ := List.mem_iff_getElem?.mp hmem
    have he := h.holds i e hi
    obtain ⟨x, hvec, hlist, hnodup, hids⟩ := he.listVectorIds_eq
    have hlisted : listed e = x.listVectorIds := by
      unfold listed
      rw [hlist]
      rfl
    refine ⟨hlisted ▸ hlist, hlisted ▸ hnodup, fun id => ?_, ?_⟩
    · rw [hlisted, hids, shown, he.getVector_eq]
      rfl
    · simp only [Engine.ops, Engine.ensureVec, hvec, Option.getD_some, hlisted]
      exact (NswGraph.length_allIds x.graph).symm
  -- the lists of the shards share no id
  obtain ⟨hnodup, hmem⟩ := h.parts.keys (fun e he => (hshard e he).2.1)
    (fun e he => (hshard e he).2.2.1)
  refine ⟨se.shards.flatMap listed, ?_, hnodup, fun id => ?_, ?_⟩
  · rw [ShardedEngine.listVectorIds, mapM_listVectorIds A fun e he => (hshard e he).1,
      List.flatMap_def]
    rfl
  · rw [hmem, Nat.zero_add, h.length]
    have hlt : router.idShard numShards id < numShards := hr.vector id
    exact ⟨fun hn => hn.1, fun hm => ⟨hm, Nat.zero_le _, hlt⟩⟩
  · -- each shard counts what it lists
    rw [ShardedEngine.vectorCount, List.length_flatMap]
    exact congrArg List.sum (List.map_congr_left fun e he => (hshard e he).2.2.2)

/-! ### A batch -/

/-- The contents after a batch whose buckets before shard `stop` were stored. -/
def storedBefore (router : ShardRouter) (numShards : Nat) (c : Contents)
    (items : List (NodeId × List F32)) (stop : Nat) : Contents :=
  { c with vectors :=
      c.vectors.batch (items.filter fun item => router.idShard numShards item.1 < stop) }

/-- The shards before `stop` have their buckets, the others are as they were. -/
theorem part_storedBefore (items : List (NodeId × List F32)) (stop i : Nat) :
    router.part numShards (storedBefore router numShards c items stop) i =
      if i < stop then { router.part numShards c i with
        vectors := (router.part numShards c i).vectors.batch
          (items.filter fun item => router.idShard numShards item.1 = i) }
      else router.part numShards c i := by
  unfold storedBefore ShardRouter.part
  rw [VecMap.batch_part]
  split <;> rfl

/-- What the second loop of a batch did from shard `base` on: it stopped at shard `stop`, which
    has refused its bucket or is past the last one. -/
structure Inserted (schema : VectorSchema) (router : ShardRouter) (numShards : Nat) (c : Contents)
    (items : List (NodeId × List F32)) (base stop : Nat) (r : Except StoreError Unit)
    (shards shards' : List Engine) : Prop where
  length : shards'.length = shards.length
  le : base ≤ stop
  holds : ∀ (j : Nat) (e : Engine), shards'[j]? = some e →
    e.Matches schema (router.part numShards (storedBefore router numShards c items stop) (base + j))
  before : ∀ item ∈ items, base ≤ router.idShard numShards item.1 →
    router.idShard numShards item.1 < stop → c.vectors.Accepts schema item
  result : r = .ok () ∧ stop = base + shards.length ∨
    (∃ err, r = .error err ∧ err.NoPanic) ∧ stop < base + shards.length ∧
      ∃ item ∈ items, router.idShard numShards item.1 = stop ∧ ¬c.vectors.Accepts schema item

/-- The first shard has taken its bucket. -/
theorem Inserted.cons {items : List (NodeId × List F32)} {base stop : Nat}
    {r : Except StoreError Unit} {shards shards' : List Engine}
    (h : Inserted schema router numShards c items (base + 1) stop r shards shards')
    {e e' : Engine} (he' : e'.Matches schema { router.part numShards c base with
      vectors := (router.part numShards c base).vectors.batch
        (items.filter fun item => router.idShard numShards item.1 = base) })
    (hfine : ∀ item ∈ items, router.idShard numShards item.1 = base →
      c.vectors.Accepts schema item) :
    Inserted schema router numShards c items base stop r (e :: shards) (e' :: shards') where
  length := by simp [h.length]
  le := by
    have hle := h.le
    omega
  holds := by
    -- the first shard got its items, for the end lies behind it
    refine (Routed.forall_from_cons fun i (x : Engine) => x.Matches schema
      (router.part numShards (storedBefore router numShards c items stop) i)).mpr ⟨?_, h.holds⟩
    rw [part_storedBefore, if_pos (show base < stop from h.le)]
    exact he'
  before := by
    intro item hitem hle hlt
    -- an item is the first shard's or one of the rest
    by_cases hbase : router.idShard numShards item.1 = base
    · exact hfine item hitem hbase
    · exact h.before item hitem (by omega) hlt
  result := by
    have hlen : (e :: shards).length = shards.length + 1 := rfl
    obtain ⟨hr, hstop⟩ | ⟨hr, hstop, hbad⟩ := h.result
    · exact .inl ⟨hr, by omega⟩
    · exact .inr ⟨hr, by omega, hbad⟩

/-- The first shard has refused its bucket, and nothing was stored. -/
theorem Inserted.refused {items : List (NodeId × List F32)} {base : Nat} {err : StoreError}
    (herr : err.NoPanic) {e e' : Engine} {shards : List Engine}
    (he' : e'.Matches schema (router.part numShards c base))
    (hshards : ∀ (j : Nat) (x : Engine), shards[j]? = some x →
      x.Matches schema (router.part numShards c (base + 1 + j)))
    {item : NodeId × List F32} (hitem : item ∈ items)
    (hbase : router.idShard numShards item.1 = base) (hno : ¬c.vectors.Accepts schema item) :
    Inserted schema router numShards c items base base (.error err) (e :: shards)
      (e' :: shards) where
  length := rfl
  le := Nat.le_refl base
  holds := by
    intro j x hx
    rw [part_storedBefore, if_neg (by omega)]
    exact (Routed.forall_from_cons fun i (x : Engine) =>
      x.Matches schema (router.part numShards c i)).mpr ⟨he', hshards⟩ j x hx
  before := by
    intro item _ hle hlt
    omega
  result := .inr ⟨⟨err, rfl, herr⟩, by simp, item, hitem, hbase, hno⟩

/-- The second loop hands the buckets to the shards until one refuses. -/
theorem insertLoop_inserted {items : List (NodeId × List F32)}
    (hnodup : (items.map Prod.fst).Nodup) {base : Nat} {shards : List Engine}
    {buckets : List (List (NodeId × List F32))} (hlen : buckets.length = shards.length)
    (hshards : ∀ (j : Nat) (e : Engine), shards[j]? = some e →
      e.Matches schema (router.part numShards c (base + j)))
    (hbuckets : ∀ j b, buckets[j]? = some b →
      b = items.filter fun item => router.idShard numShards item.1 = base + j) :
    ∃ stop, Inserted schema router numShards c items base stop
      (insertLoop (Engine.ops A) (fun _ => true) base shards buckets).1 shards
      (insertLoop (Engine.ops A) (fun _ => true) base shards buckets).2 := by
  induction shards generalizing base buckets with
  | nil =>
    refine ⟨base, rfl, Nat.le_refl base, ?_, ?_, .inl ⟨rfl, rfl⟩⟩
    · intro j e he
      cases he
    · intro item _ hle hlt
      omega
  | cons e shards ih =>
    cases buckets with
    | nil => cases hlen
    | cons b buckets =>
      obtain ⟨he, hshards'⟩ := (Routed.forall_from_cons fun i (x : Engine) =>
        x.Matches schema (router.part numShards c i)).mp hshards
      obtain ⟨hb, hbuckets'⟩ := (Routed.forall_from_cons fun i b =>
        b = items.filter fun item => router.idShard numShards item.1 = i).mp hbuckets
      have hmem : ∀ {item}, item ∈ b ↔ item ∈ items ∧ router.idShard numShards item.1 = base := by
        intro item
        simp [hb]
      -- the rest, from the next shard on
      obtain ⟨stop, hrest⟩ := ih (Nat.succ.inj hlen) hshards' hbuckets'
      unfold insertLoop
      by_cases hempty : b = []
      · -- nothing for this shard
        rw [if_pos (by simp [hempty])]
        refine ⟨stop, hrest.cons ?_ ?_⟩
        · rw [← hb, hempty]
          exact he
        · intro item hitem hbase
          have hin := hmem.mpr ⟨hitem, hbase⟩
          rw [hempty] at hin
          cases hin
      · rw [if_neg (by simpa using hempty)]
        have hbnodup : (b.map Prod.fst).Nodup := by
          rw [hb]
          exact hnodup.sublist (List.filter_sublist.map _)
        have hpart : ∀ item ∈ b, (router.part numShards c base).vectors.Accepts schema item ↔
            c.vectors.Accepts schema item := by
          intro item hitem
          rw [← (hmem.mp hitem).2]
          exact accepts_part router numShards item
        obtain ⟨hall, e', hres, he'⟩ | ⟨⟨item, hitem, hno⟩, err, e', hres, herr, he'⟩ :=
          he.insertVectorBatch_cases A hbnodup
        · -- this shard takes its bucket, and the loop goes on
          simp only [show (Engine.ops A).insertVectorBatch e b true = (.ok (), e') from hres]
          refine ⟨stop, hrest.cons ?_ ?_⟩
          · rw [← hb]
            exact he'
          · intro item hitem hbase
            have hin := hmem.mpr ⟨hitem, hbase⟩
            exact (hpart item hin).mp (hall item hin)
        · -- this shard refuses its bucket
          simp only [show (Engine.ops A).insertVectorBatch e b true = (.error err, e') from hres]
          have hfrom := hmem.mp hitem
          exact ⟨base, .refused herr he' hshards' hfrom.1 hfrom.2
            fun hnew => hno ((hpart item hitem).mpr hnew)⟩

/-- The first loop of a batch fills one bucket for each shard. -/
theorem Matches.buckets (h : se.Matches schema router numShards c)
    (hr : router.InRange numShards) (items : List (NodeId × List F32)) :
    ∃ buckets, bucketLoop se.vectorShard items (List.replicate se.numShards []) = .ok buckets ∧
      buckets.length = se.shards.length ∧
      ∀ j b, buckets[j]? = some b →
        b = items.filter fun item => router.idShard numShards item.1 = j := by
  have hroute : se.vectorShard = router.idShard numShards := funext h.vectorShard_eq
  have hin : ∀ item ∈ items, se.vectorShard item.1 <
      (List.replicate se.numShards ([] : List (NodeId × List F32))).length := by
    intro item _
    rw [hroute, List.length_replicate, ShardedEngine.numShards, h.length]
    exact hr.vector item.1
  obtain ⟨buckets, hloop, hlen, hget⟩ := bucketLoop_ok se.vectorShard hin
  rw [List.length_replicate] at hlen
  refine ⟨buckets, hloop, hlen, fun j b hb => ?_⟩
  have hj : j < se.numShards := by
    rw [← hlen]
    exact (List.getElem?_eq_some_iff.mp hb).1
  have hbucket := hget j [] (by simp [hj])
  rw [hb, List.nil_append, hroute] at hbucket
  exact Option.some.inj hbucket

/-- A batch without repetitions: every shard takes its bucket, or the shards before one that
    refuses have taken theirs. -/
theorem Matches.insertVectorBatch (h : se.Matches schema router numShards c)
    (hr : router.InRange numShards) {items : List (NodeId × List F32)}
    (hnodup : (items.map Prod.fst).Nodup) :
    ((∀ item ∈ items, c.vectors.Accepts schema item) ∧ ∃ se',
      se.insertVectorBatch (Engine.ops A) items (fun _ => true) = (.ok (), se') ∧
        se'.Matches schema router numShards { c with vectors := c.vectors.batch items }) ∨
    (∃ stop, (∀ item ∈ items, router.idShard numShards item.1 < stop →
        c.vectors.Accepts schema item) ∧
      (∃ item ∈ items, router.idShard numShards item.1 = stop ∧
        ¬c.vectors.Accepts schema item) ∧
      ∃ err se', se.insertVectorBatch (Engine.ops A) items (fun _ => true) = (.error err, se') ∧
        err.NoPanic ∧
        se'.Matches schema router numShards (storedBefore router numShards c items stop)) := by
  have hlt : ∀ id, router.idShard numShards id < numShards := hr.vector
  -- first the items are sorted into a bucket for each shard
  obtain ⟨buckets, hloop, hlen, hbuckets⟩ := h.buckets hr items
  -- the places are counted from the first shard on
  obtain ⟨stop, hins⟩ : ∃ stop, Inserted schema router numShards c items 0 stop
      (insertLoop (Engine.ops A) (fun _ => true) 0 se.shards buckets).1 se.shards
      (insertLoop (Engine.ops A) (fun _ => true) 0 se.shards buckets).2 := by
    refine insertLoop_inserted A hnodup hlen (fun j e he => ?_) fun j b hb => ?_
    · rw [Nat.zero_add]
      exact h.holds j e he
    · rw [Nat.zero_add]
      exact hbuckets j b hb
  have hres : se.insertVectorBatch (Engine.ops A) items (fun _ => true) =
      ((insertLoop (Engine.ops A) (fun _ => true) 0 se.shards buckets).1,
        { se with shards :=
            (insertLoop (Engine.ops A) (fun _ => true) 0 se.shards buckets).2 }) := by
    unfold ShardedEngine.insertVectorBatch
    rw [hloop]
  have hmatches : ({ se with shards :=
      (insertLoop (Engine.ops A) (fun _ => true) 0 se.shards buckets).2 } :
        ShardedEngine Engine).Matches schema router numShards
          (storedBefore router numShards c items stop) := by
    -- every shard shows its part of what was stored
    refine ⟨h.router_eq, hins.length.trans h.length, fun i e he => ?_⟩
    have hpart := hins.holds i e he
    rwa [Nat.zero_add] at hpart
  rw [hres]
  obtain ⟨hr, hstop⟩ | ⟨⟨err, hr, herr⟩, -, hbad⟩ := hins.result
  · -- all items are before the end
    rw [Nat.zero_add, h.length] at hstop
    have hwhole : storedBefore router numShards c items stop =
        { c with vectors := c.vectors.batch items } := by
      unfold storedBefore
      rw [List.filter_eq_self.mpr]
      intro item _
      rw [hstop]
      simpa using hlt item.1
    rw [hwhole] at hmatches
    refine .inl ⟨fun item hitem => hins.before item hitem (Nat.zero_le _) ?_, _, by rw [hr],
      hmatches⟩
    rw [hstop]
    exact hlt item.1
  · -- one shard refused, and the items of the shards before it stay
    exact .inr ⟨stop, fun item hitem => hins.before item hitem (Nat.zero_le _), hbad, err, _,
      by rw [hr], herr, hmatches⟩

/-! ### Searches -/

/-- What `total_cmp` has in order, `partial_cmp` has in order. -/
theorem hitLe_of_totalLe {a b : NodeId × F32} (h : F32.totalLe a.2 b.2 = true) :
    hitLe a b = true := by
  have hkey : F32.totalKey a.2 ≤ F32.totalKey b.2 := by simpa [F32.totalLe] using h
  rw [hitLe, F32.lt_eq_false_of_ieeeKey_le (F32.ieeeKey_mono hkey)]
  rfl

/-- The hits of one engine in order are hits in order. -/
theorem showsMerged_of_shows {metric : MetricKind} {query : List F32} {topK : Nat}
    {visible : NodeId → Option (List F32)} {hits : List (NodeId × F32)}
    (h : IndexSession.Shows A metric query topK visible hits) :
    ShowsMerged A metric query topK visible hits where
  length_le := h.length_le
  nodup := h.nodup
  stored := h.stored
  sorted _ := h.sorted.imp hitLe_of_totalLe

/-- Shards that fail add nothing. -/
theorem collectHits_errors {answers : List (Except StoreError (List (NodeId × F32)))}
    (h : ∀ answer ∈ answers, ∃ err, answer = .error err) : collectHits answers = [] := by
  induction answers with
  | nil => rfl
  | cons answer answers ih =>
    obtain ⟨err, rfl⟩ := h answer List.mem_cons_self
    exact ih fun x hx => h x (List.mem_cons_of_mem _ hx)

/-- Every hit of a shard is a vector of the store. -/
theorem Matches.stored_of_parts (h : se.Matches schema router numShards c) {metric : MetricKind}
    {query : List F32} {topK : Nat} {parts : List (List (NodeId × F32))}
    (hparts : List.Forall₂ (fun e part =>
      IndexSession.Shows A metric query topK (shown e) part) se.shards parts)
    {r : NodeId × F32} (hr : r ∈ parts.flatten) :
    ∃ v, c.vectors.visible r.1 = some v ∧ r.2 = Simd.distance A metric query v := by
  obtain ⟨part, hpart, hr⟩ := List.mem_flatten.mp hr
  obtain ⟨i, hi⟩ := List.mem_iff_getElem?.mp hpart
  obtain ⟨e, he, hshows⟩ : ∃ e, se.shards[i]? = some e ∧
      IndexSession.Shows A metric query topK (shown e) part := by
    have hlen := hparts.length_eq
    have hlt : i < se.shards.length := by
      rw [hlen]
      exact (List.getElem?_eq_some_iff.mp hi).1
    refine ⟨_, List.getElem?_eq_getElem hlt, ?_⟩
    obtain ⟨hlt', rfl⟩ := List.getElem?_eq_some_iff.mp hi
    exact hparts.get hlt hlt'
  obtain ⟨v, hv, hdist⟩ := hshows.stored r hr
  exact ⟨v, h.parts.mem_of_held (List.mem_of_getElem? he) hv, hdist⟩

/-- Without a NaN the merge puts the hits in order. -/
theorem pairwise_merge {hits : List (NodeId × F32)} (hnan : ∀ r ∈ hits, F32.isNaN r.2 = false) :
    (hits.insertionSort fun a b => hitLe a b).Pairwise fun a b => hitLe a b = true := by
  have htotal : Std.Total fun a b : NodeId × F32 => F32.ieeeKey a.2 ≤ F32.ieeeKey b.2 :=
    ⟨fun a b => le_total _ _⟩
  have htrans : IsTrans (NodeId × F32) fun a b => F32.ieeeKey a.2 ≤ F32.ieeeKey b.2 :=
    ⟨fun a b c => le_trans⟩
  rw [insertionSort_hitLe hnan]
  have hsorted := List.pairwise_insertionSort
    (fun a b : NodeId × F32 => F32.ieeeKey a.2 ≤ F32.ieeeKey b.2) hits
  refine hsorted.imp fun hle => ?_
  rw [hitLe, F32.lt_eq_false_of_ieeeKey_le hle]
  rfl

/-- The merge of what the shards show. -/
theorem Matches.showsMerged (h : se.Matches schema router numShards c) {metric : MetricKind}
    {query : List F32} {topK : Nat} {parts : List (List (NodeId × F32))}
    (hparts : List.Forall₂ (fun e part =>
      IndexSession.Shows A metric query topK (shown e) part) se.shards parts) :
    ShowsMerged A metric query topK c.vectors.visible
      ((parts.flatten.insertionSort fun a b => hitLe a b).take topK) := by
  have hperm : (parts.flatten.insertionSort fun a b => hitLe a b).Perm parts.flatten :=
    List.perm_insertionSort _ _
  -- no id is on two shards
  have hkeys : List.Forall₂ (fun e (ks : List NodeId) => ks.Nodup ∧
      ∀ k ∈ ks, (shown e k).isSome) se.shards (parts.map fun part => part.map Prod.fst) := by
    rw [List.forall₂_map_right_iff]
    refine hparts.imp fun e part hshows => ⟨hshows.nodup, fun k hk => ?_⟩
    obtain ⟨r, hr, rfl⟩ := List.mem_map.mp hk
    obtain ⟨v, hv, -⟩ := hshows.stored r hr
    rw [hv]
    rfl
  have hnodup : (parts.flatten.map Prod.fst).Nodup := by
    rw [List.map_flatten]
    exact (h.parts.nodup_flatten hkeys).1
  refine ⟨List.length_take_le _ _, ?_, fun r hr => ?_, fun hreal => ?_⟩
  · -- the ids of the merged list are those of the parts in another order
    rw [List.map_take]
    exact ((hperm.map Prod.fst).nodup_iff.mpr hnodup).sublist (List.take_sublist _ _)
  · exact h.stored_of_parts A hparts (hperm.mem_iff.mp (List.mem_of_mem_take hr))
  · -- without a NaN the sort orders the hits by their distance
    have hnan : ∀ r ∈ parts.flatten, F32.isNaN r.2 = false := by
      intro r hr
      obtain ⟨v, hv, hdist⟩ := h.stored_of_parts A hparts hr
      rw [hdist]
      exact hreal r.1 v hv
    exact (pairwise_merge hnan).sublist (List.take_sublist _ _)

/-- Every shard shows some of its vectors to a query of the right dimension. -/
theorem Matches.searchKnn_shows (h : se.Matches schema router numShards c) {e : Engine}
    (hmem : e ∈ se.shards) {query : List F32} (hdim : query.length = schema.dim) (topK : Nat)
    (expired : Nat → Bool) :
    ∃ part, e.searchKnn A query topK expired = .ok part ∧
      IndexSession.Shows A schema.metric query topK (shown e) part := by
  obtain ⟨j, hj⟩ := List.mem_iff_getElem?.mp hmem
  have he := h.holds j e hj
  have hsame : shown e = (router.part numShards c j).vectors.visible := by
    funext id
    rw [shown, he.getVector_eq id]
    rfl
  obtain ⟨-, part, hres, hshows⟩ | ⟨hne, -⟩ := he.searchKnn A query topK expired
  · exact ⟨part, hres, hsame ▸ hshows⟩
  · exact absurd hdim hne

/-- Every shard refuses a query of another dimension. -/
theorem Matches.searchKnn_fails (h : se.Matches schema router numShards c) {e : Engine}
    (hmem : e ∈ se.shards) {query : List F32} (hdim : query.length ≠ schema.dim) (topK : Nat)
    (expired : Nat → Bool) :
    e.searchKnn A query topK expired = .error (.dimensionMismatch schema.dim query.length) := by
  obtain ⟨j, hj⟩ := List.mem_iff_getElem?.mp hmem
  obtain ⟨heq, -⟩ | ⟨-, hres⟩ := (h.holds j e hj).searchKnn A query topK expired
  · exact absurd heq hdim
  · exact hres

/-- Everything a search of all shards does. -/
theorem Matches.searchKnn (h : se.Matches schema router numShards c)
    (hr : router.InRange numShards) (query : List F32) (topK : Nat)
    (expired : Nat → Nat → Bool) :
    (query.length = schema.dim ∧ ∃ hits,
      se.searchKnn (fun e => e.searchKnn A) query topK expired = .ok hits ∧
        ShowsMerged A schema.metric query topK c.vectors.visible hits) ∨
    (query.length ≠ schema.dim ∧ numShards = 1 ∧
      se.searchKnn (fun e => e.searchKnn A) query topK expired =
        .error (.dimensionMismatch schema.dim query.length)) ∨
    (query.length ≠ schema.dim ∧ numShards ≠ 1 ∧
      se.searchKnn (fun e => e.searchKnn A) query topK expired = .ok []) := by
  unfold ShardedEngine.searchKnn
  split
  · -- the only shard answers for itself
    rename_i e he
    have hmem : e ∈ se.shards := by simp [he]
    have hone : numShards = 1 := by
      rw [← h.length, he]
      rfl
    by_cases hdim : query.length = schema.dim
    · obtain ⟨part, hres, hshows⟩ := h.searchKnn_shows A hmem hdim topK (expired 0)
      have hvisible : shown e = c.vectors.visible := by
        funext id
        have hlt : router.idShard numShards id < numShards := hr.vector id
        have hzero : router.idShard numShards id = 0 := by omega
        exact h.parts.get (by rw [he, hzero]; rfl)
      exact .inl ⟨hdim, part, hres, showsMerged_of_shows A (hvisible ▸ hshows)⟩
    · exact .inr (.inl ⟨hdim, hone, h.searchKnn_fails A hmem hdim topK (expired 0)⟩)
  · rename_i hmany
    by_cases hdim : query.length = schema.dim
    · -- all shards answer, and their hits are merged
      obtain ⟨parts, hparts, hall⟩ := exists_parts
        (fun e part => IndexSession.Shows A schema.metric query topK (shown e) part) se.shards
        (fun i e => e.searchKnn A query topK (expired i))
        fun i e he => h.searchKnn_shows A (List.mem_of_getElem? he) hdim topK (expired i)
      rw [hall]
      exact .inl ⟨hdim, _, rfl, h.showsMerged A hparts⟩
    · -- the threads that failed are only logged
      refine .inr (.inr ⟨hdim, fun hone => ?_, ?_⟩)
      · obtain ⟨e, he⟩ := List.length_eq_one_iff.mp (h.length.trans hone)
        exact hmany e he
      · rw [collectHits_errors]
        · simp
        · intro answer hanswer
          obtain ⟨i, hi, rfl⟩ := List.mem_mapIdx.mp hanswer
          exact ⟨_, h.searchKnn_fails A (List.getElem_mem hi) hdim topK (expired i)⟩

/-- Every merged hit is one of a shard. -/
theorem mem_collectHits {answers : List (Except StoreError (List (NodeId × F32)))}
    {r : NodeId × F32} (h : r ∈ collectHits answers) : ∃ part, .ok part ∈ answers ∧ r ∈ part := by
  induction answers with
  | nil => cases h
  | cons answer answers ih =>
    have hrest : r ∈ collectHits answers → ∃ part, .ok part ∈ answer :: answers ∧ r ∈ part := by
      intro hr
      obtain ⟨part, hpart, hr⟩ := ih hr
      exact ⟨part, List.mem_cons_of_mem _ hpart, hr⟩
    cases answer with
    | error err => exact hrest h
    | ok part =>
      obtain hr | hr := List.mem_append.mp h
      · exact ⟨part, List.mem_cons_self, hr⟩
      · exact hrest hr

/-- What is sorted is at the distances of stored vectors. -/
theorem Matches.stored_of_mergedHits (h : se.Matches schema router numShards c)
    {query : List F32} {topK : Nat} {expired : Nat → Nat → Bool} {r : NodeId × F32}
    (hr : r ∈ se.mergedHits A query topK expired) : query.length = schema.dim ∧
      ∃ v, c.vectors.visible r.1 = some v ∧ r.2 = Simd.distance A schema.metric query v := by
  unfold mergedHits at hr
  split at hr
  · cases hr
  obtain ⟨part, hpart, hr⟩ := mem_collectHits hr
  obtain ⟨i, hi, hres⟩ := List.mem_mapIdx.mp hpart
  have hmem : se.shards[i] ∈ se.shards := List.getElem_mem hi
  by_cases hdim : query.length = schema.dim
  · obtain ⟨part', hres', hshows⟩ := h.searchKnn_shows A hmem hdim topK (expired i)
    obtain rfl : part' = part := Except.ok.inj (hres'.symm.trans hres)
    obtain ⟨v, hv, hdist⟩ := hshows.stored r hr
    exact ⟨hdim, v, h.parts.mem_of_held hmem hv, hdist⟩
  · rw [h.searchKnn_fails A hmem hdim topK (expired i)] at hres
    cases hres

/-! ### Opening and closing -/

/-- A checkpoint changes no contents. -/
theorem Matches.checkpoint (h : se.Matches schema router numShards c) :
    se.checkpoint.Matches schema router numShards c where
  router_eq := h.router_eq
  length := (List.length_map _).trans h.length
  holds := by
    intro i e he
    rw [ShardedEngine.checkpoint, List.getElem?_map] at he
    obtain ⟨x, hx, rfl⟩ := Option.map_eq_some_iff.mp he
    exact (h.holds i x hx).checkpoint

end ShardedEngine

/-- The directories of the shards hold what the shards held. -/
structure HomeHolds (schema : VectorSchema) (router : ShardRouter) (numShards : Nat)
    (home : List EngineDir) (c : Contents) : Prop where
  length : home.length = numShards
  holds : ∀ (i : Nat) (d : EngineDir), home[i]? = some d →
    d.Holds schema (router.part numShards c i)

section Open

variable {A} {I : Ipc} {schema : VectorSchema} {router : ShardRouter} {numShards : Nat}
  {c : Contents}

/-- What a close leaves for the next open. -/
theorem ShardedEngine.Matches.close {se : ShardedEngine Engine}
    (h : se.Matches schema router numShards c) :
    HomeHolds schema router numShards (se.close.shards.map Engine.dir) c where
  length := by simp [ShardedEngine.close, h.length]
  holds := by
    intro i d hd
    rw [ShardedEngine.close, List.map_map, List.getElem?_map] at hd
    obtain ⟨e, he, rfl⟩ := Option.map_eq_some_iff.mp hd
    exact (h.holds i e he).holds_close

/-- A directory opens, or does not and `dead` says why. -/
def Engine.OpensTo (A : F32Arith) (I : Ipc) (d : EngineDir) (s : Option VectorSchema) (quota : Nat)
    (order : MapOrder) (dead : Prop) (good : Engine → Prop) (kept : EngineDir → Prop) : Prop :=
  (∃ e left, Engine.open A I d s quota order = (.ok e, left) ∧ good e ∧ kept left) ∨
    (dead ∧ ∃ msg left, Engine.open A I d s quota order = (.error (.corrupt msg), left) ∧ kept left)

/-- What the loop of `open` does from shard `base` on: all shards open, or one does not.  Files
    that are not reached, and those of engines that are dropped, are `kept`. -/
theorem ShardedEngine.openLoop_cases {s : Option VectorSchema} {quota : Nat}
    {orders : Nat → MapOrder} {dead : Nat → Prop} {good : Nat → Engine → Prop}
    {fine kept : Nat → EngineDir → Prop} (hfine : ∀ i d, fine i d → kept i d)
    (hopen : ∀ i d, fine i d →
      Engine.OpensTo A I d s quota (orders i) (dead i) (good i) (kept i))
    {base : Nat} {dirs : List EngineDir} (hdirs : ∀ j d, dirs[j]? = some d → fine (base + j) d) :
    (∃ es left, openLoop A I s quota orders base dirs = (.ok es, left) ∧
      es.length = dirs.length ∧ ∀ j e, es[j]? = some e → good (base + j) e) ∨
    (∃ i msg left, dead i ∧
      openLoop A I s quota orders base dirs = (.error (.corrupt msg), left) ∧
      left.length = dirs.length ∧ ∀ j d, left[j]? = some d → kept (base + j) d) := by
  induction dirs generalizing base with
  | nil =>
    refine .inl ⟨[], [], rfl, rfl, ?_⟩
    intro j e he
    cases he
  | cons d dirs ih =>
    obtain ⟨hd, hrest⟩ := (Routed.forall_from_cons fine).mp hdirs
    obtain ⟨e, left, hop, hgood, hleft⟩ | ⟨hdead, msg, left, hop, hleft⟩ :=
      hopen base d hd
    · obtain ⟨es, lefts, hloop, hlen, hall⟩ | ⟨i, msg, lefts, hdead, hloop, hlen, hall⟩ := ih hrest
      · refine .inl ⟨e :: es, left :: lefts, ?_, by simp [hlen],
          (Routed.forall_from_cons good).mpr ⟨hgood, hall⟩⟩
        -- this shard opens, and so do the rest
        simp only [openLoop, hop, hloop]
      · -- the engines that are open by now are dropped
        refine .inr ⟨i, msg, left :: lefts, hdead, ?_, by simp [hlen],
          (Routed.forall_from_cons kept).mpr ⟨hleft, hall⟩⟩
        simp only [openLoop, hop, hloop]
    · -- the directories after it are not looked at
      refine .inr ⟨base, msg, left :: dirs, hdead, ?_, rfl,
        (Routed.forall_from_cons kept).mpr ⟨hleft, fun j x hx => hfine _ x (hrest j x hx)⟩⟩
      simp only [openLoop, hop]

/-- What `open` does: the engine, or the files it leaves. -/
theorem ShardedEngine.openWithRouter_cases (router : ShardRouter) {s : Option VectorSchema}
    {quota : Nat} {orders : Nat → MapOrder} {dead : Nat → Prop} {good : Nat → Engine → Prop}
    {fine kept : Nat → EngineDir → Prop} (hfine : ∀ i d, fine i d → kept i d)
    (hopen : ∀ i d, fine i d →
      Engine.OpensTo A I d s quota (orders i) (dead i) (good i) (kept i))
    {home : List EngineDir} (hpos : 0 < home.length)
    (hhome : ∀ i d, home[i]? = some d → fine i d) :
    (∃ se left, openWithRouter A I home s quota router orders = (.ok se, left) ∧
      se.router = router ∧ se.shards.length = home.length ∧
      ∀ i e, se.shards[i]? = some e → good i e) ∨
    (∃ i msg left, dead i ∧
      openWithRouter A I home s quota router orders = (.error (.corrupt msg), left) ∧
      left.length = home.length ∧ ∀ i d, left[i]? = some d → kept i d) := by
  have hzero : ∀ j d, home[j]? = some d → fine (0 + j) d := by
    intro j d hd
    rw [Nat.zero_add]
    exact hhome j d hd
  unfold openWithRouter
  rw [if_neg (by omega)]
  obtain ⟨es, left, hloop, hlen, hall⟩ | ⟨i, msg, left, hdead, hloop, hlen, hall⟩ :=
    openLoop_cases hfine hopen hzero
  · rw [hloop]
    refine .inl ⟨_, left, rfl, rfl, hlen, fun i e he => ?_⟩
    have hgood := hall i e he
    rwa [Nat.zero_add] at hgood
  · rw [hloop]
    refine .inr ⟨i, msg, left, hdead, rfl, hlen, fun i d hd => ?_⟩
    have hkept := hall i d hd
    rwa [Nat.zero_add] at hkept

namespace HomeHolds

variable {home : List EngineDir}

/-- Opened without a schema: everything is there, also what was soft-deleted. -/
theorem reopen (h : HomeHolds schema router numShards home c) (hpos : 0 < numShards)
    (quota : Nat) (orders : Nat → MapOrder) :
    ∃ se left, ShardedEngine.openWithRouter A I home none quota router orders = (.ok se, left) ∧
      se.Matches schema router numShards c.revive := by
  have hopen : ∀ (i : Nat) (d : EngineDir), d.Holds schema (router.part numShards c i) →
      Engine.OpensTo A I d none quota (orders i) False
        (fun e => e.Matches schema (router.part numShards c.revive i))
        fun d => d.Holds schema (router.part numShards c i) := by
    intro i d hd
    obtain ⟨e, hop, he, -, hleft⟩ := hd.reopen (A := A) (I := I) quota (orders i)
    refine .inl ⟨e, e.dir, hop, ?_, hleft⟩
    rw [router.part_revive]
    exact he
  obtain ⟨se, left, hres, hrouter, hlen, hall⟩ | ⟨-, -, -, hdead, -⟩ :=
    ShardedEngine.openWithRouter_cases router (fun _ _ hd => hd) hopen (h.length ▸ hpos) h.holds
  · exact ⟨se, left, hres, hrouter, hlen.trans h.length, hall⟩
  · cases hdead

/-- Opened with the schema: everything is as before, or a shard whose entry point is
    soft-deleted keeps all of them closed. -/
theorem create (h : HomeHolds schema router numShards home c) (hpos : 0 < numShards)
    (quota : Nat) (orders : Nat → MapOrder) :
    (∃ se left, ShardedEngine.openWithRouter A I home (some schema) quota router orders =
      (.ok se, left) ∧ se.Matches schema router numShards c) ∨
    ((∃ id x, c.vectors id = some (x, true)) ∧ ∃ msg left,
      ShardedEngine.openWithRouter A I home (some schema) quota router orders =
        (.error (.corrupt msg), left) ∧ HomeHolds schema router numShards left c) := by
  -- each shard opens to its part, or fails on a soft-deleted vector
  have hopen : ∀ (i : Nat) (d : EngineDir), d.Holds schema (router.part numShards c i) →
      Engine.OpensTo A I d (some schema) quota (orders i)
        (∃ id x, (router.part numShards c i).vectors id = some (x, true))
        (fun e => e.Matches schema (router.part numShards c i))
        fun d => d.Holds schema (router.part numShards c i) := by
    intro i d hd
    obtain ⟨e, hop, he, -, hleft⟩ | ⟨hdead, msg, left, hop, hleft, -⟩ :=
      hd.open_some (A := A) (I := I) quota (orders i)
    · exact .inl ⟨e, e.dir, hop, he, hleft⟩
    · exact .inr ⟨hdead, msg, left, hop, hleft⟩
  obtain ⟨se, left, hres, hrouter, hlen, hall⟩ | ⟨i, msg, left, ⟨id, x, hdead⟩, hres, hlen, hall⟩ :=
    ShardedEngine.openWithRouter_cases router (fun _ _ hd => hd) hopen (h.length ▸ hpos) h.holds
  · -- every shard was opened
    exact .inl ⟨se, left, hres, hrouter, hlen.trans h.length, hall⟩
  · refine .inr ⟨⟨id, x, ?_⟩, msg, left, hres, hlen.trans h.length, hall⟩
    -- what is soft-deleted in a part is soft-deleted
    change Routed.part (router.idShard numShards) i c.vectors id = some (x, true) at hdead
    unfold Routed.part at hdead
    split at hdead
    · exact hdead
    · cases hdead

end HomeHolds

end Open

/-! ### Callers -/

namespace ShardHost

variable {I : Ipc} {schema : VectorSchema} {router : ShardRouter} {numShards : Nat}
  {s : ShardHost} {v : StoreView} {c : Contents}

/-- The process has what the caller knows of. -/
inductive Shows (schema : VectorSchema) (router : ShardRouter) (numShards : Nat) :
    ShardHost → StoreView → Prop
  | opened {se : ShardedEngine Engine} {c : Contents}
      (h : se.Matches schema router numShards c) :
      Shows schema router numShards (.opened se) ⟨true, c⟩
  | closed {home : List EngineDir} {c : Contents} (h : HomeHolds schema router numShards home c) :
      Shows schema router numShards (.closed home) ⟨false, c⟩

/-- A call of a process that has closed its engine. -/
theorem step_closed {home : List EngineDir} (h : HomeHolds schema router numShards home c)
    (hpos : 0 < numShards) (call : StoreCall) :
    ∃ v', StoreServes A schema numShards (router.idShard numShards) ⟨false, c⟩ call
        ((ShardHost.closed home).step A I schema router call).2 v' ∧
      Shows schema router numShards ((ShardHost.closed home).step A I schema router call).1 v' := by
  -- without an engine only the two opens do anything
  by_cases hopens : call.opens = false
  · have hstep : (ShardHost.closed home).step A I schema router call =
        (.closed home, .skipped) := by
      cases call with
      | create quota orders => cases hopens
      | reopen quota orders => cases hopens
      | _ => rfl
    rw [hstep]
    exact ⟨_, .skipped hopens, .closed h⟩
  cases call with
  | create quota orders =>
    simp only [step]
    -- either every shard opens, or one of them fails and all are closed again
    obtain ⟨se, left, hres, hse⟩ | ⟨hdead, msg, left, hres, hleft⟩ :=
      h.create (A := A) (I := I) hpos quota orders
    · rw [hres]
      exact ⟨_, .create rfl, .opened hse⟩
    · rw [hres]
      exact ⟨_, .createFailed rfl hdead, .closed hleft⟩
  | reopen quota orders =>
    simp only [step]
    obtain ⟨se, left, hres, hse⟩ := h.reopen (A := A) (I := I) hpos quota orders
    rw [hres]
    exact ⟨_, .reopen rfl, .opened hse⟩
  -- every other call has been dealt with
  | _ => exact absurd rfl hopens

/-- A call on an open engine. -/
theorem onEngine_serves {se : ShardedEngine Engine} (h : se.Matches schema router numShards c)
    (hr : router.InRange numShards) {call : StoreCall} (hfine : call.Fine)
    (hreal : ∀ query ∈ call.query, query.length = schema.dim → ∀ id v,
      c.vectors.visible id = some v →
        F32.isNaN (Simd.distance A schema.metric query v) = false) :
    ∃ v', StoreServes A schema numShards (router.idShard numShards) ⟨true, c⟩ call
        (onEngine A se call).2 v' ∧
      Shows schema router numShards (onEngine A se call).1 v' := by
  cases call with
  -- a second open is skipped
  | create quota orders => exact ⟨_, .skipped rfl, .opened h⟩
  | reopen quota orders => exact ⟨_, .skipped rfl, .opened h⟩
  | close => exact ⟨_, .close rfl, .closed h.close⟩
  | checkpoint => exact ⟨_, .checkpoint rfl, .opened h.checkpoint⟩
  | putKv key value locked =>
    obtain ⟨hne, hle, se', hres, hse'⟩ | ⟨err, se', hres, herr, hse'⟩ :=
      h.putKv A hr key hfine locked
    · simp only [onEngine, hres]
      exact ⟨_, .put rfl hne hle, .opened hse'⟩
    · simp only [onEngine, hres]
      exact ⟨_, .putFailed rfl herr, .opened hse'⟩
  | getKv key =>
    -- the empty key is never stored
    by_cases hne : key = []
    · subst hne
      simp only [onEngine, h.getKv_nil A hr]
      exact ⟨_, .getEmpty rfl, .opened h⟩
    · simp only [onEngine, h.getKv A hr hne]
      exact ⟨_, .get rfl hne, .opened h⟩
  | deleteKv key locked =>
    obtain ⟨hne, se', hres, hse'⟩ | ⟨hno, err, se', hres, herr, hse'⟩ :=
      h.deleteKv A hr key locked
    · simp only [onEngine, hres]
      exact ⟨_, .deleteKv rfl hne, .opened hse'⟩
    · simp only [onEngine, hres]
      exact ⟨_, .deleteKvFailed rfl herr hno, .opened hse'⟩
  | insertVector id x =>
    obtain ⟨hnew, se', hres, hse'⟩ | ⟨hno, err, se', hres, herr, hse'⟩ :=
      h.insertVector A hr id x
    · simp only [onEngine, hres]
      exact ⟨_, .insert rfl hnew, .opened hse'⟩
    · simp only [onEngine, hres]
      exact ⟨_, .insertFailed rfl herr hno, .opened hse'⟩
  | insertVectorBatch items =>
    obtain ⟨hall, se', hres, hse'⟩ | ⟨stop, hbefore, hstop, err, se', hres, herr, hse'⟩ :=
      h.insertVectorBatch A hr hfine
    · simp only [onEngine, hres]
      exact ⟨_, .batch rfl hall, .opened hse'⟩
    · simp only [onEngine, hres]
      exact ⟨_, .batchFailed rfl herr hbefore hstop, .opened hse'⟩
  | searchKnn query topK expired sortPanics =>
    -- without a NaN the sort cannot panic
    have hcalm : (sortPanics &&
        (se.mergedHits A query topK expired).any fun r => F32.isNaN r.2) = false := by
      rw [Bool.and_eq_false_iff, List.any_eq_false]
      refine .inr fun r hmem => ?_
      obtain ⟨hdim, x, hx, hdist⟩ := h.stored_of_mergedHits A hmem
      rw [hdist, hreal query rfl hdim r.1 x hx]
      exact Bool.false_ne_true
    obtain ⟨hdim, hits, hres, hshows⟩ | ⟨hdim, hone, hres⟩ | ⟨hdim, hmany, hres⟩ :=
      h.searchKnn A hr query topK expired
    · -- a query of the right length, one that a single shard refuses, one that many hide
      simp only [onEngine, hcalm, hres, Bool.false_eq_true, ↓reduceIte]
      exact ⟨_, .search rfl hdim hshows (hshows.sorted (hreal query rfl hdim)), .opened h⟩
    · simp only [onEngine, hcalm, hres, Bool.false_eq_true, ↓reduceIte]
      exact ⟨_, .searchFailed rfl hdim hone, .opened h⟩
    · simp only [onEngine, hcalm, hres, Bool.false_eq_true, ↓reduceIte]
      exact ⟨_, .searchHidden rfl hdim hmany, .opened h⟩
  | deleteVector id =>
    obtain ⟨se', hres, hse'⟩ := h.deleteVector A hr id
    simp only [onEngine, hres]
    exact ⟨_, .delete rfl, .opened hse'⟩
  | getVector id =>
    simp only [onEngine, h.getVector A hr id]
    exact ⟨_, .getVector rfl, .opened h⟩
  | listVectorIds =>
    obtain ⟨ids, hres, hnodup, hmem, -⟩ := h.listVectorIds A hr
    simp only [onEngine, hres]
    exact ⟨_, .list rfl hnodup hmem, .opened h⟩
  | vectorCount =>
    obtain ⟨ids, -, hnodup, hmem, hcount⟩ := h.listVectorIds A hr
    -- the counts of the shards add up to that of all ids
    have hset : {id | (c.vectors.visible id).isSome} = (ids.toFinset : Set NodeId) := by
      ext id
      simp [hmem]
    have hncard : ids.length = {id | (c.vectors.visible id).isSome}.ncard := by
      rw [hset, Set.ncard_coe_finset, List.toFinset_card_of_nodup hnodup]
    simp only [onEngine, hcount, hncard]
    exact ⟨_, .count rfl, .opened h⟩

/-- What is served is no panic. -/
theorem panicked_of_serves {call : StoreCall} {reply : StoreReply} {v v' : StoreView}
    {shardOf : NodeId → Nat} (h : StoreServes A schema numShards shardOf v call reply v') :
    reply.panicked = false := by
  cases h with
  | putFailed _ herr => exact herr.panics_eq_false
  | deleteKvFailed _ herr _ => exact herr.panics_eq_false
  | insertFailed _ herr _ => exact herr.panics_eq_false
  | batchFailed _ herr _ _ => exact herr.panics_eq_false
  | _ => rfl

/-- A call on an open engine does not end the process. -/
theorem step_opened {se : ShardedEngine Engine} (h : se.Matches schema router numShards c)
    (hr : router.InRange numShards) {call : StoreCall} (hfine : call.Fine)
    (hreal : ∀ query ∈ call.query, query.length = schema.dim → ∀ id v,
      c.vectors.visible id = some v →
        F32.isNaN (Simd.distance A schema.metric query v) = false) :
    ∃ v', StoreServes A schema numShards (router.idShard numShards) ⟨true, c⟩ call
        ((ShardHost.opened se).step A I schema router call).2 v' ∧
      Shows schema router numShards ((ShardHost.opened se).step A I schema router call).1 v' := by
  obtain ⟨v', hserves, hshows⟩ := onEngine_serves A h hr hfine hreal
  have hcalm := panicked_of_serves A hserves
  refine ⟨v', ?_⟩
  simp only [step, hcalm, Bool.false_eq_true, ↓reduceIte]
  exact ⟨hserves, hshows⟩

/-! ### Where the vectors come from -/

/-- All vectors of the store, also the soft-deleted ones, have the property. -/
def AllVectors (P : List F32 → Prop) (m : VecMap) : Prop :=
  ∀ id x dead, m id = some (x, dead) → P x

namespace AllVectors

variable {P : List F32 → Prop} {m : VecMap}

/-- Visible vectors are among those that were brought. -/
theorem visible (h : AllVectors P m) {id : NodeId} {x : List F32} (hx : m.visible id = some x) :
    P x := by
  unfold VecMap.visible at hx
  split at hx
  · rename_i y hy
    obtain rfl := Option.some.inj hx
    exact h id y false hy
  · cases hx

/-- One vector more. -/
theorem update (h : AllVectors P m) (id : NodeId) {x : List F32} (hx : P x) (dead : Bool) :
    AllVectors P (Function.update m id (some (x, dead))) := by
  intro id' y dead' hy
  by_cases hid : id' = id
  · subst hid
    rw [Function.update_self] at hy
    obtain ⟨rfl, -⟩ := Prod.mk.inj (Option.some.inj hy)
    exact hx
  · rw [Function.update_of_ne hid] at hy
    exact h id' y dead' hy

/-- A delete brings none. -/
theorem delete (h : AllVectors P m) (id : NodeId) : AllVectors P (m.delete id) := by
  unfold VecMap.delete
  cases hm : m id with
  | none =>
    rw [Option.map_none, ← hm, Function.update_eq_self]
    exact h
  | some e => exact h.update id (h id e.1 e.2 hm) true

/-- A soft-deleted vector comes back as it was. -/
theorem revive (h : AllVectors P m) : AllVectors P m.revive := by
  intro id x dead hx
  obtain ⟨⟨y, b⟩, hy, heq⟩ := Option.map_eq_some_iff.mp hx
  obtain ⟨rfl, -⟩ := Prod.mk.inj heq
  exact h id y b hy

/-- The vectors of a batch. -/
theorem batch (h : AllVectors P m) {items : List (NodeId × List F32)}
    (hitems : ∀ item ∈ items, P item.2) : AllVectors P (m.batch items) := by
  intro id x dead hx
  obtain hold | hmem := Routed.setAll_eq_some hx
  · exact h id x dead hold
  · obtain ⟨item, hitem, heq⟩ := List.mem_map.mp hmem
    obtain ⟨-, hvec⟩ := Prod.mk.inj heq
    obtain ⟨rfl, -⟩ := Prod.mk.inj hvec
    exact hitems item hitem

/-- A call stores vectors that it brings, of the right dimension. -/
theorem serves {call : StoreCall} {reply : StoreReply} {v v' : StoreView}
    {shardOf : NodeId → Nat} (h : AllVectors P v.contents.vectors)
    (hserves : StoreServes A schema numShards shardOf v call reply v')
    (hnew : ∀ x ∈ call.vectors, x.length = schema.dim → P x) :
    AllVectors P v'.contents.vectors := by
  cases hserves with
  | reopen => exact h.revive
  | insert _ haccepts => exact h.update _ (hnew _ List.mem_cons_self haccepts.1) false
  | delete => exact h.delete _
  | batch _ hall =>
    refine h.batch fun item hitem => ?_
    exact hnew item.2 (List.mem_map.mpr ⟨item, hitem, rfl⟩) (hall item hitem).1
  | batchFailed _ _ hbefore _ =>
    -- the items before the shard that refused
    refine h.batch fun item hitem => ?_
    obtain ⟨hmem, hlt⟩ := List.mem_filter.mp hitem
    exact hnew item.2 (List.mem_map.mpr ⟨item, hmem, rfl⟩)
      (hbefore item hmem (of_decide_eq_true hlt)).1
  | _ => exact h

end AllVectors

/-- A call of a process, with what it was told before. -/
def next (I : Ipc) (schema : VectorSchema) (router : ShardRouter)
    (r : ShardHost × List (Linear.Entry Unit StoreCall StoreReply)) (call : StoreCall) :
    ShardHost × List (Linear.Entry Unit StoreCall StoreReply) :=
  ((r.1.step A I schema router call).1, r.2 ++ [⟨(), call, (r.1.step A I schema router call).2⟩])

/-- What is told in one call after the other is one history of the store.  `P` is what the
    vectors of the calls have in common. -/
theorem Shows.run (h : Shows schema router numShards s v) (hr : router.InRange numShards)
    {v₀ : StoreView} {es : List (Linear.Entry Unit StoreCall StoreReply)}
    (hlegal : Linear.Legal (StoreServes A schema numShards (router.idShard numShards)) v₀ es v)
    {P : List F32 → Prop} (hstored : AllVectors P v.contents.vectors) {calls : List StoreCall}
    (hfine : ∀ call ∈ calls, call.Fine)
    (hbring : ∀ call ∈ calls, ∀ x ∈ call.vectors, x.length = schema.dim → P x)
    (hreal : ∀ call ∈ calls, ∀ query ∈ call.query, query.length = schema.dim → ∀ x, P x →
      F32.isNaN (Simd.distance A schema.metric query x) = false) :
    ∃ v', Linear.Legal (StoreServes A schema numShards (router.idShard numShards)) v₀
      (Run.exec (next A I schema router) (s, es) calls).2 v' := by
  induction calls generalizing s v es with
  | nil => exact ⟨v, hlegal⟩
  | cons call calls ih =>
    have hcall := hfine call List.mem_cons_self
    obtain ⟨v', hserves, hshows⟩ : ∃ v',
        StoreServes A schema numShards (router.idShard numShards) v call
          (s.step A I schema router call).2 v' ∧
        Shows schema router numShards (s.step A I schema router call).1 v' := by
      cases h with
      | opened h =>
        refine step_opened A h hr hcall fun query hquery hdim id x hx => ?_
        exact hreal call List.mem_cons_self query hquery hdim x (hstored.visible hx)
      | closed h => exact step_closed A h (Nat.zero_lt_of_lt (hr.vector 0)) call
    exact ih hshows (hlegal.snoc hserves)
      (hstored.serves A hserves (hbring call List.mem_cons_self))
      (fun call hmem => hfine call (List.mem_cons_of_mem _ hmem))
      (fun call hmem => hbring call (List.mem_cons_of_mem _ hmem))
      fun call hmem => hreal call (List.mem_cons_of_mem _ hmem)

end ShardHost

end FusionStore
