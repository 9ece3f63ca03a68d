import FusionStore.Native.Kv
import FusionStore.Spec.SegmentCorrect

/-!
# The KV store, key by key

`view` is the map a KV store stands for.  A key is `Good` when the pool holds its
locator: then reads return `view`, and no later write of another key can change it.
Goodness is stated per key because a reopened store may have lost it for some of its
keys (those written after the recorded cursor) while replay restores it for others.

## Key results

- `getKvZeroCopy_eq`: a good key reads as `view`
- `putKv_cases`, `deleteKv_cases`: everything a call can do
- `putKv_ok`, `deleteKv_ok`: the effect of an accepted call on every key
- `view_open`, `good_open`: what a reopened store keeps
-/

namespace FusionStore

/-- The effect of a logged operation on `key`: `some none` for a delete, `none` when
    the operation does not concern the key. -/
def kvEffect (key : Bytes) : WalOp → Option (Option Bytes)
  | .putKv k v => if k = key then some (some v) else none
  | .deleteKv k => if k = key then some none else none
  | _ => none

/-- A put sets its key. -/
theorem kvEffect_putKv {k key value : Bytes} {eff : Option Bytes} :
    kvEffect k (.putKv key value) = some eff ↔ key = k ∧ some value = eff := by
  simp [kvEffect]

/-- A delete clears its key. -/
theorem kvEffect_deleteKv {k key : Bytes} {eff : Option Bytes} :
    kvEffect k (.deleteKv key) = some eff ↔ key = k ∧ none = eff := by
  simp [kvEffect]

/-- A put without effect on a key is one of another key. -/
theorem ne_of_kvEffect_putKv {k key value : Bytes} (h : kvEffect k (.putKv key value) = none) :
    k ≠ key := by
  rintro rfl
  simp [kvEffect] at h

/-- Likewise a delete. -/
theorem ne_of_kvEffect_deleteKv {k key : Bytes} (h : kvEffect k (.deleteKv key) = none) :
    k ≠ key := by
  rintro rfl
  simp [kvEffect] at h

/-- The effect of the last operation of `ops` that concerns `key`. -/
def lastEffect (key : Bytes) (ops : List WalOp) : Option (Option Bytes) :=
  ops.reverse.findSome? (kvEffect key)

/-- An empty log. -/
@[simp] theorem lastEffect_nil (key : Bytes) : lastEffect key [] = none := rfl

/-- The rest of the log has the last word. -/
theorem lastEffect_cons (key : Bytes) (op : WalOp) (ops : List WalOp) :
    lastEffect key (op :: ops) = (lastEffect key ops).or (kvEffect key op) := by
  simp only [lastEffect, List.reverse_cons, List.findSome?_append, List.findSome?_singleton]

/-- The last entry, if it concerns the key. -/
theorem lastEffect_concat (key : Bytes) (ops : List WalOp) (op : WalOp) :
    lastEffect key (ops ++ [op]) = (kvEffect key op).or (lastEffect key ops) := by
  simp only [lastEffect, List.reverse_append, List.reverse_cons, List.reverse_nil, List.nil_append,
    List.cons_append, List.findSome?_cons]
  cases kvEffect key op <;> rfl

/-- The operations of vector calls do not concern keys. -/
theorem lastEffect_inserts (key : Bytes) (ops : List WalOp)
    (items : List (NodeId × List F32)) :
    lastEffect key (ops ++ items.map fun i => .insertVector i.1 i.2) = lastEffect key ops := by
  induction items generalizing ops with
  | nil => rw [List.map_nil, List.append_nil]
  | cons i items ih =>
    rw [List.map_cons, List.append_cons, ih, lastEffect_concat]
    rfl

namespace KvStore

/-- The stored length of a key, `0` if it is absent. -/
def lenOf (s : KvStore) (key : Bytes) : Nat :=
  match s.env.volatile.db.lookup key with
  | some loc => loc.len
  | none => 0

/-- The counter `put_kv` would write. -/
def newUsed (s : KvStore) (key value : Bytes) : Nat :=
  s.env.volatile.used + (value.length - s.lenOf key)

/-- The map the store stands for. -/
def view (s : KvStore) (key : Bytes) : Option Bytes :=
  (s.env.volatile.db.lookup key).map s.pool.writer.bytesAt

/-- The pool holds the value of `key`. -/
def Good (s : KvStore) (key : Bytes) : Prop :=
  ∀ loc ∈ s.env.volatile.db.lookup key, s.pool.writer.Holds loc

/-- What holds of a KV store between calls, whatever happened before. -/
structure Inv (s : KvStore) : Prop where
  pool : s.pool.Inv
  segSize : s.pool.segSize = defaultSegmentSize
  located : ∀ key loc, s.env.volatile.db.lookup key = some loc →
    loc.segId ∈ s.pool.dir.files ∧ loc.offset + loc.len ≤ defaultSegmentSize

/-- The puts that are accepted: a key LMDB takes, the quota, and a value that fits a
    segment. -/
structure Accepts (s : KvStore) (key value : Bytes) : Prop where
  key_ne : key ≠ []
  key_le : key.length ≤ lmdbMaxKey
  counter : s.newUsed key value ≤ u64Max
  quota : s.quotaLimit = 0 ∨ s.newUsed key value ≤ s.quotaLimit
  value_le : value.length ≤ defaultSegmentSize

/-- A good key reads as `view`. -/
theorem getKvZeroCopy_eq {s : KvStore} {key : Bytes} (h : s.Good key) (hne : key ≠ []) :
    s.getKvZeroCopy key = .ok (s.view key) := by
  have hget : heedGet s.env.volatile.db key = .ok (s.env.volatile.db.lookup key) := by
    unfold heedGet
    rw [if_neg (by simpa using hne)]
  unfold getKvZeroCopy view
  cases hl : s.env.volatile.db.lookup key with
  | none => simp only [hget, hl, bind, Except.bind, Option.map_none]
  | some loc =>
    simp only [hget, hl, bind, Except.bind, SegmentPool.view_of_holds (h loc hl), Option.map_some]

/-- The state of a store whose pool moved forward and whose table did not change. -/
theorem inv_of_keeps {s : KvStore} (h : s.Inv) {pool : SegmentPool} (hpool : pool.Inv)
    (hk : s.pool.writer.Keeps pool.writer) : ({ s with pool } : KvStore).Inv where
  pool := hpool
  segSize := hk.segSize.trans h.segSize
  located := by
    intro key loc hl
    obtain ⟨hmem, hlen⟩ := h.located key loc hl
    exact ⟨hk.files _ hmem, hlen⟩

/-- Values survive whatever keeps their bytes. -/
theorem good_of_keeps {s : KvStore} {pool : SegmentPool} (hk : s.pool.writer.Keeps pool.writer)
    {key : Bytes} (hg : s.Good key) :
    ({ s with pool } : KvStore).Good key ∧ ({ s with pool } : KvStore).view key = s.view key := by
  refine ⟨fun loc hl => hk.holds loc (hg loc hl), ?_⟩
  unfold view
  show (s.env.volatile.db.lookup key).map pool.writer.bytesAt = _
  cases hl : s.env.volatile.db.lookup key with
  | none => rfl
  | some loc => rw [Option.map_some, Option.map_some, hk.bytesAt loc (hg loc hl)]

/-- The store after an accepted put whose payload went to `loc`. -/
def stored (s : KvStore) (key value : Bytes) (loc : ValueLocator) (pool : SegmentPool) :
    KvStore :=
  { s with
    pool
    env := s.env.write ⟨s.env.volatile.db.insert key loc, s.newUsed key value⟩ }

/-- The puts whose checks and whose append succeed. -/
structure Takes (s : KvStore) (key value : Bytes) : Prop where
  key_ne : key ≠ []
  key_le : key.length ≤ lmdbMaxKey
  counter : s.newUsed key value ≤ u64Max
  quota : s.quotaLimit = 0 ∨ s.newUsed key value ≤ s.quotaLimit
  room : s.pool.Accepts value

/-- `put_kv` behind the checks of the key. -/
private theorem putKv_of_key (s : KvStore) {key : Bytes} (hne : key ≠ [])
    (hle : key.length ≤ lmdbMaxKey) (value : Bytes) (commit : Option StoreError) :
    s.putKv key value true commit =
      if s.newUsed key value > u64Max then (.error .quotaExceeded, s)
      else if s.quotaLimit > 0 ∧ s.newUsed key value > s.quotaLimit then
        (.error .quotaExceeded, s)
      else
        match s.pool.append value with
        | (.error e, pool) => (.error e, { s with pool })
        | (.ok loc, pool) =>
          match commit with
          | none => (.ok (), s.stored key value loc pool)
          | some e =>
            match pool.rewindActiveTo loc.segId loc.offset with
            | .ok pool => (.error e, { s with pool })
            | .error _ => (.error e, { s with pool }) := by
  simp only [putKv, ↓reduceIte, putKvInner, List.isEmpty_iff, hne]
  rw [if_neg (Nat.not_lt.mpr hle)]
  rfl

/-- Everything `put_kv` can do. -/
theorem putKv_outcome {s : KvStore} (h : s.pool.writer.Inv) (key value : Bytes) (locked : Bool)
    (commit : Option StoreError) :
    (locked = true ∧ s.Takes key value ∧ commit = none ∧
      ∃ loc pool, s.putKv key value locked commit = (.ok (), s.stored key value loc pool) ∧
        s.pool.Appended value loc pool) ∨
    (¬(locked = true ∧ s.Takes key value ∧ commit = none) ∧
      ∃ err pool, s.putKv key value locked commit = (.error err, { s with pool }) ∧
        pool.writer.Inv ∧ s.pool.writer.Keeps pool.writer ∧
        (commit = none → s.pool.Refused pool)) := by
  -- every check that fails leaves the store alone
  have same : ∀ err, s.putKv key value locked commit = (.error err, s) →
      ∃ err pool, s.putKv key value locked commit = (.error err, { s with pool }) ∧
        pool.writer.Inv ∧ s.pool.writer.Keeps pool.writer ∧
        (commit = none → s.pool.Refused pool) :=
    fun err he => ⟨err, s.pool, he, h, .refl _, fun _ => ⟨h, .refl _, id⟩⟩
  cases locked with
  | false => exact Or.inr ⟨fun hn => absurd hn.1 Bool.false_ne_true, same .lockBusy rfl⟩
  | true =>
    by_cases hne : key = []
    · refine Or.inr ⟨fun hn => hn.2.1.key_ne hne, same (.invalidKey "empty key rejected") ?_⟩
      subst hne
      rfl
    by_cases hle : key.length ≤ lmdbMaxKey
    case neg =>
      refine Or.inr ⟨fun hn => hle hn.2.1.key_le,
        same (.invalidKey "key exceeds LMDB MDB_MAXKEYSIZE (511)") ?_⟩
      simp only [putKv, ↓reduceIte, putKvInner, List.isEmpty_iff, hne]
      rw [if_pos (Nat.not_le.mp hle)]
    have hput := s.putKv_of_key hne hle value commit
    by_cases hcount : s.newUsed key value ≤ u64Max
    case neg =>
      refine Or.inr ⟨fun hn => hcount hn.2.1.counter, same .quotaExceeded ?_⟩
      rw [hput, if_pos (by omega)]
    by_cases hquota : s.quotaLimit = 0 ∨ s.newUsed key value ≤ s.quotaLimit
    case neg =>
      refine Or.inr ⟨fun hn => hquota hn.2.1.quota, same .quotaExceeded ?_⟩
      rw [hput, if_neg (by omega), if_pos (by omega)]
    rw [if_neg (by omega), if_neg (by omega)] at hput
    obtain ⟨hroom, loc, pool, happ, ha⟩ | ⟨hroom, err, pool, happ, hr⟩ :=
      SegmentPool.append_cases h value
    · rw [happ] at hput
      cases commit with
      | none => exact Or.inl ⟨rfl, ⟨hne, hle, hcount, hquota, hroom⟩, rfl, loc, pool, hput, ha⟩
      | some err =>
        -- the commit fails and the payload is taken back
        obtain ⟨r, hrew, hinv, hk⟩ := ha.rewind
        simp only [hrew] at hput
        exact Or.inr ⟨fun hn => (by cases hn.2.2), err, r, hput, hinv, hk, fun hn => by cases hn⟩
    · rw [happ] at hput
      exact Or.inr ⟨fun hn => hroom hn.2.1.room, err, pool, hput, hr.inv, hr.keeps, fun _ => hr⟩

/-- What a put checks, with the locator in reach by the invariant. -/
theorem Inv.takes_iff {s : KvStore} (h : s.Inv) {key value : Bytes} :
    s.Takes key value ↔ s.Accepts key value := by
  have hroom : s.pool.Accepts value ↔ value.length ≤ defaultSegmentSize := by
    rw [h.pool.accepts_iff, h.segSize]
  constructor
  · exact fun ht => ⟨ht.key_ne, ht.key_le, ht.counter, ht.quota, hroom.mp ht.room⟩
  · exact fun ha => ⟨ha.key_ne, ha.key_le, ha.counter, ha.quota, hroom.mpr ha.value_le⟩

/-- Everything `put_kv` can do when heed commits. -/
theorem putKv_cases {s : KvStore} (h : s.Inv) (key value : Bytes) (locked : Bool) :
    (locked = true ∧ s.Accepts key value ∧
      ∃ loc pool, s.putKv key value locked none = (.ok (), s.stored key value loc pool) ∧
        pool.Inv ∧ s.pool.writer.Keeps pool.writer ∧ pool.writer.Holds loc ∧
        pool.writer.bytesAt loc = value ∧ loc.len = value.length ∧
        loc.segId = pool.activeId) ∨
    (¬(locked = true ∧ s.Accepts key value) ∧
      ∃ err pool, s.putKv key value locked none = (.error err, { s with pool }) ∧ pool.Inv ∧
        s.pool.writer.Keeps pool.writer) := by
  have hsize : ∀ {pool : SegmentPool}, s.pool.writer.Keeps pool.writer →
      pool.segSize ≤ u32Max := by
    intro pool hk
    rw [show pool.segSize = s.pool.segSize from hk.segSize]
    exact h.pool.segSize_le
  obtain ⟨hl, ht, -, loc, pool, hput, ha⟩ | ⟨hno, err, pool, hput, hinv, hk, hr⟩ :=
    putKv_outcome h.pool.writer key value locked none
  · exact Or.inl ⟨hl, h.takes_iff.mp ht, loc, pool, hput,
      ⟨ha.inv, hsize ha.keeps, ha.behind h.pool.recorded⟩, ha.keeps, ha.holds, ha.bytesAt,
      ha.len, ha.segId⟩
  · exact Or.inr ⟨fun hn => hno ⟨hn.1, h.takes_iff.mpr hn.2, rfl⟩, err, pool, hput,
      ⟨hinv, hsize hk, (hr rfl).behind h.pool.recorded⟩, hk⟩

/-- The store after a delete. -/
def erased (s : KvStore) (key : Bytes) : KvStore :=
  let env := s.env.volatile
  { s with env := s.env.write ⟨env.db.erase key, env.used - s.lenOf key⟩ }

/-- Everything `delete_kv` can do. -/
theorem deleteKv_outcome (s : KvStore) (key : Bytes) (locked : Bool) (commit : Option StoreError) :
    (locked = true ∧ key ≠ [] ∧ commit = none ∧ (∃ loc, s.env.volatile.db.lookup key = some loc) ∧
      s.deleteKv key locked commit = (.ok true, s.erased key)) ∨
    (locked = true ∧ key ≠ [] ∧ s.env.volatile.db.lookup key = none ∧
      s.deleteKv key locked commit = (.ok false, s)) ∨
    (¬(locked = true ∧ key ≠ [] ∧ (commit = none ∨ s.env.volatile.db.lookup key = none)) ∧
      ∃ err, s.deleteKv key locked commit = (.error err, s)) := by
  cases locked with
  | false => exact Or.inr (Or.inr ⟨fun hn => absurd hn.1 Bool.false_ne_true, .lockBusy, rfl⟩)
  | true =>
    by_cases hne : key = []
    · subst hne
      exact Or.inr (Or.inr ⟨fun hn => hn.2.1 rfl, _, rfl⟩)
    have hget : heedGet s.env.volatile.db key = .ok (s.env.volatile.db.lookup key) := by
      unfold heedGet
      rw [if_neg (by simpa using hne)]
    cases hl : s.env.volatile.db.lookup key with
    | none =>
      refine Or.inr (Or.inl ⟨rfl, hne, rfl, ?_⟩)
      simp only [deleteKv, ↓reduceIte, deleteKvInner, hget, hl]
    | some loc =>
      cases commit with
      | none =>
        refine Or.inl ⟨rfl, hne, rfl, ⟨loc, rfl⟩, ?_⟩
        simp only [deleteKv, ↓reduceIte, deleteKvInner, hget, hl, erased, lenOf]
      | some err =>
        refine Or.inr (Or.inr ⟨?_, err, ?_⟩)
        · rintro ⟨-, -, hc | hc⟩ <;> exact nomatch hc
        · simp only [deleteKv, ↓reduceIte, deleteKvInner, hget, hl]

/-- Everything `delete_kv` can do when heed commits. -/
theorem deleteKv_cases (s : KvStore) (key : Bytes) (locked : Bool) :
    (locked = true ∧ key ≠ [] ∧ s.deleteKv key locked none = (.ok true, s.erased key)) ∨
    (locked = true ∧ key ≠ [] ∧ s.env.volatile.db.lookup key = none ∧
      s.deleteKv key locked none = (.ok false, s)) ∨
    (¬(locked = true ∧ key ≠ []) ∧ ∃ err, s.deleteKv key locked none = (.error err, s)) := by
  obtain ⟨hl, hne, -, -, hdel⟩ | ⟨hl, hne, hnone, hdel⟩ | ⟨hno, hdel⟩ :=
    s.deleteKv_outcome key locked none
  · exact .inl ⟨hl, hne, hdel⟩
  · exact .inr (.inl ⟨hl, hne, hnone, hdel⟩)
  · exact .inr (.inr ⟨fun hn => hno ⟨hn.1, hn.2, .inl rfl⟩, hdel⟩)

/-! ### What a call does to one key -/

/-- `s'` is `s` with `op` applied: the key it concerns is good with the new value, every
    other one keeps what it had. -/
structure Effect (s s' : KvStore) (op : WalOp) : Prop where
  inv : s'.Inv
  quotaLimit : s'.quotaLimit = s.quotaLimit
  touched : ∀ key eff, kvEffect key op = some eff → s'.Good key ∧ s'.view key = eff
  untouched : ∀ key, kvEffect key op = none → s.Good key →
    s'.Good key ∧ s'.view key = s.view key
  keeps : s.pool.writer.Keeps s'.pool.writer
  durable : s'.env.durable = s.env.durable
  lookup : ∀ key, kvEffect key op = none →
    s'.env.volatile.db.lookup key = s.env.volatile.db.lookup key
  active : ∀ key eff, kvEffect key op = some eff →
    ∀ loc ∈ s'.env.volatile.db.lookup key, loc.segId = s'.pool.activeId

/-- A put that succeeds: what it needed, what it changes and what it counts. -/
theorem putKv_ok {s s' : KvStore} (h : s.Inv) {key value : Bytes} {locked : Bool}
    (hr : s.putKv key value locked none = (.ok (), s')) :
    locked = true ∧ s.Accepts key value ∧ s.Effect s' (.putKv key value) ∧
      s'.env.volatile.used = s.newUsed key value ∧
      s'.lenOf = Function.update s.lenOf key value.length := by
  rcases putKv_cases h key value locked with
    ⟨hl, hacc, loc, pool, he, hinv, hk, hh, hb, hlen, hact⟩ | ⟨-, err, pool, he, -⟩
  · rw [hr, Prod.mk.injEq] at he
    obtain ⟨-, rfl⟩ := he
    have hself : (s.stored key value loc pool).env.volatile.db.lookup key = some loc :=
      AList.lookup_insert _
    have hother : ∀ k, k ≠ key → (s.stored key value loc pool).env.volatile.db.lookup k =
        s.env.volatile.db.lookup k := fun k hk => AList.lookup_insert_ne hk
    have hne : ∀ k, kvEffect k (.putKv key value) = none → k ≠ key :=
      fun _ => ne_of_kvEffect_putKv
    refine ⟨hl, hacc, ⟨⟨hinv, hk.segSize.trans h.segSize, ?_⟩, rfl, ?_, ?_, hk, rfl,
      fun k hk' => hother k (hne k hk'), ?_⟩, rfl, ?_⟩
    · -- locators stay inside their files
      intro k l hlk
      by_cases hkk : k = key
      · subst hkk
        rw [hself, Option.some.injEq] at hlk
        subst hlk
        exact ⟨hh.1, (hk.segSize.trans h.segSize) ▸ hh.2.1⟩
      · rw [hother k hkk] at hlk
        obtain ⟨hmem, hle⟩ := h.located k l hlk
        exact ⟨hk.files _ hmem, hle⟩
    · -- the key itself: the locator just written is found again
      intro k eff hk
      obtain ⟨rfl, rfl⟩ := kvEffect_putKv.mp hk
      refine ⟨?_, ?_⟩
      · intro l hl
        rw [hself, Option.mem_some_iff] at hl
        subst hl
        exact hh
      · unfold view
        rw [hself]
        exact congrArg some hb
    · -- every other key: same locator, and the pool kept its bytes
      intro k hk' hg
      obtain ⟨hg', hv'⟩ := good_of_keeps hk hg
      refine ⟨fun l hl => hg' l ((hother k (hne k hk')) ▸ hl), ?_⟩
      rw [← hv']
      unfold view
      rw [hother k (hne k hk')]
      rfl
    · -- the new value lies in the active segment
      intro k eff hk' l hl
      obtain ⟨rfl, -⟩ := kvEffect_putKv.mp hk'
      rw [hself, Option.mem_some_iff] at hl
      subst hl
      exact hact
    · -- the lengths
      funext k
      by_cases hkk : k = key
      · subst hkk
        rw [Function.update_self, lenOf, hself]
        exact hlen
      · rw [Function.update_of_ne hkk, lenOf, hother k hkk]
        rfl
  · rw [hr, Prod.mk.injEq] at he
    exact nomatch he.1

/-- A rejected put leaves the table alone. -/
theorem putKv_error {s s' : KvStore} (h : s.Inv) {key value : Bytes} {locked : Bool}
    {err : StoreError} (hr : s.putKv key value locked none = (.error err, s')) :
    ¬(locked = true ∧ s.Accepts key value) ∧
      ∃ pool, s' = { s with pool } ∧ pool.Inv ∧ s.pool.writer.Keeps pool.writer := by
  rcases putKv_cases h key value locked with ⟨-, -, loc, pool, he, -⟩ | ⟨hn, err', pool, he, hp⟩
  · rw [hr, Prod.mk.injEq] at he
    exact nomatch he.1
  · rw [hr, Prod.mk.injEq] at he
    exact ⟨hn, pool, he.2, hp⟩

/-- A delete that succeeds. -/
theorem deleteKv_ok {s s' : KvStore} (h : s.Inv) {key : Bytes} {locked removed : Bool}
    (hr : s.deleteKv key locked none = (.ok removed, s')) :
    locked = true ∧ key ≠ [] ∧ s.Effect s' (.deleteKv key) ∧
      s'.env.volatile.used = s.env.volatile.used - s.lenOf key ∧
      s'.lenOf = Function.update s.lenOf key 0 := by
  have hne : ∀ k, kvEffect k (.deleteKv key) = none → k ≠ key :=
    fun _ => ne_of_kvEffect_deleteKv
  -- both outcomes leave the key absent
  have gone : ∀ t : KvStore, t.env.volatile.db.lookup key = none →
      ∀ k eff, kvEffect k (.deleteKv key) = some eff →
        t.env.volatile.db.lookup k = none ∧ eff = none := by
    intro t ht k eff hk
    obtain ⟨rfl, rfl⟩ := kvEffect_deleteKv.mp hk
    exact ⟨ht, rfl⟩
  have good : ∀ t : KvStore, t.env.volatile.db.lookup key = none →
      ∀ k eff, kvEffect k (.deleteKv key) = some eff → t.Good k ∧ t.view k = eff := by
    intro t ht k eff hk
    obtain ⟨hn, rfl⟩ := gone t ht k eff hk
    refine ⟨fun l hl => ?_, ?_⟩
    · rw [hn] at hl
      exact nomatch hl
    · unfold view
      rw [hn]
      rfl
  have active : ∀ t : KvStore, t.env.volatile.db.lookup key = none →
      ∀ k eff, kvEffect k (.deleteKv key) = some eff →
        ∀ loc ∈ t.env.volatile.db.lookup k, loc.segId = t.pool.activeId := by
    intro t ht k eff hk loc hloc
    rw [(gone t ht k eff hk).1] at hloc
    exact nomatch hloc
  -- the key was there, was not there, or the call failed
  rcases deleteKv_cases s key locked with ⟨hl, hk, he⟩ | ⟨hl, hk, habs, he⟩ | ⟨-, err, he⟩
  · rw [hr, Prod.mk.injEq] at he
    obtain ⟨-, rfl⟩ := he
    have hself : (s.erased key).env.volatile.db.lookup key = none := AList.lookup_erase _ _
    have hother : ∀ k, k ≠ key → (s.erased key).env.volatile.db.lookup k =
        s.env.volatile.db.lookup k := fun k hk => AList.lookup_erase_ne hk
    refine ⟨hl, hk, ⟨⟨h.pool, h.segSize, ?_⟩, rfl, good _ hself, ?_, .refl _, rfl,
      fun k hk' => hother k (hne k hk'), active _ hself⟩, rfl, ?_⟩
    · -- locators stay inside their files
      intro k l hlk
      by_cases hkk : k = key
      · subst hkk
        rw [hself] at hlk
        exact nomatch hlk
      · rw [hother k hkk] at hlk
        exact h.located k l hlk
    · -- the other keys read as they did
      intro k hk' hg
      refine ⟨fun l hl => hg l ((hother k (hne k hk')) ▸ hl), ?_⟩
      unfold view
      rw [hother k (hne k hk')]
      rfl
    · -- the length of the value is given back
      funext k
      by_cases hkk : k = key
      · subst hkk
        rw [Function.update_self, lenOf, hself]
      · rw [Function.update_of_ne hkk, lenOf, hother k hkk]
        rfl
  · rw [hr, Prod.mk.injEq] at he
    obtain ⟨-, rfl⟩ := he
    have hlen : s'.lenOf key = 0 := by
      unfold lenOf
      rw [habs]
    refine ⟨hl, hk, ⟨h, rfl, good _ habs, fun _ _ hg => ⟨hg, rfl⟩, .refl _, rfl,
      fun _ _ => rfl, active _ habs⟩, ?_, ?_⟩
    · rw [hlen]
      rfl
    · rw [Function.update_eq_self_iff.mpr hlen.symm]
  · rw [hr, Prod.mk.injEq] at he
    exact nomatch he.1

/-- A delete that fails changes nothing. -/
theorem deleteKv_error {s s' : KvStore} {key : Bytes} {locked : Bool} {err : StoreError}
    (hr : s.deleteKv key locked none = (.error err, s')) :
    ¬(locked = true ∧ key ≠ []) ∧ s' = s := by
  rcases deleteKv_cases s key locked with ⟨-, -, he⟩ | ⟨-, -, -, he⟩ | ⟨hn, err', he⟩
  · rw [hr, Prod.mk.injEq] at he
    exact nomatch he.1
  · rw [hr, Prod.mk.injEq] at he
    exact nomatch he.1
  · rw [hr, Prod.mk.injEq] at he
    exact ⟨hn, he.2⟩

/-- The invariant through a put. -/
theorem inv_putKv {s : KvStore} (h : s.Inv) (key value : Bytes) (locked : Bool) :
    (s.putKv key value locked none).2.Inv := by
  cases hr : s.putKv key value locked none with
  | mk r s' =>
    cases r with
    | ok u => exact (putKv_ok h hr).2.2.1.inv
    | error err =>
      obtain ⟨-, pool, rfl, hp, hk⟩ := putKv_error h hr
      exact inv_of_keeps h hp hk

/-- The invariant through a delete. -/
theorem inv_deleteKv {s : KvStore} (h : s.Inv) (key : Bytes) (locked : Bool) :
    (s.deleteKv key locked none).2.Inv := by
  cases hr : s.deleteKv key locked none with
  | mk r s' =>
    cases r with
    | ok removed => exact (deleteKv_ok h hr).2.2.1.inv
    | error err =>
      obtain ⟨-, rfl⟩ := deleteKv_error hr
      exact h

/-! ### Flush and reopen -/

/-- The invariant through a flush. -/
theorem inv_flush {s : KvStore} (h : s.Inv) : s.flush.Inv :=
  ⟨SegmentPool.inv_flush h.pool, h.segSize, h.located⟩

/-- A flush changes nothing a reader sees. -/
theorem good_flush {s : KvStore} {key : Bytes} :
    (s.flush.Good key ↔ s.Good key) ∧ s.flush.view key = s.view key :=
  ⟨Iff.rfl, rfl⟩

end KvStore

namespace KvDir

/-- The map the files of a KV store stand for. -/
def view (d : KvDir) (key : Bytes) : Option Bytes :=
  (d.env.volatile.db.lookup key).map fun loc =>
    d.segs.mem.volatile.read loc.segId loc.offset loc.len

/-- The recorded cursor, if there is one, lies behind the value of `key`. -/
def Covered (d : KvDir) (key : Bytes) : Prop :=
  ∀ loc ∈ d.env.volatile.db.lookup key, SegmentPool.Recorded d.segs loc

instance (d : KvDir) (key : Bytes) : Decidable (d.Covered key) :=
  inferInstanceAs (Decidable (∀ loc ∈ d.env.volatile.db.lookup key, _))

/-- What holds of the files of a KV store at any time. -/
structure Inv (d : KvDir) : Prop where
  segs : SegmentPool.DirInv d.segs defaultSegmentSize
  located : ∀ key loc, d.env.volatile.db.lookup key = some loc →
    loc.segId ∈ d.segs.files ∧ loc.offset + loc.len ≤ defaultSegmentSize

/-- The empty directory. -/
theorem inv_empty : KvDir.empty.Inv where
  segs := SegmentPool.dirInv_empty _
  located := by
    intro key loc h
    exact nomatch h

end KvDir

namespace KvStore

/-- What the process leaves can be opened again. -/
theorem Inv.dir {s : KvStore} (h : s.Inv) : s.dir.Inv :=
  ⟨h.segSize ▸ h.pool.dirInv, h.located⟩

/-- Files show what the store showed. -/
@[simp] theorem view_dir (s : KvStore) (key : Bytes) : s.dir.view key = s.view key := rfl

/-- The invariant after an open. -/
theorem inv_open {d : KvDir} (h : d.Inv) (quota : Nat) : («open» d 0 quota).Inv := by
  obtain ⟨hp, hsize⟩ := SegmentPool.inv_open h.segs
  refine ⟨hp, hsize, ?_⟩
  intro key loc hl
  obtain ⟨hmem, hle⟩ := h.located key loc hl
  exact ⟨SegDir.mem_createSeg.mpr (Or.inr hmem), hle⟩

/-- Reopening keeps the map itself. -/
theorem view_open {d : KvDir} (h : d.Inv) (quota : Nat) (key : Bytes) :
    («open» d 0 quota).view key = d.view key := by
  unfold view KvDir.view
  show (d.env.volatile.db.lookup key).map (SegmentPool.open d.segs 0).writer.bytesAt = _
  cases hl : d.env.volatile.db.lookup key with
  | none => rfl
  | some loc =>
    rw [Option.map_some, Option.map_some, SegmentPool.bytesAt_open (h.located key loc hl).1]

/-- Only covered keys are safe from later writes, though. -/
theorem good_open {d : KvDir} (h : d.Inv) (quota : Nat) {key : Bytes} (hc : d.Covered key) :
    («open» d 0 quota).Good key := by
  intro loc hl
  obtain ⟨hmem, hle⟩ := h.located key loc hl
  exact SegmentPool.holds_open h.segs hmem hle (hc loc hl)

/-! ### Panics -/

/-- A put panics for want of a segment that takes its value only. -/
theorem returns_putKv {s : KvStore} (h : s.Inv) {key value : Bytes}
    (hlen : value.length ≤ defaultSegmentSize) (locked : Bool) :
    Returns (s.putKv key value locked none).1 := by
  intro msg
  obtain ⟨loc, pool, happ, -⟩ := SegmentPool.append_ok h.pool (h.segSize ▸ hlen)
  -- behind the append only the quota can refuse
  have hquota : ∀ (newUsed : Nat) (s' : KvStore),
      (if newUsed > u64Max then (.error .quotaExceeded, s)
        else if s.quotaLimit > 0 ∧ newUsed > s.quotaLimit then (.error .quotaExceeded, s)
        else ((.ok (), s') : Except StoreError Unit × KvStore)).1 ≠ .error (.panicked msg) := by
    intro newUsed s'
    split
    · simp
    split <;> simp
  unfold putKv putKvInner
  split
  · split
    · simp
    split
    · simp
    · simp only [happ]
      exact hquota _ _
  · simp

/-- A delete has no reason to panic. -/
theorem returns_deleteKv (s : KvStore) (key : Bytes) (locked : Bool) :
    Returns (s.deleteKv key locked none).1 := by
  intro msg
  unfold deleteKv deleteKvInner heedGet
  split
  · dsimp only
    split
    · -- an empty key is refused by heed
      rename_i err herr
      split at herr
      · obtain rfl := Except.error.inj herr
        simp
      · cases herr
    · simp
    · simp
  · simp

end KvStore

end FusionStore
