import FusionStore.ForStd.Run
import FusionStore.Spec.CompactCorrect
import FusionStore.Spec.SessionCorrect

/-!
# The schema of a vector directory

`schema.rs` locks dimension and metric when a directory is created.  A run here is any
sequence of opens, with any schemas, and of calls on the index that is open.  `Locked` is
what the lock is for: locators of the schema's dimension, the metric of the first vector,
distances between slices of one length.  `VectorIndex.open` stores the schema it is given
without a look at the one in the directory, so a run keeps the lock exactly if its opens
do (`locked_iff`).
-/

namespace FusionStore

/-- The schema in `vec_meta`. -/
def VecDir.persisted (d : VecDir) : Option VectorSchema :=
  d.vecMeta.bind fun env => env.volatile.schema

/-- A vector directory without a process, or the index that is open on it. -/
inductive VecHost where
  | closed (d : VecDir)
  | opened (x : VectorIndex)

/-- An open of the directory, or a call on the open index. -/
inductive VecEvent where
  | «open» (schema : VectorSchema)
  | reopen (order : MapOrder)
  | insert (id : NodeId) (vector : List F32)
  | insertBatch (items : List (NodeId × List F32))
  | delete (id : NodeId)
  | compact (order : MapOrder) (avail : Option Nat)
  | checkpoint
  | searchKnn (query : List F32)

namespace VecHost

/-- The files; an open index is dropped before the next open. -/
def dir : VecHost → VecDir
  | .closed d => d
  | .opened x => x.dir

/-- The locator table. -/
def table (h : VecHost) : LocatorDb := h.dir.locatorDb

/-- The schema of the open index, else the one in `vec_meta`. -/
def schema : VecHost → Option VectorSchema
  | .closed d => d.persisted
  | .opened x => some x.schema

/-- `loc` is the locator of `id` in the table, or in the cache of the open index. -/
def Locates (h : VecHost) (id : NodeId) (loc : ValueLocator) : Prop :=
  h.table.lookup id = some loc ∨
    match h with
    | .closed _ => False
    | .opened x => x.locators.lookup id = some loc

/-- A failed open leaves its files only. -/
def settle : Except StoreError VectorIndex × VecDir → VecHost
  | (.ok x, _) => .opened x
  | (.error _, d) => .closed d

/-- A call without an open index does nothing. -/
def onIndex (f : VectorIndex → VectorIndex) : VecHost → VecHost
  | .closed d => .closed d
  | .opened x => .opened (f x)

variable (A : F32Arith) (segSize : Nat)

def step (h : VecHost) : VecEvent → VecHost
  | .open schema => settle (VectorIndex.open h.dir schema segSize)
  | .reopen order => settle (VectorIndex.reopen A h.dir segSize order)
  | .insert id vector => h.onIndex fun x => (x.insert A id vector).2
  | .insertBatch items => h.onIndex fun x => (x.insertBatch A items).2
  | .delete id => h.onIndex fun x => (x.delete id).2
  | .compact order avail => h.onIndex fun x => (x.compact A order avail).2
  | .checkpoint => h.onIndex VectorIndex.checkpoint
  | .searchKnn _ => h

/-- The two slices of a call of `simd::distance` while `ev` runs: a vector or query that
    passed `validate_dim` against a stored vector, or two vectors that were read back for
    a new graph.  Every id that can be read counts, whether or not the graph has it and asks
    for it. -/
inductive DistanceCall : VecHost → VecEvent → List F32 → List F32 → Prop
  | insert {x : VectorIndex} {id j : NodeId} {vector v : List F32} {loc : ValueLocator}
      {pool : VecSegmentPool} (hvalid : x.schema.validateDim vector = .ok ())
      (hnew : x.env.volatile.locatorDb.lookup id = none)
      (happend : x.pool.append vector = (.ok loc, pool))
      (hread : (({ x with pool } : VectorIndex).putLocator id loc).vecSlice j = .ok v) :
      DistanceCall (.opened x) (.insert id vector) vector v
  | insertBatch {x y : VectorIndex} {items : List (NodeId × List F32)} {e : NodeId × List F32}
      {j : NodeId} {v : List F32} (hvalid : ∀ e ∈ items, x.schema.validateDim e.2 = .ok ())
      (hnew : ∀ e ∈ items, x.env.volatile.locatorDb.lookup e.1 = none)
      (happend : x.appendItems items = (.ok (), y)) (hmem : e ∈ items)
      (hread : y.vecSlice j = .ok v) :
      DistanceCall (.opened x) (.insertBatch items) e.2 v
  | searchKnn {x : VectorIndex} {j : NodeId} {query v : List F32}
      (hvalid : x.schema.validateDim query = .ok ()) (hread : x.vecSlice j = .ok v) :
      DistanceCall (.opened x) (.searchKnn query) query v
  | compact {x : VectorIndex} {order : MapOrder} {avail : Option Nat}
      {live : List (NodeId × List F32)} {e f : NodeId × List F32}
      (hread : x.readLive x.graph.allDeletedIds = .ok live) (he : e ∈ live) (hf : f ∈ live) :
      DistanceCall (.opened x) (.compact order avail) e.2 f.2
  | reopen {h : VecHost} {order : MapOrder} {env : Stored VecEnv} {schema : VectorSchema}
      {live : List (NodeId × List F32)} {e f : NodeId × List F32}
      (hmeta : h.dir.vecMeta = some env) (hschema : env.volatile.schema = some schema)
      (hread : (⟨schema, env, .open h.dir.segs segSize schema.dim,
        VectorIndex.snapshotOrNew h.dir.snapshot, env.volatile.locatorDb,
        h.dir.snapshot⟩ : VectorIndex).readLive [] = .ok live) (he : e ∈ live) (hf : f ∈ live) :
      DistanceCall h (.reopen order) e.2 f.2

end VecHost

/-- A run over one directory: the metric under which the first of its vectors was inserted,
    and the last event with what it ran on. -/
structure SchemaRun where
  host : VecHost
  first : Option MetricKind
  last : Option (VecHost × VecEvent)

namespace SchemaRun

variable (A : F32Arith) (segSize : Nat)

/-- An empty directory. -/
def start : SchemaRun := ⟨.closed .empty, none, none⟩

def step (s : SchemaRun) (ev : VecEvent) : SchemaRun :=
  let host := s.host.step A segSize ev
  { host
    first := if host.table.entries = [] then none
      else s.first.or (host.schema.map VectorSchema.metric)
    last := some (s.host, ev) }

/-- The schema is the one under which everything in the directory was written. -/
structure Locked (s : SchemaRun) : Prop where
  length : ∀ schema ∈ s.host.schema, ∀ id loc, s.host.Locates id loc → loc.len = schema.dim * 4
  components : ∀ x, s.host = .opened x → ∀ id loc, s.host.Locates id loc →
    ∀ v, x.pool.vecSlice loc = .ok v ∨ x.pool.readVec loc = .ok v → v.length = x.schema.dim
  metric : s.host.table.entries ≠ [] → s.first = s.host.schema.map VectorSchema.metric
  distances : ∀ h ev, s.last = some (h, ev) → ∀ a b,
    VecHost.DistanceCall segSize h ev a b → a.length = b.length

end SchemaRun

/-! ### What the calls do to pool, table and cache -/

namespace VectorIndex

variable {n : Nat} {x : VectorIndex} (A : F32Arith)

/-- What holds of every index between calls, whatever its locators are. -/
structure Steady (n : Nat) (x : VectorIndex) : Prop where
  dim : x.pool.dim = x.schema.dim
  segSize : x.pool.segSize = n
  cursor_le : x.pool.activeCursor ≤ x.pool.segSize
  schema : x.env.volatile.schema = some x.schema

/-- The pool cuts its slots by the dimension of the schema. -/
theorem Steady.byteLen (h : x.Steady n) : x.pool.byteLen = x.schema.dim * 4 := by
  rw [VecSegmentPool.byteLen, h.dim]

/-- Moving on in the segments keeps an index steady. -/
theorem Steady.withPool (h : x.Steady n) {pool : VecSegmentPool} (hm : x.pool.Moved pool) :
    ({ x with pool } : VectorIndex).Steady n :=
  ⟨hm.dim.trans h.dim, hm.segSize.trans h.segSize, hm.cursor_le, h.schema⟩

/-- The items pass both checks and a segment can hold their vectors. -/
def Stores (n : Nat) (items : List (NodeId × List F32)) (x : VectorIndex) : Prop :=
  items ≠ [] ∧ (∀ e ∈ items, e.2.length = x.schema.dim) ∧
    (∀ e ∈ items, x.env.volatile.locatorDb.lookup e.1 = none) ∧ x.schema.dim * 4 ≤ n

instance (n : Nat) (items : List (NodeId × List F32)) (x : VectorIndex) :
    Decidable (x.Stores n items) :=
  inferInstanceAs (Decidable (_ ∧ _))

/-- The length in the locator of a new vector. -/
def slotLen (x : VectorIndex) : Nat := x.schema.dim * 4 % 2 ^ 32

/-- `append` for an index whose pool may hold anything. -/
theorem Steady.append_outcome (h : x.Steady n) (vector : List F32) :
    (vector.length = x.schema.dim ∧ x.schema.dim * 4 ≤ n ∧ ∃ loc pool,
      x.pool.append vector = (.ok loc, pool) ∧ loc.len = x.slotLen ∧ x.pool.Moved pool) ∨
    (¬(vector.length = x.schema.dim ∧ x.schema.dim * 4 ≤ n) ∧
      ∃ err pool, x.pool.append vector = (.error err, pool) ∧ x.pool.Moved pool) := by
  have hout := VecSegmentPool.append_outcome h.cursor_le vector
  rw [h.byteLen, h.dim, h.segSize] at hout
  exact hout

/-- An insert stores its vector, or leaves table and cache alone. -/
theorem Steady.insert_outcome (h : x.Steady n) (id : NodeId) (vector : List F32) :
    (x.Stores n [(id, vector)] ∧ ∃ loc pool graph, loc.len = x.slotLen ∧ x.pool.Moved pool ∧
      (x.insert A id vector).2 =
        { ({ x with pool } : VectorIndex).putLocator id loc with graph }) ∨
    (¬x.Stores n [(id, vector)] ∧ ∃ pool, x.pool.Moved pool ∧
      (x.insert A id vector).2 = { x with pool }) := by
  have hsame : x.pool.Moved x.pool := .refl h.cursor_le
  by_cases hdim : vector.length = x.schema.dim
  case neg =>
    -- the dimension is checked first
    refine Or.inr ⟨fun hs => hdim (hs.2.1 _ List.mem_cons_self), x.pool, hsame, ?_⟩
    simp only [insert, VectorSchema.validateDim, if_neg hdim]
  have hvalid : x.schema.validateDim vector = .ok () := if_pos hdim
  cases hl : x.env.volatile.locatorDb.lookup id with
  | some loc =>
    refine Or.inr ⟨fun hs => ?_, x.pool, hsame, ?_⟩
    · -- the id has a locator
      have hnone := hs.2.2.1 _ List.mem_cons_self
      rw [hl] at hnone
      cases hnone
    · simp only [insert, hvalid, hl, Option.isSome_some, ↓reduceIte]
  | none =>
    obtain ⟨-, hfit, loc, pool, happ, hlen, hm⟩ | ⟨hno, err, pool, happ, hm⟩ :=
      h.append_outcome vector
    · refine Or.inl ⟨⟨List.cons_ne_nil _ _, ?_, ?_, hfit⟩, loc, pool, ?_⟩
      · simpa using hdim
      · simpa using hl
      · -- the graph may refuse the id; its locator is stored by then
        simp only [insert, hvalid, hl, Option.isSome_none, Bool.false_eq_true, ↓reduceIte, happ]
        split
        · exact ⟨x.graph, hlen, hm, rfl⟩
        · rename_i graph _
          exact ⟨graph, hlen, hm, rfl⟩
    · refine Or.inr ⟨fun hs => hno ⟨hdim, hs.2.2.2⟩, pool, hm, ?_⟩
      simp only [insert, hvalid, hl, Option.isSome_none, Bool.false_eq_true, ↓reduceIte, happ]

/-- A locator of `id` in the table or in the cache. -/
def Located (x : VectorIndex) (id : NodeId) (loc : ValueLocator) : Prop :=
  x.env.volatile.locatorDb.lookup id = some loc ∨ x.locators.lookup id = some loc

/-- `y` comes from `x` by a call that may add locators of new vectors, if `new` holds. -/
structure Grown (n : Nat) (new : Prop) (x y : VectorIndex) : Prop where
  steady : y.Steady n
  schema : y.schema = x.schema
  located : ∀ id loc, y.Located id loc → x.Located id loc ∨ (new ∧ loc.len = x.slotLen)
  durable : y.env.durable = x.env.durable

section Grown

variable {y z : VectorIndex} {new : Prop} {pool : VecSegmentPool} {id : NodeId}
  {loc : ValueLocator}

/-- What an index does keeps the length of its slots. -/
theorem Grown.slotLen (h : Grown n new x y) : y.slotLen = x.slotLen := by
  rw [VectorIndex.slotLen, VectorIndex.slotLen, h.schema]

/-- One growth after another. -/
theorem Grown.trans (hxy : Grown n new x y) (hyz : Grown n new y z) : Grown n new x z where
  steady := hyz.steady
  schema := hyz.schema.trans hxy.schema
  located := by
    intro id loc hz
    obtain hy | ⟨hnew, hlen⟩ := hyz.located id loc hz
    · exact hxy.located id loc hy
    · exact Or.inr ⟨hnew, hlen.trans hxy.slotLen⟩
  durable := hyz.durable.trans hxy.durable

/-- A weaker account of when a vector is new. -/
theorem Grown.mono {new' : Prop} (h : Grown n new x y) (himp : new → new') : Grown n new' x y :=
  ⟨h.steady, h.schema,
    fun id loc hl => (h.located id loc hl).imp_right fun hn => ⟨himp hn.1, hn.2⟩, h.durable⟩

/-- The graph has no part in it. -/
theorem Grown.withGraph (h : Grown n new x y) (graph : NswGraph) :
    Grown n new x { y with graph } :=
  ⟨⟨h.steady.dim, h.steady.segSize, h.steady.cursor_le, h.steady.schema⟩, h.schema, h.located,
    h.durable⟩

/-- The pool alone has moved. -/
theorem Steady.grown_pool (h : x.Steady n) (hm : x.pool.Moved pool) :
    Grown n new x { x with pool } :=
  ⟨h.withPool hm, rfl, fun _ _ hl => Or.inl hl, rfl⟩

/-- A locator more, of the length of a slot. -/
theorem Steady.grown_putLocator (h : x.Steady n) (hm : x.pool.Moved pool)
    (hlen : loc.len = x.slotLen) (hnew : new) :
    Grown n new x (({ x with pool } : VectorIndex).putLocator id loc) where
  steady := ⟨hm.dim.trans h.dim, hm.segSize.trans h.segSize, hm.cursor_le, h.schema⟩
  schema := rfl
  located := by
    intro j l hl
    by_cases hj : j = id
    · -- table and cache name the new place only
      subst hj
      obtain rfl : loc = l := by
        obtain hl | hl := hl
        · exact Option.some.inj ((AList.lookup_insert _).symm.trans hl)
        · exact Option.some.inj ((AList.lookup_insert _).symm.trans hl)
      exact Or.inr ⟨hnew, hlen⟩
    · refine Or.inl (hl.imp (fun hl => ?_) fun hl => ?_)
      · exact (AList.lookup_insert_ne hj).symm.trans hl
      · exact (AList.lookup_insert_ne hj).symm.trans hl
  durable := rfl

end Grown

/-- Vectors that are stored get locators in the table. -/
def Receives (x y : VectorIndex) (id : NodeId) : Prop :=
  ∃ loc, y.env.volatile.locatorDb.lookup id = some loc ∧ loc.len = x.slotLen

/-- What an insert does to the table: one locator if it stores, none else. -/
theorem Steady.insert_grown (h : x.Steady n) (id : NodeId) (vector : List F32) :
    Grown n (x.Stores n [(id, vector)]) x (x.insert A id vector).2 ∧
      (x.Stores n [(id, vector)] → x.Receives (x.insert A id vector).2 id) := by
  obtain ⟨hs, loc, pool, graph, hlen, hm, he⟩ | ⟨hs, pool, hm, he⟩ := h.insert_outcome A id vector
  · rw [he]
    exact ⟨(h.grown_putLocator hm hlen hs).withGraph graph,
      fun _ => ⟨loc, AList.lookup_insert _, hlen⟩⟩
  · rw [he]
    exact ⟨h.grown_pool hm, fun hyes => absurd hyes hs⟩

/-- The append loop of a batch that passed the checks. -/
theorem Steady.appendItems_grown (h : x.Steady n) (hfit : x.schema.dim * 4 ≤ n)
    {items : List (NodeId × List F32)} (hdims : ∀ e ∈ items, e.2.length = x.schema.dim) :
    ∃ y, x.appendItems items = (.ok (), y) ∧ Grown n True x y ∧
      ∀ id, id ∈ items.map Prod.fst ∨ x.Receives x id → x.Receives y id := by
  -- by induction on the batch; each append meets a pool that has only moved
  induction items generalizing x with
  | nil =>
    refine ⟨x, rfl, h.grown_pool (.refl h.cursor_le), fun id hid => ?_⟩
    exact hid.resolve_left fun hn => nomatch hn
  | cons e items ih =>
    obtain ⟨id, vector⟩ := e
    -- the dimension is right and the vector fits, so the append goes through
    obtain ⟨-, -, loc, pool, happ, hlen, hm⟩ | ⟨hno, -⟩ := h.append_outcome vector
    case inr => exact absurd ⟨hdims _ List.mem_cons_self, hfit⟩ hno
    have hput : Grown n True x (({ x with pool } : VectorIndex).putLocator id loc) :=
      h.grown_putLocator hm hlen trivial
    obtain ⟨y, happs, hy, hall⟩ := ih hput.steady hfit fun e he =>
      hdims e (List.mem_cons_of_mem _ he)
    refine ⟨y, ?_, hput.trans hy, fun j hj => ?_⟩
    · simp only [appendItems, happ]
      exact happs
    · -- an id that is not in the rest keeps the locator it has by now
      apply hall
      by_cases hmem : j ∈ items.map Prod.fst
      · exact Or.inl hmem
      · refine Or.inr ?_
        by_cases hji : j = id
        · subst hji
          exact ⟨loc, AList.lookup_insert _, hlen⟩
        · obtain ⟨l, hl, hlen'⟩ := hj.resolve_left fun hin =>
            hmem ((List.mem_cons.mp hin).resolve_left hji)
          exact ⟨l, (AList.lookup_insert_ne hji).trans hl, hlen'⟩

/-- A batch that got through fits. -/
theorem Steady.fits_of_appendItems (h : x.Steady n) {items : List (NodeId × List F32)}
    (hne : items ≠ []) {y : VectorIndex} (hok : x.appendItems items = (.ok (), y)) :
    x.schema.dim * 4 ≤ n := by
  cases items with
  | nil => exact absurd rfl hne
  | cons e items =>
    obtain ⟨-, hfit, -⟩ | ⟨-, err, pool, happ, -⟩ := h.append_outcome e.2
    · exact hfit
    · simp [appendItems, happ] at hok

/-- The second loop of a batch changes the graph only. -/
theorem linkItems_frame (x : VectorIndex) (items : List (NodeId × List F32)) :
    ∃ graph, (x.linkItems A items).2 = { x with graph } := by
  induction items generalizing x with
  | nil => exact ⟨x.graph, rfl⟩
  | cons e items ih =>
    obtain ⟨id, vector⟩ := e
    unfold linkItems
    split
    · exact ⟨x.graph, rfl⟩
    · rename_i graph _
      obtain ⟨g, hg⟩ := ih { x with graph }
      exact ⟨g, hg⟩

/-- What a batch does to the table. -/
theorem Steady.insertBatch_grown (h : x.Steady n) (items : List (NodeId × List F32)) :
    Grown n (x.Stores n items) x (x.insertBatch A items).2 ∧
      (x.Stores n items → ∃ id, x.Receives (x.insertBatch A items).2 id) := by
  have hsame : Grown n (x.Stores n items) x x := h.grown_pool (.refl h.cursor_le)
  obtain ⟨⟨e, he, hne⟩, err, hr, -⟩ | ⟨hdims, e, he, hne, hr⟩ | ⟨hdims, habs, hr⟩ :=
    insertBatch_cases A x items
  · -- an item of the wrong length refuses the batch
    rw [hr]
    exact ⟨hsame, fun hs => absurd (hs.2.1 e he) hne⟩
  · -- so does an id that is stored
    rw [hr]
    exact ⟨hsame, fun hs => absurd (cell_eq_absent.mpr (hs.2.2.1 e he)) hne⟩
  cases items with
  | nil =>
    rw [hr]
    exact ⟨hsame, fun hs => absurd rfl hs.1⟩
  | cons e items =>
    by_cases hfit : x.schema.dim * 4 ≤ n
    · obtain ⟨y, happ, hy, hall⟩ := h.appendItems_grown hfit hdims
      obtain ⟨graph, hlink⟩ := linkItems_frame A y (e :: items)
      simp only [hr, happ, hlink]
      have hs : x.Stores n (e :: items) :=
        ⟨List.cons_ne_nil _ _, hdims, fun e he => cell_eq_absent.mp (habs e he), hfit⟩
      refine ⟨(hy.mono fun _ => hs).withGraph graph, fun _ => ⟨e.1, ?_⟩⟩
      exact hall e.1 (Or.inl List.mem_cons_self)
    · -- the first append panics and the transaction is rolled back
      obtain ⟨-, hyes, -⟩ | ⟨-, err, pool, happ, hm⟩ := h.append_outcome e.2
      · exact absurd hyes hfit
      simp only [hr, appendItems, happ]
      exact ⟨h.grown_pool hm, fun hs => absurd hs.2.2.2 hfit⟩

/-- The vectors of a compaction, stored again: one locator each. -/
theorem appendAll_moved {p : VecSegmentPool} (h : p.activeCursor ≤ p.segSize)
    (live : List (NodeId × List F32)) :
    p.Moved (appendAll p live).2 ∧ ∀ locs, (appendAll p live).1 = .ok locs →
      locs.map Prod.fst = live.map Prod.fst ∧ ∀ e ∈ locs, e.2.len = p.byteLen % 2 ^ 32 := by
  induction live generalizing p with
  | nil =>
    refine ⟨.refl h, fun locs hok => ?_⟩
    obtain rfl : [] = locs := Except.ok.inj hok
    exact ⟨rfl, fun e he => by cases he⟩
  -- each copy moves the pool, so the length stays that of the first
  | cons e live ih =>
    obtain ⟨id, vector⟩ := e
    obtain ⟨-, -, loc, q, happ, hlen, hm⟩ | ⟨-, err, q, happ, hm⟩ :=
      VecSegmentPool.append_outcome h vector
    -- a vector of another length, or one no segment can hold, stops the loop
    case inr =>
      simp only [appendAll, happ]
      exact ⟨hm, fun locs hok => by cases hok⟩
    obtain ⟨hmoved, hlocs⟩ := ih hm.cursor_le
    have hbyte : q.byteLen = p.byteLen := by
      rw [VecSegmentPool.byteLen, VecSegmentPool.byteLen, hm.dim]
    generalize hr : appendAll q live = r at hmoved hlocs
    obtain ⟨result, q'⟩ := r
    cases result with
    | error err =>
      simp only [appendAll, happ, hr]
      exact ⟨hm.trans hmoved, fun locs hok => by cases hok⟩
    | ok locs =>
      simp only [appendAll, happ, hr]
      obtain ⟨hkeys, hlens⟩ := hlocs locs rfl
      refine ⟨hm.trans hmoved, fun locs' hok => ?_⟩
      obtain rfl : (id, loc) :: locs = locs' := Except.ok.inj hok
      refine ⟨by simp [hkeys], fun e he => ?_⟩
      obtain rfl | he := List.mem_cons.mp he
      · exact hlen
      · exact (hlens e he).trans (by rw [hbyte])

/-- An empty table gives nothing to read. -/
theorem readLive_of_empty (h : x.env.volatile.locatorDb.entries = []) (deleted : List NodeId) :
    x.readLive deleted = .ok [] := by
  simp only [readLive, heedIter, h]
  rfl

/-- The switch of table and cache to the copies; there are some only if there were locators. -/
theorem Steady.grown_swap (h : x.Steady n) {deleted : List NodeId}
    {live : List (NodeId × List F32)} (hread : x.readLive deleted = .ok live)
    {locs : List (NodeId × ValueLocator)} {pool : VecSegmentPool}
    (happ : appendAll x.pool live = (.ok locs, pool)) (graph : NswGraph)
    (snapshot : Option Snapshot) :
    Grown n (x.env.volatile.locatorDb.entries ≠ []) x
      { x with
        pool := pool.flush
        env := x.env.write { x.env.volatile with locatorDb := newLocatorDb locs }
        locators := newLocatorDb locs
        graph := graph
        snapshot := snapshot } := by
  -- as many locators as live vectors, each of the pool's length
  obtain ⟨hm, hlocs⟩ := appendAll_moved h.cursor_le live
  rw [happ] at hm hlocs
  obtain ⟨hkeys, hlens⟩ := hlocs locs rfl
  refine ⟨⟨hm.dim.trans h.dim, hm.segSize.trans h.segSize, hm.cursor_le, h.schema⟩, rfl, ?_, rfl⟩
  -- table and cache are both built from the new locators
  intro id loc hl
  have hmem : ∃ e ∈ locs, e.1 = id ∧ e.2 = loc := by
    have hnew : (newLocatorDb locs).lookup id = some loc := hl.elim (fun hl => hl) fun hl => hl
    exact (AList.mem_of_lookup_insertAll hnew).resolve_left fun hn => nomatch hn
  obtain ⟨e, he, rfl, rfl⟩ := hmem
  -- a table without entries yields no live vector, and then no locator
  refine Or.inr ⟨fun hempty => ?_, (hlens e he).trans (by rw [h.byteLen, slotLen])⟩
  rw [readLive_of_empty hempty] at hread
  obtain rfl : [] = live := Except.ok.inj hread
  rw [List.map_eq_nil_iff.mp hkeys] at he
  exact nomatch he

/-- A compaction writes locators only if there were some. -/
theorem Steady.compact_grown (h : x.Steady n) (order : MapOrder) (avail : Option Nat) :
    Grown n (x.env.volatile.locatorDb.entries ≠ []) x (x.compact A order avail).2 := by
  have hsame : Grown n (x.env.volatile.locatorDb.entries ≠ []) x x :=
    h.grown_pool (.refl h.cursor_le)
  unfold compact
  split
  · exact hsame
  split
  · exact hsame
  rename_i live hread
  -- the disk check and the scan change nothing; the copies move the pool
  have hm := (appendAll_moved h.cursor_le live).1
  split
  · -- an append panicked on the way
    rename_i err pool happ
    rw [happ] at hm
    exact h.grown_pool hm
  · rename_i locs pool happ
    rw [happ] at hm
    dsimp only
    -- the new graph panicked, after all the appends
    split
    · exact h.grown_pool ⟨hm.dim, hm.segSize, hm.cursor_le⟩
    · exact h.grown_swap hread happ _ _

/-- A delete leaves the table. -/
theorem Steady.delete_grown (h : x.Steady n) (id : NodeId) : Grown n False x (x.delete id).2 :=
  (h.grown_pool (.refl h.cursor_le)).withGraph _

/-- So does a checkpoint. -/
theorem Steady.checkpoint_grown (h : x.Steady n) : Grown n False x x.checkpoint :=
  ⟨⟨h.dim, h.segSize, h.cursor_le, h.schema⟩, rfl, fun _ _ hl => Or.inl hl, rfl⟩

/-- A rebuild changes the graph only. -/
theorem rebuildGraphFromData_frame {y : VectorIndex} {order : MapOrder}
    (h : x.rebuildGraphFromData A order = .ok y) : ∃ graph, y = { x with graph } := by
  unfold rebuildGraphFromData at h
  cases hl : x.readLive [] with
  | error e =>
    rw [hl] at h
    exact nomatch h
  | ok live =>
    cases hb : buildGraph A x.schema.metric order live with
    | error e =>
      simp only [hl, bind, Except.bind, hb] at h
      exact nomatch h
    | ok graph =>
      simp only [hl, bind, Except.bind, hb] at h
      exact ⟨graph, (Except.ok.inj h).symm⟩

/-- An open cuts slots by the schema it has. -/
theorem steady_open (d : VecDir) {env : Stored VecEnv} {schema : VectorSchema} (segSize : Nat)
    (graph : NswGraph) (hs : env.volatile.schema = some schema) :
    (⟨schema, env, .open d.segs segSize schema.dim, graph, env.volatile.locatorDb,
      d.snapshot⟩ : VectorIndex).Steady (VecSegmentPool.sizeOf segSize) :=
  ⟨rfl, rfl, Nat.zero_le _, hs⟩

end VectorIndex

namespace VecHost

variable {n segSize : Nat} {h h' : VecHost} (A : F32Arith)

/-- What holds of every directory and every index on it. -/
structure Sound (n : Nat) (h : VecHost) : Prop where
  short : ∀ id loc, h.Locates id loc → loc.len < 2 ^ 32
  persisted : ∀ id loc, h.Locates id loc → h.schema.isSome
  steady : ∀ x, h = .opened x → x.Steady n

/-- The locators are those of vectors of the schema's dimension. -/
def Uniform (h : VecHost) : Prop :=
  ∀ schema ∈ h.schema, ∀ id loc, h.Locates id loc → loc.len = schema.dim * 4

/-! ### Opens -/

/-- What an open makes of the files `d`. -/
structure Restored (n : Nat) (d : VecDir) (schema : Option VectorSchema) (h : VecHost) :
    Prop where
  table : h.table = d.locatorDb
  located : ∀ id loc, h.Locates id loc → d.locatorDb.lookup id = some loc
  schema : h.schema = schema
  steady : ∀ x, h = .opened x → x.Steady n
  durable : ∀ env ∈ h.dir.vecMeta, env.durable = (d.vecMeta.getD (.synced ⟨none, ∅⟩)).durable

/-- What an open that failed leaves. -/
theorem restored_closed {d left : VecDir} {env : Stored VecEnv} (hm : left.vecMeta = some env)
    (hl : env.volatile.locatorDb = d.locatorDb)
    (hd : env.durable = (d.vecMeta.getD (.synced ⟨none, ∅⟩)).durable) :
    Restored n d env.volatile.schema (closed left) := by
  have htable : left.locatorDb = d.locatorDb := by
    rw [VecDir.locatorDb, hm]
    exact hl
  refine ⟨htable, fun id loc hloc => ?_, ?_, fun x hx => ?_, fun left' hleft => ?_⟩
  · rw [← htable]
    exact hloc.resolve_right fun hf => hf
  · rw [schema, VecDir.persisted, hm]
    rfl
  · cases hx
  · obtain rfl : env = left' := Option.some.inj (hm.symm.trans hleft)
    exact hd

/-- What an open gives. -/
theorem restored_opened {d : VecDir} {x : VectorIndex}
    (hl : x.env.volatile.locatorDb = d.locatorDb) (hc : x.locators = x.env.volatile.locatorDb)
    (hd : x.env.durable = (d.vecMeta.getD (.synced ⟨none, ∅⟩)).durable) (hx : x.Steady n) :
    Restored n d (some x.schema) (opened x) where
  table := hl
  located := by
    intro id loc hloc
    rw [← hl]
    exact hloc.elim (fun hloc => hloc) fun hloc => hc ▸ hloc
  schema := rfl
  steady := by
    rintro y ⟨⟩
    exact hx
  durable := by
    rintro env ⟨⟩
    exact hd

/-- The environment an open finds or creates. -/
theorem getD_vecMeta (d : VecDir) :
    (d.vecMeta.getD (.synced ⟨none, ∅⟩)).volatile = ⟨d.persisted, d.locatorDb⟩ := by
  unfold VecDir.locatorDb VecDir.persisted
  cases d.vecMeta <;> rfl

/-- `open` stores the schema it is given, also when the snapshot then does not load. -/
theorem restored_open (d : VecDir) (schema : VectorSchema) :
    Restored (VecSegmentPool.sizeOf segSize) d (some schema)
      (settle (VectorIndex.open d schema segSize)) := by
  have henv := getD_vecMeta d
  unfold VectorIndex.open
  generalize hold : d.vecMeta.getD (.synced ⟨none, ∅⟩) = env at henv
  have hl : env.volatile.locatorDb = d.locatorDb := by rw [henv]
  cases Snapshot.load d.snapshot with
  | error e =>
    show Restored _ d (env.write { env.volatile with schema := some schema }).volatile.schema
      (closed ⟨_, _, _⟩)
    exact restored_closed rfl hl (congrArg Stored.durable hold).symm
  | ok g =>
    exact restored_opened hl rfl (congrArg Stored.durable hold).symm
      (VectorIndex.steady_open d segSize _ rfl)

/-- `reopen` goes by the schema in the files. -/
theorem restored_reopen (d : VecDir) (order : MapOrder) :
    Restored (VecSegmentPool.sizeOf segSize) d d.persisted
      (settle (VectorIndex.reopen A d segSize order)) := by
  -- an absent `vec_meta` is opened as an empty one
  have henv := getD_vecMeta d
  unfold VectorIndex.reopen
  generalize hold : d.vecMeta.getD (.synced ⟨none, ∅⟩) = env at henv
  have hd := (congrArg Stored.durable hold).symm
  have hl : env.volatile.locatorDb = d.locatorDb := by rw [henv]
  have hs : env.volatile.schema = d.persisted := by rw [henv]
  rw [← hs]
  dsimp only
  -- without a stored schema the index stays closed
  cases hsome : env.volatile.schema with
  | none =>
    have hr : Restored (VecSegmentPool.sizeOf segSize) d env.volatile.schema
        (closed { d with vecMeta := some env }) := restored_closed rfl hl hd
    rw [hsome] at hr
    exact hr
  | some schema =>
    dsimp only
    split
    · -- the graph is rebuilt; a failure leaves the files
      generalize hr : VectorIndex.rebuildGraphFromData A _ order = r
      cases r with
      | error e =>
        rw [← hsome]
        exact restored_closed rfl hl hd
      | ok y =>
        obtain ⟨graph, rfl⟩ := VectorIndex.rebuildGraphFromData_frame A hr
        exact restored_opened hl rfl hd (VectorIndex.steady_open d segSize graph hsome)
    · -- the snapshot is taken as it is
      exact restored_opened hl rfl hd (VectorIndex.steady_open d segSize _ hsome)

/-- The schema in force is the one on disk. -/
theorem Sound.persisted_dir (hs : h.Sound n) : h.dir.persisted = h.schema := by
  cases h with
  | closed d => rfl
  | opened x => exact (hs.steady x rfl).schema

/-- An open keeps the length of every vector. -/
theorem Sound.restored (hs : h.Sound n) {schema : Option VectorSchema}
    (hr : Restored n h.dir schema h') (hsome : h.schema.isSome → schema.isSome) : h'.Sound n where
  short id loc hl := hs.short id loc (Or.inl (hr.located id loc hl))
  persisted id loc hl := by
    rw [hr.schema]
    exact hsome (hs.persisted id loc (Or.inl (hr.located id loc hl)))
  steady := hr.steady

/-! ### Calls on the open index -/

/-- So does what an index does. -/
theorem Sound.grown {x y : VectorIndex} {new : Prop} (hs : (opened x).Sound n)
    (hg : VectorIndex.Grown n new x y) : (opened y).Sound n where
  short := by
    intro id loc hl
    obtain hl | ⟨-, hlen⟩ := hg.located id loc hl
    · exact hs.short id loc hl
    · rw [hlen]
      exact Nat.mod_lt _ (by decide)
  persisted _ _ _ := rfl
  steady := by
    rintro z ⟨⟩
    exact hg.steady

/-- New locators are right if their length was not cut. -/
theorem Uniform.grown {x y : VectorIndex} {new : Prop} (hu : (opened x).Uniform)
    (hg : VectorIndex.Grown n new x y) (hnew : new → x.schema.dim * 4 < 2 ^ 32) :
    (opened y).Uniform := by
  rintro schema ⟨⟩ id loc hl
  rw [hg.schema]
  obtain hl | ⟨hyes, hlen⟩ := hg.located id loc hl
  · exact hu x.schema rfl id loc hl
  · rw [hlen, VectorIndex.slotLen, Nat.mod_eq_of_lt (hnew hyes)]

/-- The vectors an index reads have the dimension of its schema. -/
theorem Uniform.length_vecSlice {x : VectorIndex} (hu : (opened x).Uniform) {j : NodeId}
    {v : List F32} (hv : x.vecSlice j = .ok v) : v.length = x.schema.dim := by
  have hloc : ∃ loc, x.Located j loc ∧ x.pool.vecSlice loc = .ok v := by
    unfold VectorIndex.vecSlice at hv
    split at hv
    · rename_i loc hl
      exact ⟨loc, Or.inr hl, hv⟩
    · split at hv
      · rename_i loc hl
        exact ⟨loc, Or.inl hl, hv⟩
      · exact nomatch hv
  obtain ⟨loc, hl, hv⟩ := hloc
  rw [VecSegmentPool.length_vecSlice hv, hu x.schema rfl j loc hl]
  omega

/-- With locators of one length every vector reads back with the dimension. -/
theorem Uniform.length_readVec {x : VectorIndex} (hu : (opened x).Uniform)
    (hx : x.pool.dim = x.schema.dim) {id : NodeId} {loc : ValueLocator} (hl : x.Located id loc)
    {v : List F32} (hv : x.pool.readVec loc = .ok v) : v.length = x.schema.dim := by
  obtain hlen | hlen := VecSegmentPool.length_readVec hv
  · rw [hlen, hx]
  · rw [hlen, hu x.schema rfl id loc hl]
    omega

/-- What the scan for a new graph reads. -/
theorem Uniform.length_readLive {x : VectorIndex} (hu : (opened x).Uniform)
    (hx : x.pool.dim = x.schema.dim) {deleted : List NodeId} {live : List (NodeId × List F32)}
    (hr : x.readLive deleted = .ok live) {e : NodeId × List F32} (he : e ∈ live) :
    e.2.length = x.schema.dim := by
  obtain ⟨loc, hl, hv⟩ := VectorIndex.mem_of_readLive hr he
  exact hu.length_readVec hx (Or.inl hl) hv

/-! ### Steps that keep the lock -/

/-- Vectors of this schema have fewer than 2 ^ 32 bytes. -/
def Short (h : VecHost) : Prop := ∀ schema ∈ h.schema, schema.dim * 4 < 2 ^ 32

/-- The items reach the segments of the open index. -/
def Stores (n : Nat) (items : List (NodeId × List F32)) : VecHost → Prop
  | .closed _ => False
  | .opened x => x.Stores n items

/-- An open of a directory with vectors is given their dimension, and a vector that is stored
    has a length that fits its locator. -/
def KeepsDim (segSize : Nat) (h : VecHost) : VecEvent → Prop
  | .open schema => h.table.entries ≠ [] → ∃ old ∈ h.schema, schema.dim = old.dim
  | .insert id vector => h.Stores (VecSegmentPool.sizeOf segSize) [(id, vector)] → h.Short
  | .insertBatch items => h.Stores (VecSegmentPool.sizeOf segSize) items → h.Short
  | _ => True

/-- An open of a directory with vectors is given their dimension and metric, and a vector
    that is stored has a length that fits its locator. -/
def KeepsLock (segSize : Nat) (h : VecHost) : VecEvent → Prop
  | .open schema => h.table.entries ≠ [] →
    ∃ old ∈ h.schema, schema.dim = old.dim ∧ schema.metric = old.metric
  | .insert id vector => h.Stores (VecSegmentPool.sizeOf segSize) [(id, vector)] → h.Short
  | .insertBatch items => h.Stores (VecSegmentPool.sizeOf segSize) items → h.Short
  | _ => True

/-- A step that keeps the schema keeps its dimension. -/
theorem KeepsLock.keepsDim {ev : VecEvent} (hk : h.KeepsLock segSize ev) :
    h.KeepsDim segSize ev := by
  cases ev with
  | «open» schema =>
    intro hne
    obtain ⟨old, hmem, hdim, -⟩ := hk hne
    exact ⟨old, hmem, hdim⟩
  | insert id vector => exact hk
  | insertBatch items => exact hk
  | _ => trivial

/-- Without an index a call does nothing. -/
theorem onIndex_cases {f : VectorIndex → VectorIndex} {P : Prop}
    (hf : ∀ x, h = .opened x → ∃ new, VectorIndex.Grown n new x (f x) ∧ (new → P)) :
    h.onIndex f = h ∨ ∃ x y new, h = .opened x ∧ h.onIndex f = .opened y ∧
      VectorIndex.Grown n new x y ∧ (new → P) := by
  cases h with
  | closed d => exact Or.inl rfl
  | opened x =>
    obtain ⟨new, hg, hP⟩ := hf x rfl
    exact Or.inr ⟨x, f x, new, rfl, rfl, hg, hP⟩

/-- A table with locators shows that their length was not cut. -/
theorem Uniform.short (hu : h.Uniform) (hs : h.Sound n) (hne : h.table.entries ≠ []) :
    h.Short := by
  intro schema hschema
  obtain ⟨id, loc, hl⟩ := AList.entries_ne_nil.mp hne
  have hlen := hu schema hschema id loc (Or.inl hl)
  have hlt := hs.short id loc (Or.inl hl)
  omega

/-- Everything an event can do to a host: an open of the files, or a call on the index that
    adds locators only under conditions that the lock needs anyway. -/
theorem step_cases (hs : h.Sound (VecSegmentPool.sizeOf segSize)) (ev : VecEvent) :
    (∃ schema, ev = .open schema ∧ Restored (VecSegmentPool.sizeOf segSize) h.dir (some schema)
      (h.step A segSize ev)) ∨
    (∃ order, ev = .reopen order ∧ Restored (VecSegmentPool.sizeOf segSize) h.dir h.schema
      (h.step A segSize ev)) ∨
    h.step A segSize ev = h ∨
    (∃ x y new, h = .opened x ∧ h.step A segSize ev = .opened y ∧
      VectorIndex.Grown (VecSegmentPool.sizeOf segSize) new x y ∧
      (new → h.KeepsDim segSize ev → h.Uniform → h.Short)) := by
  cases ev with
  | «open» schema => exact Or.inl ⟨schema, rfl, restored_open h.dir schema⟩
  | reopen order =>
    have hr : Restored (VecSegmentPool.sizeOf segSize) h.dir h.dir.persisted _ :=
      restored_reopen A h.dir order
    rw [hs.persisted_dir] at hr
    exact Or.inr (Or.inl ⟨order, rfl, hr⟩)
  | searchKnn query => exact Or.inr (Or.inr (Or.inl rfl))
  | insert id vector =>
    -- the condition of the step covers what it stores
    refine Or.inr (Or.inr (onIndex_cases fun x hx => ?_))
    subst hx
    exact ⟨_, ((hs.steady x rfl).insert_grown A id vector).1, fun hn hk _ => hk hn⟩
  | insertBatch items =>
    refine Or.inr (Or.inr (onIndex_cases fun x hx => ?_))
    subst hx
    exact ⟨_, ((hs.steady x rfl).insertBatch_grown A items).1, fun hn hk _ => hk hn⟩
  | delete id =>
    refine Or.inr (Or.inr (onIndex_cases fun x hx => ?_))
    exact ⟨_, (hs.steady x hx).delete_grown id, fun hn => hn.elim⟩
  | compact order avail =>
    refine Or.inr (Or.inr (onIndex_cases fun x hx => ?_))
    subst hx
    -- copies are as short as the vectors they are made from
    exact ⟨_, (hs.steady x rfl).compact_grown A order avail, fun hn _ hu => hu.short hs hn⟩
  | checkpoint =>
    refine Or.inr (Or.inr (onIndex_cases fun x hx => ?_))
    exact ⟨_, (hs.steady x hx).checkpoint_grown, fun hn => hn.elim⟩

/-- The step lemma of the host. -/
theorem Sound.step (hs : h.Sound (VecSegmentPool.sizeOf segSize)) (ev : VecEvent) :
    (h.step A segSize ev).Sound (VecSegmentPool.sizeOf segSize) := by
  obtain ⟨schema, -, hr⟩ | ⟨order, -, hr⟩ | he | ⟨x, y, new, rfl, he, hg, -⟩ := step_cases A hs ev
  · exact hs.restored hr fun _ => rfl
  · exact hs.restored hr fun hsome => hsome
  · rw [he]
    exact hs
  · rw [he]
    exact hs.grown hg

/-- Where the dimension is kept, the locators stay uniform. -/
theorem Uniform.step (hu : h.Uniform) (hs : h.Sound (VecSegmentPool.sizeOf segSize))
    {ev : VecEvent} (hk : h.KeepsDim segSize ev) : (h.step A segSize ev).Uniform := by
  obtain ⟨schema, rfl, hr⟩ | ⟨order, -, hr⟩ | he | ⟨x, y, new, rfl, he, hg, hnew⟩ :=
    step_cases A hs ev
  · -- a locator in the files is one of the old index
    intro t ht id loc hl
    have hold := hr.located id loc hl
    obtain ⟨old, hmem, hdim⟩ := hk (AList.entries_ne_nil.mpr ⟨id, loc, hold⟩)
    rw [hr.schema] at ht
    obtain rfl : schema = t := Option.some.inj ht
    rw [hdim]
    exact hu old hmem id loc (Or.inl hold)
  · intro t ht id loc hl
    rw [hr.schema] at ht
    exact hu t ht id loc (Or.inl (hr.located id loc hl))
  · rw [he]
    exact hu
  · rw [he]
    exact hu.grown hg fun hn => hnew hn hk hu x.schema rfl

/-- Under the condition a table that is not empty keeps its metric. -/
theorem metric_step (hs : h.Sound (VecSegmentPool.sizeOf segSize)) {ev : VecEvent}
    (hk : h.KeepsLock segSize ev) (hne : h.table.entries ≠ []) :
    (h.step A segSize ev).schema.map VectorSchema.metric =
      h.schema.map VectorSchema.metric := by
  obtain ⟨schema, rfl, hr⟩ | ⟨order, -, hr⟩ | he | ⟨x, y, new, rfl, he, hg, -⟩ :=
    step_cases A hs ev
  · obtain ⟨old, hmem, -, hmetric⟩ := hk hne
    rw [hr.schema, Option.mem_def.mp hmem, Option.map_some, Option.map_some, hmetric]
  · rw [hr.schema]
  · rw [he]
  · rw [he]
    simp only [schema, hg.schema]

/-! ### Distances -/

/-- What `validate_dim` accepts has the dimension. -/
theorem length_of_validateDim {schema : VectorSchema} {v : List F32}
    (h : schema.validateDim v = .ok ()) : v.length = schema.dim := by
  unfold VectorSchema.validateDim at h
  split at h
  · assumption
  · exact nomatch h

/-- Every distance is between slices of one length, as long as the dimension is kept. -/
theorem Uniform.distances (hu : h.Uniform) (hs : h.Sound (VecSegmentPool.sizeOf segSize))
    {ev : VecEvent} (hk : h.KeepsDim segSize ev) {a b : List F32}
    (hd : DistanceCall segSize h ev a b) : a.length = b.length := by
  -- one case for each place where the source computes a distance
  cases hd with
  -- the new vector against one that is stored
  | @insert x id j _ v loc pool hvalid hnew happ hread =>
    have hx := hs.steady x rfl
    obtain ⟨hdim, hfit, loc', pool', happ', hlen, hm⟩ | ⟨-, err, pool', happ', -⟩ :=
      hx.append_outcome a
    case inr => simp [happ] at happ'
    obtain ⟨rfl, rfl⟩ : loc = loc' ∧ pool = pool' := by simpa [happ] using happ'
    have hstores : x.Stores (VecSegmentPool.sizeOf segSize) [(id, a)] :=
      ⟨List.cons_ne_nil _ _, by simpa using hdim, by simpa using hnew, hfit⟩
    have hg : VectorIndex.Grown _ True x (({ x with pool } : VectorIndex).putLocator id loc) :=
      hx.grown_putLocator hm hlen trivial
    have hv := (hu.grown hg fun _ => hk hstores x.schema rfl).length_vecSlice hread
    rw [hv, hg.schema, hdim]
  -- an item of the batch against one stored earlier or in the same batch
  | @insertBatch x y items e j v hvalid hnew happ hmem hread =>
    have hx := hs.steady x rfl
    have hdims : ∀ e ∈ items, e.2.length = x.schema.dim :=
      fun e he => length_of_validateDim (hvalid e he)
    have hne : items ≠ [] := List.ne_nil_of_mem hmem
    have hfit : x.schema.dim * 4 ≤ VecSegmentPool.sizeOf segSize :=
      hx.fits_of_appendItems hne happ
    obtain ⟨y', happ', hg, -⟩ := hx.appendItems_grown hfit hdims
    obtain rfl : y = y' := by simpa [happ] using happ'
    have hv := (hu.grown hg fun _ => hk ⟨hne, hdims, hnew, hfit⟩ x.schema rfl).length_vecSlice hread
    rw [hv, hg.schema, hdims e hmem]
  -- the query against a stored vector
  | @searchKnn x j query v hvalid hread =>
    rw [hu.length_vecSlice hread, length_of_validateDim hvalid]
  -- two live vectors, when the graph is built anew
  | @compact x order avail live e f hread he hf =>
    have hdim := (hs.steady x rfl).dim
    rw [hu.length_readLive hdim hread he, hu.length_readLive hdim hread hf]
  -- two stored vectors, when the graph is rebuilt
  | @reopen _ order env schema live e f hmeta hschema hread he hf =>
    -- the index `reopen` starts from has the locators and the schema of the files
    have hold : h.schema = some schema := by
      rw [← hs.persisted_dir, VecDir.persisted, hmeta]
      exact hschema
    have htable : h.table = env.volatile.locatorDb := by
      rw [table, VecDir.locatorDb, hmeta]
    have hux : (opened ⟨schema, env, .open h.dir.segs segSize schema.dim,
        VectorIndex.snapshotOrNew h.dir.snapshot, env.volatile.locatorDb,
        h.dir.snapshot⟩).Uniform := by
      rintro t ⟨⟩ id loc hl
      refine hu schema hold id loc (Or.inl ?_)
      rw [htable]
      exact hl.elim (fun hl => hl) fun hl => hl
    rw [hux.length_readLive rfl hread he, hux.length_readLive rfl hread hf]

end VecHost

namespace SchemaRun

variable (A : F32Arith) (segSize : Nat)

/-! ### Runs -/

variable {A segSize} {s : SchemaRun}

/-- What holds of every run. -/
structure Sound (n : Nat) (s : SchemaRun) : Prop where
  host : s.host.Sound n
  first : s.host.table.entries = [] → s.first = none

/-- The empty directory. -/
theorem sound_start (n : Nat) : start.Sound n where
  host := ⟨fun _ _ hl => hl.elim (fun hl => nomatch hl) fun hf => hf.elim,
    fun _ _ hl => hl.elim (fun hl => nomatch hl) fun hf => hf.elim, fun _ hx => nomatch hx⟩
  first _ := rfl

/-- The step lemma of the run. -/
theorem Sound.step (hs : s.Sound (VecSegmentPool.sizeOf segSize)) (ev : VecEvent) :
    (s.step A segSize ev).Sound (VecSegmentPool.sizeOf segSize) where
  host := hs.host.step A ev
  first := fun hempty => if_pos hempty

/-- Nothing is stored yet. -/
theorem locked_start : start.Locked segSize where
  length _ hschema := nomatch hschema
  components _ hx := nomatch hx
  metric hne := absurd rfl hne
  distances _ _ hlast := nomatch hlast

/-- The metric of the first vector stays the one of the schema. -/
theorem Sound.metric_step (hs : s.Sound (VecSegmentPool.sizeOf segSize))
    (hm : s.host.table.entries ≠ [] → s.first = s.host.schema.map VectorSchema.metric)
    {ev : VecEvent} (hsame : s.host.table.entries ≠ [] →
      (s.host.step A segSize ev).schema.map VectorSchema.metric =
        s.host.schema.map VectorSchema.metric)
    (hne : (s.step A segSize ev).host.table.entries ≠ []) :
    (s.step A segSize ev).first =
      (s.step A segSize ev).host.schema.map VectorSchema.metric := by
  simp only [SchemaRun.step] at hne ⊢
  rw [if_neg hne]
  by_cases hold : s.host.table.entries = []
  · -- this step stores the first vector
    rw [hs.first hold, Option.none_or]
  · rw [hm hold, hsame hold, Option.or_self]

/-- One length and one metric make the schema locked. -/
theorem locked_of_uniform (hs : s.Sound (VecSegmentPool.sizeOf segSize)) (hu : s.host.Uniform)
    (hm : s.host.table.entries ≠ [] → s.first = s.host.schema.map VectorSchema.metric)
    (hd : ∀ h ev, s.last = some (h, ev) → ∀ a b,
      VecHost.DistanceCall segSize h ev a b → a.length = b.length) : s.Locked segSize where
  length := hu
  components := by
    intro x hx id loc hl v hv
    rw [hx] at hu hl
    obtain hv | hv := hv
    · rw [VecSegmentPool.length_vecSlice hv, hu x.schema rfl id loc hl]
      omega
    · exact hu.length_readVec (hs.host.steady x hx).dim hl hv
  metric := hm
  distances := hd

/-- A locator of the right length for a vector that was just stored. -/
theorem short_of_receives {n : Nat} {new : Prop} {x y : VectorIndex} {id : NodeId}
    (hg : VectorIndex.Grown n new x y) (hr : x.Receives y id) (hu : (VecHost.opened y).Uniform) :
    (VecHost.opened x).Short := by
  rintro schema ⟨⟩
  obtain ⟨loc, hl, hlen⟩ := hr
  have hfull := hu y.schema rfl id loc (Or.inl hl)
  rw [hlen, hg.schema, VectorIndex.slotLen] at hfull
  rw [← hfull]
  exact Nat.mod_lt _ (by decide)

/-- What an open may not do shows in the state it leaves. -/
theorem Locked.keepsLock_open (hs : s.Sound (VecSegmentPool.sizeOf segSize))
    (hl : s.Locked segSize) {schema : VectorSchema}
    (h' : (s.step A segSize (.open schema)).Locked segSize) :
    s.host.KeepsLock segSize (.open schema) := by
  intro hne
  obtain ⟨id, loc, hloc⟩ := AList.entries_ne_nil.mp hne
  obtain ⟨old, hold⟩ := Option.isSome_iff_exists.mp (hs.host.persisted id loc (Or.inl hloc))
  have hr : VecHost.Restored (VecSegmentPool.sizeOf segSize) s.host.dir (some schema)
      (s.host.step A segSize (.open schema)) := VecHost.restored_open _ _
  have htable : (s.host.step A segSize (.open schema)).table = s.host.table := hr.table
  have hlen := hl.length old hold id loc (Or.inl hloc)
  have hlen' := h'.length schema hr.schema id loc (Or.inl (htable ▸ hloc))
  have hmetric := h'.metric (htable ▸ hne)
  simp only [step, htable, hne, ↓reduceIte, hl.metric hne, hold, hr.schema, Option.map_some,
    Option.or_some, Option.some.injEq] at hmetric
  exact ⟨old, hold, by omega, hmetric.symm⟩

/-- A step of a locked run stays locked exactly if it meets the condition. -/
theorem locked_step_iff (hs : s.Sound (VecSegmentPool.sizeOf segSize)) (hl : s.Locked segSize)
    (ev : VecEvent) : (s.step A segSize ev).Locked segSize ↔ s.host.KeepsLock segSize ev := by
  constructor
  · -- forwards: only an open and a stored vector can break the lock
    intro h'
    cases ev with
    | «open» schema => exact hl.keepsLock_open hs h'
    -- a stored vector shows in the length of its locator
    | insert id vector =>
      intro hstores
      have hu := h'.length
      have hsteady := hs.host.steady
      simp only [step, VecHost.step] at hu
      cases hx : s.host with
      | closed d => exact (hx ▸ hstores).elim
      | opened x =>
        rw [hx] at hu hstores hsteady
        obtain ⟨hg, hr⟩ := (hsteady x rfl).insert_grown A id vector
        exact short_of_receives hg (hr hstores) hu
    | insertBatch items =>
      intro hstores
      have hu := h'.length
      have hsteady := hs.host.steady
      simp only [step, VecHost.step] at hu
      cases hx : s.host with
      | closed d => exact (hx ▸ hstores).elim
      | opened x =>
        rw [hx] at hu hstores hsteady
        obtain ⟨hg, hr⟩ := (hsteady x rfl).insertBatch_grown A items
        obtain ⟨id, hid⟩ := hr hstores
        exact short_of_receives hg hid hu
    | _ => trivial
  · -- backwards: lengths and metric stay, and with them all distances are of equal lengths
    intro hk
    have hu := VecHost.Uniform.step A hl.length hs.host hk.keepsDim
    have hsame := VecHost.metric_step A hs.host hk
    refine locked_of_uniform (hs.step ev) hu (hs.metric_step hl.metric hsame) ?_
    rintro h e ⟨⟩ a b hd
    exact VecHost.Uniform.distances hl.length hs.host hk.keepsDim hd

/-- A run keeps the schema locked in every state it reaches if and only if each of its opens
    of a directory with vectors is given their dimension and metric and each vector it
    stores is shorter than 2 ^ 32 bytes. -/
theorem locked_iff (A : F32Arith) (segSize : Nat) (evs : List VecEvent) :
    (∀ pre, pre <+: evs → (Run.exec (step A segSize) start pre).Locked segSize) ↔
      Run.Guarded (step A segSize) (fun s ev => s.host.KeepsLock segSize ev) start evs := by
  have hinv : ∀ s ev, Sound (VecSegmentPool.sizeOf segSize) s →
      (step A segSize s ev).Sound (VecSegmentPool.sizeOf segSize) := fun _ ev hs => hs.step ev
  have hgood : ∀ s ev, Sound (VecSegmentPool.sizeOf segSize) s → s.Locked segSize →
      ((step A segSize s ev).Locked segSize ↔ s.host.KeepsLock segSize ev) :=
    fun _ ev hs hl => locked_step_iff hs hl ev
  exact (Run.guarded_iff hinv hgood (sound_start _) locked_start).symm

/-- A second open with another dimension and metric is taken as it is: the stored vector has
    one component and the schema two.  The new graph is empty, so the search computes no
    distance; the pair that breaks the lock is one it could be asked for. -/
theorem open_replaces_schema :
    let s := Run.exec (step zeroArith 8) start
      [.open (.new 1 .l2), .insert 1 [0], .open (.new 2 .cosine), .searchKnn [0, 0]]
    (∃ x, s.host = .opened x ∧ x.schema = .new 2 .cosine ∧ x.vecSlice 1 = .ok [0]) ∧
      ¬s.Locked 8 := by
  intro s
  have hx : ∃ x, s.host = .opened x ∧ s.last = some (.opened x, .searchKnn [0, 0]) ∧
      x.schema = .new 2 .cosine ∧ x.vecSlice 1 = .ok [0] := ⟨_, rfl, rfl, rfl, by decide +kernel⟩
  obtain ⟨x, hhost, hlast, hschema, hread⟩ := hx
  refine ⟨⟨x, hhost, hschema, hread⟩, fun hl => ?_⟩
  have hvalid : x.schema.validateDim [0, 0] = .ok () := by
    rw [hschema]
    rfl
  have hlen := hl.distances _ _ hlast _ _ (.searchKnn hvalid hread)
  exact absurd hlen (by decide)

end SchemaRun

end FusionStore
