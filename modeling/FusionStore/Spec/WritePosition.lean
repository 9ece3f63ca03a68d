import FusionStore.Native.CompactSteps
import FusionStore.Spec.SchemaLock
import FusionStore.Spec.SnapshotSafe

/-!
# The write position of a vector directory

An index appends at one position of its segments.  Whatever its locators name lies behind
that position (`Anchored`), so no append changes what a locator shows
(`Advances.vecSlice`).  A run here is any sequence of opens, calls, kills inside calls, power
losses and removals of segment files.  The property holds in all of them as long as no
removal takes the file that is being written (`anchored_of_guarded`): a directory without
that file gives its number away again at the next open, and the new file is written where
old locators point.
-/

namespace FusionStore

open SegMem

/-- An open or a call, a removal of segment files by the open index, a kill after some
    appends of `insert` or `insert_batch`, a kill inside `compact`, or a power loss. -/
inductive DirEvent where
  | call (ev : VecEvent)
  | reclaim (safe : Nat → Bool) (segIds : List Nat)
  | killAppend (items : List (NodeId × List F32))
  | killCompact (order : MapOrder) (avail : Option Nat) (point : CompactPoint)
  | powerLoss

namespace VecHost

/-- One event; a power loss ends the process, too. -/
def dirStep (A : F32Arith) (segSize : Nat) (h : VecHost) : DirEvent → VecHost
  | .call ev => h.step A segSize ev
  | .reclaim safe segIds => h.onIndex fun x => (x.reclaimSegments safe segIds).2
  | .killAppend items =>
    match h with
    | .closed d => .closed d
    -- the transaction was not committed: only the segments have changed
    | .opened x => .closed { x.dir with segs := (x.appendItems items).2.pool.dir }
  | .killCompact order avail point =>
    match h with
    | .closed d => .closed d
    | .opened x =>
      match x.compactDir A order avail point with
      | none => .opened x
      | some d => .closed d
  | .powerLoss => .closed h.dir.powerLoss

/-- `reclaim_segments` does not remove the file that is being written. -/
def Spares : VecHost → DirEvent → Prop
  | .opened x, .reclaim safe segIds =>
    ∀ segId ∈ segIds, safe segId = true → segId ≠ x.pool.activeId
  | _, _ => True

instance : ∀ (h : VecHost) (ev : DirEvent), Decidable (h.Spares ev)
  | .opened x, .reclaim safe segIds =>
    inferInstanceAs (Decidable (∀ segId ∈ segIds, safe segId = true → segId ≠ x.pool.activeId))
  | .opened _, .call _ => .isTrue trivial
  | .opened _, .killAppend _ => .isTrue trivial
  | .opened _, .killCompact _ _ _ => .isTrue trivial
  | .opened _, .powerLoss => .isTrue trivial
  | .closed _, _ => .isTrue trivial

end VecHost

/-! ### The pool -/

namespace VecSegmentPool

variable {p q r : VecSegmentPool}

/-- What `vec_slice` reads for `loc` lies behind the write position. -/
def Behind (p : VecSegmentPool) (loc : ValueLocator) : Prop :=
  Before loc.segId loc.offset (loc.len / 4 * 4) p.activeId p.activeCursor

/-- A locator behind the cursor is not in a later segment. -/
theorem Behind.segId_le {loc : ValueLocator} (h : p.Behind loc) : loc.segId ≤ p.activeId := by
  unfold Behind Before at h
  omega

/-- `vec_slice` goes by the segment size, by whether the file is there, and by the bytes. -/
theorem vecSlice_congr {loc : ValueLocator} (hsize : q.segSize = p.segSize)
    (hfile : (loc.segId = q.activeId ∨ loc.segId ∈ q.dir.files) ↔
      (loc.segId = p.activeId ∨ loc.segId ∈ p.dir.files))
    (hread : q.dir.mem.volatile.read loc.segId loc.offset (loc.len / 4 * 4) =
      p.dir.mem.volatile.read loc.segId loc.offset (loc.len / 4 * 4)) :
    q.vecSlice loc = p.vecSlice loc := by
  have hmissing : (loc.segId ≠ q.activeId ∧ loc.segId ∉ q.dir.files) ↔
      (loc.segId ≠ p.activeId ∧ loc.segId ∉ p.dir.files) := by
    rw [← not_or, ← not_or, hfile]
  simp only [vecSlice, hmissing, hsize, hread]

/-- `q` comes from `p` by appends and rotations: what was behind the write position still
    is, and shows the same. -/
structure Advances (p q : VecSegmentPool) : Prop where
  moved : p.Moved q
  writer : q.writer.Inv
  active : p.activeId ≤ q.activeId
  behind : ∀ loc, p.Behind loc → q.Behind loc
  vecSlice : ∀ loc, p.Behind loc → q.vecSlice loc = p.vecSlice loc

/-- The pool stayed where it was. -/
theorem Advances.refl (h : p.writer.Inv) : p.Advances p :=
  ⟨.refl h.cursor_le, h, Nat.le_refl _, fun _ hb => hb, fun _ _ => rfl⟩

/-- One advance after another. -/
theorem Advances.trans (hpq : p.Advances q) (hqr : q.Advances r) : p.Advances r where
  moved := hpq.moved.trans hqr.moved
  writer := hqr.writer
  active := hpq.active.trans hqr.active
  behind loc hb := hqr.behind loc (hpq.behind loc hb)
  vecSlice loc hb := (hqr.vecSlice loc (hpq.behind loc hb)).trans (hpq.vecSlice loc hb)

/-- A rotation creates a file behind all others. -/
theorem advances_sealAndRotate (h : p.writer.Inv) : p.Advances p.sealAndRotate where
  moved := ⟨rfl, rfl, Nat.zero_le _⟩
  writer := Writer.inv_rotate h
  active := Nat.le_succ _
  behind loc hb := Or.inl (Nat.lt_succ_of_le hb.segId_le)
  vecSlice := by
    intro loc hb
    have hle := hb.segId_le
    have hactive : p.activeId ∈ p.dir.files := h.mem
    have hfiles : loc.segId ∈ p.sealAndRotate.dir.files ↔
        loc.segId = p.activeId + 1 ∨ loc.segId ∈ p.dir.files := SegDir.mem_createSeg
    refine vecSlice_congr rfl ?_ ?_
    · -- the active segment counts as a file in either case
      rw [hfiles, show p.sealAndRotate.activeId = p.activeId + 1 from rfl]
      constructor
      · rintro (hs | hs | hs)
        · omega
        · omega
        · exact Or.inr hs
      · rintro (hs | hs)
        · exact Or.inr (Or.inr (hs ▸ hactive))
        · exact Or.inr (Or.inr hs)
    · -- the new file is cleared; a file of that number does not exist yet
      show ((p.dir.flushSeg p.activeId).createSeg (p.activeId + 1)).mem.volatile.read _ _ _ = _
      unfold SegDir.createSeg
      split
      · rfl
      · exact read_clear_of_ne (by omega)

/-- A vector is stored at the write position. -/
theorem advances_store (h : p.writer.Inv) {vector : List F32}
    (hroom : p.activeCursor + p.byteLen ≤ p.segSize) :
    p.Advances { p with
      dir := p.dir.store p.activeId p.activeCursor (encodeF32s vector)
      activeCursor := p.activeCursor + p.byteLen } where
  moved := ⟨rfl, rfl, hroom⟩
  writer := ⟨hroom, h.mem, h.le⟩
  active := Nat.le_refl _
  behind _ hb := hb.mono (Or.inr ⟨rfl, Nat.le_add_right _ _⟩)
  vecSlice _ hb := vecSlice_congr rfl Iff.rfl (read_write_of_before hb)

/-- Whatever `append` returns, the pool has advanced; a locator it returns is behind the new
    position, also when its offset and length were cut to 32 bits. -/
theorem append_advances (h : p.writer.Inv) (vector : List F32) :
    p.Advances (p.append vector).2 ∧
      ∀ loc, (p.append vector).1 = .ok loc → (p.append vector).2.Behind loc := by
  unfold append
  -- the rotation, if there was one, only moves the position on
  have hroom : p.Advances (if p.byteLen > p.remaining then p.sealAndRotate else p) := by
    split
    · exact advances_sealAndRotate h
    · exact .refl h
  generalize (if p.byteLen > p.remaining then p.sealAndRotate else p) = q at hroom
  dsimp only
  -- the two refusals store no locator
  split
  · exact ⟨hroom, fun loc hok => by cases hok⟩
  rename_i hfit
  split
  · exact ⟨hroom, fun loc hok => by cases hok⟩
  refine ⟨hroom.trans (advances_store hroom.writer (Nat.not_lt.mp hfit)), fun loc hok => ?_⟩
  obtain rfl := Except.ok.inj hok
  -- a cut offset lies before the true one
  have hoff := Nat.mod_le q.activeCursor (2 ^ 32)
  have hlen := Nat.mod_le q.byteLen (2 ^ 32)
  refine Or.inr ⟨rfl, ?_⟩
  show q.activeCursor % 2 ^ 32 + q.byteLen % 2 ^ 32 / 4 * 4 ≤ q.activeCursor + q.byteLen
  omega

/-- A flush moves nothing. -/
theorem advances_flush (h : p.writer.Inv) : p.Advances p.flush :=
  ⟨⟨rfl, rfl, h.cursor_le⟩, ⟨h.cursor_le, h.mem, h.le⟩, Nat.le_refl _, fun _ hb => hb,
    fun _ _ => rfl⟩

end VecSegmentPool

/-! ### Calls on the open index -/

/-- The locators of the table name segments below `k`. -/
def VecEnv.Under (env : VecEnv) (k : Nat) : Prop :=
  ∀ id loc, env.locatorDb.lookup id = some loc → loc.segId < k

/-- A later position. -/
theorem VecEnv.Under.mono {env : VecEnv} {k l : Nat} (h : env.Under k) (hle : k ≤ l) :
    env.Under l :=
  fun id loc hl => Nat.lt_of_lt_of_le (h id loc hl) hle

namespace VectorIndex

variable {n : Nat} {x y : VectorIndex} (A : F32Arith)

/-- What holds of every index between calls: its locators name what lies behind the write
    position, and its graph is sound. -/
structure Anchored (n : Nat) (x : VectorIndex) : Prop where
  steady : x.Steady n
  writer : x.pool.writer.Inv
  cache : x.locators = x.env.volatile.locatorDb
  behind : ∀ id loc, x.env.volatile.locatorDb.lookup id = some loc → x.pool.Behind loc
  durable : x.env.durable.Under (x.pool.activeId + 1)
  graph : x.graph.Inv

/-- The pool has moved on: old locators stay behind it. -/
theorem Anchored.withPool (h : x.Anchored n) {pool : VecSegmentPool}
    (ha : x.pool.Advances pool) : ({ x with pool } : VectorIndex).Anchored n where
  steady := h.steady.withPool ha.moved
  writer := ha.writer
  cache := h.cache
  behind id loc hl := ha.behind loc (h.behind id loc hl)
  durable := h.durable.mono (Nat.succ_le_succ ha.active)
  graph := h.graph

/-- Another graph over the same vectors. -/
theorem Anchored.withGraph (h : x.Anchored n) {graph : NswGraph} (hg : graph.Inv) :
    ({ x with graph } : VectorIndex).Anchored n :=
  ⟨⟨h.steady.dim, h.steady.segSize, h.steady.cursor_le, h.steady.schema⟩, h.writer, h.cache,
    h.behind, h.durable, hg⟩

/-- A locator more, of what was just stored. -/
theorem Anchored.putLocator (h : x.Anchored n) (id : NodeId) {loc : ValueLocator}
    (hb : x.pool.Behind loc) : (x.putLocator id loc).Anchored n where
  steady := ⟨h.steady.dim, h.steady.segSize, h.steady.cursor_le, h.steady.schema⟩
  writer := h.writer
  cache := by simp only [VectorIndex.putLocator, h.cache, Stored.volatile_write]
  behind := by
    intro j l hl
    by_cases hj : j = id
    · subst hj
      obtain rfl : loc = l := Option.some.inj ((AList.lookup_insert _).symm.trans hl)
      exact hb
    · exact h.behind j l ((AList.lookup_insert_ne hj).symm.trans hl)
  durable := h.durable
  graph := h.graph

/-- A vector in its segment, with a locator, and without a node. -/
theorem Anchored.append (h : x.Anchored n) (id : NodeId) {vector : List F32} {loc : ValueLocator}
    {pool : VecSegmentPool} (happ : x.pool.append vector = (.ok loc, pool)) :
    x.pool.Advances pool ∧ (({ x with pool } : VectorIndex).putLocator id loc).Anchored n := by
  obtain ⟨ha, hb⟩ := VecSegmentPool.append_advances h.writer vector
  rw [happ] at ha hb
  exact ⟨ha, (h.withPool ha).putLocator id (hb loc rfl)⟩

/-- An append that fails has moved at most. -/
theorem Anchored.append_error (h : x.Anchored n) {vector : List F32} {err : StoreError}
    {pool : VecSegmentPool} (happ : x.pool.append vector = (.error err, pool)) :
    ({ x with pool } : VectorIndex).Anchored n := by
  have ha := (VecSegmentPool.append_advances h.writer vector).1
  rw [happ] at ha
  exact h.withPool ha

/-- The invariant through an insert. -/
theorem Anchored.insert (h : x.Anchored n) (id : NodeId) (vector : List F32) :
    (x.insert A id vector).2.Anchored n := by
  unfold VectorIndex.insert
  -- the two refusals leave the index as it is
  split
  · exact h
  split
  · exact h
  split
  · rename_i err pool happ
    -- a panic in the append leaves what the pool has done
    exact h.append_error happ
  · rename_i loc pool happ
    obtain ⟨-, hput⟩ := h.append id happ
    dsimp only
    generalize ({ x with pool } : VectorIndex).putLocator id loc = y at hput
    -- a refusal by the graph comes when the locator is stored already
    obtain ⟨-, he⟩ | ⟨-, graph, he, hg, -⟩ :=
      NswGraph.insert_cases hput.graph id (y.distTo A vector)
    · rw [he]
      exact hput
    · rw [he]
      exact hput.withGraph hg

/-- What the append loop of a batch leaves of an index. -/
structure Appended (n : Nat) (ids : List NodeId) (x y : VectorIndex) : Prop where
  anchored : y.Anchored n
  pool : x.pool.Advances y.pool
  schema : y.schema = x.schema
  graph : y.graph = x.graph
  same : ∀ j, j ∉ ids →
    y.env.volatile.locatorDb.lookup j = x.env.volatile.locatorDb.lookup j
  stored : ∀ j ∈ ids, (y.env.volatile.locatorDb.lookup j).isSome

/-- The first loop of a batch: every locator it gives is behind the cursor. -/
theorem Anchored.appendItems (h : x.Anchored n) {items : List (NodeId × List F32)}
    (hok : x.appendItems items = (.ok (), y)) : Appended n (items.map Prod.fst) x y := by
  induction items generalizing x with
  | nil =>
    obtain rfl : x = y := congrArg Prod.snd hok
    exact ⟨h, .refl h.writer, rfl, rfl, fun _ _ => rfl, fun j hj => by cases hj⟩
  | cons e items ih =>
    obtain ⟨id, vector⟩ := e
    unfold VectorIndex.appendItems at hok
    split at hok
    · cases congrArg Prod.fst hok
    rename_i loc pool happ
    obtain ⟨ha, hput⟩ := h.append id happ
    -- the loop goes on from an index that holds this item
    have hrest := ih hput hok
    have hself : (({ x with pool } : VectorIndex).putLocator id loc).env.volatile.locatorDb.lookup
        id = some loc := AList.lookup_insert _
    refine ⟨hrest.anchored, ha.trans hrest.pool, hrest.schema, hrest.graph, ?_, ?_⟩
    · -- an id outside the rest has the locator it has by now
      intro j hj
      rw [List.map_cons, List.mem_cons, not_or] at hj
      rw [hrest.same j hj.2]
      exact AList.lookup_insert_ne hj.1
    · intro j hj
      by_cases hmem : j ∈ items.map Prod.fst
      · exact hrest.stored j hmem
      · obtain rfl : j = id := by simpa [hmem] using hj
        rw [hrest.same j hmem, hself]
        rfl

/-- The graph loop: it adds nodes to a sound graph, and the only thing that stops it is an
    id that has a node. -/
theorem linkItems_cases (hg : x.graph.Inv) (items : List (NodeId × List F32)) :
    ∃ graph, (x.linkItems A items).2 = { x with graph } ∧ graph.Inv ∧
      (∀ j, x.graph.flag j ≠ none → graph.flag j = x.graph.flag j) ∧
      ((x.linkItems A items).1 = .ok () ∨
        ∃ id, (x.linkItems A items).1 = .error (.duplicateVector id)) := by
  induction items generalizing x with
  | nil => exact ⟨x.graph, rfl, hg, fun _ _ => rfl, Or.inl rfl⟩
  | cons e items ih =>
    obtain ⟨id, vector⟩ := e
    unfold linkItems
    obtain ⟨-, he⟩ | ⟨hf, g, he, hgi, -, hgo⟩ := NswGraph.insert_cases hg id (x.distTo A vector)
    · rw [he]
      exact ⟨x.graph, rfl, hg, fun _ _ => rfl, Or.inr ⟨id, rfl⟩⟩
    · rw [he]
      obtain ⟨graph, hy, hinv, hkeep, hres⟩ := ih (x := { x with graph := g }) hgi
      refine ⟨graph, hy, hinv, fun j hj => ?_, hres⟩
      -- the new node is not one of the old ones
      have hne : j ≠ id := fun heq => hj (heq ▸ hf)
      have hsame := hgo j hne
      rw [hkeep j (by rw [hsame]; exact hj)]
      exact hsame

/-- Whatever the append loop returns, its pool has advanced. -/
theorem appendItems_advances (h : x.pool.writer.Inv) (items : List (NodeId × List F32)) :
    x.pool.Advances (x.appendItems items).2.pool := by
  induction items generalizing x with
  | nil => exact .refl h
  | cons e items ih =>
    obtain ⟨id, vector⟩ := e
    have ha := (VecSegmentPool.append_advances h vector).1
    unfold appendItems
    split
    · rename_i err pool happ
      rw [happ] at ha
      exact ha
    · rename_i loc pool happ
      rw [happ] at ha
      exact ha.trans (ih (x := ({ x with pool } : VectorIndex).putLocator id loc) ha.writer)

/-- The invariant through a batch, whichever loop fails. -/
theorem Anchored.insertBatch (h : x.Anchored n) (items : List (NodeId × List F32)) :
    (x.insertBatch A items).2.Anchored n := by
  -- a wrong length, a stored id, or the writes
  obtain ⟨-, err, hr, -⟩ | ⟨-, e, -, -, hr⟩ | ⟨hdims, -, hr⟩ := insertBatch_cases A x items
  · rw [hr]
    exact h
  · rw [hr]
    exact h
  by_cases hfit : x.schema.dim * 4 ≤ n
  · -- all items are stored, then linked
    obtain ⟨y, happ, -⟩ := h.steady.appendItems_grown hfit hdims
    have hy := (h.appendItems happ).anchored
    obtain ⟨graph, hlink, hg, -⟩ := linkItems_cases A hy.graph items
    simp only [hr, happ, hlink]
    exact hy.withGraph hg
  · cases items with
    | nil =>
      rw [hr]
      exact h
    | cons e items =>
      -- the first append panics, before anything is in the cache
      obtain ⟨-, hyes, -⟩ | ⟨-, err, pool, happ, -⟩ := h.steady.append_outcome e.2
      · exact absurd hyes hfit
      simp only [hr, VectorIndex.appendItems, happ]
      exact h.append_error happ

/-- The copies of a compaction are appended like any other vector. -/
theorem appendAll_advances {p : VecSegmentPool} (h : p.writer.Inv)
    (live : List (NodeId × List F32)) :
    p.Advances (appendAll p live).2 ∧ ∀ locs, (appendAll p live).1 = .ok locs →
      ∀ e ∈ locs, (appendAll p live).2.Behind e.2 := by
  induction live generalizing p with
  | nil =>
    refine ⟨.refl h, fun locs hok e he => ?_⟩
    obtain rfl : [] = locs := Except.ok.inj hok
    cases he
  | cons e live ih =>
    obtain ⟨id, vector⟩ := e
    obtain ⟨ha, hb⟩ := VecSegmentPool.append_advances h vector
    simp only [appendAll]
    cases happ : p.append vector with
    | mk result q =>
      rw [happ] at ha hb
      cases result with
      -- the loop stops here
      | error err => exact ⟨ha, fun locs hok => by cases hok⟩
      | ok loc =>
        -- the rest is appended from where this vector ends
        obtain ⟨hrest, hlocs⟩ := ih ha.writer
        dsimp only
        generalize hr : appendAll q live = r at hrest hlocs
        obtain ⟨result, q'⟩ := r
        cases result with
        | error err => exact ⟨ha.trans hrest, fun locs hok => by cases hok⟩
        | ok locs =>
          refine ⟨ha.trans hrest, fun locs' hok f hf => ?_⟩
          obtain rfl : (id, loc) :: locs = locs' := Except.ok.inj hok
          obtain rfl | hf := List.mem_cons.mp hf
          · exact hrest.behind loc (hb loc rfl)
          · exact hlocs locs rfl f hf

/-- A graph that is built anew is well formed. -/
theorem inv_of_buildGraph {metric : MetricKind} {order : MapOrder}
    {live : List (NodeId × List F32)} {g : NswGraph}
    (h : buildGraph A metric order live = .ok g) : g.Inv := by
  unfold buildGraph at h
  exact Except.foldlM_ok (fun _ g => g.Inv) (fun _ g e g' hg hins => hg.insert hins) [] h
    NswGraph.inv_new

/-- The switch of the table to the copies: it names nothing else. -/
theorem Anchored.swap (h : x.Anchored n) {live : List (NodeId × List F32)}
    {locs : List (NodeId × ValueLocator)} {pool : VecSegmentPool}
    (happ : appendAll x.pool live = (.ok locs, pool)) (snapshot : Option Snapshot)
    {graph : NswGraph} (hg : graph.Inv) :
    ({ x with
        pool := pool.flush
        env := x.env.write { x.env.volatile with locatorDb := newLocatorDb locs }
        locators := newLocatorDb locs
        graph := graph
        snapshot := snapshot } : VectorIndex).Anchored n := by
  obtain ⟨ha, hlocs⟩ := appendAll_advances h.writer live
  rw [happ] at ha hlocs
  have hflush := VecSegmentPool.advances_flush ha.writer
  have hpool := h.withPool (ha.trans hflush)
  refine ⟨⟨hpool.steady.dim, hpool.steady.segSize, hpool.steady.cursor_le,
    hpool.steady.schema⟩, hpool.writer, rfl, ?_, hpool.durable, hg⟩
  intro id loc hl
  obtain ⟨e, he, -, rfl⟩ := (AList.mem_of_lookup_insertAll hl).resolve_left fun hn => by cases hn
  exact hflush.behind _ (hlocs locs rfl e he)

/-- The invariant through a compaction. -/
theorem Anchored.compact (h : x.Anchored n) (order : MapOrder) (avail : Option Nat) :
    (x.compact A order avail).2.Anchored n := by
  unfold VectorIndex.compact
  split
  · exact h
  split
  · exact h
  rename_i live hread
  have ha := (appendAll_advances h.writer live).1
  split
  · rename_i err pool happ
    rw [happ] at ha
    exact h.withPool ha
  · rename_i locs pool happ
    rw [happ] at ha
    dsimp only
    split
    · exact h.withPool (ha.trans (VecSegmentPool.advances_flush ha.writer))
    · rename_i graph hbuild
      exact h.swap happ _ (inv_of_buildGraph A hbuild)

/-- The invariant through a rebuild. -/
theorem Anchored.rebuildGraphFromData (h : x.Anchored n) {order : MapOrder}
    (hr : x.rebuildGraphFromData A order = .ok y) : y.Anchored n := by
  obtain ⟨live, -, hr⟩ := Except.bind_ok hr
  obtain ⟨graph, hbuild, hy⟩ := Except.bind_ok hr
  obtain rfl := Except.ok.inj hy
  exact h.withGraph (inv_of_buildGraph A hbuild)

/-- A delete touches no segment. -/
theorem Anchored.delete (h : x.Anchored n) (id : NodeId) : (x.delete id).2.Anchored n :=
  h.withGraph (NswGraph.delete_spec h.graph id).1

/-- A checkpoint writes the position down. -/
theorem Anchored.checkpoint (h : x.Anchored n) : x.checkpoint.Anchored n := by
  have hpool := h.withPool (VecSegmentPool.advances_flush h.writer)
  exact ⟨⟨hpool.steady.dim, hpool.steady.segSize, hpool.steady.cursor_le, hpool.steady.schema⟩,
    hpool.writer, hpool.cache, hpool.behind, hpool.durable, hpool.graph⟩

/-- Files behind the active one may go: a locator into a missing file stays where it is. -/
theorem Anchored.reclaimSegments (h : x.Anchored n) {safe : Nat → Bool} {segIds : List Nat}
    (hspare : ∀ segId ∈ segIds, safe segId = true → segId ≠ x.pool.activeId) :
    (x.reclaimSegments safe segIds).2.Anchored n := by
  induction segIds generalizing x with
  | nil => exact h
  | cons segId segIds ih =>
    unfold VectorIndex.reclaimSegments
    have hrest := fun s hs => hspare s (List.mem_cons_of_mem _ hs)
    split
    · rename_i hsafe
      have hne := hspare segId List.mem_cons_self hsafe
      refine ih ?_ hrest
      refine ⟨⟨h.steady.dim, h.steady.segSize, h.steady.cursor_le, h.steady.schema⟩,
        ⟨h.writer.cursor_le, ?_, ?_⟩, h.cache, h.behind, h.durable, h.graph⟩
      · exact List.mem_filter.mpr ⟨h.writer.mem, decide_eq_true (Ne.symm hne)⟩
      · exact fun f hf => h.writer.le f (List.mem_of_mem_filter hf)
    · exact ih h hrest

end VectorIndex

/-! ### Directories -/

/-- The locators of both copies of the table name segments below the next one. -/
def VecDir.Anchored (d : VecDir) : Prop :=
  ∀ env ∈ d.vecMeta, env.volatile.Under d.segs.nextSegId ∧ env.durable.Under d.segs.nextSegId

/-- What the process leaves: all locators are behind the recorded cursor or in a segment before
    the last. -/
theorem VectorIndex.Anchored.dir {n : Nat} {x : VectorIndex} (h : x.Anchored n) :
    x.dir.Anchored := by
  rintro env ⟨⟩
  have hlt : x.pool.activeId < x.pool.dir.nextSegId := SegDir.lt_nextSegId h.writer.mem
  -- the file being written is there, so the next number is above it
  refine ⟨fun id loc hl => ?_, h.durable.mono hlt⟩
  exact Nat.lt_of_le_of_lt (h.behind id loc hl).segId_le hlt

/-- A kill at any point of a compaction. -/
theorem VectorIndex.Anchored.compactDir {n : Nat} {x : VectorIndex} (A : F32Arith)
    (h : x.Anchored n) {order : MapOrder} {avail : Option Nat} {point : CompactPoint} {d : VecDir}
    (hd : x.compactDir A order avail point = some d) : d.Anchored := by
  unfold VectorIndex.compactDir at hd
  split at hd
  · -- the disk check refused
    cases hd
  split at hd
  · -- the scan failed
    cases hd
  rename_i live hread
  cases point with
  | appended k =>
    -- before the switch only the pool has moved
    dsimp only at hd
    split at hd
    · obtain rfl := Option.some.inj hd
      exact (h.withPool (VectorIndex.appendAll_advances h.writer (live.take k)).1).dir
    · cases hd
  | swapped =>
    dsimp only at hd
    split at hd
    · -- an append failed, so the switch was not reached
      cases hd
    rename_i locs pool happ
    split at hd
    · cases hd
    · -- the old snapshot stays; it has no part in the property
      rename_i graph hbuild
      obtain rfl := Option.some.inj hd
      exact (h.swap happ x.snapshot (VectorIndex.inv_of_buildGraph A hbuild)).dir
  | persisted =>
    -- the whole call, of which only the return is missing
    have hy := h.compact A order avail
    dsimp only at hd
    split at hd
    · cases hd
    · rename_i live' y hc
      rw [hc] at hy
      obtain rfl := Option.some.inj hd
      exact hy.dir

/-- A power loss takes table and cursor back together with the files, never the files alone. -/
theorem VecDir.Anchored.powerLoss {d : VecDir} (h : d.Anchored) : d.powerLoss.Anchored := by
  intro env hmem
  obtain ⟨old, hold, rfl⟩ := Option.mem_map.mp hmem
  exact ⟨(h old hold).2, (h old hold).2⟩

/-- `restore_entry_point` looks the id up before it sets it. -/
theorem NswGraph.isSome_of_restoreEntryPoint {g : NswGraph} {id ep : NodeId}
    (hnone : g.entryPoint = none) (h : (g.restoreEntryPoint id).entryPoint = some ep) :
    ((g.restoreEntryPoint id).nodes.lookup ep).isSome := by
  unfold NswGraph.restoreEntryPoint at h ⊢
  cases hl : g.nodes.lookup id with
  | none => simp [hl, hnone] at h
  | some node =>
    obtain rfl : id = ep := by simpa [hl] using h
    simp [hl]

/-- A graph from a snapshot file has been checked. -/
theorem Snapshot.inv_of_load {s : Option Snapshot} {g : NswGraph}
    (h : Snapshot.load s = .ok (some g)) : g.Inv := by
  cases s with
  | none => simp [Snapshot.load] at h
  | some s =>
    unfold Snapshot.load at h
    dsimp only at h
    split at h
    · -- a file without nodes
      obtain rfl : NswGraph.new = g := by simpa using h
      exact NswGraph.inv_new
    obtain ⟨_, hvalid, hg⟩ := Except.bind_ok h
    obtain rfl : s.restore = g := by simpa using hg
    obtain ⟨msg, herr⟩ | ⟨-, hedges, hentry⟩ := SnapshotFile.validateEdges_cases s.restore
    · -- an edge or the entry point is refused
      rw [herr] at hvalid
      cases hvalid
    -- without an entry point the graph is empty
    obtain hempty | hlive := hentry
    · refine ⟨hedges, fun ep hep => ?_, fun _ id => ?_⟩
      · refine NswGraph.isSome_of_restoreEntryPoint ?_ hep
        rw [Snapshot.restore_nodes]
        rfl
      · rw [AList.lookup_eq_none, AList.mem_keys, AList.keys, hempty]
        exact List.not_mem_nil
    · exact SnapshotFile.Valid.inv (Or.inr ⟨hedges, hlive⟩)

/-- A graph from a snapshot is well formed. -/
theorem VectorIndex.inv_snapshotOrNew (s : Option Snapshot) :
    (VectorIndex.snapshotOrNew s).Inv := by
  unfold VectorIndex.snapshotOrNew
  split
  · rename_i g hload
    exact Snapshot.inv_of_load hload
  · exact NswGraph.inv_new
  · exact NswGraph.inv_new

/-- The environment an open finds or creates. -/
theorem VecDir.Anchored.env {d : VecDir} (h : d.Anchored) :
    (d.vecMeta.getD (.synced ⟨none, ∅⟩)).volatile.Under d.segs.nextSegId ∧
      (d.vecMeta.getD (.synced ⟨none, ∅⟩)).durable.Under d.segs.nextSegId := by
  cases hm : d.vecMeta with
  | none =>
    have hempty : (⟨none, ∅⟩ : VecEnv).Under d.segs.nextSegId := fun id loc hl => by cases hl
    exact ⟨hempty, hempty⟩
  | some env => exact h env hm

/-- An index that was just opened writes to a new file. -/
theorem VectorIndex.anchored_open {d : VecDir} {env : Stored VecEnv} {schema : VectorSchema}
    (segSize : Nat) {graph : NswGraph} (hs : env.volatile.schema = some schema)
    (hv : env.volatile.Under d.segs.nextSegId) (hd : env.durable.Under d.segs.nextSegId)
    (hg : graph.Inv) :
    (⟨schema, env, .open d.segs segSize schema.dim, graph, env.volatile.locatorDb,
      d.snapshot⟩ : VectorIndex).Anchored (VecSegmentPool.sizeOf segSize) where
  steady := steady_open d segSize graph hs
  writer := VecSegmentPool.writer_inv_open d.segs segSize schema.dim
  cache := rfl
  behind id loc hl := Or.inl (hv id loc hl)
  durable := hd.mono (Nat.le_succ _)
  graph := hg

namespace VecHost

variable {n segSize : Nat} {h : VecHost} (A : F32Arith)

/-- What holds of a directory and of the index that is open on it. -/
def Anchored (n : Nat) : VecHost → Prop
  | .closed d => d.Anchored
  | .opened x => x.Anchored n

/-- The files of a host. -/
theorem Anchored.dir (ha : h.Anchored n) : h.dir.Anchored := by
  cases h with
  | closed d => exact ha
  | opened x => exact VectorIndex.Anchored.dir ha

/-- An open goes on behind all locators. -/
theorem anchored_open {d : VecDir} (hd : d.Anchored) (schema : VectorSchema) :
    (settle (VectorIndex.open d schema segSize)).Anchored (VecSegmentPool.sizeOf segSize) := by
  obtain ⟨hv, hdur⟩ := hd.env
  unfold VectorIndex.open
  generalize d.vecMeta.getD (.synced ⟨none, ∅⟩) = env at hv hdur
  have hs : (env.write { env.volatile with schema := some schema }).volatile.schema =
    some schema := rfl
  cases hload : Snapshot.load d.snapshot with
  | error e => exact (VectorIndex.anchored_open segSize hs hv hdur NswGraph.inv_new).dir
  | ok g =>
    cases g with
    | none => exact VectorIndex.anchored_open segSize hs hv hdur NswGraph.inv_new
    | some g => exact VectorIndex.anchored_open segSize hs hv hdur (Snapshot.inv_of_load hload)

/-- So does a reopen, whatever graph it finds. -/
theorem anchored_reopen {d : VecDir} (hd : d.Anchored) (order : MapOrder) :
    (settle (VectorIndex.reopen A d segSize order)).Anchored (VecSegmentPool.sizeOf segSize) := by
  obtain ⟨hv, hdur⟩ := hd.env
  unfold VectorIndex.reopen
  generalize d.vecMeta.getD (.synced ⟨none, ∅⟩) = env at hv hdur
  dsimp only
  split
  · rintro env ⟨⟩
    exact ⟨hv, hdur⟩
  rename_i schema hs
  have hx := VectorIndex.anchored_open segSize hs hv hdur
    (VectorIndex.inv_snapshotOrNew d.snapshot)
  split
  · -- the graph is rebuilt; a failure leaves the files
    generalize hr : VectorIndex.rebuildGraphFromData A _ order = r
    cases r with
    | error e => exact hx.dir
    | ok y => exact hx.rebuildGraphFromData A hr
  · exact hx

/-- A call on an open index. -/
theorem Anchored.onIndex (ha : h.Anchored n) {f : VectorIndex → VectorIndex}
    (hf : ∀ x, x.Anchored n → (f x).Anchored n) : (h.onIndex f).Anchored n := by
  cases h with
  | closed d => exact ha
  | opened x => exact hf x ha

/-- One event keeps the locators behind the write position, unless it removes the file that
    is being written. -/
theorem Anchored.dirStep (ha : h.Anchored (VecSegmentPool.sizeOf segSize)) {ev : DirEvent}
    (hspare : h.Spares ev) :
    (h.dirStep A segSize ev).Anchored (VecSegmentPool.sizeOf segSize) := by
  cases ev with
  -- each kind of step has its own lemma, and a closed host has no index to write with
  | powerLoss => exact ha.dir.powerLoss
  | reclaim safe segIds =>
    cases h with
    | closed d => exact ha
    | opened x => exact VectorIndex.Anchored.reclaimSegments ha hspare
  | killAppend items =>
    cases h with
    | closed d => exact ha
    | opened x =>
      exact (VectorIndex.Anchored.withPool ha
        (VectorIndex.appendItems_advances ha.writer items)).dir
  | killCompact order avail point =>
    cases h with
    | closed d => exact ha
    | opened x =>
      unfold VecHost.dirStep
      dsimp only
      split
      · -- the compaction did not get to this point
        exact ha
      · rename_i d hd
        exact VectorIndex.Anchored.compactDir A ha hd
  | call ev =>
    cases ev with
    -- the calls of the index
    | «open» schema => exact anchored_open ha.dir schema
    | reopen order => exact anchored_reopen A ha.dir order
    | searchKnn query => exact ha
    | insert id vector => exact ha.onIndex fun x hx => hx.insert A id vector
    | insertBatch items => exact ha.onIndex fun x hx => hx.insertBatch A items
    | delete id => exact ha.onIndex fun x hx => hx.delete id
    | compact order avail => exact ha.onIndex fun x hx => hx.compact A order avail
    | checkpoint => exact ha.onIndex fun x hx => hx.checkpoint

/-- In every run that never removes the file being written, the locators of the open index
    lie behind its write position. -/
theorem anchored_of_guarded {es : List DirEvent}
    (hrun : Run.Guarded (dirStep A segSize) Spares (.closed .empty) es) :
    (Run.exec (dirStep A segSize) (.closed .empty) es).Anchored
      (VecSegmentPool.sizeOf segSize) := by
  refine hrun.invariant (Anchored (VecSegmentPool.sizeOf segSize))
    (fun h ev ha hspare => ha.dirStep A hspare) ?_
  intro env hmem
  cases hmem

end VecHost

end FusionStore
