import FusionStore.ForStd.Run
import FusionStore.Native.CompactSteps
import FusionStore.Spec.SearchCorrect
import FusionStore.Spec.SessionCorrect

/-!
# A kill inside a compaction

Three writes of `compact` last: the copies in the segments, the switch of the locator
table, the new snapshot.  Before the switch a restart sees the old table, and with it
every soft-deleted vector as live again.  Between the switch and the snapshot it sees the
new table beside the old snapshot, which `reopen` takes when it has enough live nodes,
although some of them may have no locator any more.
-/

namespace FusionStore

/-- The calls before the compaction. -/
inductive IndexCall where
  | insert (id : NodeId) (vector : List F32)
  | delete (id : NodeId)
  | checkpoint

namespace VectorIndex

variable (A : F32Arith)

/-- The index after a call. -/
def call (x : VectorIndex) : IndexCall → VectorIndex
  | .insert id vector => (x.insert A id vector).2
  | .delete id => (x.delete id).2
  | .checkpoint => x.checkpoint

/-- The reopened index `y` shows what `x` showed and can be used. -/
structure Recovers (x y : VectorIndex) : Prop where
  ids : ∀ id, id ∈ y.listVectorIds ↔ id ∈ x.listVectorIds
  vectors : ∀ id ∈ x.listVectorIds, ∃ v,
    x.getVector id = .ok (some v) ∧ y.getVector id = .ok (some v)
  nodes : ∀ id, (y.graph.nodes.lookup id).isSome → (y.env.volatile.locatorDb.lookup id).isSome
  searches : ∀ query topK expired msg, y.searchKnn A query topK expired ≠ .error (.corrupt msg)
  inserts : ∀ id v, y.env.volatile.locatorDb.lookup id = none → v.length = y.schema.dim →
    y.Fits → (y.insert A id v).1 = .ok ()

/-- `reopen` on what a kill left recovers the index. -/
def Survives (x : VectorIndex) (segSize : Nat) (d : VecDir) : Prop :=
  ∀ order, ∃ y, (reopen A d segSize order).1 = .ok y ∧ x.Recovers A y

/-- Before the switch nothing is soft-deleted; after it the old snapshot has too few live
    nodes to be taken, or only nodes that are live. -/
def AtomicAt (x : VectorIndex) : CompactPoint → Prop
  | .appended _ => x.graph.allDeletedIds = []
  | .swapped => (snapshotOrNew x.snapshot).len < x.graph.len ∨
    ∀ e ∈ (snapshotOrNew x.snapshot).nodes.entries, x.graph.isDeleted e.1 = false
  | .persisted => True

instance (x : VectorIndex) (point : CompactPoint) : Decidable (x.AtomicAt point) := by
  cases point with
  | appended k => exact inferInstanceAs (Decidable (x.graph.allDeletedIds = []))
  | swapped =>
    exact @instDecidableOr _ _ inferInstance
      (List.decidableBAll _ _)
  | persisted => exact .isTrue trivial

/-! ### What a sound index can do -/

variable {n : Nat} {x y : VectorIndex}

/-- Every node the search visits has a vector to read. -/
theorem searchKnn_ne_corrupt (h : y.InvAt n) (query : List F32) (topK : Nat)
    (expired : Nat → Bool) (msg : String) :
    y.searchKnn A query topK expired ≠ .error (.corrupt msg) := by
  -- every node has a locator, and its bytes can be read
  have hread : ∀ id, (y.graph.nodes.lookup id).isSome →
      (y.vecSlice id).toOption.isNone = false := by
    intro id hid
    obtain ⟨loc, hl⟩ := Option.isSome_iff_exists.mp
      (h.nodes id (NswGraph.flag_ne_none.mpr hid))
    rw [vecSlice_eq h hl]
    rfl
  intro he
  unfold searchKnn at he
  -- a wrong query length is another error
  cases hdim : y.schema.validateDim query with
  | error e =>
    rw [hdim] at he
    obtain rfl : e = .corrupt msg := Except.error.inj he
    unfold VectorSchema.validateDim at hdim
    split at hdim <;> simp at hdim
  | ok _ =>
    simp only [hdim, bind, Except.bind] at he
    cases hep : y.graph.entryPoint with
    | none => simp [hep] at he
    | some entry =>
      have hnone : ¬((y.graph.searchState (y.distTo A query) (max y.schema.efSearch topK) entry
          expired).visited.any fun id => (y.vecSlice id).toOption.isNone) = true := by
        -- the search visits nodes of the graph only
        simp only [List.any_eq_true, not_exists, not_and]
        intro id hid
        have hreach := NswGraph.reaches_of_visited hid
        rw [hread id (h.graph.isSome_of_reaches (h.graph.entry entry hep) hreach)]
        exact Bool.false_ne_true
      simp only [hep, hnone] at he
      exact nomatch he

/-- The index beside no snapshot file. -/
def dropSnapshot (y : VectorIndex) : VectorIndex := { y with snapshot := none }

/-- An index that is sound apart from its snapshot recovers every index it agrees with. -/
theorem recovers_of_visible (hx : x.InvAt n) (hy : y.dropSnapshot.InvAt n)
    (hcell : ∀ id, (y.cell id).visible = (x.cell id).visible) : x.Recovers A y := by
  have hlist : ∀ id, id ∈ y.listVectorIds ↔ (y.cell id).visible ≠ none := by
    intro id
    exact mem_listVectorIds (x := y.dropSnapshot) hy id
  refine ⟨?_, ?_, ?_, ?_, ?_⟩
  · -- the same ids are listed, with the same vectors, and no search fails
    intro id
    rw [hlist, hcell, mem_listVectorIds hx]
  · intro id hid
    obtain ⟨v, hv⟩ := Option.ne_none_iff_exists'.mp ((mem_listVectorIds hx id).mp hid)
    refine ⟨v, by rw [getVector_eq hx, hv], ?_⟩
    show y.dropSnapshot.getVector id = _
    rw [getVector_eq hy, show y.dropSnapshot.cell id = y.cell id from rfl, hcell, hv]
  · exact fun id hid => hy.nodes id (NswGraph.flag_ne_none.mpr hid)
  · exact searchKnn_ne_corrupt A (y := y.dropSnapshot) hy
  · -- an id without a locator has no node either, so its insert goes through
    intro id v hl hdim hfit
    have hflag : y.graph.flag id = none := by
      by_contra hn
      have hsome : (y.env.volatile.locatorDb.lookup id).isSome := hy.nodes id hn
      rw [hl] at hsome
      exact nomatch hsome
    obtain ⟨hne, -⟩ | ⟨-, hsome, -⟩ | ⟨-, -, -, loc, pool, -, -, -, -, hc⟩ | ⟨-, -, hno, -⟩ :=
      insert_inversion A (x := y) hy.pool hy.dim hy.graph id v
    · exact absurd hdim hne
    · rw [hl] at hsome
      exact nomatch hsome
    · obtain ⟨hn, -⟩ | ⟨-, g, hins, -⟩ := hc
      · exact absurd hflag hn
      · rw [hins]
    · exact absurd hfit hno

/-! ### The old table -/

/-- Every stored vector has a node: no call leaves one hidden. -/
def Shown (x : VectorIndex) : Prop := ∀ id v, x.cell id ≠ .hidden v

/-- The graph's soft-deleted ids are those of the dead cells. -/
theorem deleted_iff_dead (h : x.InvAt n) (id : NodeId) :
    id ∈ x.graph.allDeletedIds ↔ ∃ v, x.cell id = .dead v := by
  rw [NswGraph.mem_allDeletedIds]
  constructor
  · intro hf
    obtain ⟨loc, hl⟩ := Option.isSome_iff_exists.mp (h.nodes id (by simp [hf]))
    exact ⟨_, by rw [cell_of_lookup hl, hf]; rfl⟩
  · rintro ⟨v, hc⟩
    cases hl : x.env.volatile.locatorDb.lookup id with
    | none =>
      rw [cell_eq_absent.mpr hl] at hc
      exact nomatch hc
    | some loc =>
      rw [cell_of_lookup hl] at hc
      cases hf : x.graph.flag id with
      | none => simp [hf, Cell.ofFlag] at hc
      | some b => cases b <;> simp [hf, Cell.ofFlag] at hc ⊢

variable {segSize : Nat}

/-- Without its snapshot an index is as sound as with it. -/
theorem InvAt.dropSnapshot (h : y.InvAt n) : y.dropSnapshot.InvAt n :=
  ⟨h.pool, h.segSize, h.dim, h.schema, h.cache, h.holds, h.graph, h.nodes, fun _ hs => nomatch hs⟩

/-- A directory that holds exactly the live vectors of `x` recovers it. -/
theorem survives_of_visible (hx : x.InvAt n) (hsize : VecSegmentPool.sizeOf segSize = n)
    (hle : n ≤ u32Max) {d : VecDir} {s : VectorSchema} (hd : d.InvAt n s) {env : Stored VecEnv}
    (henv : d.vecMeta = some env) (hstored : ∀ id, d.stored id = (x.cell id).visible) :
    x.Survives A segSize d := by
  intro order
  obtain ⟨y, hre, hy, -, hcell⟩ := reopen_ok A hd hsize hle henv order
  refine ⟨y, by rw [hre], recovers_of_visible A hx hy.dropSnapshot fun id => ?_⟩
  rw [hcell, hstored]
  cases (x.cell id).visible <;> rfl

/-- A directory that holds all vectors of `x` recovers it if none of them is soft-deleted. -/
theorem survives_of_stored (hx : x.InvAt n) (hshown : x.Shown)
    (hsize : VecSegmentPool.sizeOf segSize = n) (hle : n ≤ u32Max) {d : VecDir}
    {s : VectorSchema} (hd : d.InvAt n s) {env : Stored VecEnv} (henv : d.vecMeta = some env)
    (hstored : ∀ id, d.stored id = (x.cell id).stored) :
    x.Survives A segSize d ↔ x.graph.allDeletedIds = [] := by
  constructor
  · intro hs
    obtain ⟨y, hre, hrec⟩ := hs .id
    obtain ⟨y', hre', hy, -, hcell⟩ := reopen_ok A hd hsize hle henv .id
    obtain rfl : y' = y := by
      rw [hre'] at hre
      exact Except.ok.inj hre
    -- a soft-deleted id is live after the restart
    rw [List.eq_nil_iff_forall_not_mem]
    intro id hid
    obtain ⟨v, hdead⟩ := (deleted_iff_dead hx id).mp hid
    have hlive : id ∈ y'.listVectorIds := by
      rw [mem_listVectorIds hy, hcell, hstored, hdead]
      exact Option.some_ne_none _
    rw [hrec.ids, mem_listVectorIds hx, hdead] at hlive
    exact hlive rfl
  · -- without a soft-deleted id, what is stored is what was visible
    intro hnone
    apply survives_of_visible A hx hsize hle hd henv
    intro id
    rw [hstored]
    cases hc : x.cell id with
    | absent => rfl
    | live v => rfl
    | hidden v => exact absurd hc (hshown id v)
    | dead v =>
      have hmem := (deleted_iff_dead hx id).mpr ⟨v, hc⟩
      rw [hnone] at hmem
      exact nomatch hmem

/-! ### The new table beside the old snapshot -/

/-- The scan and the graph it builds look neither at the old graph nor at the snapshot. -/
theorem rebuild_congr (x : VectorIndex) (graph : NswGraph) (snapshot : Option Snapshot)
    (order : MapOrder) :
    ({ x with graph, snapshot } : VectorIndex).rebuildGraphFromData A order =
      (x.rebuildGraphFromData A order).map fun y => { y with snapshot } := by
  unfold rebuildGraphFromData
  show (x.readLive [] >>= fun live => buildGraph A x.schema.metric order live >>= fun g =>
    pure ({ x with graph := g, snapshot } : VectorIndex)) = _
  cases x.readLive [] with
  | error e => rfl
  | ok live =>
    show (buildGraph A x.schema.metric order live >>= fun g =>
      pure ({ x with graph := g, snapshot } : VectorIndex)) =
      (buildGraph A x.schema.metric order live >>= fun g => pure { x with graph := g }).map _
    cases buildGraph A x.schema.metric order live <;> rfl

/-- A snapshot that does not load or has too few nodes leaves no trace in the index. -/
theorem reopen_ignores_snapshot {d : VecDir} {env : Stored VecEnv} (henv : d.vecMeta = some env)
    (h : (snapshotOrNew d.snapshot).len < env.volatile.locatorDb.entries.length ∨
      snapshotOrNew d.snapshot = NswGraph.new) (segSize : Nat) (order : MapOrder) :
    (reopen A d segSize order).1 = ((reopen A { d with snapshot := none } segSize order).1).map
      fun y => { y with snapshot := d.snapshot } := by
  have hnew : snapshotOrNew none = NswGraph.new := rfl
  unfold reopen
  simp only [henv, Option.getD_some, hnew]
  cases env.volatile.schema with
  | none => rfl
  | some schema =>
    -- does the empty graph make `reopen` rebuild? it does unless the table is empty, too
    by_cases hpos : NswGraph.new.len < env.volatile.locatorDb.entries.length
    · have hlt : (snapshotOrNew d.snapshot).len < env.volatile.locatorDb.entries.length := by
        obtain hlt | heq := h
        · exact hlt
        · rw [heq]
          exact hpos
      simp only [hlt, hpos, if_true]
      exact rebuild_congr A
        ⟨schema, env, VecSegmentPool.open d.segs segSize schema.dim, NswGraph.new,
          env.volatile.locatorDb, none⟩ _ _ order
    · -- an empty table: the snapshot is the empty graph
      obtain hlt | heq := h
      · exact absurd (Nat.lt_of_le_of_lt (Nat.zero_le _) hlt) hpos
      · simp only [heq, hpos, if_false]
        rfl

/-- What the switch has written when the snapshot is still the old one. -/
def swappedDir (x : VectorIndex) (locs : List (NodeId × ValueLocator)) (pool : VecSegmentPool) :
    VecDir :=
  ⟨some (x.env.write { x.env.volatile with locatorDb := newLocatorDb locs }), pool.flush.dir,
    x.snapshot⟩

variable {order : MapOrder} {locs : List (NodeId × ValueLocator)} {pool : VecSegmentPool}
  {graph : NswGraph}

/-- With every stored vector in the graph, compaction keeps exactly the visible ones. -/
theorem compacted_of_shown (hshown : x.Shown) (id : NodeId) :
    (x.cell id).compacted.stored = (x.cell id).visible := by
  cases hc : x.cell id with
  | absent => rfl
  | live v => rfl
  | hidden v => exact absurd hc (hshown id v)
  | dead v => rfl

/-- The new table has a locator for each live id and no other. -/
theorem isSome_newLocatorDb (hx : x.InvAt n) (hshown : x.Shown)
    (hr : x.Rewritten A order locs pool graph) (id : NodeId) :
    ((newLocatorDb locs).lookup id).isSome ↔ x.graph.flag id = some false := by
  rw [← visible_cell hx, ← compacted_of_shown hshown id]
  obtain hc | ⟨v, hc⟩ := (x.cell id).compacted_cases
  · simp [hc, (hr.dropped id hc).2, Cell.stored]
  · obtain ⟨-, loc, hl, -⟩ := hr.kept id v hc
    simp [hc, hl, Cell.stored]

/-- The new table has one locator for every live node. -/
theorem length_newLocatorDb (hx : x.InvAt n) (hshown : x.Shown)
    (hr : x.Rewritten A order locs pool graph) :
    (newLocatorDb locs).entries.length = x.graph.len := by
  have hkeys : (newLocatorDb locs).keys.Perm x.graph.allIds := by
    rw [List.perm_ext_iff_of_nodup (newLocatorDb locs).keys_nodup x.graph.nodup_allIds]
    intro id
    rw [NswGraph.mem_allIds, ← isSome_newLocatorDb A hx hshown hr, AList.lookup_isSome,
      AList.mem_keys]
  have hlen : (newLocatorDb locs).keys.length = (newLocatorDb locs).entries.length :=
    List.length_map _
  rw [← NswGraph.length_allIds, ← hkeys.length_eq, hlen]

/-- The switched directory is sound beside any snapshot whose nodes are all live. -/
theorem inv_swappedDir (hx : x.InvAt n) (hr : x.Rewritten A order locs pool graph)
    {t : Option Snapshot}
    (hs : SnapshotInv t fun id => ((newLocatorDb locs).lookup id).isSome) :
    ({ x.swappedDir locs pool with snapshot := t } : VecDir).InvAt n x.schema := by
  have h := (inv_switched A hx hr).dir
  exact ⟨h.schema, h.located, hs⟩

/-- After the switch the files hold the visible vectors and no others. -/
theorem stored_swappedDir (hshown : x.Shown) (hr : x.Rewritten A order locs pool graph)
    (id : NodeId) : (x.swappedDir locs pool).stored id = (x.cell id).visible := by
  rw [← compacted_of_shown hshown id, ← cell_switched A hr id, ← stored_dir]
  rfl

/-- A kill between the switch and the persisted snapshot: the old snapshot is harmless exactly
    when it is ignored, or has no node without a locator. -/
theorem survives_swapped (hx : x.InvAt n) (hshown : x.Shown)
    (hsize : VecSegmentPool.sizeOf segSize = n) (hle : n ≤ u32Max)
    (hr : x.Rewritten A order locs pool graph) :
    x.Survives A segSize (x.swappedDir locs pool) ↔ x.AtomicAt .swapped := by
  have hcount := length_newLocatorDb A hx hshown hr
  have hlocated := isSome_newLocatorDb A hx hshown hr
  -- a snapshot that is not used leaves the new table, from which the graph is rebuilt
  have hdropped : (snapshotOrNew x.snapshot).len < x.graph.len ∨
      snapshotOrNew x.snapshot = NswGraph.new → x.Survives A segSize (x.swappedDir locs pool) := by
    intro hcase ord
    obtain ⟨y, hre, hy, -, hcell⟩ := reopen_ok A
      (inv_swappedDir A hx hr (t := none) fun _ hs => nomatch hs) hsize hle rfl ord
    have hsame := reopen_ignores_snapshot A (d := x.swappedDir locs pool) rfl
      (by rw [← hcount] at hcase; exact hcase) segSize ord
    rw [hre] at hsame
    refine ⟨_, hsame, recovers_of_visible A hx hy.dropSnapshot fun id => ?_⟩
    show (y.cell id).visible = _
    rw [hcell, show ({ x.swappedDir locs pool with snapshot := none } : VecDir).stored id =
      (x.swappedDir locs pool).stored id from rfl, stored_swappedDir A hshown hr]
    cases (x.cell id).visible <;> rfl
  constructor
  · intro hs
    by_contra hno
    simp only [AtomicAt, not_or, not_forall, Nat.not_lt] at hno
    obtain ⟨hlen, e, hmem, hdel⟩ := hno
    obtain ⟨y, hre, hrec⟩ := hs .id
    -- the old snapshot is taken, with a node that lost its locator
    have hy : y.graph = snapshotOrNew x.snapshot ∧
        y.env.volatile.locatorDb = newLocatorDb locs := by
      unfold reopen at hre
      simp only [swappedDir, Option.getD_some, Stored.volatile_write, hx.schema] at hre
      rw [if_neg (by rw [hcount]; exact Nat.not_lt.mpr hlen)] at hre
      obtain rfl := Except.ok.inj hre
      exact ⟨rfl, rfl⟩
    have hnode : (y.graph.nodes.lookup e.1).isSome := by
      rw [hy.1, AList.lookup_isSome]
      exact AList.mem_keys.mpr (List.mem_map_of_mem hmem)
    have hloc := hrec.nodes e.1 hnode
    rw [hy.2, hlocated, ← NswGraph.isDeleted_iff] at hloc
    exact hdel hloc
  · intro hcase
    obtain hlt | hall := hcase
    · -- the snapshot is too small, so it is not taken
      exact hdropped (.inl hlt)
    · cases hsnap : x.snapshot with
      | none => exact hdropped (.inr (by rw [hsnap]; rfl))
      | some snap =>
        obtain ⟨g, rfl, hg, -⟩ := hx.snapshot snap (by rw [hsnap]; rfl)
        obtain ⟨g', hload, -, hflag⟩ | ⟨⟨err, hload⟩, -⟩ := Snapshot.load_serialize hg
        · -- all its nodes are live, so the directory is sound with this snapshot
          have hg' : snapshotOrNew x.snapshot = g' := by
            simp only [snapshotOrNew, hsnap, hload]
          have hinv : (x.swappedDir locs pool).InvAt n x.schema := by
            refine inv_swappedDir A hx hr (t := x.snapshot) ?_
            rw [hsnap]
            intro s hs
            rw [Option.mem_some_iff] at hs
            refine ⟨g, hs.symm, hg, fun id hid => ?_⟩
            rw [← hflag id, NswGraph.flag_ne_none] at hid
            obtain ⟨node, hl⟩ := Option.isSome_iff_exists.mp hid
            apply (hlocated id).mpr
            apply NswGraph.isDeleted_iff.mp
            exact hall ⟨id, node⟩ (by rw [hg']; exact AList.mem_lookup_iff.mp hl)
          exact survives_of_visible A hx hsize hle hinv rfl (stored_swappedDir A hshown hr)
        · -- a snapshot that cannot be read counts as none
          exact hdropped (.inr (by simp only [snapshotOrNew, hsnap, hload]))

/-! ### Every point -/

/-- The append loop keeps what is stored, however far it gets. -/
theorem inv_appended (hx : x.InvAt n) (k : Nat) :
    let y : VectorIndex := { x with pool := (appendAll x.pool (x.liveVectors.take k)).2 }
    y.InvAt n ∧ ∀ id, y.cell id = x.cell id := by
  obtain ⟨locs, pool, happ, hp, hpd, hk, -⟩ :=
    appendAll_ok hx.pool fun e (he : e ∈ x.liveVectors.take k) =>
      length_of_mem_liveVectors hx (List.mem_of_mem_take he)
  intro y
  have hy : y = { x with pool } := by simp only [y, happ]
  rw [hy]
  exact inv_of_keeps hx hp hpd hk

/-- A kill at any point of a compaction, from any sound index without hidden vectors. -/
theorem survives_iff_of_inv (hx : x.InvAt n) (hshown : x.Shown)
    (hsize : VecSegmentPool.sizeOf segSize = n) (hle : n ≤ u32Max) {order : MapOrder}
    {avail : Option Nat} {point : CompactPoint} {d : VecDir}
    (hd : x.compactDir A order avail point = some d) :
    x.Survives A segSize d ↔ x.AtomicAt point := by
  obtain ⟨locs, pool, graph, hr⟩ := rewritten_ok A hx order
  have hcompact := compact_eq A hr avail
  unfold compactDir at hd
  -- the disk check has passed, else there is no such point
  cases hdisk : ensureDiskAvailable avail x.diskBytes with
  | error e => simp [hdisk] at hd
  | ok _ =>
    rw [hdisk] at hcompact
    simp only [hdisk, hr.read] at hd
    cases point with
    | appended k =>
      -- copies behind the old ones change no locator
      simp only [Option.ite_none_right_eq_some, Option.some.injEq] at hd
      obtain ⟨-, rfl⟩ := hd
      obtain ⟨hinv, hcell⟩ := inv_appended hx k
      refine survives_of_stored A hx hshown hsize hle hinv.dir rfl fun id => ?_
      rw [← hcell id, ← stored_dir]
      rfl
    | swapped =>
      simp only [hr.append, hr.build, Option.some.injEq] at hd
      subst hd
      exact survives_swapped A hx hshown hsize hle hr
    | persisted =>
      -- the new snapshot is written, so nothing is missing
      simp only [hcompact, Option.some.injEq] at hd
      subst hd
      refine iff_of_true (survives_of_visible A hx hsize hle (inv_switched A hx hr).dir rfl ?_)
        trivial
      intro id
      rw [stored_dir, cell_switched A hr, compacted_of_shown hshown]

/-- Insert, delete and checkpoint keep the invariant, and leave every stored vector in the
    graph. -/
theorem inv_call (hx : x.InvAt n) (hshown : x.Shown) (c : IndexCall) :
    (x.call A c).InvAt n ∧ (x.call A c).Shown := by
  -- only an insert adds a cell, and it is a live one
  cases c with
  | insert id vector =>
    show (x.insert A id vector).2.InvAt n ∧ (x.insert A id vector).2.Shown
    obtain ⟨-, he⟩ | ⟨-, -, he⟩ | ⟨-, -, -, y, he, hy, -, hself, hother⟩ |
      ⟨-, -, -, msg, y, he, hy, -, hcell⟩ := insert_cases A hx id vector
    · -- refused for its length or its id
      rw [he]
      exact ⟨hx, hshown⟩
    · rw [he]
      exact ⟨hx, hshown⟩
    · rw [he]
      refine ⟨hy, fun j v hc => ?_⟩
      by_cases hj : j = id
      · rw [hj, hself] at hc
        exact nomatch hc
      · rw [hother j hj] at hc
        exact hshown j v hc
    · -- an append that panics stores nothing
      rw [he]
      exact ⟨hy, fun j v hc => hshown j v (hcell j ▸ hc)⟩
  | delete id =>
    obtain ⟨hy, -, hself, hother⟩ := delete_spec hx id
    refine ⟨hy, fun j v hc => ?_⟩
    change (x.delete id).2.cell j = _ at hc
    -- a delete hides no vector that the graph has not seen
    by_cases hj : j = id
    · rw [hj, hself] at hc
      cases hcell : x.cell id with
      | hidden w => exact hshown id w hcell
      | _ => simp [hcell, Cell.delete] at hc
    · rw [hother j hj] at hc
      exact hshown j v hc
  | checkpoint =>
    obtain ⟨hy, -, hcell⟩ := checkpoint_spec hx
    exact ⟨hy, fun j v hc => hshown j v (hcell j ▸ hc)⟩

/-- After any inserts, deletes and checkpoints, a kill at any point of a compaction is
    survived if and only if nothing was soft-deleted, before the switch, or the old
    snapshot is not taken or has live nodes only, after it. -/
theorem survives_compact_kill_iff (schema : VectorSchema) (segSize : Nat)
    (hsize : VecSegmentPool.sizeOf segSize ≤ u32Max) {x₀ : VectorIndex}
    (hopen : (VectorIndex.open .empty schema segSize).1 = .ok x₀) (calls : List IndexCall)
    (order : MapOrder) (avail : Option Nat) (point : CompactPoint) {d : VecDir}
    (hd : (Run.exec (call A) x₀ calls).compactDir A order avail point = some d) :
    (Run.exec (call A) x₀ calls).Survives A segSize d ↔
      (Run.exec (call A) x₀ calls).AtomicAt point := by
  obtain ⟨hinv, -, hcell⟩ := open_empty (VecSegmentPool.addressable_of_le hsize _) hopen
  have hrun : (Run.exec (call A) x₀ calls).InvAt (VecSegmentPool.sizeOf segSize) ∧
      (Run.exec (call A) x₀ calls).Shown := by
    refine Run.exec_invariant (fun x : VectorIndex => x.InvAt _ ∧ x.Shown)
      (fun x c hx => inv_call A hx.1 hx.2 c) calls ⟨hinv, fun id v hc => ?_⟩
    rw [hcell id] at hc
    exact nomatch hc
  exact survives_iff_of_inv A hrun.1 hrun.2 rfl hsize hd

/-- The snapshot has two nodes and the new table three locators. -/
theorem survives_beside_short_snapshot : ∃ x₀ d,
    (VectorIndex.open .empty flatSchema 8).1 = .ok x₀ ∧
    let x := Run.exec (call zeroArith) x₀
      [.insert 1 [0], .insert 2 [0], .checkpoint, .insert 3 [0], .insert 4 [0], .delete 4]
    x.compactDir zeroArith .id none .swapped = some d ∧ x.Survives zeroArith 8 d :=
  ⟨_, _, rfl, rfl, (survives_compact_kill_iff zeroArith flatSchema 8 (by decide) rfl
    [.insert 1 [0], .insert 2 [0], .checkpoint, .insert 3 [0], .insert 4 [0], .delete 4]
    .id none .swapped rfl).mpr (by decide +kernel)⟩

/-- The old snapshot still has the deleted node `2`: searches fail and `2` cannot be
    inserted any more. -/
theorem stale_snapshot_after_kill : ∃ x₀,
    (VectorIndex.open .empty flatSchema 0).1 = .ok x₀ ∧
    let x := Run.exec (call zeroArith) x₀
      [.insert 1 [0], .insert 2 [0], .checkpoint, .delete 2]
    ∃ d, x.compactDir zeroArith .id none .swapped = some d ∧
      (∃ y, (reopen zeroArith d 0 .id).1 = .ok y ∧
        (y.graph.nodes.lookup 2).isSome ∧ y.env.volatile.locatorDb.lookup 2 = none ∧
        y.searchKnn zeroArith [0] 1 (fun _ => false) =
          .error (.corrupt "vector segment read failed during knn — result unreliable") ∧
        (y.insert zeroArith 2 [0]).1 = .error (.duplicateVector 2)) ∧
      ¬x.Survives zeroArith 0 d := by
  refine ⟨_, rfl, ?_⟩
  intro x
  refine ⟨_, rfl, ⟨_, rfl, by decide +kernel, by decide +kernel, by decide +kernel,
    by decide +kernel⟩, fun hs => ?_⟩
  obtain ⟨y, hre, hrec⟩ := hs .id
  obtain rfl := Except.ok.inj hre
  exact absurd (hrec.nodes 2 (by decide +kernel)) (by decide +kernel)

end VectorIndex

end FusionStore
