import FusionStore.Spec.VectorCorrect

/-!
# Reopening the vector index

The two restore paths, `VectorIndex.open` and `VectorIndex.reopen`, side by side.
`reopen` always ends up with a live node for every stored vector: either it rebuilds
the graph from the locator table, or the snapshot has at least as many live nodes as
there are locators and then these are all of them.  `open` takes the snapshot as it is.
-/

namespace FusionStore

/-- A loop of successful steps. -/
private theorem mapM_ok {α β : Type} {f : α → Except StoreError β} {g : α → β} {l : List α}
    (h : ∀ a ∈ l, f a = .ok (g a)) : l.mapM f = .ok (l.map g) := by
  induction l with
  | nil => rfl
  | cons a l ih =>
    rw [List.mapM_cons, h a List.mem_cons_self, ih fun b hb => h b (List.mem_cons_of_mem _ hb)]
    rfl

/-- A loop with a step that fails. -/
private theorem mapM_error {α β : Type} {f : α → Except StoreError β} {l : List α} {a : α}
    (ha : a ∈ l) {e : StoreError} (h : f a = .error e) : ∃ e', l.mapM f = .error e' := by
  induction l with
  | nil => exact nomatch ha
  | cons b l ih =>
    rw [List.mapM_cons]
    cases hb : f b with
    | error e' => exact ⟨e', rfl⟩
    | ok c =>
      obtain rfl | ha := List.mem_cons.mp ha
      · rw [h] at hb
        exact nomatch hb
      · obtain ⟨e', he'⟩ := ih ha
        rw [he']
        exact ⟨e', rfl⟩

/-- Every result has its argument. -/
private theorem mem_of_mapM_ok {α β : Type} {f : α → Except StoreError β} {l : List α}
    {bs : List β} (h : l.mapM f = .ok bs) {b : β} (hb : b ∈ bs) : ∃ a ∈ l, f a = .ok b := by
  -- by induction on the list; an error anywhere is an error of the whole
  induction l generalizing bs with
  | nil =>
    obtain rfl : [] = bs := Except.ok.inj h
    exact nomatch hb
  | cons a l ih =>
    rw [List.mapM_cons] at h
    cases ha : f a with
    | error e =>
      rw [ha] at h
      exact nomatch h
    | ok c =>
      cases hl : l.mapM f with
      | error e =>
        rw [ha, hl] at h
        exact nomatch h
      | ok cs =>
        rw [ha, hl] at h
        obtain rfl : c :: cs = bs := Except.ok.inj h
        obtain rfl | hb := List.mem_cons.mp hb
        · exact ⟨a, List.mem_cons_self, ha⟩
        · obtain ⟨a', ha', hb'⟩ := ih hl hb
          exact ⟨a', List.mem_cons_of_mem _ ha', hb'⟩

/-- The iteration over the table gives its entries. -/
theorem mem_heedIter {db : LocatorDb} {e : NodeId × ValueLocator} :
    e ∈ heedIter db ↔ db.lookup e.1 = some e.2 := by
  unfold heedIter
  rw [List.mem_insertionSort, List.mem_map]
  constructor
  · rintro ⟨a, ha, rfl⟩
    exact AList.mem_lookup_iff.mpr ha
  · intro h
    exact ⟨⟨e.1, e.2⟩, AList.mem_lookup_iff.mp h, rfl⟩

/-- Each id once. -/
theorem nodup_heedIter (db : LocatorDb) : ((heedIter db).map Prod.fst).Nodup := by
  have hperm : (heedIter db).Perm (db.entries.map fun e => (e.1, e.2)) :=
    List.perm_insertionSort _ _
  rw [(hperm.map Prod.fst).nodup_iff, List.map_map]
  exact db.keys_nodup

namespace VectorIndex

variable {n : Nat} (A : F32Arith)

/-! ### Rebuilding -/

/-- Inserting distinct new ids one after the other. -/
private theorem foldlM_insert (dist : NodeId × List F32 → NodeId → F32)
    {es : List (NodeId × List F32)} {g : NswGraph} (hg : g.Inv)
    (hnd : (es.map Prod.fst).Nodup) (hnew : ∀ e ∈ es, g.flag e.1 = none) :
    ∃ g', es.foldlM (fun g e => g.insert e.1 (dist e)) g = .ok g' ∧ g'.Inv ∧
      (∀ e ∈ es, g'.flag e.1 = some false) ∧
      ∀ id, id ∉ es.map Prod.fst → g'.flag id = g.flag id := by
  -- by induction on the vectors: each id is new when its turn comes
  induction es generalizing g with
  | nil =>
    refine ⟨g, rfl, hg, ?_, fun _ _ => rfl⟩
    intro e he
    exact nomatch he
  | cons e es ih =>
    rw [List.map_cons, List.nodup_cons] at hnd
    rcases NswGraph.insert_cases hg e.1 (dist e) with ⟨hf, -⟩ | ⟨-, g', hins, hg', hself, hother⟩
    · exact absurd (hnew e List.mem_cons_self) hf
    · have hne : ∀ a ∈ es, a.1 ≠ e.1 := by
        intro a ha heq
        exact hnd.1 (List.mem_map.mpr ⟨a, ha, heq⟩)
      obtain ⟨g'', hfold, hinv, hin, hout⟩ := ih hg' hnd.2 fun a ha => by
        rw [hother a.1 (hne a ha)]
        exact hnew a (List.mem_cons_of_mem _ ha)
      refine ⟨g'', ?_, hinv, ?_, ?_⟩
      · rw [List.foldlM_cons, hins]
        exact hfold
      · -- a later insert does not change the flag of this id
        intro a ha
        rcases List.mem_cons.mp ha with rfl | ha
        · rw [hout a.1 hnd.1, hself]
        · exact hin a ha
      · intro id hid
        rw [List.map_cons, List.mem_cons, not_or] at hid
        rw [hout id hid.2, hother id hid.1]

/-- The rebuilt graph has exactly the given ids, all live, in whatever order the hash
    map lists them. -/
theorem buildGraph_ok (metric : MetricKind) (order : MapOrder)
    {live : List (NodeId × List F32)} (hnd : (live.map Prod.fst).Nodup) :
    ∃ g, buildGraph A metric order live = .ok g ∧ g.Inv ∧
      (∀ id ∈ live.map Prod.fst, g.flag id = some false) ∧
      ∀ id, id ∉ live.map Prod.fst → g.flag id = none := by
  have hperm := order.perm live
  have hmem : ∀ id, id ∈ (order.run live).map Prod.fst ↔ id ∈ live.map Prod.fst :=
    fun id => (hperm.map Prod.fst).mem_iff
  -- which distances the graph is built from does not matter here
  have hdist : ∃ dist : NodeId × List F32 → NodeId → F32, buildGraph A metric order live =
      (order.run live).foldlM (fun g e => g.insert e.1 (dist e)) NswGraph.new := ⟨_, rfl⟩
  obtain ⟨dist, hbuild⟩ := hdist
  obtain ⟨g, hfold, hg, hin, hout⟩ := foldlM_insert dist NswGraph.inv_new
    ((hperm.map Prod.fst).nodup_iff.mpr hnd) (fun e _ => NswGraph.flag_new e.1)
  refine ⟨g, hbuild.trans hfold, hg, ?_, ?_⟩
  · intro id hid
    obtain ⟨e, he, rfl⟩ := List.mem_map.mp ((hmem id).mpr hid)
    exact hin e he
  · intro id hid
    rw [hout id fun h => hid ((hmem id).mp h), NswGraph.flag_new]

/-- The scan reads every vector back. -/
theorem readLive_of_holds {x : VectorIndex}
    (h : ∀ id loc, x.env.volatile.locatorDb.lookup id = some loc →
      x.pool.writer.Holds loc ∧ x.pool.Slot loc) (deleted : List NodeId) :
    x.readLive deleted = .ok (((heedIter x.env.volatile.locatorDb).filter
      fun e => e.1 ∉ deleted).map fun e => (e.1, decodeF32s (x.pool.writer.bytesAt e.2))) := by
  unfold readLive
  apply mapM_ok
  intro e he
  rw [List.mem_filter] at he
  obtain ⟨hh, hslot⟩ := h e.1 e.2 (mem_heedIter.mp he.1)
  rw [VecSegmentPool.readVec_of_holds hh hslot]
  rfl

/-- Every locator of the table reads, so the vectors are all there. -/
theorem readLive_ok {x : VectorIndex} (h : x.InvAt n) (deleted : List NodeId) :
    x.readLive deleted = .ok (((heedIter x.env.volatile.locatorDb).filter
      fun e => e.1 ∉ deleted).map fun e => (e.1, decodeF32s (x.pool.writer.bytesAt e.2))) :=
  readLive_of_holds h.holds deleted

/-- One vector that cannot be read stops the scan. -/
theorem readLive_error {x : VectorIndex} {id : NodeId} {loc : ValueLocator}
    (hl : x.env.volatile.locatorDb.lookup id = some loc) {deleted : List NodeId}
    (hd : id ∉ deleted) {e : StoreError} (he : x.pool.readVec loc = .error e) :
    ∃ e', x.readLive deleted = .error e' := by
  unfold readLive
  have hmem : (id, loc) ∈ (heedIter x.env.volatile.locatorDb).filter fun e => e.1 ∉ deleted :=
    List.mem_filter.mpr ⟨mem_heedIter.mpr hl, decide_eq_true hd⟩
  refine mapM_error hmem (e := e) ?_
  simp only [he]
  rfl

/-- What the scan returns was read from the segments. -/
theorem mem_of_readLive {x : VectorIndex} {deleted : List NodeId}
    {live : List (NodeId × List F32)} (h : x.readLive deleted = .ok live)
    {e : NodeId × List F32} (he : e ∈ live) :
    ∃ loc, x.env.volatile.locatorDb.lookup e.1 = some loc ∧ x.pool.readVec loc = .ok e.2 := by
  obtain ⟨a, ha, hread⟩ := mem_of_mapM_ok h he
  have hl := mem_heedIter.mp (List.mem_filter.mp ha).1
  cases hv : x.pool.readVec a.2 with
  | error err =>
    simp only [hv] at hread
    exact nomatch hread
  | ok v =>
    simp only [hv] at hread
    obtain rfl : (a.1, v) = e := Except.ok.inj hread
    exact ⟨a.2, hl, hv⟩

/-- They have different ids. -/
theorem nodup_live (x : VectorIndex) (deleted : List NodeId) :
    ((((heedIter x.env.volatile.locatorDb).filter fun e => e.1 ∉ deleted).map
      fun e => (e.1, decodeF32s (x.pool.writer.bytesAt e.2))).map Prod.fst).Nodup := by
  rw [List.map_map]
  exact (List.filter_sublist.map _).nodup (nodup_heedIter _)

/-- `rebuild_graph_from_data`: every stored vector becomes live. -/
theorem rebuildGraphFromData_ok {x : VectorIndex} (h : x.InvAt n) (order : MapOrder) :
    ∃ g, x.rebuildGraphFromData A order = .ok { x with graph := g } ∧
      ({ x with graph := g } : VectorIndex).InvAt n ∧
      ∀ id, ({ x with graph := g } : VectorIndex).cell id = (x.cell id).rebuilt := by
  obtain ⟨g, hb, hg, hin, hout⟩ := buildGraph_ok A x.schema.metric order (nodup_live x [])
  -- the rebuild runs over all locators, deleted or not
  have hids : ∀ id, id ∈ (((heedIter x.env.volatile.locatorDb).filter
      fun e => e.1 ∉ ([] : List NodeId)).map
      fun e => (e.1, decodeF32s (x.pool.writer.bytesAt e.2))).map Prod.fst ↔
      (x.env.volatile.locatorDb.lookup id).isSome := by
    intro id
    rw [List.map_map, List.mem_map]
    constructor
    · rintro ⟨e, he, rfl⟩
      rw [List.mem_filter] at he
      show (x.env.volatile.locatorDb.lookup e.1).isSome
      rw [mem_heedIter.mp he.1]
      rfl
    · intro hsome
      obtain ⟨loc, hl⟩ := Option.isSome_iff_exists.mp hsome
      exact ⟨(id, loc), List.mem_filter.mpr ⟨mem_heedIter.mpr hl, by simp⟩, rfl⟩
  refine ⟨g, ?_, ⟨h.pool, h.segSize, h.dim, h.schema, h.cache, h.holds, hg, ?_, h.snapshot⟩, ?_⟩
  · -- the scan reads every locator, and the inserts go through
    unfold rebuildGraphFromData
    rw [readLive_ok h]
    show (do
      let g ← buildGraph A x.schema.metric order _
      pure { x with graph := g }) = _
    rw [hb]
    rfl
  · -- a node comes from a locator
    intro id hid
    by_contra hn
    exact hid (hout id fun hmem => hn ((hids id).mp hmem))
  · -- and every locator becomes a live node
    intro id
    cases hl : x.env.volatile.locatorDb.lookup id with
    | none =>
      rw [cell_eq_absent.mpr hl]
      exact cell_eq_absent.mpr hl
    | some loc =>
      rw [cell_of_lookup hl]
      refine Eq.trans (cell_of_lookup hl) ?_
      show Cell.ofFlag (g.flag id) _ = _
      rw [hin id ((hids id).mpr (by rw [hl]; rfl))]
      cases x.graph.flag id with
      | none => rfl
      | some b => cases b <;> rfl

/-- A graph with as many live nodes as there are locators shows every stored vector. -/
theorem cell_of_len_le {x : VectorIndex} (h : x.InvAt n)
    (hlen : x.env.volatile.locatorDb.entries.length ≤ x.graph.len) (id : NodeId) :
    x.cell id = (x.cell id).rebuilt := by
  cases hl : x.env.volatile.locatorDb.lookup id with
  | none =>
    rw [cell_eq_absent.mpr hl]
    rfl
  | some loc =>
    -- the live ids are among the locators, and there are as many, so they are all of them
    have hsub : x.graph.allIds ⊆ x.env.volatile.locatorDb.keys := by
      intro j hj
      rw [← AList.mem_keys, ← AList.lookup_isSome]
      exact h.nodes j (by rw [NswGraph.mem_allIds.mp hj]; exact Option.some_ne_none _)
    have hkeys : x.env.volatile.locatorDb.keys.length =
        x.env.volatile.locatorDb.entries.length := List.length_map _
    have hmem : id ∈ x.graph.allIds := by
      refine (NswGraph.nodup_allIds x.graph).mem_of_length_le hsub ?_ ?_
      · rw [hkeys, NswGraph.length_allIds]
        exact hlen
      · rw [← AList.mem_keys, ← AList.lookup_isSome, hl]
        rfl
    rw [cell_of_lookup hl, NswGraph.mem_allIds.mp hmem]
    rfl

end VectorIndex

/-! ### The files of an index -/

namespace VecDir

/-- The locator table in the files. -/
def locatorDb (d : VecDir) : LocatorDb :=
  match d.vecMeta with
  | some env => env.volatile.locatorDb
  | none => ∅

/-- The vector stored under `id`. -/
def stored (d : VecDir) (id : NodeId) : Option (List F32) :=
  (d.locatorDb.lookup id).map fun loc =>
    decodeF32s (d.segs.mem.volatile.read loc.segId loc.offset loc.len)

/-- What holds of the files of an index with schema `s` and segments of `n` bytes between
    calls. -/
structure InvAt (n : Nat) (s : VectorSchema) (d : VecDir) : Prop where
  schema : ∀ env ∈ d.vecMeta, env.volatile.schema = some s
  located : ∀ id loc, d.locatorDb.lookup id = some loc →
    loc.segId ∈ d.segs.files ∧ loc.offset + loc.len ≤ n ∧ loc.len = s.dim * 4 ∧
      loc.offset + loc.len ≤ u32Max
  snapshot : SnapshotInv d.snapshot fun id => (d.locatorDb.lookup id).isSome

/-- What holds of the files of an index of an engine. -/
abbrev Inv (s : VectorSchema) (d : VecDir) : Prop := d.InvAt defaultVecSegmentSize s

variable {n : Nat}

/-- The empty directory. -/
theorem inv_empty (s : VectorSchema) : VecDir.empty.InvAt n s where
  schema := by
    intro env h
    exact nomatch h
  located := by
    intro id loc h
    exact nomatch h
  snapshot := by
    intro snap h
    exact nomatch h

/-- The files with the schema `t` in `vec_meta`. -/
def withSchema (d : VecDir) (t : VectorSchema) : VecDir :=
  { d with vecMeta := d.vecMeta.map fun env => env.write { env.volatile with schema := some t } }

/-- Writing the schema leaves the table. -/
theorem locatorDb_withSchema (d : VecDir) (t : VectorSchema) :
    (d.withSchema t).locatorDb = d.locatorDb := by
  unfold locatorDb withSchema
  cases d.vecMeta <;> rfl

/-- Files without vectors, whatever their schema: any snapshot is that of an empty graph. -/
structure Blank (d : VecDir) : Prop where
  lookup : ∀ id, d.locatorDb.lookup id = none
  snapshot : SnapshotInv d.snapshot fun _ => False

/-- A directory without locators. -/
theorem InvAt.blank {s : VectorSchema} {d : VecDir} (h : d.InvAt n s)
    (hno : ∀ id, d.locatorDb.lookup id = none) : d.Blank where
  lookup := hno
  snapshot := by
    apply h.snapshot.mono
    intro id hid
    rw [hno id] at hid
    exact nomatch hid

/-- Without vectors any schema fits the files. -/
theorem Blank.inv_withSchema {d : VecDir} (h : d.Blank) (t : VectorSchema) :
    (d.withSchema t).InvAt n t where
  schema := by
    intro env henv
    obtain ⟨env', -, rfl⟩ := Option.map_eq_some_iff.mp henv
    rfl
  located := by
    intro id loc hl
    rw [locatorDb_withSchema, h.lookup id] at hl
    exact nomatch hl
  snapshot := h.snapshot.mono fun _ hid => hid.elim

end VecDir

namespace VectorIndex

variable {n segSize : Nat} (A : F32Arith)

/-- What an index leaves can be opened again. -/
theorem InvAt.dir {x : VectorIndex} (h : x.InvAt n) : x.dir.InvAt n x.schema where
  schema := by
    intro env he
    rw [show x.dir.vecMeta = some x.env from rfl, Option.mem_some_iff] at he
    subst he
    exact h.schema
  located := by
    intro id loc hl
    obtain ⟨hh, hlen, hend⟩ := h.holds id loc hl
    refine ⟨hh.1, h.segSize ▸ hh.2.1, ?_, hend⟩
    rw [hlen, VecSegmentPool.byteLen, h.dim]
  snapshot := h.snapshot

/-- Files hold the vectors that the index stored. -/
theorem stored_dir (x : VectorIndex) (id : NodeId) : x.dir.stored id = (x.cell id).stored := by
  unfold VecDir.stored
  show (x.env.volatile.locatorDb.lookup id).map _ = _
  cases hl : x.env.volatile.locatorDb.lookup id with
  | none =>
    rw [cell_eq_absent.mpr hl]
    rfl
  | some loc =>
    rw [cell_of_lookup hl]
    cases x.graph.flag id with
    | none => rfl
    | some b => cases b <;> rfl

/-- An index over the files of `d` with some graph `g`. -/
private theorem inv_restored {s : VectorSchema} {d : VecDir} (h : d.InvAt n s)
    (hsize : VecSegmentPool.sizeOf segSize = n)
    (hslots : VecSegmentPool.Addressable n (s.dim * 4)) {env : Stored VecEnv}
    (hdb : env.volatile.locatorDb = d.locatorDb) (hs : env.volatile.schema = some s)
    {g : NswGraph} (hg : g.Inv) (hnodes : ∀ id, g.flag id ≠ none → (d.locatorDb.lookup id).isSome) :
    let x : VectorIndex :=
      ⟨s, env, VecSegmentPool.open d.segs segSize s.dim, g, env.volatile.locatorDb, d.snapshot⟩
    x.InvAt n ∧ ∀ id, x.cell id = match d.stored id with
      | none => .absent
      | some v => .ofFlag (g.flag id) v := by
  intro x
  have hx : x.env.volatile.locatorDb = d.locatorDb := hdb
  refine ⟨⟨VecSegmentPool.inv_open _ (hsize ▸ hslots), hsize, rfl, hs, rfl, ?_, hg, ?_, ?_⟩, ?_⟩
  · -- a new active segment leaves what the locators name
    intro id loc hl
    rw [hx] at hl
    obtain ⟨hmem, hend, hslot⟩ := h.located id loc hl
    exact ⟨VecSegmentPool.holds_open hmem (hsize ▸ hend), hslot⟩
  · intro id hid
    rw [hx]
    exact hnodes id hid
  · rw [hx]
    exact h.snapshot
  · -- the flag comes from the graph, the vector from the segment
    intro id
    unfold VecDir.stored
    cases hl : d.locatorDb.lookup id with
    | none =>
      exact cell_eq_absent.mpr (hx ▸ hl)
    | some loc =>
      rw [cell_of_lookup (hx ▸ hl)]
      show Cell.ofFlag (g.flag id)
        (decodeF32s ((VecSegmentPool.open d.segs segSize s.dim).writer.bytesAt loc)) = _
      rw [VecSegmentPool.bytesAt_open (h.located id loc hl).1]
      rfl

/-- What loading the snapshot gives. -/
theorem load_cases {s : VectorSchema} {d : VecDir} (h : d.InvAt n s) :
    (∃ g, Snapshot.load d.snapshot = .ok g ∧ (g.getD NswGraph.new).Inv ∧
      ∀ id, (g.getD NswGraph.new).flag id ≠ none → (d.locatorDb.lookup id).isSome) ∨
    ∃ err, Snapshot.load d.snapshot = .error err := by
  cases hs : d.snapshot with
  | none =>
    refine Or.inl ⟨none, rfl, NswGraph.inv_new, fun id hid => ?_⟩
    exact absurd (NswGraph.flag_new id) hid
  | some snap =>
    obtain ⟨g, rfl, hg, hnodes⟩ := h.snapshot snap hs
    rcases Snapshot.load_serialize hg with ⟨g', hl, hg', hflag⟩ | ⟨herr, -⟩
    · exact Or.inl ⟨some g', hl, hg', fun id hid => hnodes id (hflag id ▸ hid)⟩
    · exact Or.inr herr

/-- The heed environment after `VectorIndex::open` stored its schema. -/
private def openEnv (d : VecDir) (s : VectorSchema) : Stored VecEnv :=
  (d.vecMeta.getD (.synced ⟨none, ∅⟩)).write
    { (d.vecMeta.getD (.synced ⟨none, ∅⟩)).volatile with schema := some s }

/-- The environment an open works on. -/
private theorem openEnv_spec (d : VecDir) (s : VectorSchema) :
    (openEnv d s).volatile.locatorDb = d.locatorDb ∧
      (openEnv d s).volatile.schema = some s := by
  refine ⟨?_, rfl⟩
  unfold openEnv VecDir.locatorDb
  cases d.vecMeta <;> rfl

/-- `VectorIndex::open` on sound files: the snapshot decides what is visible. -/
theorem open_ok {s : VectorSchema} {d : VecDir} (h : d.InvAt n s)
    (hsize : VecSegmentPool.sizeOf segSize = n)
    (hslots : VecSegmentPool.Addressable n (s.dim * 4)) {g : Option NswGraph}
    (hload : Snapshot.load d.snapshot = .ok g) :
    ∃ x, «open» d s segSize = (.ok x, x.dir) ∧ x.InvAt n ∧ x.schema = s ∧
      ∀ id, x.cell id = match d.stored id with
        | none => .absent
        | some v => .ofFlag ((g.getD NswGraph.new).flag id) v := by
  rcases load_cases h with ⟨g', hl, hg, hnodes⟩ | ⟨err, hl⟩
  · rw [hload, Except.ok.injEq] at hl
    subst hl
    obtain ⟨hdb, hs⟩ := openEnv_spec d s
    obtain ⟨hinv, hcell⟩ := inv_restored h hsize hslots hdb hs hg hnodes
    refine ⟨_, ?_, hinv, rfl, hcell⟩
    unfold «open»
    rw [hload]
    rfl
  · rw [hload] at hl
    exact nomatch hl

/-- A snapshot that is refused ends the open. -/
theorem open_error {s : VectorSchema} {d : VecDir} {err : StoreError}
    (hload : Snapshot.load d.snapshot = .error err) : («open» d s 0).1 = .error err := by
  unfold «open»
  rw [hload]

/-- `VectorIndex::open` overwrites the stored schema. -/
theorem open_withSchema (d : VecDir) (t : VectorSchema) (segSize : Nat) :
    «open» (d.withSchema t) t segSize = «open» d t segSize := by
  unfold «open» VecDir.withSchema
  cases d.vecMeta <;> rfl

/-- Without vectors the snapshot is empty, and an empty snapshot loads: the index opens
    with any schema. -/
theorem open_blank {d : VecDir} (h : d.Blank) (t : VectorSchema)
    (hsize : VecSegmentPool.sizeOf segSize = n)
    (hslots : VecSegmentPool.Addressable n (t.dim * 4)) :
    ∃ x, «open» d t segSize = (.ok x, x.dir) ∧ x.InvAt n ∧ x.schema = t ∧
      ∀ id, x.cell id = .absent := by
  have hload : ∃ g, Snapshot.load d.snapshot = .ok g := by
    cases hs : d.snapshot with
    | none => exact ⟨none, rfl⟩
    | some snap =>
      obtain ⟨g, rfl, hg, hnodes⟩ := h.snapshot snap hs
      rcases Snapshot.load_serialize hg with ⟨g', hl, -⟩ | ⟨-, ep, -, hflag⟩
      · exact ⟨some g', hl⟩
      · exact (hnodes ep (by rw [hflag]; exact Option.some_ne_none _)).elim
  obtain ⟨g, hload⟩ := hload
  obtain ⟨x, hop, hx, hxs, hcell⟩ := open_ok (h.inv_withSchema t) hsize hslots hload
  rw [open_withSchema] at hop
  refine ⟨x, hop, hx, hxs, fun id => ?_⟩
  have hnone : (d.withSchema t).stored id = none := by
    unfold VecDir.stored
    rw [VecDir.locatorDb_withSchema, h.lookup id]
    rfl
  rw [hcell id, hnone]

/-- A session on an empty directory starts without vectors. -/
theorem open_empty {schema : VectorSchema} {x : VectorIndex}
    (hslots : VecSegmentPool.Addressable (VecSegmentPool.sizeOf segSize) (schema.dim * 4))
    (hopen : («open» .empty schema segSize).1 = .ok x) :
    x.InvAt (VecSegmentPool.sizeOf segSize) ∧ x.schema = schema ∧ ∀ id, x.cell id = .absent := by
  have hblank : VecDir.Blank .empty :=
    VecDir.InvAt.blank (VecDir.inv_empty schema) (n := VecSegmentPool.sizeOf segSize)
      fun id => rfl
  obtain ⟨y, hy, hinv, hschema, hcell⟩ := open_blank hblank schema rfl hslots
  rw [hy] at hopen
  obtain rfl : y = x := Except.ok.inj hopen
  exact ⟨hinv, hschema, hcell⟩

/-- Also an `open` that fails leaves sound files, and the vectors in them. -/
theorem open_left {s : VectorSchema} {d : VecDir} (h : d.Inv s) :
    («open» d s 0).2.Inv s ∧ («open» d s 0).2.vecMeta.isSome ∧
      («open» d s 0).2.snapshot = d.snapshot ∧
      ∀ id, («open» d s 0).2.stored id = d.stored id := by
  obtain ⟨hdb, hs⟩ := openEnv_spec d s
  -- the files are those of an index with an empty graph
  obtain ⟨hinv, hcell⟩ := inv_restored h VecSegmentPool.sizeOf_zero
    (VecSegmentPool.addressable_of_le VecSegmentPool.defaultVecSegmentSize_le _) hdb hs
    NswGraph.inv_new
    fun id hid => absurd (NswGraph.flag_new id) hid
  have hleft : («open» d s 0).2 = VectorIndex.dir ⟨s, openEnv d s,
      VecSegmentPool.open d.segs 0 s.dim, NswGraph.new, (openEnv d s).volatile.locatorDb,
      d.snapshot⟩ := by
    unfold «open»
    cases Snapshot.load d.snapshot <;> rfl
  rw [hleft]
  refine ⟨hinv.dir, rfl, rfl, fun id => ?_⟩
  rw [stored_dir, hcell id]
  cases d.stored id with
  | none => rfl
  | some v => rw [NswGraph.flag_new]; rfl

/-- The graph a reopen starts from has a locator for each node. -/
theorem snapshotOrNew_spec {s : VectorSchema} {d : VecDir} (h : d.InvAt n s) :
    (snapshotOrNew d.snapshot).Inv ∧
      ∀ id, (snapshotOrNew d.snapshot).flag id ≠ none → (d.locatorDb.lookup id).isSome := by
  unfold snapshotOrNew
  rcases load_cases h with ⟨g, hl, hinv, hnodes⟩ | ⟨err, hl⟩
  · rw [hl]
    cases g with
    | none => exact ⟨hinv, hnodes⟩
    | some g => exact ⟨hinv, hnodes⟩
  · rw [hl]
    exact ⟨NswGraph.inv_new, fun id hid => absurd (NswGraph.flag_new id) hid⟩

/-- `VectorIndex::reopen` on sound files succeeds and shows every stored vector. -/
theorem reopen_ok {s : VectorSchema} {d : VecDir} (h : d.InvAt n s)
    (hsize : VecSegmentPool.sizeOf segSize = n) (hle : n ≤ u32Max) {env : Stored VecEnv}
    (henv : d.vecMeta = some env) (order : MapOrder) :
    ∃ x, reopen A d segSize order = (.ok x, x.dir) ∧ x.InvAt n ∧ x.schema = s ∧
      ∀ id, x.cell id = match d.stored id with
        | none => .absent
        | some v => .live v := by
  have hs := h.schema env henv
  have hdb : env.volatile.locatorDb = d.locatorDb := by
    unfold VecDir.locatorDb
    rw [henv]
  -- the snapshot, or the empty graph, is sound over these locators
  obtain ⟨hg, hnodes⟩ := snapshotOrNew_spec h
  generalize hgraph : snapshotOrNew d.snapshot = g at hg hnodes
  obtain ⟨hinv, hcell⟩ := inv_restored h hsize
    (VecSegmentPool.addressable_of_le hle _) hdb hs hg hnodes
  have hre : reopen A d segSize order =
      (let x : VectorIndex :=
        ⟨s, env, VecSegmentPool.open d.segs segSize s.dim, g, env.volatile.locatorDb, d.snapshot⟩
      if g.len < x.locators.entries.length then (x.rebuildGraphFromData A order, x.dir)
      else (.ok x, x.dir)) := by
    unfold reopen
    simp only [henv, Option.getD_some, hs, hgraph]
  generalize hx : (⟨s, env, VecSegmentPool.open d.segs segSize s.dim, g, env.volatile.locatorDb,
    d.snapshot⟩ : VectorIndex) = x at *
  have hschema : x.schema = s := by rw [← hx]
  -- a rebuilt cell depends on the stored bytes only, not on the graph's flag
  have hlive : ∀ id, (x.cell id).rebuilt = match d.stored id with
      | none => .absent
      | some v => .live v := by
    intro id
    rw [hcell id]
    cases d.stored id with
    | none => rfl
    | some v =>
      cases g.flag id with
      | none => rfl
      | some b => cases b <;> rfl
  simp only at hre
  split at hre
  · -- the graph was rebuilt
    obtain ⟨g', hb, hinv', hcell'⟩ := rebuildGraphFromData_ok A hinv order
    rw [hb] at hre
    exact ⟨_, hre, hinv', hschema, fun id => (hcell' id).trans (hlive id)⟩
  · -- no rebuild: the graph has a live node for every locator
    rename_i hlen
    refine ⟨x, hre, hinv, hschema, fun id => ?_⟩
    rw [← hlive id]
    apply cell_of_len_le hinv
    rw [← hinv.cache, show x.graph = g by rw [← hx]]
    exact Nat.not_lt.mp hlen

/-! ### Checkpoint -/

/-- A checkpoint changes no cell. -/
theorem checkpoint_spec {x : VectorIndex} (h : x.InvAt n) :
    x.checkpoint.InvAt n ∧ x.checkpoint.schema = x.schema ∧
      ∀ id, x.checkpoint.cell id = x.cell id := by
  refine ⟨⟨VecSegmentPool.inv_flush h.pool, h.segSize, h.dim, h.schema, h.cache, h.holds,
    h.graph, h.nodes, ?_⟩, rfl, fun id => rfl⟩
  intro snap hs
  rw [show x.checkpoint.snapshot = some (Snapshot.serialize x.graph) from rfl,
    Option.mem_some_iff] at hs
  exact ⟨x.graph, hs.symm, h.graph, h.nodes⟩

end VectorIndex

end FusionStore
