import FusionStore.Spec.GraphCorrect
import FusionStore.Spec.SegmentCorrect

/-!
# The vector index, id by id

What an index stores under one id is a `Cell`: nothing, or a vector with a live node,
a soft-deleted node, or no node at all in the graph.  Every call acts on the cells of
the ids it names and on no other one, so whole logs can be followed id by id.

## Key results

- `insert_cases`, `delete_spec`, `insertBatch_spec`, `compact_spec`
- `reopen_spec`: a reopened index shows every stored vector, deleted or not
- `open_spec`: an index opened with a schema shows what the snapshot file says
-/

namespace FusionStore

/-- What an index stores under one id. -/
inductive Cell where
  | absent
  | hidden (vector : List F32)
  | live (vector : List F32)
  | dead (vector : List F32)
  deriving DecidableEq

namespace Cell

/-- A stored vector and the flag of its node. -/
def ofFlag (flag : Option Bool) (v : List F32) : Cell :=
  match flag with
  | none => .hidden v
  | some false => .live v
  | some true => .dead v

/-- A new id becomes live; a stored one is a duplicate. -/
def insert (v : List F32) : Cell → Cell
  | .absent => .live v
  | c => c

/-- Only a node can be soft-deleted. -/
def delete : Cell → Cell
  | .live v => .dead v
  | c => c

/-- The vector in the segments, with or without a node. -/
def stored : Cell → Option (List F32)
  | .absent => none
  | .hidden v => some v
  | .live v => some v
  | .dead v => some v

/-- What `get_vector` shows. -/
def visible : Cell → Option (List F32)
  | .live v => some v
  | _ => none

/-- What is left of a cell when the graph is rebuilt from the locators. -/
def rebuilt (c : Cell) : Cell :=
  match c.stored with
  | some v => .live v
  | none => .absent

/-- The effect of a logged operation on the cell of `id`. -/
def apply (id : NodeId) (c : Cell) : WalOp → Cell
  | .insertVector j v => if j = id then c.insert v else c
  | .deleteVector j => if j = id then c.delete else c
  | _ => c

/-- The effect of a whole log on the cell of `id`. -/
def applyAll (id : NodeId) (c : Cell) (ops : List WalOp) : Cell := ops.foldl (apply id) c

end Cell

/-- The snapshot file, if there is one, holds a sound graph over stored ids. -/
def SnapshotInv (snapshot : Option Snapshot) (stored : NodeId → Prop) : Prop :=
  ∀ s ∈ snapshot, ∃ g : NswGraph, s = Snapshot.serialize g ∧ g.Inv ∧
    ∀ id, g.flag id ≠ none → stored id

/-- What the nodes of a snapshot satisfy may be weakened. -/
theorem SnapshotInv.mono {snapshot : Option Snapshot} {P Q : NodeId → Prop}
    (h : SnapshotInv snapshot P) (hpq : ∀ id, P id → Q id) : SnapshotInv snapshot Q := by
  intro s hs
  obtain ⟨g, he, hinv, hg⟩ := h s hs
  exact ⟨g, he, hinv, fun id hid => hpq id (hg id hid)⟩

/-- A copy of the vector `v`. -/
def VecSegmentPool.Copied (p : VecSegmentPool) (loc : ValueLocator) (v : List F32) : Prop :=
  p.writer.Holds loc ∧ p.Slot loc ∧ p.writer.bytesAt loc = encodeF32s v

/-- A copy stays one as long as the pool keeps its bytes. -/
theorem VecSegmentPool.Copied.keeps {p q : VecSegmentPool} {loc : ValueLocator} {v : List F32}
    (h : p.Copied loc v) (hdim : q.dim = p.dim) (hk : p.writer.Keeps q.writer) :
    q.Copied loc v := by
  obtain ⟨hh, hslot, hb⟩ := h
  exact ⟨hk.holds loc hh, hslot.of_dim hdim, (hk.bytesAt loc hh).trans hb⟩

namespace VectorIndex

/-- The cell of `id`. -/
def cell (x : VectorIndex) (id : NodeId) : Cell :=
  match x.env.volatile.locatorDb.lookup id with
  | none => .absent
  | some loc => .ofFlag (x.graph.flag id) (decodeF32s (x.pool.writer.bytesAt loc))

/-- What holds of an index with segments of `n` bytes between calls. -/
structure InvAt (n : Nat) (x : VectorIndex) : Prop where
  pool : x.pool.Inv
  segSize : x.pool.segSize = n
  dim : x.pool.dim = x.schema.dim
  schema : x.env.volatile.schema = some x.schema
  cache : x.locators = x.env.volatile.locatorDb
  holds : ∀ id loc, x.env.volatile.locatorDb.lookup id = some loc →
    x.pool.writer.Holds loc ∧ x.pool.Slot loc
  graph : x.graph.Inv
  nodes : ∀ id, x.graph.flag id ≠ none → (x.env.volatile.locatorDb.lookup id).isSome
  snapshot : SnapshotInv x.snapshot fun id => (x.env.volatile.locatorDb.lookup id).isSome

/-- What holds of an index of an engine: its segments have the default size. -/
abbrev Inv (x : VectorIndex) : Prop := x.InvAt defaultVecSegmentSize

/-- Vectors of this dimension fit a segment. -/
def Fits (x : VectorIndex) : Prop := x.schema.dim * 4 ≤ x.pool.segSize

variable {n : Nat}

/-- The cell of an id with a locator: its flag in the graph and its bytes. -/
theorem cell_of_lookup {x : VectorIndex} {id : NodeId} {loc : ValueLocator}
    (h : x.env.volatile.locatorDb.lookup id = some loc) :
    x.cell id = .ofFlag (x.graph.flag id) (decodeF32s (x.pool.writer.bytesAt loc)) := by
  unfold cell
  rw [h]

/-- Absent is the same as without a locator. -/
theorem cell_eq_absent {x : VectorIndex} {id : NodeId} :
    x.cell id = .absent ↔ x.env.volatile.locatorDb.lookup id = none := by
  cases hl : x.env.volatile.locatorDb.lookup id with
  | none => simp only [cell, hl]
  | some loc =>
    rw [cell_of_lookup hl]
    cases x.graph.flag id with
    | none => simp [Cell.ofFlag]
    | some b => cases b <;> simp [Cell.ofFlag]

/-- The cells of two indexes agree where table, flag and bytes do. -/
theorem cell_congr {x y : VectorIndex} {id : NodeId}
    (hl : y.env.volatile.locatorDb.lookup id = x.env.volatile.locatorDb.lookup id)
    (hf : y.graph.flag id = x.graph.flag id)
    (hb : ∀ loc, x.env.volatile.locatorDb.lookup id = some loc →
      y.pool.writer.bytesAt loc = x.pool.writer.bytesAt loc) : y.cell id = x.cell id := by
  cases hloc : x.env.volatile.locatorDb.lookup id with
  | none => rw [cell_eq_absent.mpr hloc, cell_eq_absent.mpr (hl.trans hloc)]
  | some loc => rw [cell_of_lookup hloc, cell_of_lookup (hl.trans hloc), hf, hb loc hloc]

/-! ### Reads -/

/-- A stored vector is read as the bytes at its locator. -/
theorem vecSlice_eq {x : VectorIndex} (h : x.InvAt n) {id : NodeId} {loc : ValueLocator}
    (hl : x.env.volatile.locatorDb.lookup id = some loc) :
    x.vecSlice id = .ok (decodeF32s (x.pool.writer.bytesAt loc)) := by
  obtain ⟨hh, hslot⟩ := h.holds id loc hl
  unfold vecSlice
  rw [h.cache, hl]
  exact VecSegmentPool.vecSlice_of_holds hh hslot.1

/-- A visible cell is one whose node is live. -/
theorem visible_cell {x : VectorIndex} (h : x.InvAt n) (id : NodeId) :
    (x.cell id).visible ≠ none ↔ x.graph.flag id = some false := by
  cases hl : x.env.volatile.locatorDb.lookup id with
  | none =>
    rw [cell_eq_absent.mpr hl]
    constructor
    · exact fun hn => absurd rfl hn
    · intro hf
      have hsome := h.nodes id (by rw [hf]; exact Option.some_ne_none _)
      rw [hl] at hsome
      exact nomatch hsome
  | some loc =>
    rw [cell_of_lookup hl]
    cases x.graph.flag id with
    | none => simp [Cell.ofFlag, Cell.visible]
    | some b => cases b <;> simp [Cell.ofFlag, Cell.visible]

/-- `get_vector` shows exactly the live cells. -/
theorem getVector_eq {x : VectorIndex} (h : x.InvAt n) (id : NodeId) :
    x.getVector id = .ok (x.cell id).visible := by
  unfold getVector
  cases hdel : x.graph.isDeleted id with
  | true =>
    rw [if_pos rfl]
    have hnone : (x.cell id).visible = none := by
      by_contra hn
      rw [NswGraph.isDeleted_iff.mpr ((visible_cell h id).mp hn)] at hdel
      exact nomatch hdel
    rw [hnone]
  | false =>
    rw [if_neg Bool.false_ne_true]
    have hf := NswGraph.isDeleted_iff.mp hdel
    obtain ⟨loc, hl⟩ := Option.isSome_iff_exists.mp
      (h.nodes id (by rw [hf]; exact Option.some_ne_none _))
    rw [vecSlice_eq h hl, cell_of_lookup hl, hf]
    rfl

/-- `list_vector_ids` lists exactly the live cells. -/
theorem mem_listVectorIds {x : VectorIndex} (h : x.InvAt n) (id : NodeId) :
    id ∈ x.listVectorIds ↔ (x.cell id).visible ≠ none := by
  unfold listVectorIds
  rw [NswGraph.mem_allIds, visible_cell h]

/-! ### Insert and delete -/

/-- An index whose pool moved forward while table and graph stayed. -/
theorem inv_of_keeps {x : VectorIndex} (h : x.InvAt n) {pool : VecSegmentPool} (hp : pool.Inv)
    (hdim : pool.dim = x.pool.dim) (hk : x.pool.writer.Keeps pool.writer) :
    ({ x with pool } : VectorIndex).InvAt n ∧
      ∀ id, ({ x with pool } : VectorIndex).cell id = x.cell id := by
  refine ⟨⟨hp, hk.segSize.trans h.segSize, hdim.trans h.dim, h.schema, h.cache, ?_, h.graph,
    h.nodes, h.snapshot⟩,
    fun id => cell_congr rfl rfl fun loc hl => hk.bytesAt loc (h.holds id loc hl).1⟩
  intro id loc hl
  obtain ⟨hh, hslot⟩ := h.holds id loc hl
  exact ⟨hk.holds loc hh, hslot.of_dim hdim⟩

/-- A locator for a new vector: its id gets a cell without a node. -/
theorem inv_putLocator {x : VectorIndex} (h : x.InvAt n) (id : NodeId) {loc : ValueLocator}
    {vector : List F32} (hh : x.pool.writer.Holds loc) (hslot : x.pool.Slot loc)
    (hb : x.pool.writer.bytesAt loc = encodeF32s vector) :
    (x.putLocator id loc).InvAt n ∧
      (x.putLocator id loc).cell id = .ofFlag (x.graph.flag id) vector ∧
      ∀ j, j ≠ id → (x.putLocator id loc).cell j = x.cell j := by
  have hself : (x.putLocator id loc).env.volatile.locatorDb.lookup id = some loc :=
    AList.lookup_insert _
  have hother : ∀ j, j ≠ id → (x.putLocator id loc).env.volatile.locatorDb.lookup j =
      x.env.volatile.locatorDb.lookup j := fun j hj => AList.lookup_insert_ne hj
  -- no id loses its locator
  have hmono : ∀ j, (x.env.volatile.locatorDb.lookup j).isSome →
      ((x.putLocator id loc).env.volatile.locatorDb.lookup j).isSome := by
    intro j hj
    by_cases hji : j = id
    · rw [hji, hself]
      rfl
    · rw [hother j hji]
      exact hj
  -- table and cache take the same entry
  refine ⟨⟨h.pool, h.segSize, h.dim, h.schema, ?_, ?_, h.graph,
    fun j hj => hmono j (h.nodes j hj), h.snapshot.mono hmono⟩, ?_, ?_⟩
  · simp only [putLocator, h.cache, Stored.volatile_write]
  · intro j l hl
    by_cases hji : j = id
    · subst hji
      rw [hself, Option.some.injEq] at hl
      subst hl
      exact ⟨hh, hslot⟩
    · rw [hother j hji] at hl
      exact h.holds j l hl
  · -- the cell of the new id
    rw [cell_of_lookup hself]
    show Cell.ofFlag (x.graph.flag id) (decodeF32s (x.pool.writer.bytesAt loc)) = _
    rw [hb, decodeF32s_encodeF32s]
  · -- the other cells
    intro j hj
    exact cell_congr (hother j hj) rfl fun _ _ => rfl

/-- A node for a stored id that has none. -/
theorem inv_link {x : VectorIndex} (h : x.InvAt n) {id : NodeId} {g : NswGraph} (hg : g.Inv)
    (hsome : (x.env.volatile.locatorDb.lookup id).isSome)
    (hother : ∀ j, j ≠ id → g.flag j = x.graph.flag j) :
    ({ x with graph := g } : VectorIndex).InvAt n := by
  refine ⟨h.pool, h.segSize, h.dim, h.schema, h.cache, h.holds, hg, ?_, h.snapshot⟩
  intro j hj
  by_cases hji : j = id
  · rw [hji]
    exact hsome
  · exact h.nodes j (hother j hji ▸ hj)

variable (A : F32Arith)

/-- An insert whose vector reached a segment: the graph decides the rest, and it does not
    look at the distances for that. -/
theorem insert_of_append {x : VectorIndex} (hg : x.graph.Inv) {id : NodeId} {vector : List F32}
    (hdim : vector.length = x.schema.dim) (hl : x.env.volatile.locatorDb.lookup id = none)
    {loc : ValueLocator} {pool : VecSegmentPool} (happ : x.pool.append vector = (.ok loc, pool)) :
    (x.graph.flag id ≠ none ∧ x.insert A id vector =
      (.error (.duplicateVector id), ({ x with pool } : VectorIndex).putLocator id loc)) ∨
    (x.graph.flag id = none ∧ ∃ graph, x.insert A id vector =
        (.ok (), { ({ x with pool } : VectorIndex).putLocator id loc with graph }) ∧
      graph.Inv ∧ graph.flag id = some false ∧ ∀ j, j ≠ id → graph.flag j = x.graph.flag j) := by
  have hvalid : x.schema.validateDim vector = .ok () := by
    simp only [VectorSchema.validateDim, if_pos hdim]
  have hgraph : (({ x with pool } : VectorIndex).putLocator id loc).graph = x.graph := rfl
  obtain ⟨hn, hins⟩ | ⟨hn, graph, hins, hgi, hgid, hgo⟩ := NswGraph.insert_cases hg id
    ((({ x with pool } : VectorIndex).putLocator id loc).distTo A vector)
  · refine Or.inl ⟨hn, ?_⟩
    simp only [insert, hvalid, hl, Option.isSome_none, Bool.false_eq_true, ↓reduceIte, happ]
    rw [hgraph, hins]
  · refine Or.inr ⟨hn, graph, ?_, hgi, hgid, hgo⟩
    simp only [insert, hvalid, hl, Option.isSome_none, Bool.false_eq_true, ↓reduceIte, happ]
    rw [hgraph, hins]

/-- What an insert does to pool, table and graph, whatever the cache holds. -/
theorem insert_inversion {x : VectorIndex} (hp : x.pool.Inv) (hd : x.pool.dim = x.schema.dim)
    (hg : x.graph.Inv) (id : NodeId) (vector : List F32) :
    (vector.length ≠ x.schema.dim ∧
      x.insert A id vector = (.error (.dimensionMismatch x.schema.dim vector.length), x)) ∨
    (vector.length = x.schema.dim ∧ (x.env.volatile.locatorDb.lookup id).isSome ∧
      x.insert A id vector = (.error (.duplicateVector id), x)) ∨
    (vector.length = x.schema.dim ∧ x.env.volatile.locatorDb.lookup id = none ∧ x.Fits ∧
      ∃ loc pool, pool.Inv ∧ pool.dim = x.pool.dim ∧ x.pool.writer.Keeps pool.writer ∧
        pool.Copied loc vector ∧
        ((x.graph.flag id ≠ none ∧ x.insert A id vector =
            (.error (.duplicateVector id), ({ x with pool } : VectorIndex).putLocator id loc)) ∨
          (x.graph.flag id = none ∧ ∃ graph, x.insert A id vector =
              (.ok (), { ({ x with pool } : VectorIndex).putLocator id loc with graph }) ∧
            graph.Inv ∧ graph.flag id = some false ∧
            ∀ j, j ≠ id → graph.flag j = x.graph.flag j))) ∨
    (vector.length = x.schema.dim ∧ x.env.volatile.locatorDb.lookup id = none ∧ ¬x.Fits ∧
      ∃ msg pool, x.insert A id vector = (.error (.panicked msg), { x with pool }) ∧ pool.Inv ∧
        pool.dim = x.pool.dim ∧ x.pool.writer.Keeps pool.writer) := by
  by_cases hdim : vector.length = x.schema.dim
  case neg =>
    -- `validate_dim` comes first
    refine Or.inl ⟨hdim, ?_⟩
    simp only [insert, VectorSchema.validateDim, if_neg hdim]
  have hvalid : x.schema.validateDim vector = .ok () := by
    simp only [VectorSchema.validateDim, if_pos hdim]
  cases hl : x.env.volatile.locatorDb.lookup id with
  | some loc =>
    -- then the locator table is asked
    refine Or.inr (Or.inl ⟨hdim, rfl, ?_⟩)
    simp only [insert, hvalid, hl, Option.isSome_some, ↓reduceIte]
  | none =>
    -- and only then anything is written
    have hfits : x.Fits ↔ x.pool.byteLen ≤ x.pool.segSize := by
      unfold Fits VecSegmentPool.byteLen
      rw [hd]
    by_cases hfit : x.Fits
    · obtain ⟨loc, pool, happ, hpi, hpd, hk, hh, hb, hslot⟩ :=
        VecSegmentPool.append_ok hp (hdim.trans hd.symm) (hfits.mp hfit)
      exact Or.inr (Or.inr (Or.inl ⟨hdim, rfl, hfit, loc, pool, hpi, hpd, hk, ⟨hh, hslot, hb⟩,
        insert_of_append A hg hdim hl happ⟩))
    · obtain ⟨msg, pool, happ, hpi, hpd, hk⟩ :=
        VecSegmentPool.append_error hp vector (Nat.not_le.mp fun hle => hfit (hfits.mpr hle))
      refine Or.inr (Or.inr (Or.inr ⟨hdim, rfl, hfit, msg, pool, ?_, hpi, hpd, hk⟩))
      simp only [insert, hvalid, hl, Option.isSome_none, Bool.false_eq_true, ↓reduceIte, happ]

/-- Everything `insert` can do. -/
theorem insert_cases {x : VectorIndex} (h : x.InvAt n) (id : NodeId) (vector : List F32) :
    (vector.length ≠ x.schema.dim ∧
      x.insert A id vector = (.error (.dimensionMismatch x.schema.dim vector.length), x)) ∨
    (vector.length = x.schema.dim ∧ x.cell id ≠ .absent ∧
      x.insert A id vector = (.error (.duplicateVector id), x)) ∨
    (vector.length = x.schema.dim ∧ x.cell id = .absent ∧ x.Fits ∧
      ∃ y, x.insert A id vector = (.ok (), y) ∧ y.InvAt n ∧ y.schema = x.schema ∧
        y.cell id = .live vector ∧ ∀ j, j ≠ id → y.cell j = x.cell j) ∨
    (vector.length = x.schema.dim ∧ x.cell id = .absent ∧ ¬x.Fits ∧
      ∃ msg y, x.insert A id vector = (.error (.panicked msg), y) ∧ y.InvAt n ∧
        y.schema = x.schema ∧ ∀ j, y.cell j = x.cell j) := by
  obtain hc | ⟨hdim, hsome, hc⟩ | ⟨hdim, hl, hfit, loc, pool, hp, hpd, hk, ⟨hh, hslot, hb⟩, hc⟩ |
    ⟨hdim, hl, hfit, msg, pool, hc, hp, hpd, hk⟩ :=
      insert_inversion A h.pool h.dim h.graph id vector
  · exact Or.inl hc
  · -- the id has a locator
    refine Or.inr (Or.inl ⟨hdim, ?_, hc⟩)
    rw [ne_eq, cell_eq_absent]
    exact Option.isSome_iff_ne_none.mp hsome
  · have habs : x.cell id = .absent := cell_eq_absent.mpr hl
    obtain ⟨hn, -⟩ | ⟨-, g, hins, hg, hgid, hgo⟩ := hc
    · -- a node without a locator
      have hsome := h.nodes id hn
      rw [hl] at hsome
      exact nomatch hsome
    -- append, locator and link, one after the other
    obtain ⟨h1, hc1⟩ := inv_of_keeps h hp hpd hk
    obtain ⟨h2, hself, hc2⟩ := inv_putLocator h1 id hh hslot hb
    have hlook : (({ x with pool } : VectorIndex).putLocator id
        loc).env.volatile.locatorDb.lookup id = some loc := AList.lookup_insert _
    have h3 := inv_link h2 hg (Option.isSome_iff_exists.mpr ⟨loc, hlook⟩) hgo
    refine Or.inr (Or.inr (Or.inl ⟨hdim, habs, hfit, _, hins, h3, rfl, ?_, ?_⟩))
    · refine Eq.trans (cell_of_lookup hlook) ?_
      show Cell.ofFlag (g.flag id) (decodeF32s (pool.writer.bytesAt loc)) = _
      rw [hgid, hb, decodeF32s_encodeF32s]
      rfl
    · intro j hj
      rw [← hc1 j, ← hc2 j hj]
      exact cell_congr rfl (hgo j hj) fun _ _ => rfl
  · -- a vector that does not fit leaves at most an unused segment
    obtain ⟨h1, hc1⟩ := inv_of_keeps h hp hpd hk
    exact Or.inr (Or.inr (Or.inr ⟨hdim, cell_eq_absent.mpr hl, hfit, msg, _, hc, h1, rfl, hc1⟩))

/-- `delete` acts on one cell. -/
theorem delete_spec {x : VectorIndex} (h : x.InvAt n) (id : NodeId) :
    (x.delete id).2.InvAt n ∧ (x.delete id).2.schema = x.schema ∧
      (x.delete id).2.cell id = (x.cell id).delete ∧
      ∀ j, j ≠ id → (x.delete id).2.cell j = x.cell j := by
  obtain ⟨hg, hself, hother, -⟩ := NswGraph.delete_spec h.graph id
  refine ⟨⟨h.pool, h.segSize, h.dim, h.schema, h.cache, h.holds, hg, ?_, h.snapshot⟩, rfl, ?_, ?_⟩
  · -- a node that is left had a locator before
    intro j hj
    by_cases hji : j = id
    · subst hji
      apply h.nodes
      intro hn
      apply hj
      show (x.graph.delete j).2.flag j = none
      rw [hself, hn]
      rfl
    · exact h.nodes j (hother j hji ▸ hj)
  · -- the cell of this id changes its flag and keeps its bytes
    cases hl : x.env.volatile.locatorDb.lookup id with
    | none =>
      rw [cell_eq_absent.mpr hl]
      exact cell_eq_absent.mpr hl
    | some loc =>
      rw [cell_of_lookup hl]
      refine Eq.trans (cell_of_lookup hl) ?_
      show Cell.ofFlag ((x.graph.delete id).2.flag id) _ = _
      rw [hself]
      cases x.graph.flag id with
      | none => rfl
      | some b => cases b <;> rfl
  · intro j hj
    exact cell_congr rfl (hother j hj) fun _ _ => rfl

/-! ### Batches -/

/-- The schema fits the pool exactly when one vector fits a segment. -/
theorem fits_iff {x : VectorIndex} (h : x.InvAt n) : x.Fits ↔ x.pool.byteLen ≤ x.pool.segSize := by
  unfold Fits VecSegmentPool.byteLen
  rw [h.dim]

/-- The append loop stores every item; a repeated id keeps its last vector. -/
theorem appendItems_spec {x : VectorIndex} (h : x.InvAt n) (hfit : x.Fits)
    {items : List (NodeId × List F32)} (hdim : ∀ e ∈ items, e.2.length = x.schema.dim) :
    ∃ y, x.appendItems items = (.ok (), y) ∧ y.InvAt n ∧ y.schema = x.schema ∧
      y.graph = x.graph ∧ (∀ j, j ∉ items.map Prod.fst → y.cell j = x.cell j) ∧
      (∀ j ∈ items.map Prod.fst, y.cell j ≠ .absent) ∧
      ((items.map Prod.fst).Nodup → ∀ e ∈ items, y.cell e.1 = .ofFlag (x.graph.flag e.1) e.2) := by
  induction items generalizing x with
  | nil =>
    refine ⟨x, rfl, h, rfl, rfl, fun _ _ => rfl, ?_, ?_⟩
    · intro j hj
      exact nomatch hj
    · intro _ e he
      exact nomatch he
  | cons e items ih =>
    obtain ⟨id, vector⟩ := e
    -- append, write the locator, then go on from the index that leaves
    obtain ⟨loc, pool, happ, hp, hpd, hk, hh, hb, hslot⟩ := VecSegmentPool.append_ok h.pool
      ((hdim _ List.mem_cons_self).trans h.dim.symm) ((fits_iff h).mp hfit)
    obtain ⟨h1, hc1⟩ := inv_of_keeps h hp hpd hk
    obtain ⟨h2, hself, hc2⟩ := inv_putLocator h1 id hh hslot hb
    have hfit' : x.schema.dim * 4 ≤ pool.segSize := by
      rw [show pool.segSize = x.pool.segSize from hk.segSize]
      exact hfit
    obtain ⟨y, happs, hy, hys, hyg, hother, hin, hnd⟩ :=
      ih h2 hfit' (fun e he => hdim e (List.mem_cons_of_mem _ he))
    -- an id with a locator is not absent, whatever its flag
    have hnotabs : (({ x with pool } : VectorIndex).putLocator id loc).cell id ≠ .absent := by
      rw [hself]
      cases x.graph.flag id with
      | none => exact fun hn => nomatch hn
      | some b => cases b <;> exact fun hn => nomatch hn
    refine ⟨y, ?_, hy, hys, hyg, ?_, ?_, ?_⟩
    · simp only [appendItems, happ]
      exact happs
    · intro j hj
      rw [List.map_cons, List.mem_cons, not_or] at hj
      rw [hother j hj.2, hc2 j hj.1, hc1 j]
    · intro j hj
      by_cases hji : j ∈ items.map Prod.fst
      · exact hin j hji
      · rw [List.map_cons, List.mem_cons] at hj
        rw [hother j hji, hj.resolve_right hji]
        exact hnotabs
    · -- with distinct ids the locator of an item is not written over
      intro hnodup e he
      rw [List.map_cons, List.nodup_cons] at hnodup
      rcases List.mem_cons.mp he with rfl | he
      · rw [hother id hnodup.1]
        exact hself
      · exact hnd hnodup.2 e he

/-- The link loop gives nodes to stored ids and touches no other cell. -/
theorem linkItems_spec {x : VectorIndex} (h : x.InvAt n) {items : List (NodeId × List F32)}
    (hin : ∀ j ∈ items.map Prod.fst, x.cell j ≠ .absent) :
    (x.linkItems A items).2.InvAt n ∧ (x.linkItems A items).2.schema = x.schema ∧
      (∀ j, j ∉ items.map Prod.fst → (x.linkItems A items).2.cell j = x.cell j) ∧
      ((items.map Prod.fst).Nodup → (∀ e ∈ items, x.cell e.1 = .hidden e.2) →
        (x.linkItems A items).1 = .ok () ∧
          ∀ e ∈ items, (x.linkItems A items).2.cell e.1 = .live e.2) := by
  induction items generalizing x with
  | nil =>
    refine ⟨h, rfl, fun _ _ => rfl, fun _ _ => ⟨rfl, ?_⟩⟩
    intro e he
    exact nomatch he
  | cons e items ih =>
    obtain ⟨id, vector⟩ := e
    -- an item that is stored has a locator
    have hsome : (x.env.volatile.locatorDb.lookup id).isSome := by
      have hn := hin id (List.mem_cons_self)
      rw [ne_eq, cell_eq_absent] at hn
      exact Option.isSome_iff_ne_none.mpr hn
    unfold linkItems
    rcases NswGraph.insert_cases h.graph id (x.distTo A vector) with
      ⟨hf, he⟩ | ⟨hf, g, he, hg, hgid, hgo⟩
    · -- the id has a node already: the loop stops
      rw [he]
      refine ⟨h, rfl, fun _ _ => rfl, fun _ hhid => ?_⟩
      obtain ⟨loc, hl⟩ := Option.isSome_iff_exists.mp hsome
      have hc := hhid (id, vector) List.mem_cons_self
      rw [cell_of_lookup hl] at hc
      cases hfl : x.graph.flag id with
      | none => exact absurd hfl hf
      | some b =>
        rw [hfl] at hc
        cases b <;> exact nomatch hc
    · rw [he]
      -- the node is linked, and the id is live
      have h1 := inv_link h hg hsome hgo
      have hc1 : ∀ j, j ≠ id → ({ x with graph := g } : VectorIndex).cell j = x.cell j :=
        fun j hj => cell_congr rfl (hgo j hj) fun _ _ => rfl
      have hself : ∀ v, x.cell id = .hidden v →
          ({ x with graph := g } : VectorIndex).cell id = .live v := by
        intro v hv
        obtain ⟨loc, hl⟩ := Option.isSome_iff_exists.mp hsome
        rw [cell_of_lookup hl, hf] at hv
        obtain ⟨rfl⟩ := hv
        refine Eq.trans (cell_of_lookup hl) ?_
        show Cell.ofFlag (g.flag id) _ = _
        rw [hgid]
        rfl
      -- linking changes no locator, so the later items are still stored
      obtain ⟨hy, hys, hother, hnd⟩ := ih h1 (by
        intro j hj
        rw [ne_eq, cell_eq_absent]
        have hn := hin j (List.mem_cons_of_mem _ hj)
        rw [ne_eq, cell_eq_absent] at hn
        exact hn)
      refine ⟨hy, hys, ?_, ?_⟩
      · intro j hj
        rw [List.map_cons, List.mem_cons, not_or] at hj
        exact (hother j hj.2).trans (hc1 j hj.1)
      · -- with distinct ids no later item touches what this one made live
        intro hnodup hhid
        rw [List.map_cons, List.nodup_cons] at hnodup
        have hne : ∀ e ∈ items, e.1 ≠ id := by
          rintro e hmem rfl
          exact hnodup.1 (List.mem_map.mpr ⟨e, hmem, rfl⟩)
        obtain ⟨hok, hlive⟩ := hnd hnodup.2 (fun e he => by
          rw [hc1 e.1 (hne e he)]
          exact hhid e (List.mem_cons_of_mem _ he))
        refine ⟨hok, fun e he' => ?_⟩
        rcases List.mem_cons.mp he' with rfl | he'
        · exact (hother id hnodup.1).trans (hself _ (hhid _ List.mem_cons_self))
        · exact hlive e he'

/-- The checks at the head of `insert_batch`. -/
theorem insertBatch_cases (x : VectorIndex) (items : List (NodeId × List F32)) :
    ((∃ e ∈ items, e.2.length ≠ x.schema.dim) ∧ ∃ err, x.insertBatch A items = (.error err, x) ∧
      ∃ a b, err = .dimensionMismatch a b) ∨
    ((∀ e ∈ items, e.2.length = x.schema.dim) ∧ ∃ e ∈ items, x.cell e.1 ≠ .absent ∧
      x.insertBatch A items = (.error (.duplicateVector e.1), x)) ∨
    ((∀ e ∈ items, e.2.length = x.schema.dim) ∧ (∀ e ∈ items, x.cell e.1 = .absent) ∧
      x.insertBatch A items = match x.appendItems items with
        | (.error e, y) => (.error e, { y with env := x.env })
        | (.ok _, y) => y.linkItems A items) := by
  generalize hr : x.insertBatch A items = r
  unfold insertBatch at hr
  -- first all dimensions, then all ids
  split at hr
  · -- some item has another length
    rename_i err hd
    obtain ⟨e, he, hv⟩ := List.exists_of_findSome?_eq_some hd
    have hne : e.2.length ≠ x.schema.dim := by
      intro heq
      simp only [VectorSchema.validateDim, if_pos heq] at hv
      exact nomatch hv
    simp only [VectorSchema.validateDim, if_neg hne, Option.some.injEq] at hv
    exact Or.inl ⟨⟨e, he, hne⟩, err, hr.symm, _, _, hv.symm⟩
  · rename_i hd
    have hdims : ∀ e ∈ items, e.2.length = x.schema.dim := by
      intro e he
      by_contra hne
      have hv := List.findSome?_eq_none_iff.mp hd e he
      simp only [VectorSchema.validateDim, if_neg hne] at hv
      exact nomatch hv
    split at hr
    · -- some id is stored
      rename_i e hf
      refine Or.inr (Or.inl ⟨hdims, e, List.mem_of_find?_eq_some hf, ?_, hr.symm⟩)
      rw [ne_eq, cell_eq_absent]
      exact Option.isSome_iff_ne_none.mp (by simpa using List.find?_some hf)
    · -- neither, so the items are written
      rename_i hf
      refine Or.inr (Or.inr ⟨hdims, ?_, hr.symm⟩)
      intro e he
      rw [cell_eq_absent]
      simpa using List.find?_eq_none.mp hf e he

/-- A batch changes the cells of its own ids only, whatever it returns. -/
theorem insertBatch_spec {x : VectorIndex} (h : x.InvAt n) (items : List (NodeId × List F32)) :
    (x.insertBatch A items).2.InvAt n ∧ (x.insertBatch A items).2.schema = x.schema ∧
      ∀ j, j ∉ items.map Prod.fst → (x.insertBatch A items).2.cell j = x.cell j := by
  rcases insertBatch_cases A x items with ⟨-, err, he, -⟩ | ⟨-, e, -, -, he⟩ | ⟨hdims, habs, he⟩
  · -- a vector of the wrong dimension
    rw [he]
    exact ⟨h, rfl, fun _ _ => rfl⟩
  · -- an id that is stored
    rw [he]
    exact ⟨h, rfl, fun _ _ => rfl⟩
  · by_cases hfit : x.Fits
    · -- everything is appended, then linked one by one
      obtain ⟨y, happ, hy, hys, -, hother, hin, -⟩ := appendItems_spec h hfit hdims
      rw [happ] at he
      rw [he]
      obtain ⟨hz, hzs, hzo, -⟩ := linkItems_spec A hy hin
      exact ⟨hz, hzs.trans hys, fun j hj => (hzo j hj).trans (hother j hj)⟩
    · cases items with
      | nil =>
        rw [he]
        exact ⟨h, rfl, fun _ _ => rfl⟩
      | cons e items =>
        -- the first append panics, so nothing reached the table or the cache
        obtain ⟨msg, pool, happ, hp, hpd, hk⟩ := VecSegmentPool.append_error h.pool e.2
          (Nat.not_le.mp fun hle => hfit ((fits_iff h).mpr hle))
        obtain ⟨h1, hc1⟩ := inv_of_keeps h hp hpd hk
        simp only [appendItems, happ] at he
        rw [he]
        exact ⟨h1, rfl, fun j _ => hc1 j⟩

/-- A batch of new, pairwise distinct ids makes each of them live. -/
theorem insertBatch_fresh {x : VectorIndex} (h : x.InvAt n) (hfit : x.Fits)
    {items : List (NodeId × List F32)} (hdims : ∀ e ∈ items, e.2.length = x.schema.dim)
    (habs : ∀ e ∈ items, x.cell e.1 = .absent) (hnd : (items.map Prod.fst).Nodup) :
    (x.insertBatch A items).1 = .ok () ∧
      ∀ e ∈ items, (x.insertBatch A items).2.cell e.1 = .live e.2 := by
  rcases insertBatch_cases A x items with ⟨⟨e, he, hne⟩, -⟩ | ⟨-, e, he, hne, -⟩ | ⟨-, -, he⟩
  · exact absurd (hdims e he) hne
  · exact absurd (habs e he) hne
  · obtain ⟨y, happ, hy, hys, hyg, hother, hin, hcells⟩ := appendItems_spec h hfit hdims
    rw [happ] at he
    rw [he]
    refine (linkItems_spec A hy hin).2.2.2 hnd fun e hmem => ?_
    rw [hcells hnd e hmem]
    have hflag : x.graph.flag e.1 = none := by
      by_contra hn
      have hsome := h.nodes e.1 hn
      rw [cell_eq_absent.mp (habs e hmem)] at hsome
      exact nomatch hsome
    rw [hflag]
    rfl

/-- A graph loop that gets through met no id that had a node. -/
theorem linkItems_ok {x : VectorIndex} (hg : x.graph.Inv) {items : List (NodeId × List F32)}
    (hok : (x.linkItems A items).1 = .ok ()) :
    (items.map Prod.fst).Nodup ∧ ∀ id ∈ items.map Prod.fst, x.graph.flag id = none := by
  induction items generalizing x with
  | nil => exact ⟨.nil, fun id hid => nomatch hid⟩
  | cons e items ih =>
    obtain ⟨id, vector⟩ := e
    unfold linkItems at hok
    obtain ⟨-, he⟩ | ⟨hf, g, he, hgi, hgid, hgo⟩ := NswGraph.insert_cases hg id (x.distTo A vector)
    · -- an id with a node ends the loop
      rw [he] at hok
      exact nomatch hok
    · rw [he] at hok
      obtain ⟨hnd, hfree⟩ := ih (x := { x with graph := g }) hgi hok
      -- the new node stands in the way of a second item with its id
      have hnew : id ∉ items.map Prod.fst := by
        intro hmem
        have hnone : g.flag id = none := hfree id hmem
        rw [hgid] at hnone
        exact nomatch hnone
      refine ⟨List.nodup_cons.mpr ⟨hnew, hnd⟩, fun j hj => ?_⟩
      obtain rfl | hj := List.mem_cons.mp hj
      · exact hf
      · have hne : j ≠ id := fun heq => hnew (heq ▸ hj)
        exact (hgo j hne).symm.trans (hfree j hj)

/-- A batch that is accepted had new, pairwise distinct ids and fitting vectors. -/
theorem insertBatch_ok {x : VectorIndex} (h : x.InvAt n) {items : List (NodeId × List F32)}
    (hok : (x.insertBatch A items).1 = .ok ()) :
    (∀ e ∈ items, e.2.length = x.schema.dim) ∧ (∀ e ∈ items, x.Fits) ∧
      ∀ e ∈ items, (x.insertBatch A items).2.cell e.1 = .live e.2 := by
  obtain ⟨-, err, he, -⟩ | ⟨-, e, -, -, he⟩ | ⟨hdims, habs, he⟩ := insertBatch_cases A x items
  · -- a vector of the wrong dimension
    rw [he] at hok
    exact nomatch hok
  · -- an id that is stored
    rw [he] at hok
    exact nomatch hok
  by_cases hfit : x.Fits
  · obtain ⟨y, happ, hy, -⟩ := appendItems_spec h hfit hdims
    rw [happ] at he
    rw [he] at hok
    obtain ⟨hnd, -⟩ := linkItems_ok A hy.graph hok
    exact ⟨hdims, fun _ _ => hfit, (insertBatch_fresh A h hfit hdims habs hnd).2⟩
  · cases items with
    | nil => simp
    | cons e items =>
      -- the first append panics
      obtain ⟨msg, pool, happ, -⟩ := VecSegmentPool.append_error h.pool e.2
        (Nat.not_le.mp fun hle => hfit ((fits_iff h).mpr hle))
      rw [he] at hok
      simp only [appendItems, happ] at hok
      exact nomatch hok

end VectorIndex

end FusionStore
