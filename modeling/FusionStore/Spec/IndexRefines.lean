import Mathlib.Data.Set.Card
import FusionStore.ForStd.Routed
import FusionStore.ForStd.Run
import FusionStore.Spec.CompactCorrect
import FusionStore.Spec.SessionCorrect

/-!
# A session on a vector index against a map

`VecMap` is what a caller knows of an index: the vectors it stored, each with a flag for
its soft delete.  Table, cache and graph of an index follow that map through every
sequence of inserts, batches, deletes and compactions (`Inv.step`, `Inv.refines`),
provided that 32 bits can address every slot of a segment.  Where they cannot, a session
that fills one segment reads back the wrong bytes (`exists_unfaithful`).
-/

namespace FusionStore

/-- The vectors of an index by id; the flag is set by a soft delete. -/
abbrev VecMap := NodeId → Option (List F32 × Bool)

namespace VecMap

/-- A new id is stored; an id that is present keeps what it has. -/
def insert (m : VecMap) (id : NodeId) (vector : List F32) : VecMap :=
  if (m id).isSome then m else Function.update m id (some (vector, false))

/-- All ids are new, or nothing is stored. -/
def insertBatch (m : VecMap) (items : List (NodeId × List F32)) : VecMap :=
  if items.any fun e => (m e.1).isSome then m
  else Routed.setAll m (items.map fun e => (e.1, (e.2, false)))

def delete (m : VecMap) (id : NodeId) : VecMap :=
  Function.update m id ((m id).map fun e => (e.1, true))

/-- Only a compaction frees the ids of soft-deleted vectors. -/
def compact (m : VecMap) : VecMap := fun id => (m id).filter fun e => !e.2

/-- What is inserted and not deleted. -/
def visible (m : VecMap) (id : NodeId) : Option (List F32) :=
  match m id with
  | some (v, false) => some v
  | _ => none

/-- The cell of an id in an index that follows the map. -/
def cell (m : VecMap) (id : NodeId) : Cell :=
  match m id with
  | none => .absent
  | some (v, b) => .ofFlag (some b) v

/-- What the map shows of an id. -/
theorem visible_cell (m : VecMap) (id : NodeId) : (m.cell id).visible = m.visible id := by
  unfold cell visible
  rcases m id with _ | ⟨v, _ | _⟩ <;> rfl

/-- Stored ids, soft-deleted ones included. -/
theorem cell_ne_absent {m : VecMap} {id : NodeId} : m.cell id ≠ .absent ↔ (m id).isSome := by
  unfold cell
  rcases m id with _ | ⟨v, _ | _⟩ <;> simp [Cell.ofFlag]

/-- The map hides nothing. -/
theorem cell_ne_hidden (m : VecMap) (id : NodeId) (v : List F32) : m.cell id ≠ .hidden v := by
  unfold cell
  rcases m id with _ | ⟨w, _ | _⟩ <;> simp [Cell.ofFlag]

/-- A cell is given by the entry of its id. -/
theorem cell_congr {m n : VecMap} {id : NodeId} (h : m id = n id) : m.cell id = n.cell id := by
  rw [cell, cell, h]

/-- A delete of the map marks one cell. -/
theorem cell_delete (m : VecMap) (id : NodeId) : (m.delete id).cell id = (m.cell id).delete := by
  unfold cell delete
  rw [Function.update_self]
  rcases m id with _ | ⟨v, _ | _⟩ <;> rfl

/-- A compaction of the map drops the marked ones. -/
theorem cell_compact (m : VecMap) (id : NodeId) : m.compact.cell id = (m.cell id).compacted := by
  unfold cell compact
  rcases m id with _ | ⟨v, _ | _⟩ <;> rfl

/-- A compaction shows what was shown before. -/
theorem visible_compact (m : VecMap) (id : NodeId) : m.compact.visible id = m.visible id := by
  unfold visible compact
  rcases m id with _ | ⟨v, _ | _⟩ <;> rfl

end VecMap

/-- The calls of a session. -/
inductive VectorCall where
  | insert (id : NodeId) (vector : List F32)
  | insertBatch (items : List (NodeId × List F32))
  | delete (id : NodeId)
  | compact (order : MapOrder) (avail : Option Nat)

/-- Vectors have the dimension of the schema, and no batch names an id twice. -/
def VectorCall.Fine (dim : Nat) : VectorCall → Prop
  | .insert _ vector => vector.length = dim
  | .insertBatch items => (∀ e ∈ items, e.2.length = dim) ∧ (items.map Prod.fst).Nodup
  | .delete _ => True
  | .compact _ _ => True

instance VectorCall.decidableFine (dim : Nat) : ∀ c : VectorCall, Decidable (c.Fine dim)
  | .insert _ vector => inferInstanceAs (Decidable (vector.length = dim))
  | .insertBatch items => inferInstanceAs
    (Decidable ((∀ e ∈ items, e.2.length = dim) ∧ (items.map Prod.fst).Nodup))
  | .delete _ => .isTrue trivial
  | .compact _ _ => .isTrue trivial

/-- An index beside the map its caller keeps. -/
structure IndexSession where
  index : VectorIndex
  stored : VecMap

namespace IndexSession

variable (A : F32Arith)

/-- One call.  The map looks at the answer of a compaction only: it fails when the disk
    has no room for the copies, and then frees nothing. -/
def step (s : IndexSession) : VectorCall → IndexSession
  | .insert id vector => ⟨(s.index.insert A id vector).2, s.stored.insert id vector⟩
  | .insertBatch items => ⟨(s.index.insertBatch A items).2, s.stored.insertBatch items⟩
  | .delete id => ⟨(s.index.delete id).2, s.stored.delete id⟩
  | .compact order avail =>
    match s.index.compact A order avail with
    | (.ok _, index) => ⟨index, s.stored.compact⟩
    | (.error _, index) => ⟨index, s.stored⟩

/-- A session on the index `x`, which holds nothing yet. -/
def start (x : VectorIndex) : IndexSession := ⟨x, fun _ => none⟩

/-- An index that cannot be told from the map. -/
structure Refines (dim : Nat) (s : IndexSession) : Prop where
  nodes : ∀ id, id ∈ s.index.graph.nodes ↔ (s.stored id).isSome
  table : ∀ id, id ∈ s.index.env.volatile.locatorDb ↔ (s.stored id).isSome
  cache : ∀ id, id ∈ s.index.locators ↔ (s.stored id).isSome
  get : ∀ id, s.index.getVector id = .ok (s.stored.visible id)
  list : s.index.listVectorIds.Nodup ∧
    ∀ id, id ∈ s.index.listVectorIds ↔ (s.stored.visible id).isSome
  len : s.index.len = {id | (s.stored.visible id).isSome}.ncard
  insert : ∀ id vector, vector.length = dim → (s.index.insert A id vector).1 =
    if (s.stored id).isSome then .error (.duplicateVector id) else .ok ()
  insertBatch : ∀ items, (VectorCall.insertBatch items).Fine dim →
    if ∃ e ∈ items, (s.stored e.1).isSome then
      ∃ e ∈ items, (s.stored e.1).isSome ∧
        (s.index.insertBatch A items).1 = .error (.duplicateVector e.1)
    else (s.index.insertBatch A items).1 = .ok ()
  compact : ∀ order avail, let y := (s.index.compact A order avail).2
    (∀ id, y.getVector id = s.index.getVector id) ∧
      y.listVectorIds.Perm s.index.listVectorIds ∧ y.len = s.index.len
  compacted : ∀ order avail,
    VectorIndex.ensureDiskAvailable avail s.index.diskBytes = .ok () →
      ∃ live, (s.index.compact A order avail).1 = .ok live

/-! ### Addressable slots -/

/-- What holds between the calls of a session with addressable slots. -/
structure Inv (n dim : Nat) (s : IndexSession) : Prop where
  index : s.index.InvAt n
  schema : s.index.schema.dim = dim
  fits : dim * 4 ≤ n
  cells : ∀ id, s.index.cell id = s.stored.cell id

variable {n dim : Nat} {s : IndexSession}

/-- A vector fits a segment of the index. -/
theorem Inv.fits_index (h : s.Inv n dim) : s.index.Fits := by
  unfold VectorIndex.Fits
  rw [h.schema, h.index.segSize]
  exact h.fits

/-- The index stores what the map has. -/
theorem Inv.present (h : s.Inv n dim) {id : NodeId} :
    s.index.cell id ≠ .absent ↔ (s.stored id).isSome := by
  rw [h.cells, VecMap.cell_ne_absent]

/-- Everything an insert of the session's dimension does. -/
theorem Inv.insert_cases (h : s.Inv n dim) (id : NodeId) {vector : List F32}
    (hdim : vector.length = dim) :
    ((s.stored id).isSome ∧
      s.index.insert A id vector = (.error (.duplicateVector id), s.index)) ∨
    (s.stored id = none ∧ ∃ y, s.index.insert A id vector = (.ok (), y) ∧
      (⟨y, Function.update s.stored id (some (vector, false))⟩ : IndexSession).Inv n dim) := by
  have hdim' := hdim.trans h.schema.symm
  obtain ⟨hne, -⟩ | ⟨-, hne, he⟩ | ⟨-, habs, -, y, he, hy, hys, hself, hother⟩ |
    ⟨-, -, hno, -⟩ := VectorIndex.insert_cases A h.index id vector
  · exact absurd hdim' hne
  · exact Or.inl ⟨h.present.mp hne, he⟩
  · refine Or.inr ⟨?_, y, he, hy, hys ▸ h.schema, h.fits, fun j => ?_⟩
    · rw [← Option.not_isSome_iff_eq_none, ← h.present, habs]
      exact fun hn => hn rfl
    · by_cases hj : j = id
      · subst hj
        simp [VecMap.cell, hself, Cell.ofFlag]
      · rw [hother j hj, h.cells]
        exact VecMap.cell_congr (Function.update_of_ne hj _ _).symm
  · exact absurd h.fits_index hno

/-- Everything a well-formed batch does. -/
theorem Inv.insertBatch_cases (h : s.Inv n dim) {items : List (NodeId × List F32)}
    (hdims : ∀ e ∈ items, e.2.length = dim) (hnd : (items.map Prod.fst).Nodup) :
    (∃ e ∈ items, (s.stored e.1).isSome ∧
      s.index.insertBatch A items = (.error (.duplicateVector e.1), s.index)) ∨
    ((∀ e ∈ items, s.stored e.1 = none) ∧ ∃ y, s.index.insertBatch A items = (.ok (), y) ∧
      (⟨y, Routed.setAll s.stored (items.map fun e => (e.1, (e.2, false)))⟩ :
        IndexSession).Inv n dim) := by
  have hdims' : ∀ e ∈ items, e.2.length = s.index.schema.dim :=
    fun e he => (hdims e he).trans h.schema.symm
  obtain ⟨⟨e, he, hne⟩, -⟩ | ⟨-, e, he, hne, hr⟩ | ⟨-, habs, -⟩ :=
    VectorIndex.insertBatch_cases A s.index items
  · -- the dimensions are right by assumption
    exact absurd (hdims' e he) hne
  · -- an id that is stored refuses the whole batch
    exact Or.inl ⟨e, he, h.present.mp hne, hr⟩
  · -- all ids are new: the map gets the items, and nothing else changes
    obtain ⟨hok, hlive⟩ := VectorIndex.insertBatch_fresh A h.index h.fits_index hdims' habs hnd
    obtain ⟨hy, hys, hother⟩ := VectorIndex.insertBatch_spec A h.index items
    have hkeys : (items.map fun e => (e.1, (e.2, false))).map Prod.fst = items.map Prod.fst := by
      simp
    refine Or.inr ⟨fun e he => ?_, _, Prod.ext hok rfl, hy, hys ▸ h.schema, h.fits, fun j => ?_⟩
    · rw [← Option.not_isSome_iff_eq_none, ← h.present, habs e he]
      exact fun hn => hn rfl
    · by_cases hj : j ∈ items.map Prod.fst
      · obtain ⟨e, he, rfl⟩ := List.mem_map.mp hj
        have hset : Routed.setAll s.stored (items.map fun e => (e.1, (e.2, false))) e.1 =
            some (e.2, false) :=
          Routed.setAll_of_mem (hkeys ▸ hnd) (List.mem_map.mpr ⟨e, he, rfl⟩)
        simp only [VecMap.cell, hset]
        exact hlive e he
      · rw [hother j hj, h.cells]
        exact VecMap.cell_congr (Routed.setAll_of_notMem (hkeys ▸ hj)).symm

/-- A compaction fails for want of disk space only, and then changes nothing. -/
theorem Inv.compact_cases (h : s.Inv n dim) (order : MapOrder) (avail : Option Nat) :
    (∃ e, VectorIndex.ensureDiskAvailable avail s.index.diskBytes = .error e ∧
      s.index.compact A order avail = (.error e, s.index)) ∨
    (∃ live y, s.index.compact A order avail = (.ok live, y) ∧
      (⟨y, s.stored.compact⟩ : IndexSession).Inv n dim) := by
  obtain ⟨locs, pool, graph, hr⟩ := VectorIndex.rewritten_ok A h.index order
  rw [VectorIndex.compact_eq A hr]
  split
  · rename_i e hdisk
    exact Or.inl ⟨e, hdisk, rfl⟩
  · refine Or.inr ⟨_, _, rfl, VectorIndex.inv_switched A h.index hr, h.schema, h.fits, fun id => ?_⟩
    rw [VectorIndex.cell_switched A hr, VecMap.cell_compact, h.cells]

/-- The invariant through a delete. -/
theorem Inv.delete (h : s.Inv n dim) (id : NodeId) :
    (⟨(s.index.delete id).2, s.stored.delete id⟩ : IndexSession).Inv n dim := by
  obtain ⟨hy, hys, hself, hother⟩ := VectorIndex.delete_spec h.index id
  refine ⟨hy, hys ▸ h.schema, h.fits, fun j => ?_⟩
  by_cases hj : j = id
  · subst hj
    rw [hself, VecMap.cell_delete, h.cells]
  · rw [hother j hj, h.cells]
    exact VecMap.cell_congr (Function.update_of_ne hj _ _).symm

/-- Every well-formed call keeps index and map together. -/
theorem Inv.step (h : s.Inv n dim) {c : VectorCall} (hc : c.Fine dim) :
    (s.step A c).Inv n dim := by
  cases c with
  | insert id vector =>
    -- index and map refuse the same calls and take the same ones
    obtain ⟨hsome, he⟩ | ⟨hnone, y, he, hy⟩ := h.insert_cases A id hc
    · simp only [IndexSession.step, VecMap.insert, he, hsome, ↓reduceIte]
      exact h
    · simp only [IndexSession.step, VecMap.insert, he, hnone, Option.isSome_none,
        Bool.false_eq_true, ↓reduceIte]
      exact hy
  | insertBatch items =>
    obtain ⟨e, hmem, hsome, he⟩ | ⟨hnone, y, he, hy⟩ := h.insertBatch_cases A hc.1 hc.2
    · have hany : (items.any fun e => (s.stored e.1).isSome) = true :=
        List.any_eq_true.mpr ⟨e, hmem, hsome⟩
      simp only [IndexSession.step, VecMap.insertBatch, he, hany, ↓reduceIte]
      exact h
    · have hany : (items.any fun e => (s.stored e.1).isSome) = false := by
        simpa using hnone
      simp only [IndexSession.step, VecMap.insertBatch, he, hany, Bool.false_eq_true, ↓reduceIte]
      exact hy
  | delete id => exact h.delete id
  | compact order avail =>
    obtain ⟨e, -, he⟩ | ⟨live, y, he, hy⟩ := h.compact_cases A order avail
    · -- a compaction that fails for lack of disk changes nothing
      simp only [IndexSession.step, he]
      exact h
    · simp only [IndexSession.step, he]
      exact hy

/-- Every stored vector has its node, soft-deleted or not. -/
theorem Inv.mem_nodes (h : s.Inv n dim) (id : NodeId) :
    id ∈ s.index.graph.nodes ↔ (s.stored id).isSome := by
  rw [← AList.lookup_isSome, ← NswGraph.flag_ne_none, ← h.present]
  constructor
  · intro hf
    rw [ne_eq, VectorIndex.cell_eq_absent]
    exact Option.isSome_iff_ne_none.mp (h.index.nodes id hf)
  · intro hne hf
    -- a cell without a node is hidden, and the map has no such cells
    obtain ⟨loc, hl⟩ := Option.ne_none_iff_exists'.mp fun hn =>
      hne (VectorIndex.cell_eq_absent.mpr hn)
    have hc := h.cells id
    rw [VectorIndex.cell_of_lookup hl, hf] at hc
    exact VecMap.cell_ne_hidden _ _ _ hc.symm

/-- The locator table holds the ids of the map. -/
theorem Inv.mem_table (h : s.Inv n dim) (id : NodeId) :
    id ∈ s.index.env.volatile.locatorDb ↔ (s.stored id).isSome := by
  rw [← h.present, ne_eq, VectorIndex.cell_eq_absent, ← AList.lookup_isSome,
    Option.isSome_iff_ne_none]

/-- A read shows the map. -/
theorem Inv.getVector (h : s.Inv n dim) (id : NodeId) :
    s.index.getVector id = .ok (s.stored.visible id) := by
  rw [VectorIndex.getVector_eq h.index, h.cells, VecMap.visible_cell]

/-- So does the list of ids. -/
theorem Inv.mem_list (h : s.Inv n dim) (id : NodeId) :
    id ∈ s.index.listVectorIds ↔ (s.stored.visible id).isSome := by
  rw [VectorIndex.mem_listVectorIds h.index, h.cells, VecMap.visible_cell,
    Option.isSome_iff_ne_none]

/-- And `len`. -/
theorem Inv.len (h : s.Inv n dim) :
    s.index.len = {id | (s.stored.visible id).isSome}.ncard := by
  have hset : {id | (s.stored.visible id).isSome} =
      (s.index.listVectorIds.toFinset : Set NodeId) := by
    ext id
    simp [h.mem_list]
  have hnd : s.index.listVectorIds.Nodup := NswGraph.nodup_allIds _
  rw [hset, Set.ncard_coe_finset, List.toFinset_card_of_nodup hnd]
  exact (NswGraph.length_allIds _).symm

/-- A compaction shows the same vectors, in the order of the new graph. -/
theorem Inv.compact_visible (h : s.Inv n dim) (order : MapOrder) (avail : Option Nat) :
    let y := (s.index.compact A order avail).2
    (∀ id, y.getVector id = s.index.getVector id) ∧
      y.listVectorIds.Perm s.index.listVectorIds ∧ y.len = s.index.len := by
  obtain ⟨e, -, he⟩ | ⟨live, y, he, hy⟩ := h.compact_cases A order avail
  · rw [he]
    exact ⟨fun _ => rfl, .rfl, rfl⟩
  · rw [he]
    have hperm : y.listVectorIds.Perm s.index.listVectorIds := by
      refine (List.perm_ext_iff_of_nodup (NswGraph.nodup_allIds _) (NswGraph.nodup_allIds _)).mpr
        fun id => ?_
      exact (hy.mem_list id).trans ((VecMap.visible_compact s.stored id ▸ h.mem_list id).symm)
    refine ⟨fun id => ?_, hperm, ?_⟩
    · rw [hy.getVector, h.getVector, VecMap.visible_compact]
    · rw [VectorIndex.len, VectorIndex.len, ← NswGraph.length_allIds, ← NswGraph.length_allIds]
      exact hperm.length_eq

/-- A session whose cells follow the map cannot be told from it. -/
theorem Inv.refines (h : s.Inv n dim) : s.Refines A dim where
  nodes := h.mem_nodes
  table := h.mem_table
  cache := h.index.cache ▸ h.mem_table
  get := h.getVector
  list := ⟨NswGraph.nodup_allIds _, h.mem_list⟩
  len := h.len
  -- both sides branch on whether the id is stored
  insert := by
    intro id vector hdim
    obtain ⟨hsome, he⟩ | ⟨hnone, y, he, -⟩ := h.insert_cases A id hdim
    · rw [he, if_pos hsome]
    · rw [he, hnone]
      rfl
  insertBatch := by
    intro items hc
    obtain ⟨e, hmem, hsome, he⟩ | ⟨hnone, y, he, -⟩ := h.insertBatch_cases A hc.1 hc.2
    · rw [if_pos ⟨e, hmem, hsome⟩]
      exact ⟨e, hmem, hsome, by rw [he]⟩
    · rw [if_neg, he]
      rintro ⟨e, hmem, hsome⟩
      rw [hnone e hmem] at hsome
      exact nomatch hsome
  compact := h.compact_visible A
  compacted := by
    -- what the compaction reports is the number of live vectors
    intro order avail hok
    obtain ⟨e, hdisk, -⟩ | ⟨live, y, he, -⟩ := h.compact_cases A order avail
    · rw [hok] at hdisk
      exact nomatch hdisk
    · exact ⟨live, by rw [he]⟩

/-! ### Slots out of reach -/

/-- A session that has filled the first `j` slots of its segment, under the ids below `j`. -/
structure Filled (n dim j : Nat) (s : IndexSession) : Prop where
  schema : s.index.schema.dim = dim
  pool : s.index.pool.dim = dim
  segSize : s.index.pool.segSize = n
  writer : s.index.pool.writer.Inv
  cursor : s.index.pool.activeCursor = j * (dim * 4)
  graph : s.index.graph.Inv
  table : ∀ id : NodeId, j ≤ id.toNat → s.index.env.volatile.locatorDb.lookup id = none
  node : ∀ id : NodeId, j ≤ id.toNat → s.index.graph.flag id = none
  stored : ∀ id : NodeId, j ≤ id.toNat → s.stored id = none

variable {j : Nat}

/-- The slots have the length of a vector. -/
theorem Filled.byteLen (h : s.Filled n dim j) : s.index.pool.byteLen = dim * 4 := by
  rw [VecSegmentPool.byteLen, h.pool]

/-- The locator of the next vector: offset and length are cut to 32 bits. -/
def slot (s : IndexSession) (dim j : Nat) : ValueLocator :=
  ⟨s.index.pool.activeId, j * (dim * 4) % 2 ^ 32, dim * 4 % 2 ^ 32⟩

/-- The next slot takes a vector. -/
theorem Filled.insert (h : s.Filled n dim j) (hj : j < 2 ^ 64) (hroom : (j + 1) * (dim * 4) ≤ n)
    {vector : List F32} (hdim : vector.length = dim) :
    let s' := s.step A (.insert (.ofNat j) vector)
    s'.Filled n dim (j + 1) ∧ s.index.pool.writer.Keeps s'.index.pool.writer ∧
      s'.index.pool.activeId = s.index.pool.activeId ∧
      s'.stored.visible (.ofNat j) = some vector ∧
      s'.index.graph.flag (.ofNat j) = some false ∧
      s'.index.locators.lookup (.ofNat j) = some (s.slot dim j) ∧
      s'.index.env.volatile.locatorDb.lookup (.ofNat j) = some (s.slot dim j) := by
  have hid : (UInt64.ofNat j).toNat = j := by
    rw [UInt64.toNat_ofNat', Nat.mod_eq_of_lt hj]
  -- the ids behind `j` stay free
  have hne : ∀ id : NodeId, j + 1 ≤ id.toNat → j ≤ id.toNat ∧ id ≠ .ofNat j := by
    intro id hle
    refine ⟨by omega, ?_⟩
    rintro rfl
    omega
  -- the slot lies inside the active segment, so nothing rotates
  have hcur : s.index.pool.activeCursor + s.index.pool.byteLen = (j + 1) * (dim * 4) := by
    rw [h.cursor, h.byteLen, Nat.add_mul, Nat.one_mul]
  have hstay : s.index.pool.activeCursor + s.index.pool.byteLen ≤ s.index.pool.segSize := by
    rw [hcur, h.segSize]
    exact hroom
  have hbytes : (encodeF32s vector).length = s.index.pool.byteLen := by
    rw [length_encodeF32s, hdim, h.byteLen]
  obtain ⟨pool, happ, hw, hd⟩ := VecSegmentPool.append_here (hdim.trans h.pool.symm) hstay
  rw [h.cursor, h.byteLen] at happ
  -- the pool has written the slot, and the id is free in table and graph
  obtain ⟨hf, -⟩ | ⟨-, graph, he, hg, hgid, hgo⟩ := VectorIndex.insert_of_append A h.graph
    (hdim.trans h.schema.symm) (h.table _ hid.ge) happ
  · exact absurd (h.node _ hid.ge) hf
  simp only [IndexSession.step, he, VecMap.insert, h.stored _ hid.ge, Option.isSome_none,
    Bool.false_eq_true, ↓reduceIte]
  have hput : s.index.pool.writer.cursor + (encodeF32s vector).length ≤
      s.index.pool.writer.segSize := hbytes ▸ hstay
  refine ⟨⟨h.schema, hd.trans h.pool, ?_, hw ▸ Writer.inv_put h.writer hput, ?_, hg, ?_, ?_, ?_⟩,
    hw ▸ Writer.keeps_put _ _, congrArg Writer.id hw, ?_, hgid, AList.lookup_insert _,
    AList.lookup_insert _⟩
  · exact (congrArg Writer.segSize hw).trans h.segSize
  · rw [← hcur, ← hbytes]
    exact congrArg Writer.cursor hw
  · -- the ids behind the new one are untouched
    intro id hle
    exact (AList.lookup_insert_ne (hne id hle).2).trans (h.table id (hne id hle).1)
  · intro id hle
    exact (hgo id (hne id hle).2).trans (h.node id (hne id hle).1)
  · intro id hle
    exact (Function.update_of_ne (hne id hle).2 _ _).trans (h.stored id (hne id hle).1)
  · simp [VecMap.visible]

/-- Zero vectors under consecutive ids. -/
def fillCalls (dim k : Nat) : List VectorCall :=
  (List.range k).map fun j => .insert (.ofNat j) (List.replicate dim 0)

/-- The calls that fill a segment are well formed. -/
theorem fine_fillCalls (dim k : Nat) : ∀ c ∈ fillCalls dim k, c.Fine dim := by
  intro c hc
  obtain ⟨j, -, rfl⟩ := List.mem_map.mp hc
  exact List.length_replicate

/-- One insert more. -/
theorem exec_fillCalls_succ (s : IndexSession) (dim k : Nat) :
    Run.exec (step A) s (fillCalls dim (k + 1)) =
      (Run.exec (step A) s (fillCalls dim k)).step A
        (.insert (.ofNat k) (List.replicate dim 0)) := by
  simp [fillCalls, Run.exec, List.range_succ]

/-- As long as there is room, the inserts fill one slot after the other. -/
theorem Filled.fill (h : s.Filled n dim 0) {k : Nat} (hk : k ≤ 2 ^ 64)
    (hroom : k * (dim * 4) ≤ n) : (Run.exec (step A) s (fillCalls dim k)).Filled n dim k := by
  induction k with
  | zero => exact h
  | succ k ih =>
    have hle : k * (dim * 4) ≤ n := by
      rw [Nat.add_mul] at hroom
      omega
    have hk' := ih (by omega) hle
    rw [exec_fillCalls_succ]
    exact (hk'.insert A (by omega) hroom List.length_replicate).1

/-- Nothing is stored in a new index. -/
theorem filled_start {schema : VectorSchema} {segSize : Nat} {x : VectorIndex}
    (hopen : (VectorIndex.open .empty schema segSize).1 = .ok x) :
    (start x).Filled (VecSegmentPool.sizeOf segSize) schema.dim 0 := by
  obtain rfl := Except.ok.inj hopen
  exact ⟨rfl, rfl, rfl, VecSegmentPool.writer_inv_open .empty segSize schema.dim,
    (Nat.zero_mul _).symm, NswGraph.inv_new, fun _ _ => rfl, fun _ _ => rfl, fun _ _ => rfl⟩

/-- What a faithful index reads at the place of the vector it has just stored. -/
theorem Filled.vecSlice_of_refines (h : s.Filled n dim j) (hj : j < 2 ^ 64)
    (hroom : (j + 1) * (dim * 4) ≤ n) {vector : List F32} (hdim : vector.length = dim)
    (hr : (s.step A (.insert (.ofNat j) vector)).Refines A dim) :
    (s.step A (.insert (.ofNat j) vector)).index.pool.vecSlice (s.slot dim j) = .ok vector := by
  obtain ⟨-, -, -, hvis, hflag, hcache, -⟩ := h.insert A hj hroom hdim
  have hget := hr.get (.ofNat j)
  rw [hvis] at hget
  simp only [VectorIndex.getVector, NswGraph.isDeleted_iff.mpr hflag, Bool.false_eq_true,
    ↓reduceIte, VectorIndex.vecSlice, hcache] at hget
  cases hv : (s.step A (.insert (.ofNat j) vector)).index.pool.vecSlice (s.slot dim j) with
  | error e =>
    rw [hv] at hget
    exact nomatch hget
  | ok v =>
    rw [hv] at hget
    exact congrArg Except.ok (Option.some.inj (Except.ok.inj hget))

/-- A vector of 2 ^ 32 bytes or more is read back shorter than it is. -/
theorem Filled.unfaithful_of_len (h : s.Filled n dim j) (hj : j < 2 ^ 64)
    (hroom : (j + 1) * (dim * 4) ≤ n) (hlong : 2 ^ 32 ≤ dim * 4) {vector : List F32}
    (hdim : vector.length = dim) : ¬(s.step A (.insert (.ofNat j) vector)).Refines A dim := by
  intro hr
  have hlen := VecSegmentPool.length_vecSlice (h.vecSlice_of_refines A hj hroom hdim hr)
  simp only [slot] at hlen
  omega

/-- There are two vectors of any positive length. -/
theorem exists_ne_of_length {k : Nat} (hk : 0 < k) (w : List F32) :
    ∃ v : List F32, v.length = k ∧ v ≠ w := by
  by_cases hw : List.replicate k 0 = w
  · refine ⟨List.replicate k F32.one, List.length_replicate, fun heq => ?_⟩
    rw [← hw, List.replicate_right_inj (by omega)] at heq
    exact absurd heq (by decide)
  · exact ⟨_, List.length_replicate, hw⟩

/-- Behind byte 2 ^ 32 a locator points into the slots at the head of its segment. -/
theorem Filled.unfaithful_of_offset (h : s.Filled n dim j) (hj : j < 2 ^ 64)
    (hroom : (j + 1) * (dim * 4) ≤ n) (hlen : dim * 4 < 2 ^ 32) (hoff : 2 ^ 32 ≤ j * (dim * 4))
    (hlast : j * (dim * 4) < 2 ^ 32 + dim * 4) :
    ∃ vector : List F32, vector.length = dim ∧
      ¬(s.step A (.insert (.ofNat j) vector)).Refines A dim := by
  have hpos : 0 < dim := by
    by_contra h0
    obtain rfl : dim = 0 := by omega
    omega
  -- the place the cut locator names was written before the last insert
  have hcut : j * (dim * 4) % 2 ^ 32 = j * (dim * 4) - 2 ^ 32 := by omega
  have hplace : s.index.pool.writer.Holds (s.slot dim j) := by
    have hsize := h.segSize
    have hcur := h.cursor
    rw [Nat.add_mul] at hroom
    refine ⟨h.writer.mem, ?_, Or.inr ⟨rfl, ?_⟩⟩ <;> simp only [VecSegmentPool.writer, slot] <;>
      omega
  -- a vector other than the one read at that place
  obtain ⟨vector, hdim, hne⟩ := exists_ne_of_length hpos
    (decodeF32s (s.index.pool.writer.bytesAt (s.slot dim j)))
  refine ⟨vector, hdim, fun hr => hne ?_⟩
  obtain ⟨hf, hk, -⟩ := h.insert A hj hroom hdim
  -- after the insert the old bytes are still read there
  have hread := h.vecSlice_of_refines A hj hroom hdim hr
  rw [VecSegmentPool.vecSlice_of_holds (hk.holds _ hplace)
    (by rw [hf.byteLen, slot, Nat.mod_eq_of_lt hlen]), hk.bytesAt _ hplace] at hread
  exact (Except.ok.inj hread).symm

/-- The last slot of a segment ends behind byte 2 ^ 32: once the segment is sealed, the end
    of that slot does not fit `u32` and `compact` panics. -/
theorem Filled.unfaithful_of_end (h : s.Filled n dim j) (hj : j + 1 < 2 ^ 64)
    (hroom : (j + 1) * (dim * 4) ≤ n) (hfull : n < (j + 2) * (dim * 4))
    (hlen : dim * 4 < 2 ^ 32) (hoff : j * (dim * 4) < 2 ^ 32)
    (hend : 2 ^ 32 ≤ (j + 1) * (dim * 4)) {v w : List F32} (hv : v.length = dim)
    (hw : w.length = dim) :
    ¬((s.step A (.insert (.ofNat j) v)).step A (.insert (.ofNat (j + 1)) w)).Refines A dim := by
  intro hr
  obtain ⟨hf, -, hactive, -, hflag, -, hloc⟩ := h.insert A (by omega) hroom hv
  generalize s.step A (.insert (.ofNat j) v) = s' at hf hactive hflag hloc hr
  have hid : (UInt64.ofNat (j + 1)).toNat = j + 1 := by
    rw [UInt64.toNat_ofNat', Nat.mod_eq_of_lt hj]
  have hne : UInt64.ofNat j ≠ UInt64.ofNat (j + 1) := by
    intro heq
    have hnat := congrArg UInt64.toNat heq
    rw [hid, UInt64.toNat_ofNat', Nat.mod_eq_of_lt (by omega)] at hnat
    omega
  -- the segment is full, so the second insert seals it
  have hrem : s'.index.pool.remaining < s'.index.pool.byteLen := by
    rw [VecSegmentPool.remaining, hf.byteLen, hf.segSize, hf.cursor]
    rw [Nat.add_mul] at hfull hroom ⊢
    omega
  have hfit : s'.index.pool.byteLen ≤ s'.index.pool.segSize := by
    rw [hf.byteLen, hf.segSize]
    rw [Nat.add_mul] at hroom
    omega
  obtain ⟨pool, happ, hpw, -⟩ := VecSegmentPool.append_rotated (hw.trans hf.pool.symm) hrem hfit
  obtain ⟨hn, -⟩ | ⟨-, graph, he, -, -, hgo⟩ := VectorIndex.insert_of_append A hf.graph
    (hw.trans hf.schema.symm) (hf.table _ hid.ge) happ
  · exact absurd (hf.node _ hid.ge) hn
  -- a faithful index can be compacted
  obtain ⟨live, hok⟩ := hr.compacted .id none rfl
  simp only [IndexSession.step, he] at hok
  have hactive' : pool.activeId = s.index.pool.activeId + 1 := by
    rw [← hactive]
    exact congrArg Writer.id hpw
  -- what the scan makes of the last slot
  have hread : ∃ e, pool.readVec (s.slot dim j) = .error e := by
    unfold VecSegmentPool.readVec slot
    simp only [Nat.mod_eq_of_lt hoff, Nat.mod_eq_of_lt hlen]
    rw [if_neg (by omega)]
    split
    · exact ⟨_, rfl⟩
    · rw [Nat.add_mul] at hend
      rw [if_pos (by unfold u32Max; omega)]
      exact ⟨_, rfl⟩
  obtain ⟨e, hread⟩ := hread
  -- the last slot belongs to a live id, so the scan reads it
  have hkept : (.ofNat j : NodeId) ∉ graph.allDeletedIds := by
    rw [NswGraph.mem_allDeletedIds, hgo _ hne, hflag]
    intro hdead
    cases hdead
  obtain ⟨e', hscan⟩ := VectorIndex.readLive_error
    (x := { ({ s'.index with pool } : VectorIndex).putLocator (.ofNat (j + 1))
      ⟨s'.index.pool.activeId + 1, 0, s'.index.pool.byteLen % 2 ^ 32⟩ with graph })
    ((AList.lookup_insert_ne hne).trans hloc) hkept hread
  simp only [VectorIndex.compact, VectorIndex.ensureDiskAvailable, hscan] at hok
  cases hok

/-- The first slot that ends behind byte 2 ^ 32 still starts before it. -/
theorem first_out_of_reach {byteLen : Nat} (hno : ¬VecSegmentPool.Addressable n byteLen) :
    ∃ i, (i + 1) * byteLen ≤ n ∧ 2 ^ 32 ≤ (i + 1) * byteLen ∧ i * byteLen < 2 ^ 32 ∧
      i < 2 ^ 32 := by
  simp only [VecSegmentPool.Addressable, not_forall, Nat.not_le] at hno
  obtain ⟨k, hroom, hlt⟩ := hno
  -- the first slot that ends behind the reach of 32 bits
  have hex : ∃ i, 2 ^ 32 ≤ (i + 1) * byteLen := by
    refine ⟨k, ?_⟩
    unfold u32Max at hlt
    omega
  have hle : Nat.find hex ≤ k := Nat.find_min' hex (by unfold u32Max at hlt; omega)
  have hend := Nat.find_spec hex
  have hmin : ∀ i, i < Nat.find hex → (i + 1) * byteLen < 2 ^ 32 :=
    fun i hi => Nat.not_le.mp (Nat.find_min hex hi)
  generalize Nat.find hex = i at hle hend hmin
  -- it still begins within it
  have hoff : i * byteLen < 2 ^ 32 := by
    obtain _ | i := i
    · omega
    · exact hmin i (by omega)
  have hpos : 0 < byteLen := by
    by_contra h0
    obtain rfl : byteLen = 0 := by omega
    omega
  exact ⟨i, Nat.le_trans (Nat.mul_le_mul_right _ (by omega)) hroom, hend, hoff,
    Nat.lt_of_le_of_lt (Nat.le_mul_of_pos_right _ hpos) hoff⟩

/-- A dimension for which some slot is out of reach, and the session that gets there. -/
theorem exists_unfaithful {s : IndexSession} (h : s.Filled n dim 0)
    (hno : ¬VecSegmentPool.Addressable n (dim * 4)) :
    ∃ calls, (∀ c ∈ calls, c.Fine dim) ∧ ¬(Run.exec (step A) s calls).Refines A dim := by
  obtain ⟨i, hroom, hend, hoff, hi⟩ := first_out_of_reach hno
  have hfine := fine_fillCalls dim
  have hzero : (List.replicate dim (0 : F32)).length = dim := List.length_replicate
  -- three ways to get there: too long a vector, a slot behind the limit, a slot across it
  by_cases hlen : dim * 4 < 2 ^ 32
  case neg =>
    have hfirst : (0 + 1) * (dim * 4) ≤ n := by
      rw [Nat.add_mul] at hroom
      omega
    exact ⟨fillCalls dim 1, hfine 1,
      h.unfaithful_of_len A (by decide) hfirst (Nat.not_lt.mp hlen) hzero⟩
  by_cases hnext : (i + 2) * (dim * 4) ≤ n
  · -- the slot behind it starts out of reach
    have hfill := h.fill A (by omega) hroom
    have hlast : (i + 1) * (dim * 4) < 2 ^ 32 + dim * 4 := by
      rw [Nat.add_mul]
      omega
    obtain ⟨vector, hdim, hbad⟩ := hfill.unfaithful_of_offset A (by omega) hnext hlen hend hlast
    refine ⟨fillCalls dim (i + 1) ++ [.insert (.ofNat (i + 1)) vector], fun c hc => ?_, ?_⟩
    · obtain hc | hc := List.mem_append.mp hc
      · exact hfine (i + 1) c hc
      · obtain rfl := List.mem_singleton.mp hc
        exact hdim
    · rw [Run.exec, List.foldl_append]
      exact hbad
  · -- it is the last one of its segment
    have hfill := h.fill A (k := i) (by omega) (by rw [Nat.add_mul] at hroom; omega)
    refine ⟨fillCalls dim (i + 2), hfine (i + 2), ?_⟩
    rw [exec_fillCalls_succ, exec_fillCalls_succ]
    exact hfill.unfaithful_of_end A (by omega) hroom (Nat.not_le.mp hnext) hlen hoff hend hzero
      hzero

/-! ### Sessions on an empty directory -/

/-- Every session refines the map if and only if 32 bits address every slot of a segment. -/
theorem refines_iff (schema : VectorSchema) (segSize : Nat)
    (hfits : schema.dim * 4 ≤ VecSegmentPool.sizeOf segSize) {x : VectorIndex}
    (hopen : (VectorIndex.open .empty schema segSize).1 = .ok x) :
    (∀ calls, (∀ c ∈ calls, c.Fine schema.dim) →
      (Run.exec (step A) (start x) calls).Refines A schema.dim) ↔
    VecSegmentPool.Addressable (VecSegmentPool.sizeOf segSize) (schema.dim * 4) := by
  constructor
  · intro hall
    by_contra hno
    obtain ⟨calls, hfine, hbad⟩ := exists_unfaithful A (filled_start hopen) hno
    exact hbad (hall calls hfine)
  · intro hslots calls hfine
    obtain ⟨hinv, hschema, hcell⟩ := VectorIndex.open_empty hslots hopen
    have hstart : (start x).Inv (VecSegmentPool.sizeOf segSize) schema.dim :=
      ⟨hinv, congrArg VectorSchema.dim hschema, hfits, hcell⟩
    have hrun : (Run.exec (step A) (start x) calls).Inv (VecSegmentPool.sizeOf segSize)
        schema.dim :=
      Run.exec_invariant_of_forall (fun s : IndexSession => s.Inv _ _)
        (fun s c hs hc => hs.step A hc) hfine hstart
    exact hrun.refines A

/-- Two vectors fill a segment; the third one rotates, and the compaction frees id `2`. -/
theorem refines_rotated_and_compacted : ∃ x,
    (VectorIndex.open .empty flatSchema 8).1 = .ok x ∧
    (Run.exec (step zeroArith) (start x) [.insert 1 [0], .insertBatch [(2, [0]), (3, [0])],
      .delete 2, .compact .id none, .insert 2 [0]]).Refines zeroArith flatSchema.dim :=
  ⟨_, rfl, (refines_iff zeroArith flatSchema 8 (by decide) rfl).mpr
    (VecSegmentPool.addressable_of_le (by decide) _) _
    (by decide)⟩

/-- A vector of 2 ^ 32 bytes fits its segment, but the length in its locator is cut to
    zero: `get_vector` returns no component of it. -/
theorem locator_of_long_vector_truncated : ∃ x,
    (VectorIndex.open .empty (.new (2 ^ 30) .l2) (2 ^ 32)).1 = .ok x ∧
    2 ^ 30 * 4 ≤ VecSegmentPool.sizeOf (2 ^ 32) ∧
    (VectorCall.insert (.ofNat 0) (List.replicate (2 ^ 30) 0)).Fine (2 ^ 30) ∧
    ¬(Run.exec (step zeroArith) (start x)
      [.insert (.ofNat 0) (List.replicate (2 ^ 30) 0)]).Refines zeroArith (2 ^ 30) := by
  refine ⟨_, rfl, by decide, List.length_replicate, ?_⟩
  have hopen : (VectorIndex.open .empty (.new (2 ^ 30) .l2) (2 ^ 32)).1 = .ok _ := rfl
  exact (filled_start hopen).unfaithful_of_len zeroArith (by decide) (by decide) (by decide)
    List.length_replicate

end IndexSession

end FusionStore
