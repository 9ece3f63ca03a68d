import FusionStore.Spec.SnapshotCodec

/-!
# Loading any file

`load` takes its offsets from the file itself.  The counts are 32-bit, so no offset
overflows, and a file shorter than the regions it announces is refused before one of them is
read (`readHeader_cases`).  An edge range is checked against the edge count before its edges
are read, so every index is inside a region (`readNode_clean`).  Whatever the file says, the
result is a graph that `validate_edges` passed or a `Corrupt` error (`load_safe`).
-/

namespace FusionStore

namespace SnapshotFile

open LittleEndian

/-! ### No panic -/

/-- A value or a `Corrupt` error: no panic and no other error. -/
def Clean {α : Type} (r : Except StoreError α) : Prop :=
  (∃ a, r = .ok a) ∨ ∃ msg, r = .error (.corrupt msg)

section Clean

variable {α β : Type} {r : Except StoreError α}

/-- A result. -/
theorem clean_ok (a : α) : Clean (.ok a : Except StoreError α) := Or.inl ⟨a, rfl⟩

/-- An error the source returns. -/
theorem clean_corrupt (msg : String) : Clean (.error (.corrupt msg) : Except StoreError α) :=
  Or.inr ⟨msg, rfl⟩

/-- One step after another. -/
theorem Clean.bind {f : α → Except StoreError β} (h : Clean r)
    (hf : ∀ a, r = .ok a → Clean (f a)) : Clean (r >>= f) := by
  obtain ⟨a, rfl⟩ | ⟨msg, rfl⟩ := h
  · exact hf a rfl
  · exact clean_corrupt msg

/-- A loop that collects. -/
theorem Clean.mapM {xs : List α} {f : α → Except StoreError β} (h : ∀ x ∈ xs, Clean (f x)) :
    Clean (xs.mapM f) := by
  induction xs with
  | nil => exact clean_ok []
  | cons x xs ih =>
    rw [List.mapM_cons]
    refine (h x List.mem_cons_self).bind fun y _ => ?_
    exact (ih fun z hz => h z (List.mem_cons_of_mem _ hz)).bind fun ys _ => clean_ok _

/-- A loop with an accumulator. -/
theorem Clean.foldlM {xs : List α} {f : β → α → Except StoreError β}
    (h : ∀ b, ∀ x ∈ xs, Clean (f b x)) (b : β) : Clean (xs.foldlM f b) := by
  induction xs generalizing b with
  | nil => exact clean_ok b
  | cons x xs ih =>
    rw [List.foldlM_cons]
    exact (h b x List.mem_cons_self).bind fun c _ =>
      ih (fun b z hz => h b z (List.mem_cons_of_mem _ hz)) c

end Clean

/-! ### Indices -/

/-- Every index that is computed from the layout is inside the regions. -/
structure InRegions (l : Layout) : Prop where
  ids : ∀ i < l.nodeCount, l.idsOff + i * 8 + 8 ≤ l.total
  offsets : ∀ i < l.nodeCount, l.offsetsOff + (i + 1) * 4 + 4 ≤ l.total
  edges : ∀ j < l.edgeCount, l.edgesOff + j * 8 + 8 ≤ l.total
  flags : ∀ i < l.nodeCount, l.flagsOff + i + 1 ≤ l.total

/-- The offsets of a layout stand in the order of the regions. -/
theorem inRegions_layoutFor (nodeCount edgeCount : Nat) (entryPoint : NodeId) :
    InRegions (layoutFor nodeCount edgeCount entryPoint) := by
  refine ⟨fun i hi => ?_, fun i hi => ?_, fun j hj => ?_, fun i hi => ?_⟩
  all_goals
    simp only [layoutFor] at *
    omega

/-- 32-bit counts announce a size of 64 bits. -/
theorem total_layoutAt_le (bytes : Bytes) : (layoutAt bytes).total ≤ u64Max := by
  have hn : fieldAt bytes 4 4 < 2 ^ 32 := fieldAt_lt
  have he : fieldAt bytes 8 4 < 2 ^ 32 := fieldAt_lt
  simp only [layoutAt, layoutFor, u64Max]
  omega

/-! ### The nodes -/

/-- A read inside the bytes. -/
theorem clean_readLE {bytes : Bytes} {off n : Nat} (h : off + n ≤ bytes.length) :
    Clean (readLE bytes off n) := by
  rw [readLE_of_le h]
  exact clean_ok _

/-- A node of a file that is long enough: its edges are checked before they are read. -/
theorem readNode_clean {bytes : Bytes} {l : Layout} (hl : InRegions l)
    (hwhole : l.total ≤ bytes.length) {i : Nat} (hi : i < l.nodeCount) :
    Clean (readNode bytes l i) := by
  -- the regions are inside the file
  have hid := hl.ids i hi
  have hoff := hl.offsets i hi
  have hflag := hl.flags i hi
  unfold readNode
  -- id, first and last edge, then the edges and the flag
  refine (clean_readLE (by omega)).bind fun id _ => ?_
  refine (clean_readLE (by omega)).bind fun lo _ => ?_
  refine (clean_readLE (by omega)).bind fun hi _ => ?_
  split
  · exact clean_corrupt _
  rename_i hrange
  -- the range is inside the edge table now
  have hedges : ∀ j ∈ List.range' lo (hi - lo), Clean (do
      return UInt64.ofNat (← readLE bytes (l.edgesOff + j * 8) 8) : Except StoreError NodeId) := by
    intro j hj
    obtain ⟨k, hk, rfl⟩ := List.mem_range'.mp hj
    have hedge := hl.edges (lo + 1 * k) (by omega)
    exact (clean_readLE (by omega)).bind fun v _ => clean_ok _
  refine (Clean.mapM hedges).bind fun nbs _ => ?_
  exact (clean_readLE (by omega)).bind fun deleted _ => clean_ok _

/-- All nodes. -/
theorem readGraph_clean {bytes : Bytes} {l : Layout} (hl : InRegions l)
    (hwhole : l.total ≤ bytes.length) : Clean (readGraph bytes l) := by
  refine Clean.foldlM (fun g i hi => ?_) _
  exact (readNode_clean hl hwhole (List.mem_range.mp hi)).bind fun n _ => clean_ok _

/-! ### The whole file -/

/-- `validate_edges` refuses a graph as corrupt, or it has no dangling edge and, unless it is
    empty, a live entry point. -/
theorem validateEdges_cases (g : NswGraph) :
    (∃ msg, g.validateEdges = .error (.corrupt msg)) ∨
    (g.validateEdges = .ok () ∧
      (∀ id n, g.nodes.lookup id = some n → ∀ nb ∈ n.neighbors, (g.nodes.lookup nb).isSome) ∧
      (g.nodes.entries = [] ∨ ∃ ep, g.entryPoint = some ep ∧ g.isDeleted ep = false)) := by
  unfold NswGraph.validateEdges
  simp only
  split
  · -- an edge to no node
    exact Or.inl ⟨_, rfl⟩
  rename_i hdangling
  have hedges : ∀ id n, g.nodes.lookup id = some n →
      ∀ nb ∈ n.neighbors, (g.nodes.lookup nb).isSome := by
    intro id n hl nb hnb
    have hnone := List.findSome?_eq_none_iff.mp hdangling ⟨id, n⟩ (AList.mem_lookup_iff.mp hl)
    rw [Option.map_eq_none_iff, List.find?_eq_none] at hnone
    simpa [Option.isSome_iff_ne_none] using hnone nb hnb
  split
  · -- no nodes at all
    rename_i hempty
    exact Or.inr ⟨rfl, hedges, Or.inl (List.isEmpty_iff.mp hempty)⟩
  split
  · rename_i ep hep
    split
    · -- the entry point is soft-deleted
      exact Or.inl ⟨_, rfl⟩
    · rename_i hdel
      exact Or.inr ⟨rfl, hedges, Or.inr ⟨ep, hep, Bool.eq_false_iff.mpr hdel⟩⟩
  · -- there is none
    exact Or.inl ⟨_, rfl⟩

/-- The entry point is no node. -/
@[simp] theorem nodes_restoreEntryPoint (g : NswGraph) (ep : NodeId) :
    (g.restoreEntryPoint ep).nodes = g.nodes := by
  unfold NswGraph.restoreEntryPoint
  split <;> rfl

/-- The last turn of the restore loop. -/
theorem readGraph_last {bytes : Bytes} {l : Layout} {k : Nat} (hl : l.nodeCount = k + 1)
    {g : NswGraph} (h : readGraph bytes l = .ok g) :
    ∃ (g' : NswGraph) (node : SnapNode), readNode bytes l k = .ok node ∧
      g = g'.restoreNode node.1 node.2.1 node.2.2 := by
  unfold readGraph at h
  rw [hl, List.range_succ, List.foldlM_append] at h
  obtain ⟨g', -, h⟩ := Except.bind_ok h
  simp only [List.foldlM_cons, List.foldlM_nil] at h
  obtain ⟨g'', h, hlast⟩ := Except.bind_ok h
  obtain ⟨node, hread, hnode⟩ := Except.bind_ok h
  obtain rfl := Except.ok.inj hlast
  exact ⟨g', node, hread, (Except.ok.inj hnode).symm⟩

/-- A file with nodes loads a graph with nodes. -/
theorem entries_readGraph {bytes : Bytes} {l : Layout} (hl : l.nodeCount ≠ 0) {g : NswGraph}
    (h : readGraph bytes l = .ok g) : g.nodes.entries ≠ [] := by
  obtain ⟨k, hk⟩ := Nat.exists_eq_succ_of_ne_zero hl
  obtain ⟨g', node, -, rfl⟩ := readGraph_last hk h
  refine AList.entries_ne_nil.mpr ⟨node.1, ⟨node.2.2, node.2.1⟩, ?_⟩
  simp [NswGraph.restoreNode]

/-- A graph that `load` may return: empty, or without dangling edges and with a live entry
    point. -/
def Valid (g : NswGraph) : Prop :=
  g = .new ∨
    ((∀ id n, g.nodes.lookup id = some n → ∀ nb ∈ n.neighbors, (g.nodes.lookup nb).isSome) ∧
      ∃ ep, g.entryPoint = some ep ∧ g.isDeleted ep = false)

/-- What `validate_edges` accepts is well formed. -/
theorem Valid.inv {g : NswGraph} (h : Valid g) : g.Inv := by
  obtain rfl | ⟨hedges, ep, hep, hlive⟩ := h
  · exact NswGraph.inv_new
  · refine ⟨hedges, fun ep' hep' => ?_, fun hnone => ?_⟩
    · rw [hep] at hep'
      obtain rfl := Option.some.inj hep'
      exact NswGraph.isSome_of_flag (NswGraph.isDeleted_iff.mp hlive)
    · simp [hep] at hnone

/-- Everything `load` can do with a file. -/
theorem load_cases (bytes : Bytes) :
    (∃ msg, load (some bytes) = .error (.corrupt msg)) ∨
    (Announced bytes ∧ fieldAt bytes 4 4 = 0 ∧ load (some bytes) = .ok (some .new)) ∨
    (Announced bytes ∧ fieldAt bytes 4 4 ≠ 0 ∧ ∃ g, readGraph bytes (layoutAt bytes) = .ok g ∧
      load (some bytes) = .ok (some (g.restoreEntryPoint (layoutAt bytes).entryPoint)) ∧
      Valid (g.restoreEntryPoint (layoutAt bytes).entryPoint)) := by
  obtain ⟨-, msg, herr⟩ | ⟨hann, hok⟩ := readHeader_cases bytes
  · refine Or.inl ⟨msg, ?_⟩
    simp only [load, herr]
    rfl
  by_cases hzero : fieldAt bytes 4 4 = 0
  · refine Or.inr (Or.inl ⟨hann, hzero, ?_⟩)
    simp only [load, hok]
    exact if_pos hzero
  -- the nodes are restored and the edges validated
  have hload : load (some bytes) = (do
      let graph ← readGraph bytes (layoutAt bytes)
      let graph := graph.restoreEntryPoint (layoutAt bytes).entryPoint
      graph.validateEdges
      return some graph) := by
    simp only [load, hok]
    exact if_neg hzero
  rw [hload]
  -- nothing in the node loop panics
  have hclean : Clean (readGraph bytes (layoutAt bytes)) :=
    readGraph_clean (inRegions_layoutFor _ _ _) hann.whole
  obtain ⟨g, hg⟩ | ⟨msg, herr⟩ := hclean
  · obtain ⟨msg, herr⟩ | ⟨hvalid, hedges, hentry⟩ :=
      validateEdges_cases (g.restoreEntryPoint (layoutAt bytes).entryPoint)
    · refine Or.inl ⟨msg, ?_⟩
      simp only [hg, bind, Except.bind, herr]
    · refine Or.inr (Or.inr ⟨hann, hzero, g, hg, ?_, Or.inr ⟨hedges, ?_⟩⟩)
      · simp only [hg, bind, Except.bind, hvalid]
        rfl
      · refine hentry.resolve_left ?_
        rw [nodes_restoreEntryPoint]
        exact entries_readGraph hzero hg
  · refine Or.inl ⟨msg, ?_⟩
    simp only [herr]
    rfl

/-- Loading any file ends with a graph or a `Corrupt` error, and every index it computes is
    inside the file and below `2 ^ 64`.  The graph is empty, or none of its edges dangles and
    its entry point is a live node. -/
theorem load_safe (bytes : Bytes) :
    ((∃ g, load (some bytes) = .ok (some g)) ∨
      ∃ msg, load (some bytes) = .error (.corrupt msg)) ∧
    (∀ l, readHeader bytes = .ok l →
      l.total ≤ bytes.length ∧ l.total ≤ u64Max ∧ InRegions l) ∧
    ∀ g, load (some bytes) = .ok (some g) → g.nodes.entries = [] ∨
      ((∀ id n, g.nodes.lookup id = some n → ∀ nb ∈ n.neighbors, (g.nodes.lookup nb).isSome) ∧
        ∃ ep, g.entryPoint = some ep ∧ g.isDeleted ep = false) := by
  refine ⟨?_, fun l hl => ?_, fun g hg => ?_⟩
  · obtain herr | ⟨-, -, hok⟩ | ⟨-, -, g, -, hok, -⟩ := load_cases bytes
    · exact Or.inr herr
    · exact Or.inl ⟨_, hok⟩
    · exact Or.inl ⟨_, hok⟩
  · obtain ⟨-, msg, herr⟩ | ⟨hann, hok⟩ := readHeader_cases bytes
    · simp [herr] at hl
    · obtain rfl : layoutAt bytes = l := Except.ok.inj (hok.symm.trans hl)
      exact ⟨hann.whole, total_layoutAt_le bytes, inRegions_layoutFor _ _ _⟩
  · obtain ⟨msg, herr⟩ | ⟨-, -, hok⟩ | ⟨-, -, g', -, hok, hvalid⟩ := load_cases bytes
    · simp [herr] at hg
    · obtain rfl : NswGraph.new = g := Option.some.inj (Except.ok.inj (hok.symm.trans hg))
      exact Or.inl rfl
    · obtain rfl := Option.some.inj (Except.ok.inj (hok.symm.trans hg))
      obtain hnew | hgood := hvalid
      · rw [hnew]
        exact Or.inl rfl
      · exact Or.inr hgood

end SnapshotFile

end FusionStore
