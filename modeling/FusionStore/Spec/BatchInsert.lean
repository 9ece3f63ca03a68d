import FusionStore.Spec.SearchCorrect
import FusionStore.Spec.OneDimension

/-!
# Batches and single inserts

`insert_batch` appends all its vectors and links them afterwards, `insert` does both for one
vector.  Linking asks only for distances to nodes of the graph, and an append does not change
what a stored id shows, so for new ids the two loops of a batch commute with each other.

The graph is also where a batch fails late: an id that is twice in the batch, or that has a
node and no locator, passes the checks, and by the time the graph refuses it all vectors of
the batch have locators.

Both results say as well that no distance of the calls makes `simd::distance` panic; an open
that brings another dimension to stored vectors is what their condition on the run excludes
for that.

## Key results

- `insertBatch_eq_insertEach`: batch insert is insert one by one
- `batchAtomic_iff`: when a failed batch leaves the index as it was
-/

namespace FusionStore

namespace VectorIndex

variable {n : Nat} {x y : VectorIndex} (A : F32Arith)

/-- `insert` for each item in order, up to the first call that fails. -/
def insertEach (x : VectorIndex) :
    List (NodeId × List F32) → Except StoreError Unit × VectorIndex
  | [] => (.ok (), x)
  | (id, vector) :: items =>
    match x.insert A id vector with
    | (.error e, y) => (.error e, y)
    | (.ok _, y) => insertEach y items

/-! ### The two loops of a batch -/

/-- The append loop does not look at the graph. -/
theorem appendItems_withGraph (x : VectorIndex) (graph : NswGraph)
    (items : List (NodeId × List F32)) :
    ({ x with graph } : VectorIndex).appendItems items =
      ((x.appendItems items).1, { (x.appendItems items).2 with graph }) := by
  induction items generalizing x with
  | nil => rfl
  | cons e items ih =>
    obtain ⟨id, vector⟩ := e
    unfold appendItems
    cases x.pool.append vector with
    | mk result pool =>
      cases result with
      | error err => rfl
      | ok loc => exact ih (({ x with pool } : VectorIndex).putLocator id loc)

/-- What other ids show does not change while a batch is appended. -/
theorem Appended.vecSlice {ids : List NodeId} (h : Appended n ids x y) (hx : x.Anchored n)
    {j : NodeId} (hj : j ∉ ids) : y.vecSlice j = x.vecSlice j := by
  unfold VectorIndex.vecSlice
  rw [h.anchored.cache, hx.cache, h.same j hj]
  cases hl : x.env.volatile.locatorDb.lookup j with
  | none => rfl
  | some loc => exact h.pool.vecSlice loc (hx.behind j loc hl)

/-- The batch's appends leave the distances to the other ids. -/
theorem Appended.distTo {ids : List NodeId} (h : Appended n ids x y) (hx : x.Anchored n)
    (vector : List F32) {j : NodeId} (hj : j ∉ ids) :
    y.distTo A vector j = x.distTo A vector j := by
  unfold VectorIndex.distTo
  rw [h.vecSlice hx hj, h.schema]

/-- Items a batch may bring: new to the table and to the graph, and of the right length. -/
structure Fresh (x : VectorIndex) (items : List (NodeId × List F32)) : Prop where
  nodup : (items.map Prod.fst).Nodup
  table : ∀ e ∈ items, x.env.volatile.locatorDb.lookup e.1 = none
  graph : ∀ e ∈ items, x.graph.nodes.lookup e.1 = none
  length : ∀ e ∈ items, e.2.length = x.schema.dim

/-- The rest of a fresh batch is fresh for an index that got the first item. -/
theorem Fresh.rest {id : NodeId} {vector : List F32} {items : List (NodeId × List F32)}
    (h : x.Fresh ((id, vector) :: items)) (hschema : y.schema = x.schema)
    (htable : ∀ j, j ≠ id →
      y.env.volatile.locatorDb.lookup j = x.env.volatile.locatorDb.lookup j)
    (hflag : ∀ j, j ≠ id → y.graph.flag j = x.graph.flag j) : y.Fresh items := by
  obtain ⟨hid, hnd⟩ := List.nodup_cons.mp h.nodup
  have hne : ∀ e ∈ items, e.1 ≠ id := fun e he heq => hid (heq ▸ List.mem_map.mpr ⟨e, he, rfl⟩)
  refine ⟨hnd, fun e he => ?_, fun e he => ?_, fun e he => ?_⟩
  · rw [htable e.1 (hne e he), h.table e (List.mem_cons_of_mem _ he)]
  · have hfl := hflag e.1 (hne e he)
    rw [NswGraph.flag, NswGraph.flag, h.graph e (List.mem_cons_of_mem _ he)] at hfl
    simpa using hfl
  · rw [hschema, h.length e (List.mem_cons_of_mem _ he)]

/-- The items of a batch are not among the nodes the graph asks for. -/
theorem Appended.dist_nodes {items : List (NodeId × List F32)}
    (h : Appended n (items.map Prod.fst) x y) (hx : x.Anchored n)
    (hnew : ∀ e ∈ items, x.graph.nodes.lookup e.1 = none) (vector : List F32) (j : NodeId)
    (hj : (y.graph.nodes.lookup j).isSome) : y.distTo A vector j = x.distTo A vector j := by
  refine h.distTo A hx vector fun hmem => ?_
  obtain ⟨e, he, rfl⟩ := List.mem_map.mp hmem
  rw [h.graph, hnew e he] at hj
  cases hj

/-- An insert is an append and a graph loop of one item. -/
theorem insert_eq_linkItems {id : NodeId} {vector : List F32}
    (hdim : vector.length = x.schema.dim) (hnone : x.env.volatile.locatorDb.lookup id = none)
    {loc : ValueLocator} {pool : VecSegmentPool} (happ : x.pool.append vector = (.ok loc, pool)) :
    x.insert A id vector =
      (({ x with pool } : VectorIndex).putLocator id loc).linkItems A [(id, vector)] := by
  have hvalid : x.schema.validateDim vector = .ok () := if_pos hdim
  simp only [VectorIndex.insert, hvalid, hnone, Option.isSome_none, Bool.false_eq_true,
    ↓reduceIte, happ]
  rfl

/-- Linking what a batch has appended is what single inserts do. -/
theorem Anchored.linkItems_eq_insertEach (h : x.Anchored n) {items : List (NodeId × List F32)}
    (hf : x.Fresh items) (happ : x.appendItems items = (.ok (), y)) :
    y.linkItems A items = x.insertEach A items := by
  induction items generalizing x y with
  | nil =>
    obtain rfl : x = y := congrArg Prod.snd happ
    rfl
  | cons e items ih =>
    obtain ⟨id, vector⟩ := e
    unfold VectorIndex.appendItems at happ
    split at happ
    · cases congrArg Prod.fst happ
    rename_i loc pool happ1
    have hdim : vector.length = x.schema.dim := hf.length _ List.mem_cons_self
    have hnone : x.env.volatile.locatorDb.lookup id = none := hf.table _ List.mem_cons_self
    obtain ⟨-, hput⟩ := h.append id happ1
    have hins := insert_eq_linkItems A hdim hnone happ1
    have hother : ∀ j, j ≠ id → (({ x with pool } : VectorIndex).putLocator id
        loc).env.volatile.locatorDb.lookup j = x.env.volatile.locatorDb.lookup j :=
      fun j hj => AList.lookup_insert_ne hj
    have hgraph : (({ x with pool } : VectorIndex).putLocator id loc).graph = x.graph := rfl
    have hschema : (({ x with pool } : VectorIndex).putLocator id loc).schema = x.schema := rfl
    -- `x₁` has the vector of the first item, `y` has all of them; both have the old graph
    generalize ({ x with pool } : VectorIndex).putLocator id loc = x₁ at *
    have hrest := hput.appendItems happ
    have hdist := hrest.dist_nodes A hput
      (fun e he => by rw [hgraph, hf.graph e (List.mem_cons_of_mem _ he)]) vector
    have hflag : x₁.graph.flag id = none := by
      rw [hgraph, NswGraph.flag, hf.graph _ List.mem_cons_self]
      rfl
    obtain ⟨hn, -⟩ | ⟨-, g, hg, hginv, -, hgo⟩ :=
      NswGraph.insert_cases hput.graph id (x₁.distTo A vector)
    · exact absurd hflag hn
    -- so the first item is linked alike in both
    have hsame : y.graph.insert id (y.distTo A vector) = .ok g := by
      rw [hrest.anchored.graph.insert_congr hdist, hrest.graph, hg]
    unfold insertEach
    rw [hins]
    simp only [linkItems, hsame, hg]
    -- and the rest of the batch meets an index that differs by this node
    refine ih (hput.withGraph hginv) (hf.rest hschema hother fun j hj => ?_) ?_
    · rw [← hgraph]
      exact hgo j hj
    · rw [appendItems_withGraph, happ]

/-- On fresh ids the batch does what the inserts one by one do. -/
theorem Anchored.insertBatch_eq (h : x.Anchored n) {items : List (NodeId × List F32)}
    (hf : x.Fresh items) : x.insertBatch A items = x.insertEach A items := by
  obtain ⟨⟨e, he, hne⟩, -⟩ | ⟨-, e, he, hne, -⟩ | ⟨-, -, hr⟩ := insertBatch_cases A x items
  · -- fresh ids have the right length and no locator
    exact absurd (hf.length e he) hne
  · exact absurd (cell_eq_absent.mpr (hf.table e he)) hne
  rw [hr]
  by_cases hfit : x.schema.dim * 4 ≤ n
  · -- all the appends go through, and what is left is the linking
    obtain ⟨y, happ, -⟩ := h.steady.appendItems_grown hfit hf.length
    rw [happ]
    exact h.linkItems_eq_insertEach A hf happ
  · cases items with
    | nil => rfl
    | cons e items =>
      -- no segment has room for a vector: both panic at the first one
      obtain ⟨id, vector⟩ := e
      have hdim : vector.length = x.schema.dim := hf.length _ List.mem_cons_self
      have hnone : x.env.volatile.locatorDb.lookup id = none := hf.table _ List.mem_cons_self
      have hvalid : x.schema.validateDim vector = .ok () := if_pos hdim
      obtain ⟨-, hyes, -⟩ | ⟨-, err, pool, happ, -⟩ := h.steady.append_outcome vector
      · exact absurd hyes hfit
      simp only [VectorIndex.appendItems, insertEach, VectorIndex.insert, hvalid, hnone,
        Option.isSome_none, Bool.false_eq_true, ↓reduceIte, happ]

/-! ### Batches that fail -/

/-- What a caller can see of an index has not changed: the listed ids, the vector of each id,
    and which inserts will be accepted. -/
structure Unchanged (x y : VectorIndex) : Prop where
  ids : y.listVectorIds = x.listVectorIds
  vectors : ∀ id, y.getVector id = x.getVector id
  accepted : ∀ id vector, (y.insert A id vector).1 = .ok () ↔ (x.insert A id vector).1 = .ok ()

/-- If the batch returns an error, the index is as it was. -/
def BatchAtomic (x : VectorIndex) (items : List (NodeId × List F32)) : Prop :=
  ∀ err, (x.insertBatch A items).1 = .error err → Returns (x.insertBatch A items).1 →
    x.Unchanged A (x.insertBatch A items).2

/-- The batch is refused by a check of its dimensions or of the table; or no segment can hold
    a vector; or its ids are distinct and none has a node; or all of them are soft-deleted
    nodes. -/
def BatchSafe (x : VectorIndex) (items : List (NodeId × List F32)) : Prop :=
  (∃ e ∈ items, e.2.length ≠ x.schema.dim) ∨
    (∃ e ∈ items, (x.env.volatile.locatorDb.lookup e.1).isSome) ∨
    x.pool.segSize < x.schema.dim * 4 ∨
    ((items.map Prod.fst).Nodup ∧ ∀ e ∈ items, x.graph.flag e.1 = none) ∨
    ∀ e ∈ items, x.graph.flag e.1 = some true

/-- An index is unchanged from itself. -/
theorem Unchanged.refl (x : VectorIndex) : x.Unchanged A x :=
  ⟨rfl, fun _ => rfl, fun _ _ => Iff.rfl⟩

/-- When an insert is accepted. -/
theorem Anchored.insert_ok_iff (h : x.Anchored n) {id : NodeId} {vector : List F32} :
    (x.insert A id vector).1 = .ok () ↔ vector.length = x.schema.dim ∧ x.schema.dim * 4 ≤ n ∧
      x.env.volatile.locatorDb.lookup id = none ∧ x.graph.flag id = none := by
  by_cases hdim : vector.length = x.schema.dim
  case neg => simp [VectorIndex.insert, VectorSchema.validateDim, hdim]
  have hvalid : x.schema.validateDim vector = .ok () := if_pos hdim
  cases hl : x.env.volatile.locatorDb.lookup id with
  | some loc => simp [VectorIndex.insert, hvalid, hl]
  | none =>
    obtain ⟨-, hfit, loc, pool, happ, -⟩ | ⟨hno, err, pool, happ, -⟩ :=
      h.steady.append_outcome vector
    · obtain ⟨hn, he⟩ | ⟨hn, graph, he, -⟩ := insert_of_append A h.graph hdim hl happ
      · simp [he, hn]
      · simp [he, hn, hdim, hfit]
    · have hfit : ¬x.schema.dim * 4 ≤ n := fun hfit => hno ⟨hdim, hfit⟩
      simp [VectorIndex.insert, hvalid, hl, happ, hfit]

/-- The graph takes a list of ids exactly if they are distinct and new to it. -/
theorem linkItems_ok_iff (hg : x.graph.Inv) {items : List (NodeId × List F32)} :
    (x.linkItems A items).1 = .ok () ↔
      (items.map Prod.fst).Nodup ∧ ∀ e ∈ items, x.graph.flag e.1 = none := by
  constructor
  · intro hok
    obtain ⟨hnd, hfree⟩ := linkItems_ok A hg hok
    exact ⟨hnd, fun e he => hfree e.1 (List.mem_map.mpr ⟨e, he, rfl⟩)⟩
  · rintro ⟨hnd, hfree⟩
    induction items generalizing x with
    | nil => rfl
    | cons e items ih =>
      obtain ⟨id, vector⟩ := e
      obtain ⟨hid, hnd⟩ := List.nodup_cons.mp hnd
      unfold linkItems
      obtain ⟨hn, -⟩ | ⟨-, g, he, hgi, -, hgo⟩ :=
        NswGraph.insert_cases hg id (x.distTo A vector)
      · exact absurd (hfree _ List.mem_cons_self) hn
      rw [he]
      refine ih hgi hnd fun e he => ?_
      have hne : e.1 ≠ id := fun heq => hid (heq ▸ List.mem_map.mpr ⟨e, he, rfl⟩)
      exact (hgo e.1 hne).trans (hfree e (List.mem_cons_of_mem _ he))

/-- A batch that got past the checks: everything is stored, then the graph decides. -/
theorem Anchored.insertBatch_linked (h : x.Anchored n) {items : List (NodeId × List F32)}
    (hdims : ∀ e ∈ items, e.2.length = x.schema.dim)
    (hnew : ∀ e ∈ items, x.env.volatile.locatorDb.lookup e.1 = none)
    (hfit : x.schema.dim * 4 ≤ n) :
    ∃ y, Appended n (items.map Prod.fst) x y ∧ x.insertBatch A items = y.linkItems A items := by
  obtain ⟨⟨e, he, hne⟩, -⟩ | ⟨-, e, he, hne, -⟩ | ⟨-, -, hr⟩ := insertBatch_cases A x items
  · exact absurd (hdims e he) hne
  · exact absurd (cell_eq_absent.mpr (hnew e he)) hne
  obtain ⟨y, happ, -⟩ := h.steady.appendItems_grown hfit hdims
  refine ⟨y, h.appendItems happ, ?_⟩
  rw [hr, happ]

/-- A batch of soft-deleted nodes: the graph refuses the first one, and none of them could be
    read or inserted before. -/
theorem Appended.unchanged {ids : List NodeId} (h : Appended n ids x y) (hx : x.Anchored n)
    (hdead : ∀ j ∈ ids, x.graph.flag j = some true) : x.Unchanged A y where
  ids := by rw [listVectorIds, listVectorIds, h.graph]
  vectors := by
    intro id
    unfold getVector
    rw [h.graph]
    -- an id of the batch has a soft-deleted node, so it is not read
    by_cases hmem : id ∈ ids
    · have hdel : x.graph.isDeleted id = true := by
        by_contra hno
        have hlive := NswGraph.isDeleted_iff.mp (Bool.eq_false_iff.mpr hno)
        rw [hdead id hmem] at hlive
        cases hlive
      rw [if_pos hdel, if_pos hdel]
    · -- another id is read as before
      rw [h.vecSlice hx hmem]
  accepted := by
    intro id vector
    rw [h.anchored.insert_ok_iff, hx.insert_ok_iff, h.schema, h.graph]
    -- an insert of an id with a node is refused before and after
    by_cases hmem : id ∈ ids
    · simp [hdead id hmem]
    · rw [h.same id hmem]

/-- The only way an append fails is a panic. -/
theorem append_panics {p : VecSegmentPool} {vector : List F32} {err : StoreError}
    {pool : VecSegmentPool} (h : p.append vector = (.error err, pool)) :
    ∃ msg, err = .panicked msg := by
  unfold VecSegmentPool.append at h
  generalize (if p.byteLen > p.remaining then p.sealAndRotate else p) = q at h
  dsimp only at h
  split at h
  · exact ⟨_, (Except.error.inj (congrArg Prod.fst h)).symm⟩
  split at h
  · exact ⟨_, (Except.error.inj (congrArg Prod.fst h)).symm⟩
  · cases congrArg Prod.fst h

/-- A safe batch that returns an error leaves what the index shows. -/
theorem Anchored.batchAtomic_of_safe (h : x.Anchored n) {items : List (NodeId × List F32)}
    (hsafe : x.BatchSafe items) : x.BatchAtomic A items := by
  intro err herr hret
  obtain ⟨-, e, hr, -⟩ | ⟨-, e, -, -, hr⟩ | ⟨hdims, habs, hr⟩ := insertBatch_cases A x items
  · -- refused before anything is written
    rw [hr]
    exact .refl A x
  · rw [hr]
    exact .refl A x
  have hnew : ∀ e ∈ items, x.env.volatile.locatorDb.lookup e.1 = none :=
    fun e he => cell_eq_absent.mp (habs e he)
  cases items with
  | nil =>
    rw [hr] at herr
    cases herr
  | cons e items =>
    by_cases hfit : x.schema.dim * 4 ≤ n
    case neg =>
      -- the first append panics, so the call does not return
      obtain ⟨-, hyes, -⟩ | ⟨-, err, pool, happ, -⟩ := h.steady.append_outcome e.2
      · exact absurd hyes hfit
      obtain ⟨msg, rfl⟩ := append_panics happ
      simp only [hr, VectorIndex.appendItems, happ] at hret
      exact absurd rfl (hret msg)
    obtain ⟨y, hy, hlink⟩ := h.insertBatch_linked A hdims hnew hfit
    -- the batch is refused, its vectors are too large, or its ids are all free or all dead
    obtain ⟨f, hf, hne⟩ | ⟨f, hf, hsome⟩ | hbig | ⟨hnd, hfree⟩ | hdead := hsafe
    · exact absurd (hdims f hf) hne
    · rw [hnew f hf] at hsome
      cases hsome
    · rw [h.steady.segSize] at hbig
      omega
    · -- the graph takes all of them
      have hok := (linkItems_ok_iff A hy.anchored.graph).mpr
        ⟨hnd, fun e he => hy.graph ▸ hfree e he⟩
      rw [hlink, hok] at herr
      cases herr
    · -- every id has a soft-deleted node, so the first link fails
      have hdeads : ∀ j ∈ (e :: items).map Prod.fst, x.graph.flag j = some true := by
        intro j hj
        obtain ⟨f, hf, rfl⟩ := List.mem_map.mp hj
        exact hdead f hf
      obtain ⟨id, vector⟩ := e
      have hflag : y.graph.flag id ≠ none := by
        rw [hy.graph, hdead _ List.mem_cons_self]
        exact Option.some_ne_none _
      obtain ⟨-, he⟩ | ⟨hn, -⟩ :=
        NswGraph.insert_cases hy.anchored.graph id (y.distTo A vector)
      · rw [hlink]
        simp only [linkItems, he]
        exact hy.unchanged A h hdeads
      · exact absurd hn hflag

/-- A stored id is read from its segment, or the segment is corrupt. -/
theorem vecSlice_ne_notFound {id : NodeId} (hc : x.locators = x.env.volatile.locatorDb)
    (hs : (x.env.volatile.locatorDb.lookup id).isSome) : x.vecSlice id ≠ .error .notFound := by
  obtain ⟨loc, hl⟩ := Option.isSome_iff_exists.mp hs
  unfold vecSlice
  rw [hc, hl]
  show x.pool.vecSlice loc ≠ _
  unfold VecSegmentPool.vecSlice
  dsimp only
  split
  · simp
  split
  · simp
  · simp

/-- A batch that is not safe returns an error and leaves something behind. -/
theorem Anchored.safe_of_batchAtomic (h : x.Anchored n) {items : List (NodeId × List F32)}
    (hatomic : x.BatchAtomic A items) : x.BatchSafe items := by
  by_contra hunsafe
  simp only [BatchSafe, not_or, not_exists, not_and, not_lt] at hunsafe
  obtain ⟨hdims, hnew, hfit, hlinks, hlive⟩ := hunsafe
  have hdims : ∀ e ∈ items, e.2.length = x.schema.dim := fun e he => not_not.mp (hdims e he)
  have hnew : ∀ e ∈ items, x.env.volatile.locatorDb.lookup e.1 = none :=
    fun e he => by simpa using hnew e he
  rw [h.steady.segSize] at hfit
  obtain ⟨y, hy, hlink⟩ := h.insertBatch_linked A hdims hnew hfit
  obtain ⟨graph, hz, -, hkeep, hres⟩ := linkItems_cases A hy.anchored.graph items
  -- the graph refuses an id
  have hbad : (y.linkItems A items).1 ≠ .ok () := by
    intro hok
    obtain ⟨hnd, hfree⟩ := (linkItems_ok_iff A hy.anchored.graph).mp hok
    exact hlinks hnd fun e he => hy.graph ▸ hfree e he
  obtain ⟨id, hdup⟩ := hres.resolve_left hbad
  have hun := hatomic (.duplicateVector id) (by rw [hlink, hdup])
    (by rw [hlink, hdup]; intro msg hmsg; cases hmsg)
  have hanch := h.insertBatch A items
  rw [hlink, hz] at hun hanch
  -- an item that is not a soft-deleted node shows what has happened
  obtain ⟨e, he, hflag⟩ : ∃ e ∈ items, x.graph.flag e.1 ≠ some true := by
    by_contra hno
    push Not at hno
    exact hlive hno
  have hstored : (y.env.volatile.locatorDb.lookup e.1).isSome :=
    hy.stored e.1 (List.mem_map.mpr ⟨e, he, rfl⟩)
  cases hf : x.graph.flag e.1 with
  | none =>
    -- an insert of it was possible and is not any more
    have haccept := (h.insert_ok_iff A).mpr ⟨hdims e he, hfit, hnew e he, hf⟩
    obtain ⟨-, -, hnone, -⟩ := (hanch.insert_ok_iff A).mp ((hun.accepted e.1 e.2).mpr haccept)
    rw [hnone] at hstored
    cases hstored
  | some b =>
    -- a live node without a vector has got one
    obtain rfl : b = false := by
      cases b with
      | false => rfl
      | true => exact absurd hf hflag
    have hflag' : graph.flag e.1 = some false := by
      rw [hkeep e.1 (by rw [hy.graph, hf]; exact Option.some_ne_none _), hy.graph, hf]
    have hvec := hun.vectors e.1
    simp only [getVector, NswGraph.isDeleted_iff.mpr hf, NswGraph.isDeleted_iff.mpr hflag',
      Bool.false_eq_true, ↓reduceIte] at hvec
    have hmissing : x.vecSlice e.1 = .error .notFound := by
      simp only [VectorIndex.vecSlice, h.cache, hnew e he]
    rw [hmissing] at hvec
    refine vecSlice_ne_notFound hanch.cache hstored ?_
    generalize VectorIndex.vecSlice _ _ = r at hvec ⊢
    cases r with
    | ok v => simp [Except.map] at hvec
    | error err => simpa [Except.map] using hvec

/-- Safe is exactly what a batch has to be. -/
theorem Anchored.batchAtomic_iff_safe (h : x.Anchored n) (items : List (NodeId × List F32)) :
    x.BatchAtomic A items ↔ x.BatchSafe items :=
  ⟨h.safe_of_batchAtomic A, h.batchAtomic_of_safe A⟩

end VectorIndex

namespace VecHost

variable (A : F32Arith) (segSize : Nat)

/-- Every single insert of the batch may be made: the ones before it leave an index over the
    same dimension. -/
theorem Alike.insertEach {x : VectorIndex} (ha : (opened x).Alike (VecSegmentPool.sizeOf segSize))
    (hshort : x.schema.dim * 4 ≤ VecSegmentPool.sizeOf segSize → (opened x).Short)
    (pre : List (NodeId × List F32)) (e : NodeId × List F32) :
    (opened (x.insertEach A pre).2).Comparable segSize (.insert e.1 e.2) := by
  -- by induction on the inserts before; each keeps the lengths alike
  induction pre generalizing x with
  | nil => exact ha.comparable fun hstores => hshort hstores.2.2.2
  | cons f pre ih =>
    obtain ⟨id, vector⟩ := f
    have hkeep : (opened x).KeepsDim segSize (.insert id vector) :=
      fun hstores => hshort hstores.2.2.2
    have hnext : (opened (x.insert A id vector).2).Alike _ := ha.step A hkeep
    have hschema : (x.insert A id vector).2.schema = x.schema :=
      ((ha.sound.steady x rfl).insert_grown A id vector).1.schema
    have hshort' : (x.insert A id vector).2.schema.dim * 4 ≤ VecSegmentPool.sizeOf segSize →
        (opened (x.insert A id vector).2).Short := by
      rintro hfit schema ⟨⟩
      rw [hschema] at hfit ⊢
      exact hshort hfit x.schema rfl
    unfold VectorIndex.insertEach
    cases hr : x.insert A id vector with
    | mk result y =>
      rw [hr] at hnext hshort'
      cases result with
      -- an insert that fails ends the loop, and the lengths are still alike
      | error err => exact hnext.comparable fun hstores => hshort' hstores.2.2.2
      | ok _ => exact ih hnext hshort'

/-- In every run that never removes the file being written and never brings another dimension
    to stored vectors, a batch of new ids does what inserting them one by one does: the same
    result and the same index, with its segments, write position, locators and graph.  Neither
    asks for a distance between vectors of different lengths. -/
theorem insertBatch_eq_insertEach (es : List DirEvent) {items : List (NodeId × List F32)}
    (hrun : Run.Guarded (dirStep A segSize) (Keeps segSize) (.closed .empty)
      (es ++ [.call (.insertBatch items)])) {x : VectorIndex}
    (hx : Run.exec (dirStep A segSize) (.closed .empty) es = .opened x) (hfresh : x.Fresh items) :
    x.insertBatch A items = x.insertEach A items ∧
      (opened x).Comparable segSize (.insertBatch items) ∧
      ∀ pre e post, items = pre ++ e :: post →
        (opened (x.insertEach A pre).2).Comparable segSize (.insert e.1 e.2) := by
  obtain ⟨hrun, hbatch, -⟩ := Run.guarded_append.mp hrun
  have h := anchored_of_guarded A (hrun.imp fun _ _ hk => hk.spares)
  have ha := alike_of_guarded A hrun
  rw [hx] at h ha hbatch
  refine ⟨VectorIndex.Anchored.insertBatch_eq A h hfresh, ha.comparable hbatch,
    fun pre e post hsplit => ?_⟩
  refine ha.insertEach A segSize (fun hfit => hbatch ?_) pre e
  exact ⟨by simp [hsplit], hfresh.length, hfresh.table, hfit⟩

/-- Three new vectors for an index that was compacted and whose first segment is gone; they
    need a third segment. -/
theorem insertBatch_eq_insertEach_after_reclaim : ∃ x,
    Run.exec (dirStep zeroArith 8) (.closed .empty) [.call (.open flatSchema),
      .call (.insert 1 [0]), .call (.insert 2 [0]), .call (.compact .id none),
      .reclaim (fun _ => true) [0]] = .opened x ∧
    x.pool.dir.files = [1] ∧
    (x.insertBatch zeroArith [(3, [0]), (4, [0]), (5, [0])]).2.pool.dir.files = [3, 2, 1] ∧
    x.insertBatch zeroArith [(3, [0]), (4, [0]), (5, [0])] =
      x.insertEach zeroArith [(3, [0]), (4, [0]), (5, [0])] :=
  ⟨_, rfl, by decide +kernel, by decide +kernel,
    (insertBatch_eq_insertEach zeroArith 8 [.call (.open flatSchema), .call (.insert 1 [0]),
      .call (.insert 2 [0]), .call (.compact .id none), .reclaim (fun _ => true) [0]]
      (by decide +kernel) rfl
      ⟨by decide, by decide +kernel, by decide +kernel, by decide +kernel⟩).1⟩

/-- `f32` patterns of small numbers as integers. -/
def smallVal (a : F32) : Int :=
  if a = 0x3f800000 then 1
  else if a = 0x40000000 then 2
  else if a = 0x40800000 then 4
  else if a = 0xbf800000 then -1
  else if a = 0xc0000000 then -2
  else 0

/-- The pattern of a small number. -/
def smallBits (k : Int) : F32 :=
  if k = 1 then 0x3f800000
  else if k = 2 then 0x40000000
  else if k = 4 then 0x40800000
  else if k = -1 then 0xbf800000
  else if k = -2 then 0xc0000000
  else 0

/-- `f32` arithmetic as far as `l2` on components 0.0, 1.0 and 2.0 needs it. -/
def smallArith : F32Arith where
  add a b := smallBits (smallVal a + smallVal b)
  sub a b := smallBits (smallVal a - smallVal b)
  mul a b := smallBits (smallVal a * smallVal b)
  div a _ := a
  sqrt a := a

/-- The compaction copies two vectors within segment 0 and lists it as reclaimable.  Without
    the file the next open starts a segment 0 again, and the locators of 1 and 2 name bytes
    ahead of its write position.  A batch of four fills it: the last vector is stored where 2
    is read.  Inserted one by one, 5 (2.0) is linked while 2 reads as 0.0 and is the farthest
    of the nodes before it; in the batch 2 reads as 2.0 by then and is one of the two
    nearest. -/
theorem batch_differs_after_reclaim : ∃ x,
    Run.exec (dirStep smallArith 16) (.closed .empty) [.call (.open (.new 1 .l2)),
      .call (.insert 1 [0]), .call (.insert 2 [0]), .call (.compact .id none),
      .reclaim (fun _ => true) [0], .call (.open (.new 1 .l2))] = .opened x ∧
    let items : List (NodeId × List F32) := [(3, [0x3f800000]), (4, [0x3f800000]),
      (5, [0x40000000]), (6, [0x40000000])]
    x.Fresh items ∧
      ((x.insertBatch smallArith items).2.graph.nodes.lookup 5).map Node.neighbors =
        some [2, 1, 4, 3, 6] ∧
      ((x.insertEach smallArith items).2.graph.nodes.lookup 5).map Node.neighbors =
        some [1, 4, 3, 2, 6] ∧
      x.insertBatch smallArith items ≠ x.insertEach smallArith items := by
  refine ⟨_, rfl, ⟨by decide, by decide +kernel, by decide +kernel, by decide +kernel⟩,
    by decide +kernel, by decide +kernel, fun heq => ?_⟩
  have hnbs := congrArg (fun r => (r.2.graph.nodes.lookup 5).map Node.neighbors) heq
  exact absurd hnbs (by decide +kernel)

/-- In every run that never removes the file being written and never brings another dimension
    to stored vectors, a batch that fails leaves the index as it was if and only if it is
    `BatchSafe`.  None of its distances is between vectors of different lengths. -/
theorem batchAtomic_iff (es : List DirEvent) {items : List (NodeId × List F32)}
    (hrun : Run.Guarded (dirStep A segSize) (Keeps segSize) (.closed .empty)
      (es ++ [.call (.insertBatch items)])) {x : VectorIndex}
    (hx : Run.exec (dirStep A segSize) (.closed .empty) es = .opened x) :
    (x.BatchAtomic A items ↔ x.BatchSafe items) ∧
      (opened x).Comparable segSize (.insertBatch items) := by
  obtain ⟨hrun, hbatch, -⟩ := Run.guarded_append.mp hrun
  have h := anchored_of_guarded A (hrun.imp fun _ _ hk => hk.spares)
  have ha := alike_of_guarded A hrun
  rw [hx] at h ha hbatch
  exact ⟨VectorIndex.Anchored.batchAtomic_iff_safe A h items, ha.comparable hbatch⟩

/-- A power loss takes the table and leaves the snapshot: 2 is a soft-deleted node without a
    locator.  A batch that brings it twice is refused and nothing shows of it. -/
theorem batchAtomic_of_deleted_node : ∃ x,
    Run.exec (dirStep zeroArith 8) (.closed .empty) [.call (.open flatSchema),
      .call (.insert 1 [0]), .call (.insert 2 [0]), .call (.delete 2), .call .checkpoint,
      .powerLoss, .call (.open flatSchema)] = .opened x ∧
    (x.insertBatch zeroArith [(2, [0]), (2, [0])]).1 = .error (.duplicateVector 2) ∧
    x.BatchAtomic zeroArith [(2, [0]), (2, [0])] :=
  ⟨_, rfl, by decide +kernel, (batchAtomic_iff zeroArith 8 [.call (.open flatSchema),
    .call (.insert 1 [0]), .call (.insert 2 [0]), .call (.delete 2), .call .checkpoint,
    .powerLoss, .call (.open flatSchema)] (by decide +kernel) rfl).1.mpr
      (Or.inr (Or.inr (Or.inr (Or.inr (by decide +kernel)))))⟩

/-- An id that is twice in a batch: the call returns an error, and the id is listed, readable
    and refused by later inserts. -/
theorem repeated_id_remains : ∃ x,
    Run.exec (dirStep zeroArith 8) (.closed .empty) [.call (.open flatSchema)] = .opened x ∧
    let y := (x.insertBatch zeroArith [(1, [0]), (1, [0])]).2
    (x.insertBatch zeroArith [(1, [0]), (1, [0])]).1 = .error (.duplicateVector 1) ∧
      x.listVectorIds = [] ∧ y.listVectorIds = [1] ∧
      x.getVector 1 = .ok none ∧ y.getVector 1 = .ok (some [0]) ∧
      (x.insert zeroArith 1 [0]).1 = .ok () ∧
      (y.insert zeroArith 1 [0]).1 = .error (.duplicateVector 1) ∧
      ¬x.BatchAtomic zeroArith [(1, [0]), (1, [0])] := by
  -- all but the last conjunct is computed
  have hx : ∃ x,
      Run.exec (dirStep zeroArith 8) (.closed .empty) [.call (.open flatSchema)] = .opened x ∧
      (x.insertBatch zeroArith [(1, [0]), (1, [0])]).1 = .error (.duplicateVector 1) ∧
      x.listVectorIds = [] ∧
      (x.insertBatch zeroArith [(1, [0]), (1, [0])]).2.listVectorIds = [1] ∧
      x.getVector 1 = .ok none ∧
      (x.insertBatch zeroArith [(1, [0]), (1, [0])]).2.getVector 1 = .ok (some [0]) ∧
      (x.insert zeroArith 1 [0]).1 = .ok () ∧
      ((x.insertBatch zeroArith [(1, [0]), (1, [0])]).2.insert zeroArith 1 [0]).1 =
        .error (.duplicateVector 1) :=
    ⟨_, rfl, by decide +kernel, by decide +kernel, by decide +kernel, by decide +kernel,
      by decide +kernel, by decide +kernel, by decide +kernel⟩
  obtain ⟨x, hrun, herr, hids, hids', hvec, hvec', hins, hins'⟩ := hx
  refine ⟨x, hrun, herr, hids, hids', hvec, hvec', hins, hins', fun hatomic => ?_⟩
  -- the error is no panic, so the call returns
  have hreturns : Returns (x.insertBatch zeroArith [(1, [0]), (1, [0])]).1 := by
    rw [herr]
    intro msg hmsg
    cases hmsg
  have hsame := (hatomic _ herr hreturns).ids
  rw [hids, hids'] at hsame
  cases hsame

end VecHost

end FusionStore
