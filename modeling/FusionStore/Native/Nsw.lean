import Mathlib.Algebra.GroupWithZero.Nat
import Mathlib.Data.List.AList
import Mathlib.Data.List.Sort
import FusionStore.ForStd.BinaryHeap
import FusionStore.Native.Simd

/-!
# NSW graph

`NswGraph` of `vector/nsw.rs`: pure topology with soft-delete flags, distances
injected by the caller.  A hash map is an association list here; its order stands
for the enumeration order.  The two heaps compare `OrderDist` first and node ids on
ties; results at equal distances are returned in the order of the heap's array.
-/

namespace FusionStore

/-- `M`. -/
def nswM : Nat := 16

/-- `EF_CONSTRUCTION`. -/
def efConstruction : Nat := 200

/-- `DEFAULT_EF_SEARCH`. -/
def defaultEfSearch : Nat := 200

abbrev NodeId := UInt64

/-- `Node`. -/
structure Node where
  deleted : Bool
  neighbors : List NodeId
  deriving DecidableEq, Repr

/-- `NswGraph`. -/
structure NswGraph where
  nodes : AList (fun _ : NodeId => Node)
  entryPoint : Option NodeId

/-- The order of the result heap: distance, then id. -/
def resultLe (a b : F32 × NodeId) : Bool :=
  if F32.totalKey a.1 = F32.totalKey b.1 then a.2 ≤ b.2 else F32.totalLe a.1 b.1

/-- The order of the candidate heap: `Reverse` distance, then id. -/
def candidateLe (a b : F32 × NodeId) : Bool :=
  if F32.totalKey a.1 = F32.totalKey b.1 then a.2 ≤ b.2 else F32.totalLe b.1 a.1

theorem resultLe_iff {a b : F32 × NodeId} : resultLe a b = true ↔
    F32.totalKey a.1 < F32.totalKey b.1 ∨
      F32.totalKey a.1 = F32.totalKey b.1 ∧ a.2 ≤ b.2 := by
  unfold resultLe F32.totalLe
  split
  · rename_i heq
    simp [heq]
  · rename_i hne
    simp only [decide_eq_true_eq, hne, false_and, or_false]
    omega

theorem candidateLe_iff {a b : F32 × NodeId} : candidateLe a b = true ↔
    F32.totalKey b.1 < F32.totalKey a.1 ∨
      F32.totalKey a.1 = F32.totalKey b.1 ∧ a.2 ≤ b.2 := by
  unfold candidateLe F32.totalLe
  split
  · rename_i heq
    simp [heq]
  · rename_i hne
    simp only [decide_eq_true_eq, hne, false_and, or_false]
    omega

instance : Std.Total fun a b => resultLe a b = true where
  total a b := by
    simp only [resultLe_iff, UInt64.le_iff_toNat_le]
    omega

instance : IsTrans (F32 × NodeId) fun a b => resultLe a b = true where
  trans a b c := by
    simp only [resultLe_iff, UInt64.le_iff_toNat_le]
    omega

instance : Std.Total fun a b => candidateLe a b = true where
  total a b := by
    simp only [candidateLe_iff, UInt64.le_iff_toNat_le]
    omega

instance : IsTrans (F32 × NodeId) fun a b => candidateLe a b = true where
  trans a b c := by
    simp only [candidateLe_iff, UInt64.le_iff_toNat_le]
    omega

namespace NswGraph

/-- `NswGraph::new`. -/
def new : NswGraph := ⟨∅, none⟩

/-- `NswGraph::len`: the nodes that are not soft-deleted. -/
def len (g : NswGraph) : Nat := (g.nodes.entries.filter fun n => !n.2.deleted).length

/-- `all_ids`. -/
def allIds (g : NswGraph) : List NodeId :=
  (g.nodes.entries.filter fun n => !n.2.deleted).map Sigma.fst

/-- `all_deleted_ids`. -/
def allDeletedIds (g : NswGraph) : List NodeId :=
  (g.nodes.entries.filter fun n => n.2.deleted).map Sigma.fst

/-- `is_deleted`: also true of ids that are not in the graph. -/
def isDeleted (g : NswGraph) (id : NodeId) : Bool :=
  match g.nodes.lookup id with
  | some n => n.deleted
  | none => true

/-- The local state of `search_layer`. -/
structure Search where
  visited : List NodeId
  candidates : BinaryHeap candidateLe
  results : BinaryHeap resultLe

/-- One neighbour of the popped candidate. -/
def visitNeighbor (g : NswGraph) (queryDist : NodeId → F32) (ef : Nat) (s : Search)
    (nb : NodeId) : Search :=
  if nb ∈ s.visited then s
  else
    let d := queryDist nb
    let results :=
      -- a deleted node is a way to others, never a result
      if g.isDeleted nb then s.results
      else if s.results.len < ef then s.results.push (d, nb)
      else
        match s.results.pop with
        | some ((farthest, _), rest) => if F32.lt d farthest then rest.push (d, nb) else s.results
        | none => s.results
    ⟨nb :: s.visited, s.candidates.push (d, nb), results⟩

/-- The `while let` loop of `search_layer`.  Each node is pushed at most once, so
    one turn per neighbour entry, plus the entry point, is enough fuel.  `expired n`
    tells whether the deadline has passed at the `n`-th pop; it is asked every 256. -/
def searchLoop (g : NswGraph) (queryDist : NodeId → F32) (ef : Nat) (expired : Nat → Bool) :
    Nat → Nat → Search → Search
  | 0, _, s => s
  | fuel + 1, popCount, s =>
    match s.candidates.pop with
    | none => s
    | some ((cd, cid), candidates) =>
      let s := { s with candidates }
      let popCount := popCount + 1
      if popCount % 256 = 0 && expired popCount then s
      else
        -- nothing that is left can improve a full list
        let stop := match s.results.peek with
          | some (farthest, _) => decide (ef ≤ s.results.len) && F32.lt farthest cd
          | none => false
        if stop then s
        else
          match g.nodes.lookup cid with
          | none => searchLoop g queryDist ef expired fuel popCount s
          | some node =>
            searchLoop g queryDist ef expired fuel popCount
              (node.neighbors.foldl (visitNeighbor g queryDist ef) s)

/-- How often `search_layer` can pop. -/
def searchFuel (g : NswGraph) : Nat :=
  (g.nodes.entries.map fun n => n.2.neighbors.length).sum + 2

/-- The state in which `search_layer` leaves its loop. -/
def searchState (g : NswGraph) (queryDist : NodeId → F32) (ef : Nat) (entry : NodeId)
    (expired : Nat → Bool) : Search :=
  let d0 := queryDist entry
  let s : Search :=
    { visited := [entry]
      candidates := BinaryHeap.empty.push (d0, entry)
      results :=
        if g.isDeleted entry then .empty else BinaryHeap.empty.push (d0, entry) }
  searchLoop g queryDist ef expired g.searchFuel 0 s

/-- `search_layer`: `(id, distance)` in ascending distance, without deleted nodes.  The sort
    is stable, so equal distances keep the order of the heap's array. -/
def searchLayer (g : NswGraph) (queryDist : NodeId → F32) (ef : Nat) (entry : NodeId)
    (expired : Nat → Bool) : List (NodeId × F32) :=
  let results := (g.searchState queryDist ef entry expired).results.data
  (results.map fun r => (r.2, r.1)).insertionSort fun a b => F32.totalLe a.2 b.2

/-- The back-link of a new node `id` in its neighbour `nb`, cut to `2 * M`. -/
def backLink (id : NodeId) (nodes : AList (fun _ : NodeId => Node)) (nb : NodeId) :
    AList (fun _ : NodeId => Node) :=
  match nodes.lookup nb with
  | some n => nodes.insert nb { n with neighbors := (n.neighbors ++ [id]).take (nswM * 2) }
  | none => nodes

/-- `NswGraph::insert`. -/
def insert (g : NswGraph) (id : NodeId) (dist : NodeId → F32) : Except StoreError NswGraph :=
  match g.nodes.lookup id with
  | some _ => .error (.duplicateVector id)
  | none =>
    match g.entryPoint with
    | none => .ok ⟨g.nodes.insert id ⟨false, []⟩, some id⟩
    | some entry =>
      let candidates := g.searchLayer dist efConstruction entry fun _ => false
      let neighbors := (candidates.take nswM).map Prod.fst
      let nodes := neighbors.foldl (backLink id) g.nodes
      .ok ⟨nodes.insert id ⟨false, neighbors⟩, g.entryPoint⟩

/-- `NswGraph::search_knn`. -/
def searchKnn (g : NswGraph) (queryDist : NodeId → F32) (topK efSearch : Nat)
    (expired : Nat → Bool) : List (NodeId × F32) :=
  match g.entryPoint with
  | none => []
  | some entry => (g.searchLayer queryDist (max efSearch topK) entry expired).take topK

/-- `NswGraph::delete`: whether a live node was marked. -/
def delete (g : NswGraph) (id : NodeId) : Bool × NswGraph :=
  match g.nodes.lookup id with
  | some n => (!n.deleted, { g with nodes := g.nodes.insert id { n with deleted := true } })
  | none => (false, g)

/-- `restore_node`. -/
def restoreNode (g : NswGraph) (id : NodeId) (neighbors : List NodeId) (deleted : Bool) :
    NswGraph :=
  { g with nodes := g.nodes.insert id ⟨deleted, neighbors⟩ }

/-- `restore_entry_point`. -/
def restoreEntryPoint (g : NswGraph) (id : NodeId) : NswGraph :=
  match g.nodes.lookup id with
  | some _ => { g with entryPoint := some id }
  | none => g

/-- `validate_edges`: no dangling edge, and a live entry point unless the graph is empty. -/
def validateEdges (g : NswGraph) : Except StoreError Unit :=
  let dangling := g.nodes.entries.findSome? fun n =>
    (n.2.neighbors.find? fun nb => (g.nodes.lookup nb).isNone).map fun nb => (n.1, nb)
  match dangling with
  | some (id, nb) =>
    .error (.corrupt s!"dangling edge: node {id} -> {nb} (target not in graph)")
  | none =>
    if g.nodes.entries.isEmpty then .ok ()
    else
      match g.entryPoint with
      | some ep =>
        -- a search starts at the entry point
        if g.isDeleted ep then
          .error (.corrupt s!"entry point {ep} is soft-deleted, no valid search start")
        else .ok ()
      | none => .error (.corrupt "non-empty graph has no entry point")

end NswGraph

/-- The calls that change a graph. -/
inductive GraphEvent where
  | insert (id : NodeId) (dist : NodeId → F32)
  | delete (id : NodeId)

/-- One call; a refused insert changes nothing. -/
def NswGraph.step (g : NswGraph) : GraphEvent → NswGraph
  | .insert id dist =>
    match g.insert id dist with
    | .ok g' => g'
    | .error _ => g
  | .delete id => (g.delete id).2

end FusionStore
