import FusionStore.ForStd.Except
import FusionStore.ForStd.Run
import FusionStore.Native.SnapshotFile
import FusionStore.Spec.GraphCorrect

/-!
# The snapshot file round trip

The encoder fills its buffer region by region (`encode_eq`), and the decoder reads each
node back from its regions (`readNode_eq`): for a snapshot within the `u32` counts the
bytes say what `Snapshot` says, so `load` on them is `Snapshot.load` (`load_encode`).
What is left is `validate_edges`, which a graph of the program passes exactly if its entry
point is not soft-deleted.
-/

namespace FusionStore

namespace SnapshotFile

open LittleEndian

/-- What a snapshot says of one node. -/
abbrev SnapNode := NodeId × List NodeId × Bool

/-! ### The regions -/

/-- The number of edges. -/
def edgeTotal (nodes : List SnapNode) : Nat := (nodes.map fun n => n.2.1.length).sum

/-- The counts fit their header fields. -/
structure Fits (s : Snapshot) : Prop where
  nodes : s.nodes.length < 2 ^ 32
  edges : edgeTotal s.nodes < 2 ^ 32

def idsOf (nodes : List SnapNode) : List Nat := nodes.map fun n => n.1.toNat

/-- Where the edges of each node start, and where those of the last one end. -/
def offsetsFrom (acc : Nat) : List SnapNode → List Nat
  | [] => [acc]
  | n :: nodes => acc :: offsetsFrom (acc + n.2.1.length) nodes

def edgesOf (nodes : List SnapNode) : List Nat := nodes.flatMap fun n => n.2.1.map UInt64.toNat

def flagsOf (nodes : List SnapNode) : Bytes := nodes.map fun n => if n.2.2 then 1 else 0

/-- The four regions. -/
def regions (nodes : List SnapNode) : Bytes :=
  toLEs 8 (idsOf nodes) ++ (toLEs 4 (offsetsFrom 0 nodes) ++
    (toLEs 8 (edgesOf nodes) ++ flagsOf nodes))

/-- The header up to the checksum. -/
def fields (s : Snapshot) : Bytes :=
  toLE 4 magic ++ (toLE 4 s.nodes.length ++ (toLE 4 (edgeTotal s.nodes) ++
    toLE 8 s.entryPoint.toNat))

/-- The file. -/
def file (s : Snapshot) : Bytes :=
  fields s ++ (toLE 4 (bodyCrc (regions s.nodes)).toNat ++ ([0, 0, 0, 0] ++ regions s.nodes))

section Regions

variable (nodes done rest : List SnapNode) (n : SnapNode) (acc : Nat)

/-- No nodes, no edges. -/
@[simp] theorem edgeTotal_nil : edgeTotal [] = 0 := rfl

/-- The edges of the first node, then those of the rest. -/
@[simp] theorem edgeTotal_cons : edgeTotal (n :: nodes) = n.2.1.length + edgeTotal nodes := by
  simp [edgeTotal]

/-- Edges add up along the list. -/
@[simp] theorem edgeTotal_append : edgeTotal (done ++ rest) = edgeTotal done + edgeTotal rest := by
  simp [edgeTotal]

/-- One id a node. -/
@[simp] theorem length_idsOf : (idsOf nodes).length = nodes.length := by simp [idsOf]

/-- One offset a node, and the end of the last. -/
@[simp] theorem length_offsetsFrom : (offsetsFrom acc nodes).length = nodes.length + 1 := by
  induction nodes generalizing acc with
  | nil => rfl
  | cons n nodes ih => simp [offsetsFrom, ih]

/-- One entry an edge. -/
@[simp] theorem length_edgesOf : (edgesOf nodes).length = edgeTotal nodes := by
  simp [edgesOf, edgeTotal, List.length_flatMap]

/-- One flag a node. -/
@[simp] theorem length_flagsOf : (flagsOf nodes).length = nodes.length := by simp [flagsOf]

/-- The header in front of its checksum. -/
@[simp] theorem length_fields (s : Snapshot) : (fields s).length = 20 := by simp [fields]

/-- The size of the body by the counts, as the source computes it. -/
theorem length_regions : (regions nodes).length =
    nodes.length * 8 + (nodes.length + 1) * 4 + edgeTotal nodes * 8 + nodes.length := by
  simp [regions]
  omega

/-- The size of the file. -/
theorem length_file (s : Snapshot) : (file s).length = 28 + (regions s.nodes).length := by
  simp [file]
  omega

/-- A node more adds the offset behind its edges. -/
theorem offsetsFrom_concat :
    offsetsFrom acc (done ++ [n]) =
      offsetsFrom acc done ++ [acc + edgeTotal done + n.2.1.length] := by
  induction done generalizing acc with
  | nil => simp [offsetsFrom]
  | cons m done ih =>
    simp only [List.cons_append, offsetsFrom, ih, edgeTotal_cons]
    simp only [Nat.add_assoc]

/-- The table from a node on is that of the nodes from there on. -/
theorem offsetsFrom_append : ∃ before, before.length = done.length ∧
    offsetsFrom acc (done ++ rest) = before ++ offsetsFrom (acc + edgeTotal done) rest := by
  induction done generalizing acc with
  | nil => exact ⟨[], rfl, rfl⟩
  | cons m done ih =>
    obtain ⟨before, hlen, heq⟩ := ih (acc + m.2.1.length)
    refine ⟨acc :: before, by simp [hlen], ?_⟩
    simp only [List.cons_append, offsetsFrom, heq, edgeTotal_cons, Nat.add_assoc]

/-- The table begins with the offset it is given. -/
theorem offsetsFrom_head : ∃ after, offsetsFrom acc rest = acc :: after := by
  cases rest with
  | nil => exact ⟨[], rfl⟩
  | cons n rest => exact ⟨_, rfl⟩

end Regions

/-! ### The encoder -/

/-- A stretch of the buffer nothing was written to. -/
def zeros (k : Nat) : Bytes := List.replicate k 0

/-- The length of a gap. -/
@[simp] theorem length_zeros (k : Nat) : (zeros k).length = k := List.length_replicate

/-- A gap is split where something is written into it. -/
theorem zeros_add (j k : Nat) : zeros (j + k) = zeros j ++ zeros k :=
  (List.replicate_append_replicate).symm

/-- Bytes copied to the start of a gap push it back. -/
theorem copyAt_zeros (before bytes after : Bytes) (k : Nat) :
    copyAt (before ++ (zeros (bytes.length + k) ++ after)) before.length bytes =
      .ok (before ++ (bytes ++ (zeros k ++ after))) := by
  have hfit : before.length + bytes.length ≤
      (before ++ (zeros (bytes.length + k) ++ after)).length := by
    simp
    omega
  rw [copyAt, if_pos hfit, zeros_add]
  simp [← List.drop_drop, List.drop_append]

/-- The inner loop fills the gap at its cursor. -/
theorem writeEdges_eq (before after : Bytes) (nbs : List NodeId) (k ids off : Nat) (acc : UInt32)
    (i : Nat) :
    writeEdges ⟨before ++ (zeros (nbs.length * 8 + k) ++ after), ids, off, before.length, acc, i⟩
      nbs = .ok ⟨before ++ (toLEs 8 (nbs.map UInt64.toNat) ++ (zeros k ++ after)), ids, off,
        before.length + nbs.length * 8, acc, i⟩ := by
  -- by induction on the edges: each overwrites the first eight zeros of the gap
  induction nbs generalizing before with
  | nil => simp [writeEdges, pure, Except.pure]
  | cons nb nbs ih =>
    have hcopy := copyAt_zeros before (toLE 8 nb.toNat) after (nbs.length * 8 + k)
    rw [length_toLE] at hcopy
    have hgap : (nb :: nbs).length * 8 + k = 8 + (nbs.length * 8 + k) := by
      rw [List.length_cons]
      omega
    have hcons : writeEdges ⟨before ++ (zeros ((nb :: nbs).length * 8 + k) ++ after), ids, off,
        before.length, acc, i⟩ (nb :: nbs) =
        writeEdges ⟨before ++ (toLE 8 nb.toNat ++ (zeros (nbs.length * 8 + k) ++ after)), ids, off,
          before.length + 8, acc, i⟩ nbs := by
      simp only [hgap, writeEdges, List.foldlM_cons, hcopy]
      rfl
    have hrest := ih (before ++ toLE 8 nb.toNat)
    -- the rest is written behind this edge
    simp only [List.append_assoc, List.length_append, length_toLE] at hrest
    have hend : before.length + 8 + nbs.length * 8 = before.length + (nbs.length + 1) * 8 := by
      omega
    rw [hcons, hrest, hend]
    simp

/-- The buffer: what each region holds, and the gap behind it. -/
def image (hdr ids offs edges flags : Bytes) (a b c d : Nat) : Bytes :=
  hdr ++ (ids ++ (zeros a ++ (offs ++ (zeros b ++ (edges ++ (zeros c ++ (flags ++ zeros d)))))))

section Image

variable (hdr ids offs edges flags bytes : Bytes) (a b c d : Nat)

/-- A copy into the table of ids. -/
theorem copyAt_ids : copyAt (image hdr ids offs edges flags (bytes.length + a) b c d)
    (hdr.length + ids.length) bytes = .ok (image hdr (ids ++ bytes) offs edges flags a b c d) := by
  have h := copyAt_zeros (hdr ++ ids) bytes (offs ++ (zeros b ++ (edges ++ (zeros c ++
    (flags ++ zeros d))))) a
  simpa [image] using h

/-- A copy into the table of offsets. -/
theorem copyAt_offs : copyAt (image hdr ids offs edges flags a (bytes.length + b) c d)
    (hdr.length + (ids.length + (a + offs.length))) bytes =
      .ok (image hdr ids (offs ++ bytes) edges flags a b c d) := by
  have h := copyAt_zeros (hdr ++ (ids ++ (zeros a ++ offs))) bytes (edges ++ (zeros c ++
    (flags ++ zeros d))) b
  simpa [image] using h

/-- A copy into the flags. -/
theorem copyAt_flags : copyAt (image hdr ids offs edges flags a b c (bytes.length + d))
    (hdr.length + (ids.length + (a + (offs.length + (b + (edges.length + (c + flags.length)))))))
      bytes = .ok (image hdr ids offs edges (flags ++ bytes) a b c d) := by
  have h := copyAt_zeros (hdr ++ (ids ++ (zeros a ++ (offs ++ (zeros b ++ (edges ++ (zeros c ++
    flags))))))) bytes [] d
  simpa [image] using h

/-- The inner loop: the edges of one node go into the table of edges. -/
theorem writeEdges_image (nbs : List NodeId) (i o : Nat) (acc : UInt32) (k : Nat) :
    writeEdges ⟨image hdr ids offs edges flags a b (nbs.length * 8 + c) d, i, o,
      hdr.length + (ids.length + (a + (offs.length + (b + edges.length)))), acc, k⟩ nbs =
    .ok ⟨image hdr ids offs (edges ++ toLEs 8 (nbs.map UInt64.toNat)) flags a b c d, i, o,
      hdr.length + (ids.length + (a + (offs.length + (b + edges.length)))) + nbs.length * 8,
      acc, k⟩ := by
  have h := writeEdges_eq (hdr ++ (ids ++ (zeros a ++ (offs ++ (zeros b ++ edges)))))
    (flags ++ zeros d) nbs c i o acc k
  simpa [image] using h

end Image

/-- The state of the node loop, its cursors at the gaps. -/
def csrAt (hdr ids offs edges flags : Bytes) (a b c d : Nat) (acc : UInt32) : Csr where
  buf := image hdr ids offs edges flags a b c d
  idsCursor := hdr.length + ids.length
  offCursor := hdr.length + (ids.length + (a + offs.length))
  edgeCursor := hdr.length + (ids.length + (a + (offs.length + (b + edges.length))))
  acc := acc
  index := flags.length

/-- One node: each of the four writes goes into the gap behind what its region holds. -/
theorem writeNode_csrAt (hdr ids offs edges flags : Bytes) (a b c d : Nat) (acc : UInt32)
    (n : SnapNode) :
    writeNode (hdr.length + (ids.length + (8 + a + (offs.length + (4 + b +
        (edges.length + (n.2.1.length * 8 + c)))))))
      (csrAt hdr ids offs edges flags (8 + a) (4 + b) (n.2.1.length * 8 + c) (1 + d) acc) n =
    .ok (csrAt hdr (ids ++ toLE 8 n.1.toNat)
      (offs ++ toLE 4 (acc + UInt32.ofNat n.2.1.length).toNat)
      (edges ++ toLEs 8 (n.2.1.map UInt64.toNat)) (flags ++ [if n.2.2 then 1 else 0])
      a b c d (acc + UInt32.ofNat n.2.1.length)) := by
  obtain ⟨id, nbs, deleted⟩ := n
  generalize hacc : acc + UInt32.ofNat nbs.length = acc'
  -- the four copies, each into the image the one before has left
  have hid := copyAt_ids hdr ids offs edges flags (toLE 8 id.toNat) a (4 + b) (nbs.length * 8 + c)
    (1 + d)
  have hoff := copyAt_offs hdr (ids ++ toLE 8 id.toNat) offs edges flags (toLE 4 acc'.toNat) a b
    (nbs.length * 8 + c) (1 + d)
  have hedges := writeEdges_image hdr (ids ++ toLE 8 id.toNat) (offs ++ toLE 4 acc'.toNat) edges
    flags a b c (1 + d) nbs (hdr.length + ids.length + 8)
    (hdr.length + (ids.length + (8 + a + offs.length)) + 4) acc' flags.length
  have hflag := copyAt_flags hdr (ids ++ toLE 8 id.toNat) (offs ++ toLE 4 acc'.toNat)
    (edges ++ toLEs 8 (nbs.map UInt64.toNat)) flags [if deleted then 1 else 0] a b c d
  simp only [length_toLE, List.length_append, length_toLEs, List.length_map, List.length_singleton]
    at hid hoff hedges hflag
  -- the regions do not move: what one gains its gap loses
  have hoffCur : hdr.length + (ids.length + (8 + a + offs.length)) =
      hdr.length + (ids.length + 8 + (a + offs.length)) := by omega
  have hedgeCur : hdr.length + (ids.length + (8 + a + (offs.length + (4 + b + edges.length)))) =
      hdr.length + (ids.length + 8 + (a + (offs.length + 4 + (b + edges.length)))) := by omega
  have hflagCur : hdr.length + (ids.length + (8 + a + (offs.length + (4 + b +
      (edges.length + (nbs.length * 8 + c)))))) + flags.length =
      hdr.length + (ids.length + 8 + (a + (offs.length + 4 + (b + (edges.length +
        nbs.length * 8 + (c + flags.length)))))) := by omega
  simp only [writeNode, csrAt, hacc, hid, bind, Except.bind]
  rw [hoffCur, hoff]
  simp only
  rw [hedgeCur, ← hoffCur, hedges]
  simp only [hflagCur, hflag, pure, Except.pure]
  simp only [List.length_append, length_toLE, length_toLEs, List.length_map,
    List.length_singleton, Except.ok.injEq, Csr.mk.injEq, true_and, and_true]
  omega

/-- The state of the node loop with `done` written and `rest` to come. -/
def csrOf (hdr : Bytes) (done rest : List SnapNode) : Csr :=
  csrAt hdr (toLEs 8 (idsOf done)) (toLEs 4 (offsetsFrom 0 done)) (toLEs 8 (edgesOf done))
    (flagsOf done) (rest.length * 8) (rest.length * 4) (edgeTotal rest * 8) rest.length
    (UInt32.ofNat (edgeTotal done))

/-- The outer loop, from any number of nodes written to all. -/
theorem writeNodes_eq (hdr : Bytes) (done rest : List SnapNode)
    (hfit : edgeTotal (done ++ rest) < 2 ^ 32) :
    rest.foldlM (writeNode (hdr.length + ((done ++ rest).length * 8 +
      (((done ++ rest).length + 1) * 4 + edgeTotal (done ++ rest) * 8)))) (csrOf hdr done rest) =
    .ok (csrOf hdr (done ++ rest) []) := by
  -- by induction on the nodes still to be written
  induction rest generalizing done with
  | nil => simp [pure, Except.pure]
  | cons n rest ih =>
    have hrest := ih (done ++ [n]) (by simpa using hfit)
    rw [List.append_assoc, List.singleton_append] at hrest
    simp only [edgeTotal_append, edgeTotal_cons] at hfit
    -- the running edge offset does not wrap
    have hacc : UInt32.ofNat (edgeTotal done) + UInt32.ofNat n.2.1.length =
        UInt32.ofNat (edgeTotal done + n.2.1.length) := (UInt32.ofNat_add _ _).symm
    have haccNat : (UInt32.ofNat (edgeTotal done + n.2.1.length)).toNat =
        edgeTotal done + n.2.1.length := UInt32.toNat_ofNat_of_lt' (by
      change _ < 2 ^ 32
      omega)
    -- one node fills the front of each gap
    have hnode := writeNode_csrAt hdr (toLEs 8 (idsOf done)) (toLEs 4 (offsetsFrom 0 done))
      (toLEs 8 (edgesOf done)) (flagsOf done) (rest.length * 8) (rest.length * 4)
      (edgeTotal rest * 8) rest.length (UInt32.ofNat (edgeTotal done)) n
    -- the buffer before and after the node, each region as written part and zeros
    have hbefore : csrOf hdr done (n :: rest) = csrAt hdr (toLEs 8 (idsOf done))
        (toLEs 4 (offsetsFrom 0 done)) (toLEs 8 (edgesOf done)) (flagsOf done)
        (8 + rest.length * 8) (4 + rest.length * 4) (n.2.1.length * 8 + edgeTotal rest * 8)
        (1 + rest.length) (UInt32.ofNat (edgeTotal done)) := by
      simp only [csrOf, List.length_cons, edgeTotal_cons, Nat.add_mul, Nat.add_comm rest.length 1]
    have hafter : csrOf hdr (done ++ [n]) rest =
      csrAt hdr (toLEs 8 (idsOf done) ++ toLE 8 n.1.toNat)
        (toLEs 4 (offsetsFrom 0 done) ++ toLE 4 (edgeTotal done + n.2.1.length))
        (toLEs 8 (edgesOf done) ++ toLEs 8 (n.2.1.map UInt64.toNat))
        (flagsOf done ++ [if n.2.2 then 1 else 0]) (rest.length * 8) (rest.length * 4)
        (edgeTotal rest * 8) rest.length (UInt32.ofNat (edgeTotal done + n.2.1.length)) := by
      simp [csrOf, idsOf, offsetsFrom_concat, edgesOf, flagsOf]
    -- the flags begin where the edges end
    have hflags : hdr.length + ((toLEs 8 (idsOf done)).length + (8 + rest.length * 8 +
        ((toLEs 4 (offsetsFrom 0 done)).length + (4 + rest.length * 4 +
          ((toLEs 8 (edgesOf done)).length + (n.2.1.length * 8 + edgeTotal rest * 8)))))) =
        hdr.length + ((done ++ n :: rest).length * 8 +
          (((done ++ n :: rest).length + 1) * 4 + edgeTotal (done ++ n :: rest) * 8)) := by
      simp
      omega
    rw [hflags, ← hbefore, hacc, haccNat, ← hafter] at hnode
    rw [List.foldlM_cons, hnode]
    exact hrest

/-- With all nodes written no gap is left. -/
theorem image_done (hdr : Bytes) (nodes : List SnapNode) :
    (csrOf hdr nodes []).buf = hdr ++ regions nodes := by
  simp [csrOf, csrAt, image, regions, zeros]

/-- The 32-bit sum of the source is the number of edges modulo `2 ^ 32`. -/
theorem edgeCount_eq (nodes : List SnapNode) :
    edgeCount nodes = UInt32.ofNat (edgeTotal nodes) := by
  have h : ∀ acc, nodes.foldl (fun sum n => sum + UInt32.ofNat n.2.1.length) (UInt32.ofNat acc) =
      UInt32.ofNat (acc + edgeTotal nodes) := by
    induction nodes with
    | nil => simp
    | cons n nodes ih =>
      intro acc
      rw [List.foldl_cons, ← UInt32.ofNat_add, ih, edgeTotal_cons, Nat.add_assoc]
  simpa [edgeCount] using h 0

/-- The four header fields. -/
theorem writeFields_eq (s : Snapshot) (k : Nat) (next : Bytes → Except StoreError Bytes) : (do
    let buf ← copyAt (zeros (20 + k)) 0 (toLE 4 magic)
    let buf ← copyAt buf 4 (toLE 4 s.nodes.length)
    let buf ← copyAt buf 8 (toLE 4 (edgeTotal s.nodes))
    let buf ← copyAt buf 12 (toLE 8 s.entryPoint.toNat)
    next buf) = next (fields s ++ zeros k) := by
  have h1 := copyAt_zeros [] (toLE 4 magic) [] (16 + k)
  have h2 := copyAt_zeros (toLE 4 magic) (toLE 4 s.nodes.length) [] (12 + k)
  have h3 := copyAt_zeros (toLE 4 magic ++ toLE 4 s.nodes.length) (toLE 4 (edgeTotal s.nodes)) []
    (8 + k)
  have h4 := copyAt_zeros (toLE 4 magic ++ (toLE 4 s.nodes.length ++ toLE 4 (edgeTotal s.nodes)))
    (toLE 8 s.entryPoint.toNat) [] k
  simp only [← Nat.add_assoc, length_toLE, List.append_nil, List.nil_append, List.append_assoc,
    List.length_append, List.length_nil, Nat.reduceAdd] at h1 h2 h3 h4
  simp only [h1, h2, h3, h4, bind, Except.bind, fields, List.append_assoc]

/-- The checksum, computed over the regions and written into the header. -/
theorem writeCrc_eq (s : Snapshot) (total : Nat) (htotal : total = 28 + (regions s.nodes).length) :
    copyAt (fields s ++ zeros 8 ++ regions s.nodes) 20 (toLE 4 (bodyCrc
      (((fields s ++ zeros 8 ++ regions s.nodes).take total).drop 28)).toNat) = .ok (file s) := by
  have hlen : (fields s ++ zeros 8).length = 28 := by simp
  have hbody : ((fields s ++ zeros 8 ++ regions s.nodes).take total).drop 28 =
      regions s.nodes := by
    rw [List.take_of_length_le (by simp; omega), List.drop_left' hlen]
  have hcopy := copyAt_zeros (fields s) (toLE 4 (bodyCrc (regions s.nodes)).toNat)
    (regions s.nodes) 4
  rw [length_fields, length_toLE] at hcopy
  rw [hbody, List.append_assoc]
  exact hcopy

/-- The first offset, and with it the state in which the node loop starts. -/
theorem writeFirstOffset_eq (hdr : Bytes) (nodes : List SnapNode) (hhdr : hdr.length = 28) :
    copyAt (hdr ++ zeros (nodes.length * 8 + (4 + nodes.length * 4 +
        (edgeTotal nodes * 8 + nodes.length)))) (28 + nodes.length * 8) (toLE 4 0) =
      .ok (csrOf hdr [] nodes).buf ∧
    csrOf hdr [] nodes = ⟨(csrOf hdr [] nodes).buf, 28, 28 + nodes.length * 8 + 4,
      28 + nodes.length * 8 + (nodes.length + 1) * 4, 0, 0⟩ := by
  constructor
  · have hcopy := copyAt_zeros (hdr ++ zeros (nodes.length * 8)) (toLE 4 0)
      (zeros (edgeTotal nodes * 8) ++ zeros nodes.length) (nodes.length * 4)
    simp only [List.length_append, hhdr, length_zeros, length_toLE, List.append_assoc] at hcopy
    simp only [zeros_add, List.append_assoc] at hcopy ⊢
    exact hcopy
  · simp [csrOf, csrAt, idsOf, edgesOf, flagsOf, offsetsFrom, hhdr]
    omega

/-- A snapshot whose counts fit 32 bits is written as the file of its regions. -/
theorem encode_eq {s : Snapshot} (h : Fits s) : encode s = .ok (file s) := by
  have hn : (UInt32.ofNat s.nodes.length).toNat = s.nodes.length :=
    UInt32.toNat_ofNat_of_lt' h.nodes
  have he : (edgeCount s.nodes).toNat = edgeTotal s.nodes := by
    rw [edgeCount_eq]
    exact UInt32.toNat_ofNat_of_lt' h.edges
  have hhdr : (fields s ++ zeros 8).length = 28 := by simp
  -- the first offset, then the loop over the nodes
  obtain ⟨hzero, hstart⟩ := writeFirstOffset_eq (fields s ++ zeros 8) s.nodes hhdr
  have hnodes := writeNodes_eq (fields s ++ zeros 8) [] s.nodes h.edges
  rw [hhdr, hstart] at hnodes
  -- the sums of the source, regrouped by region
  have htotal : 28 + s.nodes.length * 8 + (s.nodes.length + 1) * 4 + edgeTotal s.nodes * 8 +
      s.nodes.length = 20 + (8 + (s.nodes.length * 8 + (4 + s.nodes.length * 4 +
        (edgeTotal s.nodes * 8 + s.nodes.length)))) := by omega
  have hflags : 28 + s.nodes.length * 8 + (s.nodes.length + 1) * 4 + edgeTotal s.nodes * 8 =
      28 + (s.nodes.length * 8 + ((s.nodes.length + 1) * 4 + edgeTotal s.nodes * 8)) := by omega
  have hbuf : List.replicate (28 + s.nodes.length * 8 + (s.nodes.length + 1) * 4 +
      edgeTotal s.nodes * 8 + s.nodes.length) (0 : UInt8) = zeros (20 + (8 + (s.nodes.length * 8 +
        (4 + s.nodes.length * 4 + (edgeTotal s.nodes * 8 + s.nodes.length))))) :=
    congrArg zeros htotal
  unfold encode
  simp only [hn, he]
  rw [hbuf, writeFields_eq, zeros_add 8, ← List.append_assoc, hzero]
  simp only [bind, Except.bind]
  rw [hflags]
  simp only [List.nil_append] at hnodes
  rw [hnodes]
  simp only [image_done]
  -- the checksum goes into the header last, when the body is complete
  refine writeCrc_eq s _ ?_
  rw [length_regions]
  omega

/-! ### When the encoder returns -/

/-- A copy stays inside the buffer and does not change its length. -/
theorem copyAt_ok {buf bytes buf' : Bytes} {off : Nat} (h : copyAt buf off bytes = .ok buf') :
    off + bytes.length ≤ buf.length ∧ buf'.length = buf.length := by
  unfold copyAt at h
  split at h
  · obtain rfl := Except.ok.inj h
    refine ⟨‹_›, ?_⟩
    simp
    omega
  · cases h

/-- The edges that were written are inside the buffer. -/
theorem writeEdges_ok {c c' : Csr} {nbs : List NodeId} (h : writeEdges c nbs = .ok c')
    (hc : c.edgeCursor ≤ c.buf.length) :
    c'.buf.length = c.buf.length ∧ c'.index = c.index ∧
      c'.edgeCursor = c.edgeCursor + nbs.length * 8 ∧ c'.edgeCursor ≤ c.buf.length := by
  have hinv := Except.foldlM_ok (fun done (d : Csr) => d.buf.length = c.buf.length ∧
    d.index = c.index ∧ d.edgeCursor = c.edgeCursor + done.length * 8 ∧
      d.edgeCursor ≤ c.buf.length) ?_ [] h ⟨rfl, rfl, rfl, hc⟩
  · simpa using hinv
  · rintro done d nb d' ⟨hbuf, hidx, hcur, -⟩ hd
    obtain ⟨buf, hcopy, hd⟩ := Except.bind_ok hd
    obtain rfl := Except.ok.inj hd
    obtain ⟨hfit, hlen⟩ := copyAt_ok hcopy
    rw [length_toLE] at hfit
    refine ⟨hlen.trans hbuf, hidx, ?_, ?_⟩
    · show d.edgeCursor + 8 = c.edgeCursor + (done ++ [nb]).length * 8
      rw [hcur, List.length_append, List.length_singleton]
      omega
    · show d.edgeCursor + 8 ≤ c.buf.length
      omega

/-- What a node that is written takes. -/
theorem writeNode_ok {flagsOff : Nat} {c c' : Csr} {n : SnapNode}
    (h : writeNode flagsOff c n = .ok c') (hc : c.edgeCursor ≤ c.buf.length) :
    c'.buf.length = c.buf.length ∧ c'.index = c.index + 1 ∧
      c'.edgeCursor = c.edgeCursor + n.2.1.length * 8 ∧ c'.edgeCursor ≤ c.buf.length ∧
      flagsOff + c'.index ≤ c.buf.length := by
  obtain ⟨buf₁, hids, h⟩ := Except.bind_ok h
  obtain ⟨buf₂, hoff, h⟩ := Except.bind_ok h
  obtain ⟨d, hedges, h⟩ := Except.bind_ok h
  obtain ⟨buf₃, hflag, h⟩ := Except.bind_ok h
  obtain rfl := Except.ok.inj h
  have hlen₁ := (copyAt_ok hids).2
  have hlen₂ := (copyAt_ok hoff).2
  have hlen : buf₂.length = c.buf.length := hlen₂.trans hlen₁
  obtain ⟨hbuf, hidx, hcur, hle⟩ := writeEdges_ok hedges (hc.trans hlen.ge)
  obtain ⟨hfit, hlen₃⟩ := copyAt_ok hflag
  simp only [List.length_singleton] at hbuf hidx hcur hle hfit hlen₃ ⊢
  refine ⟨?_, ?_, hcur, ?_, ?_⟩ <;> omega

/-- The encoder returns only if the counts fit: with wrapped counts the buffer is too short
    for the flags or for the edges. -/
theorem fits_of_encode {s : Snapshot} {bytes : Bytes} (h : encode s = .ok bytes) : Fits s := by
  unfold encode at h
  simp only at h
  obtain ⟨buf₁, h₁, h⟩ := Except.bind_ok h
  obtain ⟨buf₂, h₂, h⟩ := Except.bind_ok h
  obtain ⟨buf₃, h₃, h⟩ := Except.bind_ok h
  obtain ⟨buf₄, h₄, h⟩ := Except.bind_ok h
  obtain ⟨buf₅, h₅, h⟩ := Except.bind_ok h
  obtain ⟨c, hloop, -⟩ := Except.bind_ok h
  -- `as u32` cuts the counts that the layout is computed from
  have hn : (UInt32.ofNat s.nodes.length).toNat = s.nodes.length % 2 ^ 32 := UInt32.toNat_ofNat'
  have he : (edgeCount s.nodes).toNat = edgeTotal s.nodes % 2 ^ 32 := by
    rw [edgeCount_eq]
    exact UInt32.toNat_ofNat'
  have hlen := (copyAt_ok h₅).2.trans ((copyAt_ok h₄).2.trans ((copyAt_ok h₃).2.trans
    ((copyAt_ok h₂).2.trans (copyAt_ok h₁).2)))
  rw [List.length_replicate] at hlen
  generalize hnodes : (UInt32.ofNat s.nodes.length).toNat = nodeCount at *
  generalize hedges : (edgeCount s.nodes).toNat = edges at *
  -- the cursors of the loop stay inside the buffer, whatever the counts were
  have hinv := Except.foldlM_ok (fun (done : List SnapNode) (d : Csr) =>
    d.buf.length = buf₅.length ∧ d.index = done.length ∧
      d.edgeCursor = 28 + nodeCount * 8 + (nodeCount + 1) * 4 + edgeTotal done * 8 ∧
      d.edgeCursor ≤ buf₅.length ∧
      (done ≠ [] → 28 + nodeCount * 8 + (nodeCount + 1) * 4 + edges * 8 + d.index ≤ buf₅.length))
    ?_ [] hloop ⟨rfl, rfl, by simp, by simp only; omega, by simp⟩
  · obtain ⟨-, hidx, hcur, hle, hflags⟩ := hinv
    rw [List.nil_append] at hidx hcur hflags
    -- a cut count is too small for the flag of the last node
    have hfew : s.nodes.length < 2 ^ 32 := by
      by_contra hmany
      have hne : s.nodes ≠ [] := by
        intro hnil
        simp [hnil] at hmany
      have := hflags hne
      omega
    exact ⟨hfew, by omega⟩
  · rintro done d n d' ⟨hbuf, hidx, hcur, hle, -⟩ hd
    obtain ⟨hbuf', hidx', hcur', hle', hflag⟩ := writeNode_ok hd (by omega)
    refine ⟨hbuf'.trans hbuf, ?_, ?_, by omega, fun _ => by omega⟩
    · simp [hidx', hidx]
    · simp only [edgeTotal_append, edgeTotal_cons, edgeTotal_nil]
      omega

/-- What the encoder returns is the file. -/
theorem encode_eq_ok_iff {s : Snapshot} {bytes : Bytes} :
    encode s = .ok bytes ↔ Fits s ∧ bytes = file s := by
  constructor
  · intro h
    have hfits := fits_of_encode h
    exact ⟨hfits, Except.ok.inj (h.symm.trans (encode_eq hfits))⟩
  · rintro ⟨hfits, rfl⟩
    exact encode_eq hfits

/-- The size that `disk_bytes` counts is that of the file. -/
theorem length_encode {s : Snapshot} {bytes : Bytes} (h : encode s = .ok bytes) :
    bytes.length = s.fileLen := by
  obtain ⟨-, rfl⟩ := encode_eq_ok_iff.mp h
  have hedges : edgeTotal s.nodes = (s.nodes.map fun n => n.2.1.length).sum := rfl
  rw [length_file, length_regions, Snapshot.fileLen, hedges]
  omega

/-! ### The decoder -/

/-- A number behind a prefix. -/
theorem readLE_skip {before after : Bytes} {k off n : Nat} (hk : before.length = k) :
    readLE (before ++ after) (k + off) n = readLE after off n := by
  subst hk
  unfold readLE
  rw [List.length_append, List.drop_length_add_append, Nat.add_assoc]
  simp

/-- A number at the front reads back. -/
theorem readLE_head {v n : Nat} (after : Bytes) (hv : v < 256 ^ n) :
    readLE (toLE n v ++ after) 0 n = .ok v := by
  have hfit : 0 + n ≤ (toLE n v ++ after).length := by simp
  rw [readLE, if_pos hfit, List.drop_zero, List.take_left' (length_toLE n v), ofLE_toLE_of_lt hv]

/-- An entry of a table, anywhere in a file. -/
theorem readLE_table {bytes before after : Bytes} {vs xs ys : List Nat} {v n k i : Nat}
    (hbytes : bytes = before ++ (toLEs n vs ++ after)) (hk : before.length = k)
    (hvs : vs = xs ++ v :: ys) (hi : xs.length = i) (hv : v < 256 ^ n) :
    readLE bytes (k + i * n) n = .ok v := by
  have hxs : (toLEs n xs).length = i * n := by rw [length_toLEs, hi]
  rw [hbytes, readLE_skip hk, hvs, toLEs_append, toLEs_cons, List.append_assoc, List.append_assoc,
    show i * n = i * n + 0 from rfl, readLE_skip hxs]
  exact readLE_head _ hv

/-- What `load` makes of the header of `file s`. -/
def layoutOf (s : Snapshot) : Layout where
  nodeCount := s.nodes.length
  edgeCount := edgeTotal s.nodes
  entryPoint := s.entryPoint
  idsOff := 28
  offsetsOff := 28 + s.nodes.length * 8
  edgesOff := 28 + s.nodes.length * 8 + (s.nodes.length + 1) * 4
  flagsOff := 28 + s.nodes.length * 8 + (s.nodes.length + 1) * 4 + edgeTotal s.nodes * 8
  total := 28 + s.nodes.length * 8 + (s.nodes.length + 1) * 4 + edgeTotal s.nodes * 8 +
    s.nodes.length

/-- The file, field by field. -/
theorem file_eq (s : Snapshot) : file s = toLE 4 magic ++ (toLE 4 s.nodes.length ++
    (toLE 4 (edgeTotal s.nodes) ++ (toLE 8 s.entryPoint.toNat ++
      (toLE 4 (bodyCrc (regions s.nodes)).toNat ++ ([0, 0, 0, 0] ++ regions s.nodes))))) := by
  simp only [file, fields, List.append_assoc]

/-- The number in the `n` bytes at `off`. -/
def fieldAt (bytes : Bytes) (off n : Nat) : Nat := ofLE ((bytes.drop off).take n)

/-- A read inside the bytes. -/
theorem readLE_of_le {bytes : Bytes} {off n : Nat} (h : off + n ≤ bytes.length) :
    readLE bytes off n = .ok (fieldAt bytes off n) := if_pos h

/-- A field has the range of its width. -/
theorem fieldAt_lt {bytes : Bytes} {off n : Nat} : fieldAt bytes off n < 256 ^ n := by
  have hlen : ((bytes.drop off).take n).length ≤ n := List.length_take_le _ _
  exact (ofLE_lt _).trans_le (Nat.pow_le_pow_right (by omega) hlen)

/-- The layout for given header fields. -/
def layoutFor (nodeCount edgeCount : Nat) (entryPoint : NodeId) : Layout where
  nodeCount := nodeCount
  edgeCount := edgeCount
  entryPoint := entryPoint
  idsOff := 28
  offsetsOff := 28 + nodeCount * 8
  edgesOff := 28 + nodeCount * 8 + (nodeCount + 1) * 4
  flagsOff := 28 + nodeCount * 8 + (nodeCount + 1) * 4 + edgeCount * 8
  total := 28 + nodeCount * 8 + (nodeCount + 1) * 4 + edgeCount * 8 + nodeCount

/-- The layout the header of a file announces. -/
def layoutAt (bytes : Bytes) : Layout :=
  layoutFor (fieldAt bytes 4 4) (fieldAt bytes 8 4) (UInt64.ofNat (fieldAt bytes 12 8))

/-- What `load` knows of a file once it has read its header. -/
structure Announced (bytes : Bytes) : Prop where
  long : 28 ≤ bytes.length
  magic : fieldAt bytes 0 4 = magic
  whole : (layoutAt bytes).total ≤ bytes.length
  crc : (bodyCrc ((bytes.take (layoutAt bytes).total).drop 28)).toNat = fieldAt bytes 20 4

/-- The header is refused, or it announces regions that are all in the file and have the
    checksum it states. -/
theorem readHeader_cases (bytes : Bytes) :
    (¬Announced bytes ∧ ∃ msg, readHeader bytes = .error (.corrupt msg)) ∨
    (Announced bytes ∧ readHeader bytes = .ok (layoutAt bytes)) := by
  unfold readHeader
  by_cases hlong : bytes.length < 28
  · -- shorter than a header
    have hshort : ¬Announced bytes := fun h => absurd h.long (Nat.not_le.mpr hlong)
    exact Or.inl ⟨hshort, _, by simp only [hlong, if_true]; rfl⟩
  have hn : fieldAt bytes 4 4 < 2 ^ 32 := fieldAt_lt
  have he : fieldAt bytes 8 4 < 2 ^ 32 := fieldAt_lt
  have hmul : ∀ {a b : Nat}, a * b ≤ u64Max → mulUsize a b = .ok (a * b) := fun h => if_pos h
  have hadd : ∀ {a b : Nat} {msg}, a + b ≤ u64Max → checkedAdd a b msg = .ok (a + b) :=
    fun h => if_pos h
  simp only [hlong, if_false, bind, Except.bind, pure, Except.pure]
  rw [readLE_of_le (by omega), readLE_of_le (by omega), readLE_of_le (by omega),
    readLE_of_le (by omega), readLE_of_le (by omega)]
  simp only
  split
  · -- the magic, the length and the checksum are compared in this order
    rename_i hmagic
    exact Or.inl ⟨fun h => hmagic h.magic, _, rfl⟩
  rename_i hmagic
  -- 32-bit counts cannot overflow the 64-bit offsets
  rw [hmul (by unfold u64Max; omega), hmul (by unfold u64Max; omega),
    hmul (by unfold u64Max; omega)]
  simp only
  rw [hadd (by unfold u64Max; omega)]
  simp only
  rw [hadd (by unfold u64Max; omega)]
  simp only
  rw [hadd (by unfold u64Max; omega)]
  simp only
  rw [hadd (by unfold u64Max; omega)]
  simp only
  split
  · rename_i hshort
    exact Or.inl ⟨fun h => absurd h.whole (Nat.not_le.mpr hshort), _, rfl⟩
  rename_i hwhole
  split
  · rename_i hcrc
    exact Or.inl ⟨fun h => hcrc h.crc, _, rfl⟩
  rename_i hcrc
  exact Or.inr
    ⟨⟨Nat.not_lt.mp hlong, not_not.mp hmagic, Nat.not_lt.mp hwhole, not_not.mp hcrc⟩, rfl⟩

/-- What a read returns is the field. -/
theorem fieldAt_of_readLE {bytes : Bytes} {off n v : Nat} (h : readLE bytes off n = .ok v) :
    fieldAt bytes off n = v := by
  unfold readLE at h
  split at h
  · exact Except.ok.inj h
  · cases h

/-- The size the header announces is that of the file. -/
theorem total_layoutOf (s : Snapshot) : (layoutOf s).total = (file s).length := by
  rw [length_file, length_regions]
  simp only [layoutOf]
  omega

/-- Behind the header come the regions. -/
theorem drop_file (s : Snapshot) : (file s).drop 28 = regions s.nodes := by
  rw [file, ← List.append_assoc, ← List.append_assoc]
  exact List.drop_left' (by simp)

/-- A written file announces the regions it has. -/
theorem announced_file {s : Snapshot} (h : Fits s) :
    Announced (file s) ∧ layoutAt (file s) = layoutOf s := by
  obtain ⟨hn, he⟩ := h
  have hep : s.entryPoint.toNat < 2 ^ 64 := s.entryPoint.toNat_lt
  have hc : (bodyCrc (regions s.nodes)).toNat < 2 ^ 32 := UInt32.toNat_lt _
  -- the five fields
  have hmag : readLE (file s) 0 4 = .ok magic := by
    rw [file_eq, readLE_head _ (by unfold magic; omega)]
  have hnode : readLE (file s) (4 + 0) 4 = .ok s.nodes.length := by
    rw [file_eq, readLE_skip (length_toLE _ _), readLE_head _ (by omega)]
  have hedge : readLE (file s) (4 + (4 + 0)) 4 = .ok (edgeTotal s.nodes) := by
    rw [file_eq, readLE_skip (length_toLE _ _), readLE_skip (length_toLE _ _),
      readLE_head _ (by omega)]
  have hentry : readLE (file s) (4 + (4 + (4 + 0))) 8 = .ok s.entryPoint.toNat := by
    rw [file_eq, readLE_skip (length_toLE _ _), readLE_skip (length_toLE _ _),
      readLE_skip (length_toLE _ _), readLE_head _ (by omega)]
  have hcrc : readLE (file s) (4 + (4 + (4 + (8 + 0)))) 4 =
      .ok (bodyCrc (regions s.nodes)).toNat := by
    rw [file_eq, readLE_skip (length_toLE _ _), readLE_skip (length_toLE _ _),
      readLE_skip (length_toLE _ _), readLE_skip (length_toLE _ _), readLE_head _ (by omega)]
  -- the layout is read from these fields
  have hl : layoutAt (file s) = layoutOf s := by
    unfold layoutAt
    rw [fieldAt_of_readLE hnode, fieldAt_of_readLE hedge, fieldAt_of_readLE hentry,
      UInt64.ofNat_toNat]
    rfl
  refine ⟨⟨?_, fieldAt_of_readLE hmag, ?_, ?_⟩, hl⟩
  · -- the file is as long as the layout says, and its checksum is that of the regions
    rw [length_file]
    omega
  · rw [hl, total_layoutOf]
  · rw [hl, total_layoutOf, List.take_length, drop_file, fieldAt_of_readLE hcrc]

/-- The header of a written file announces its layout. -/
theorem readHeader_eq {s : Snapshot} (h : Fits s) : readHeader (file s) = .ok (layoutOf s) := by
  obtain ⟨hann, hl⟩ := announced_file h
  obtain ⟨hno, -⟩ | ⟨-, hok⟩ := readHeader_cases (file s)
  · exact absurd hann hno
  · rw [hok, hl]

/-- Flags are numbers of one byte. -/
theorem flagsOf_eq (nodes : List SnapNode) :
    flagsOf nodes = toLEs 1 (nodes.map fun n => if n.2.2 then 1 else 0) := by
  induction nodes with
  | nil => rfl
  | cons n nodes ih =>
    rw [List.map_cons, toLEs_cons, ← ih]
    cases hn : n.2.2 <;> simp [flagsOf, hn, toLE]

/-- The edges of one node, somewhere in the edge table. -/
theorem readEdges_eq {bytes before after : Bytes} {k : Nat} (nbs : List NodeId)
    (xs ys : List Nat)
    (hbytes : bytes = before ++ (toLEs 8 (xs ++ (nbs.map UInt64.toNat ++ ys)) ++ after))
    (hk : before.length = k) :
    (List.range' xs.length nbs.length).mapM (fun j => do
      return UInt64.ofNat (← readLE bytes (k + j * 8) 8)) =
      (.ok nbs : Except StoreError (List NodeId)) := by
  induction nbs generalizing xs with
  | nil => rfl
  | cons nb nbs ih =>
    have hhead : readLE bytes (k + xs.length * 8) 8 = .ok nb.toNat :=
      readLE_table hbytes hk rfl rfl nb.toNat_lt
    have htail := ih (xs ++ [nb.toNat]) (by simpa using hbytes)
    rw [List.length_append, List.length_singleton] at htail
    rw [List.length_cons, List.range'_succ, List.mapM_cons, hhead, htail]
    simp [bind, Except.bind, pure, Except.pure]

/-- A node reads back from the places its index gives. -/
theorem readNode_eq {s : Snapshot} (h : Fits s) {done rest : List SnapNode} {n : SnapNode}
    (hnodes : s.nodes = done ++ n :: rest) :
    readNode (file s) (layoutOf s) done.length = .ok n := by
  obtain ⟨id, nbs, deleted⟩ := n
  have hfits := h.edges
  simp only [hnodes, edgeTotal_append, edgeTotal_cons] at hfits
  -- the file as header and regions
  have hfile : file s = (fields s ++ (toLE 4 (bodyCrc (regions s.nodes)).toNat ++ [0, 0, 0, 0])) ++
      (toLEs 8 (idsOf s.nodes) ++ (toLEs 4 (offsetsFrom 0 s.nodes) ++
        (toLEs 8 (edgesOf s.nodes) ++ (flagsOf s.nodes ++ [])))) := by
    simp only [file, regions, List.append_assoc, List.append_nil]
  have hhdr : (fields s ++ (toLE 4 (bodyCrc (regions s.nodes)).toNat ++ [0, 0, 0, 0])).length =
      28 := by simp
  generalize fields s ++ (toLE 4 (bodyCrc (regions s.nodes)).toNat ++ [0, 0, 0, 0]) = hdr
    at hfile hhdr
  -- the two offsets of the node stand side by side in the table
  obtain ⟨before, hbefore, hoffs⟩ := offsetsFrom_append done ((id, nbs, deleted) :: rest) 0
  obtain ⟨after, hafter⟩ := offsetsFrom_head rest (edgeTotal done + nbs.length)
  rw [← hnodes] at hoffs
  simp only [offsetsFrom, Nat.zero_add, hafter] at hoffs
  -- the id
  have hid : readLE (file s) (28 + done.length * 8) 8 = .ok id.toNat :=
    readLE_table hfile hhdr (by rw [hnodes, idsOf, List.map_append, List.map_cons])
      (List.length_map _) id.toNat_lt
  -- one region after the other becomes part of what is skipped
  rw [← List.append_assoc] at hfile
  have hoffsAt : (hdr ++ toLEs 8 (idsOf s.nodes)).length = 28 + s.nodes.length * 8 := by simp [hhdr]
  have hlo : readLE (file s) (28 + s.nodes.length * 8 + done.length * 4) 4 =
      .ok (edgeTotal done) := readLE_table hfile hoffsAt hoffs hbefore (by omega)
  have hhi : readLE (file s) (28 + s.nodes.length * 8 + (done.length + 1) * 4) 4 =
      .ok (edgeTotal done + nbs.length) := by
    have hoffs' : offsetsFrom 0 s.nodes =
        (before ++ [edgeTotal done]) ++ (edgeTotal done + nbs.length) :: after := by
      rw [hoffs, List.append_assoc, List.singleton_append]
    refine readLE_table hfile hoffsAt hoffs' ?_ (by omega)
    rw [List.length_append, hbefore, List.length_singleton]
  rw [← List.append_assoc] at hfile
  have hedgesAt : (hdr ++ toLEs 8 (idsOf s.nodes) ++ toLEs 4 (offsetsFrom 0 s.nodes)).length =
      28 + s.nodes.length * 8 + (s.nodes.length + 1) * 4 := by
    simp [hhdr]
    omega
  -- the edges of this node stand behind those of the nodes before
  have hsplit : edgesOf s.nodes = edgesOf done ++ (nbs.map UInt64.toNat ++ edgesOf rest) := by
    rw [hnodes, edgesOf, List.flatMap_append, List.flatMap_cons]
    rfl
  have hedges := readEdges_eq nbs (edgesOf done) (edgesOf rest) (hsplit ▸ hfile) hedgesAt
  rw [length_edgesOf] at hedges
  rw [← List.append_assoc] at hfile
  have hflagsAt : (hdr ++ toLEs 8 (idsOf s.nodes) ++ toLEs 4 (offsetsFrom 0 s.nodes) ++
      toLEs 8 (edgesOf s.nodes)).length = 28 + s.nodes.length * 8 + (s.nodes.length + 1) * 4 +
        edgeTotal s.nodes * 8 := by
    simp [hhdr]
    omega
  -- the flag, a single byte
  have hflag : readLE (file s) (28 + s.nodes.length * 8 + (s.nodes.length + 1) * 4 +
      edgeTotal s.nodes * 8 + done.length * 1) 1 = .ok (if deleted then 1 else 0) := by
    rw [flagsOf_eq] at hfile
    refine readLE_table hfile hflagsAt (by rw [hnodes, List.map_append, List.map_cons])
      (List.length_map _) ?_
    cases deleted <;> decide
  rw [Nat.mul_one] at hflag
  -- the offsets that were read delimit edges of the file
  have hrange : ¬(edgeTotal done + nbs.length < edgeTotal done ∨
      edgeTotal s.nodes < edgeTotal done + nbs.length) := by
    simp only [hnodes, edgeTotal_append, edgeTotal_cons]
    omega
  unfold readNode layoutOf
  simp only [hid, hlo, hhi, hflag, hrange, bind, Except.bind, if_false, pure, Except.pure,
    Nat.add_sub_cancel_left, UInt64.ofNat_toNat] at hedges ⊢
  rw [hedges]
  cases deleted <;> rfl

/-- All nodes read back, in the order of the file. -/
theorem readGraph_eq {s : Snapshot} (h : Fits s) : readGraph (file s) (layoutOf s) =
    .ok (s.nodes.foldl (fun g n => g.restoreNode n.1 n.2.1 n.2.2) NswGraph.new) := by
  -- the loop from any node on
  have hloop : ∀ (rest done : List SnapNode) (g : NswGraph), s.nodes = done ++ rest →
      (List.range' done.length rest.length).foldlM (fun g i => do
        let n ← readNode (file s) (layoutOf s) i
        return g.restoreNode n.1 n.2.1 n.2.2) g =
      (.ok (rest.foldl (fun g n => g.restoreNode n.1 n.2.1 n.2.2) g) : Except StoreError _) := by
    intro rest
    induction rest with
    | nil =>
      intro done g _
      rfl
    -- one node, then the rest of the loop
    | cons n rest ih =>
      intro done g hnodes
      have hrest := ih (done ++ [n]) (g.restoreNode n.1 n.2.1 n.2.2) (by simp [hnodes])
      rw [List.length_append, List.length_singleton] at hrest
      rw [List.length_cons, List.range'_succ, List.foldlM_cons, readNode_eq h hnodes]
      exact hrest
  have h := hloop s.nodes [] NswGraph.new rfl
  rw [List.length_nil, ← List.range_eq_range'] at h
  exact h

/-- On the file of a snapshot, `load` is what it is on the snapshot. -/
theorem load_encode {s : Snapshot} (h : Fits s) :
    encode s = .ok (file s) ∧ load (some (file s)) = Snapshot.load (some s) := by
  refine ⟨encode_eq h, ?_⟩
  have hcount : (layoutOf s).nodeCount = 0 ↔ s.nodes.isEmpty = true := by
    rw [List.isEmpty_iff]
    exact List.length_eq_zero_iff
  simp only [load, Snapshot.load, readHeader_eq h, bind, Except.bind, hcount]
  by_cases hempty : s.nodes.isEmpty = true
  · simp only [hempty, if_true]
    rfl
  · simp only [hempty, readGraph_eq h]
    rfl

/-! ### Every graph of the program -/

/-- The files that `load` accepts, and what it makes of them. -/
theorem load_of_lists {g : NswGraph} (hg : g.Inv) {s : Snapshot} (hs : s.Lists g)
    (hfits : Fits s) : ∃ bytes, encode s = .ok bytes ∧
      ((∀ ep, g.entryPoint = some ep → g.isDeleted ep = false) →
        ∃ g', load (some bytes) = .ok (some g') ∧ Snapshot.SameGraph g g') ∧
      ∀ ep, g.entryPoint = some ep → g.isDeleted ep = true → load (some bytes) =
        .error (.corrupt s!"entry point {ep} is soft-deleted, no valid search start") := by
  obtain ⟨henc, hload⟩ := load_encode hfits
  refine ⟨file s, henc, ?_⟩
  rw [hload]
  obtain ⟨hok, hlive⟩ | ⟨ep, hep, hdel, herr⟩ := hs.load hg
  · refine ⟨fun _ => hok, fun ep hep hdel => ?_⟩
    rw [NswGraph.isDeleted_iff.mpr (hlive ep hep)] at hdel
    exact nomatch hdel
  · refine ⟨fun hlive => ?_, fun ep' hep' _ => ?_⟩
    · have hflag := NswGraph.isDeleted_iff.mp (hlive ep hep)
      rw [hdel] at hflag
      exact nomatch hflag
    · rw [hep] at hep'
      rw [← Option.some.inj hep']
      exact herr

/-- A graph built by inserts and deletes is written and loaded back as it was, in whatever
    order its nodes are written, if its entry point is not soft-deleted; otherwise the file
    is refused. -/
theorem roundTrip_of_run (es : List GraphEvent) {g : NswGraph}
    (hg : Run.exec NswGraph.step .new es = g) {s : Snapshot} (hs : s.Lists g) (hfits : Fits s) :
    ∃ bytes, encode s = .ok bytes ∧
      ((∀ ep, g.entryPoint = some ep → g.isDeleted ep = false) →
        ∃ g', load (some bytes) = .ok (some g') ∧ Snapshot.SameGraph g g') ∧
      ∀ ep, g.entryPoint = some ep → g.isDeleted ep = true → load (some bytes) =
        .error (.corrupt s!"entry point {ep} is soft-deleted, no valid search start") := by
  have hinv : g.Inv := hg ▸ Run.exec_invariant NswGraph.Inv (fun _ ev h => h.step ev) es
    NswGraph.inv_new
  exact load_of_lists hinv hs hfits

/-- Three nodes, one of them soft-deleted, written in another order than they are stored. -/
theorem roundTrip_of_deleted_node :
    ∃ bytes g', encode ⟨[(3, [2, 1], false), (1, [2, 3], false), (2, [1, 3], true)], 1⟩ =
        .ok bytes ∧ load (some bytes) = .ok (some g') ∧
      Snapshot.SameGraph (Run.exec NswGraph.step .new [.insert 1 fun _ => 0, .insert 2 fun _ => 0,
        .insert 3 fun _ => 0, .delete 2]) g' := by
  obtain ⟨bytes, henc, hok, -⟩ := roundTrip_of_run [.insert 1 fun _ => 0, .insert 2 fun _ => 0,
    .insert 3 fun _ => 0, .delete 2] rfl
    (s := ⟨[(3, [2, 1], false), (1, [2, 3], false), (2, [1, 3], true)], 1⟩)
    ⟨by decide +kernel, by decide +kernel⟩ ⟨by decide, by decide⟩
  obtain ⟨g', hload, hsame⟩ := hok fun ep hep => by
    obtain rfl := Option.some.inj hep
    decide +kernel
  exact ⟨bytes, g', henc, hload, hsame⟩

/-- The first node is deleted: the snapshot is written and cannot be loaded. -/
theorem deleted_entry_refused :
    let g := Run.exec NswGraph.step .new [.insert 1 fun _ => 0, .insert 2 fun _ => 0, .delete 1]
    ∃ bytes, encode (.serialize g) = .ok bytes ∧ load (some bytes) =
      .error (.corrupt "entry point 1 is soft-deleted, no valid search start") := by
  have hinv : (Run.exec NswGraph.step .new [.insert 1 fun _ => 0, .insert 2 fun _ => 0,
      .delete 1]).Inv :=
    Run.exec_invariant NswGraph.Inv (fun _ ev h => h.step ev) _ NswGraph.inv_new
  obtain ⟨bytes, henc, -, herr⟩ := load_of_lists hinv (Snapshot.lists_serialize _)
    ⟨by decide +kernel, by decide +kernel⟩
  exact ⟨bytes, henc, herr 1 rfl (by decide +kernel)⟩

end SnapshotFile

end FusionStore
