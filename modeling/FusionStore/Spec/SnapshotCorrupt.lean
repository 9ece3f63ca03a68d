import FusionStore.ForStd.Crc
import FusionStore.Spec.SnapshotSafe

/-!
# Damaged snapshot files

The checksum covers the regions and not the header.  A change of at most four bytes in a row
in the regions changes the CRC-32 (`bodyCrc_ne_of_window`), so such a file is refused.  In
the header, a count that grows announces more than the file holds, a smaller edge count cuts
off the edges of the last node, and the magic and the checksum are compared; but the entry
point may become any live node, and a smaller node count is left to the checksum of the
shorter body.
-/

namespace FusionStore

namespace SnapshotFile

open LittleEndian

/-! ### The checksum -/

/-- The polynomial of `crc32_update`. -/
def crcPoly : BitVec 32 := 0xEDB88320#32

/-- A byte in the low end of the register. -/
def toWord (b : UInt8) : BitVec 32 := b.toBitVec.setWidth 32

/-- One round of the table-free checksum, on words of bits. -/
theorem toBitVec_crc32Round (c : UInt32) :
    (crc32Round c).toBitVec = Crc.round crcPoly c.toBitVec := by
  have hlow : (c &&& 1 ≠ 0) ↔ c.toBitVec.getLsbD 0 = true := by
    rw [ne_eq, ← UInt32.toBitVec_inj, UInt32.toBitVec_and]
    rw [show (1 : UInt32).toBitVec = 1#32 from rfl, BitVec.and_one_eq_setWidth_ofBool_getLsbD]
    cases c.toBitVec.getLsbD 0 <;> simp
  unfold crc32Round Crc.round
  by_cases h : c.toBitVec.getLsbD 0 = true
  · rw [if_pos (hlow.mpr h), if_pos h]
    rfl
  · rw [if_neg (mt hlow.mp h), if_neg h]
    rfl

/-- One byte of it. -/
theorem toBitVec_crc32Byte (c : UInt32) (b : UInt8) :
    (crc32Byte c b).toBitVec = Crc.absorb crcPoly 8 c.toBitVec (toWord b) := by
  have hrounds : ∀ (n : Nat) (x : UInt32),
      (crc32Round^[n] x).toBitVec = (Crc.round crcPoly)^[n] x.toBitVec := by
    intro n
    induction n with
    | zero => exact fun x => rfl
    | succ n ih =>
      intro x
      rw [Function.iterate_succ_apply, Function.iterate_succ_apply, ih, toBitVec_crc32Round]
  unfold crc32Byte Crc.absorb
  rw [hrounds]
  rfl

/-- All bytes of it: the digest of the general theory. -/
theorem toBitVec_crc32Update (c : UInt32) (data : Bytes) :
    (crc32Update c data).toBitVec = Crc.digest crcPoly 8 c.toBitVec (data.map toWord) := by
  induction data generalizing c with
  | nil => rfl
  | cons b data ih =>
    have hrest := ih (crc32Byte c b)
    rw [toBitVec_crc32Byte] at hrest
    exact hrest

/-- A byte as a word is below 256. -/
theorem toWord_lt (b : UInt8) : (toWord b).toNat < 2 ^ 8 := by
  have hb := b.toNat_lt
  rw [toWord, BitVec.toNat_setWidth_of_le (by decide)]
  exact hb

/-- Different bytes are different words. -/
theorem toWord_injective : Function.Injective toWord := by
  intro a b h
  have hnat := congrArg BitVec.toNat h
  rw [toWord, toWord, BitVec.toNat_setWidth_of_le (by decide),
    BitVec.toNat_setWidth_of_le (by decide)] at hnat
  exact UInt8.toNat_inj.mp hnat

/-- A change of at most four bytes in a row changes the checksum. -/
theorem bodyCrc_ne_of_window (before after : Bytes) {xs ys : Bytes} (hlen : xs.length ≤ 4)
    (hsame : xs.length = ys.length) (hne : xs ≠ ys) :
    bodyCrc (before ++ (xs ++ after)) ≠ bodyCrc (before ++ (ys ++ after)) := by
  intro h
  have hcrc : crc32Update 0xFFFFFFFF (before ++ (xs ++ after)) =
      crc32Update 0xFFFFFFFF (before ++ (ys ++ after)) := UInt32.not_inj.mp h
  have hword : ∀ zs : Bytes, ∀ x ∈ zs.map toWord, x.toNat < 2 ^ 8 := by
    intro zs x hx
    obtain ⟨b, -, rfl⟩ := List.mem_map.mp hx
    exact toWord_lt b
  have hdigest := congrArg UInt32.toBitVec hcrc
  rw [toBitVec_crc32Update, toBitVec_crc32Update] at hdigest
  simp only [List.map_append] at hdigest
  refine Crc.digest_ne_of_window (by decide) _ _ _ (hword xs) (hword ys) ?_ ?_ ?_ hdigest
  · rw [List.length_map]
    omega
  · rw [List.length_map, List.length_map, hsame]
  · exact fun heq => hne (List.map_injective_iff.mpr toWord_injective heq)

/-! ### The intact file -/

/-- The checksum in the header. -/
theorem crc_file {s : Snapshot} (h : Fits s) :
    fieldAt (file s) 20 4 = (bodyCrc (regions s.nodes)).toNat := by
  obtain ⟨hann, hl⟩ := announced_file h
  rw [← hann.crc, hl, total_layoutOf, List.take_length, drop_file]

/-! ### Damage in the regions -/

/-- A short change in the regions of a written file is refused, whatever graph it holds. -/
theorem load_burst {s : Snapshot} {bytes : Bytes} (henc : encode s = .ok bytes)
    {before xs ys after : Bytes} (hbytes : bytes = before ++ (xs ++ after))
    (hbody : 28 ≤ before.length) (hlen : xs.length ≤ 4) (hsame : ys.length = xs.length)
    (hne : ys ≠ xs) :
    ∃ msg, load (some (before ++ (ys ++ after))) = .error (.corrupt msg) := by
  obtain ⟨hfits, rfl⟩ := encode_eq_ok_iff.mp henc
  -- the header check fails, as it should
  obtain ⟨-, msg, herr⟩ | ⟨hann, -⟩ := readHeader_cases (before ++ (ys ++ after))
  · refine ⟨msg, ?_⟩
    simp only [load, herr]
    rfl
  -- suppose that it passed
  exfalso
  -- the header is the one that was written
  have hfield : ∀ off n, off + n ≤ 28 →
      fieldAt (before ++ (ys ++ after)) off n = fieldAt (file s) off n := by
    intro off n hoff
    have hshort : ∀ rest : Bytes,
        ((before ++ rest).drop off).take n = (before.drop off).take n := by
      intro rest
      rw [List.drop_append_of_le_length (by omega),
        List.take_append_of_le_length (by rw [List.length_drop]; omega)]
    unfold fieldAt
    rw [hbytes, hshort, hshort]
  have hl : layoutAt (before ++ (ys ++ after)) = layoutOf s := by
    rw [← (announced_file hfits).2]
    unfold layoutAt
    rw [hfield 4 4 (by omega), hfield 8 4 (by omega), hfield 12 8 (by omega)]
  have htotal : (before ++ (ys ++ after)).length = (layoutOf s).total := by
    rw [total_layoutOf, hbytes]
    simp [hsame]
  -- then body and changed body have one checksum, which a burst this short rules out
  have hcrc := hann.crc
  rw [hl, ← htotal, List.take_length, hfield 20 4 (by omega), crc_file hfits, ← drop_file, hbytes,
    List.drop_append_of_le_length hbody, List.drop_append_of_le_length hbody] at hcrc
  exact bodyCrc_ne_of_window _ _ (by omega) hsame hne (UInt32.toNat_inj.mp hcrc)

/-- The first byte of the first id is changed. -/
theorem load_burst_first_id :
    let s : Snapshot := ⟨[(10, [11], false), (11, [10], false)], 10⟩
    ∃ msg, load (some ((file s).take 28 ++ ([255] ++ (file s).drop 29))) =
      .error (.corrupt msg) := by
  have hfits : Fits ⟨[(10, [11], false), (11, [10], false)], 10⟩ := ⟨by decide, by decide⟩
  have hbytes : file ⟨[(10, [11], false), (11, [10], false)], 10⟩ =
      (file ⟨[(10, [11], false), (11, [10], false)], 10⟩).take 28 ++
        ([10] ++ (file ⟨[(10, [11], false), (11, [10], false)], 10⟩).drop 29) := by decide +kernel
  exact load_burst (encode_eq hfits) hbytes (by decide +kernel) (by decide) rfl (by decide)

/-! ### Damage in the header -/

section Header

variable {bytes bytes' : Bytes} {i off n : Nat} {b : UInt8}

/-- A changed byte outside a field leaves the field. -/
theorem fieldAt_set_of_lt (h : i < off ∨ off + n ≤ i) :
    fieldAt (bytes.set i b) off n = fieldAt bytes off n := by
  unfold fieldAt
  obtain h | h := h
  · rw [List.drop_set_of_lt h]
  · rw [List.drop_set, if_neg (by omega), List.take_set_of_le (by omega)]

/-- A byte that is changed inside a field changes the field. -/
theorem fieldAt_set_ne (off n : Nat) (hne : bytes.set i b ≠ bytes) (hlo : off ≤ i)
    (hhi : i < off + n) :
    fieldAt (bytes.set i b) off n ≠ fieldAt bytes off n := by
  intro h
  unfold fieldAt at h
  have hlen : (((bytes.set i b).drop off).take n).length = ((bytes.drop off).take n).length := by
    simp
  have hbytes : ((bytes.set i b).drop off).take n = (bytes.drop off).take n := by
    rw [← toLE_ofLE (((bytes.set i b).drop off).take n), h, hlen, toLE_ofLE]
  apply hne
  apply List.ext_getElem? 
  intro j
  by_cases hj : j = i
  · subst hj
    have hget := congrArg (fun l => l[j - off]?) hbytes
    simp only [List.getElem?_take, List.getElem?_drop] at hget
    rw [if_pos (by omega), if_pos (by omega), show off + (j - off) = j by omega] at hget
    exact hget
  · rw [List.getElem?_set_ne (by omega)]

/-- Behind the header the files agree. -/
theorem readLE_congr (hlen : bytes'.length = bytes.length) (hdrop : bytes'.drop 28 = bytes.drop 28)
    (hoff : 28 ≤ off) : readLE bytes' off n = readLE bytes off n := by
  have hsplit : ∀ bs : Bytes, bs.drop off = (bs.drop 28).drop (off - 28) := by
    intro bs
    rw [List.drop_drop, show 28 + (off - 28) = off by omega]
  unfold readLE
  rw [hlen, hsplit bytes', hdrop, ← hsplit bytes]

/-- The nodes do not depend on the entry point. -/
theorem readGraph_congr (hlen : bytes'.length = bytes.length)
    (hdrop : bytes'.drop 28 = bytes.drop 28) (nodeCount edgeCount : Nat) (ep ep' : NodeId) :
    readGraph bytes' (layoutFor nodeCount edgeCount ep') =
      readGraph bytes (layoutFor nodeCount edgeCount ep) := by
  have hread : ∀ off n, 28 ≤ off → readLE bytes' off n = readLE bytes off n :=
    fun off n hoff => readLE_congr hlen hdrop hoff
  have hnode : ∀ i, readNode bytes' (layoutFor nodeCount edgeCount ep') i =
      readNode bytes (layoutFor nodeCount edgeCount ep) i := by
    intro i
    simp (disch := omega) only [readNode, layoutFor, hread]
    rfl
  simp only [readGraph, hnode]
  rfl

/-- A node whose edges were read has them inside the edge table. -/
theorem edges_le_of_readNode {l : Layout} {node : SnapNode} {hi : Nat}
    (h : readNode bytes l i = .ok node)
    (hhi : readLE bytes (l.offsetsOff + (i + 1) * 4) 4 = .ok hi) : hi ≤ l.edgeCount := by
  unfold readNode at h
  obtain ⟨id, -, h⟩ := Except.bind_ok h
  obtain ⟨lo, -, h⟩ := Except.bind_ok h
  obtain ⟨hi', hhi', h⟩ := Except.bind_ok h
  obtain rfl := Except.ok.inj (hhi'.symm.trans hhi)
  split at h
  · cases h
  · omega

end Header

/-- The offset table ends with the number of edges. -/
theorem last_offset {s : Snapshot} (h : Fits s) :
    readLE (file s) (28 + s.nodes.length * 8 + s.nodes.length * 4) 4 = .ok (edgeTotal s.nodes) := by
  have hfile : file s = (fields s ++ (toLE 4 (bodyCrc (regions s.nodes)).toNat ++ ([0, 0, 0, 0] ++
      toLEs 8 (idsOf s.nodes)))) ++ (toLEs 4 (offsetsFrom 0 s.nodes) ++
        (toLEs 8 (edgesOf s.nodes) ++ flagsOf s.nodes)) := by
    simp only [file, regions, List.append_assoc]
  obtain ⟨before, hbefore, hoffs⟩ := offsetsFrom_append s.nodes [] 0
  rw [List.append_nil, Nat.zero_add] at hoffs
  have hedges : edgeTotal s.nodes < 256 ^ 4 := h.edges
  refine readLE_table hfile ?_ hoffs hbefore hedges
  simp
  omega

/-- What `load` returned is a graph of the program. -/
theorem inv_of_load {source : Bytes} {g : NswGraph} (h : load (some source) = .ok (some g)) :
    g.Inv := by
  obtain ⟨msg, herr⟩ | ⟨-, -, hok⟩ | ⟨-, -, g', -, hok, hvalid⟩ := load_cases source
  · simp [herr] at h
  · obtain rfl := Option.some.inj (Except.ok.inj (hok.symm.trans h))
    exact NswGraph.inv_new
  · obtain rfl := Option.some.inj (Except.ok.inj (hok.symm.trans h))
    exact hvalid.inv

/-- A file that announces the counts of the written one, behind the same header size: its
    nodes are those that were written, and a live node is its entry point. -/
theorem load_of_counts {s : Snapshot} {g : NswGraph} (hfits : Fits s) (hs : s.Lists g)
    (hg : g.Inv) {bytes : Bytes} (hlen : bytes.length = (file s).length)
    (hdrop : bytes.drop 28 = (file s).drop 28) (hn : fieldAt bytes 4 4 = s.nodes.length)
    (he : fieldAt bytes 8 4 = edgeTotal s.nodes) {g' : NswGraph}
    (h : load (some bytes) = .ok (some g')) :
    Snapshot.SameGraph g g' ∨
      fieldAt bytes 12 8 ≠ fieldAt (file s) 12 8 ∧ ∃ ep, g.isDeleted ep = false ∧
        Snapshot.SameGraph { g with entryPoint := some ep } g' := by
  -- what the unchanged file restores to
  have hrestore := hs.restore hg
  obtain ⟨msg, herr⟩ | ⟨-, hzero, hok⟩ | ⟨-, hne, g₁, hg₁, hok, hvalid⟩ := load_cases bytes
  · simp [herr] at h
  · -- no nodes: the empty graph whatever the entry point
    obtain rfl := Option.some.inj (Except.ok.inj (hok.symm.trans h))
    have hnil : s.nodes = [] := List.length_eq_zero_iff.mp (hn.symm.trans hzero)
    have hempty : s.restore = .new := by
      simp [Snapshot.restore, hnil, NswGraph.restoreEntryPoint, NswGraph.new]
    exact Or.inl (hempty ▸ hrestore)
  · -- with nodes: they are read from the unchanged regions
    obtain rfl := Option.some.inj (Except.ok.inj (hok.symm.trans h))
    have hnodes : g₁ = s.nodes.foldl (fun g n => g.restoreNode n.1 n.2.1 n.2.2) NswGraph.new := by
      have hread : readGraph bytes (layoutAt bytes) = readGraph (file s) (layoutOf s) := by
        unfold layoutAt
        rw [hn, he]
        exact readGraph_congr hlen hdrop _ _ _ _
      rw [hread, readGraph_eq hfits] at hg₁
      exact (Except.ok.inj hg₁).symm
    have hsame : ∀ id, g₁.nodes.lookup id = g.nodes.lookup id := by
      intro id
      rw [← hrestore.nodes, hnodes, Snapshot.restore, nodes_restoreEntryPoint]
    -- the entry point is the one that was written
    by_cases hep : fieldAt bytes 12 8 = fieldAt (file s) 12 8
    · refine Or.inl ?_
      have hentry : (layoutAt bytes).entryPoint = s.entryPoint := by
        have hfile := congrArg Layout.entryPoint (announced_file hfits).2
        show UInt64.ofNat (fieldAt bytes 12 8) = s.entryPoint
        rw [hep]
        exact hfile
      rw [hnodes, hentry]
      exact hrestore
    · -- it is another one
      refine Or.inr ⟨hep, (layoutAt bytes).entryPoint, ?_⟩
      -- the check passed, so the entry point is a node of the graph and live
      obtain hnew | ⟨-, ep, hentry, hlive⟩ := hvalid
      · have hnil := congrArg (fun g : NswGraph => g.nodes.entries) hnew
        simp only [nodes_restoreEntryPoint] at hnil
        exact absurd hnil (entries_readGraph hne hg₁)
      have hset : ep = (layoutAt bytes).entryPoint := by
        unfold NswGraph.restoreEntryPoint at hentry
        split at hentry
        · exact (Option.some.inj hentry).symm
        · have hnone : g₁.entryPoint = none := by
            rw [hnodes, Snapshot.restore_nodes]
            rfl
          simp [hnone] at hentry
      subst hset
      refine ⟨?_, fun id => ?_, hentry⟩
      · rw [← hlive]
        unfold NswGraph.isDeleted
        rw [nodes_restoreEntryPoint, hsame]
      · rw [nodes_restoreEntryPoint, hsame]

/-- A node count that still fits the file is smaller, and the shorter body has the checksum
    of the whole one. -/
theorem nodeCount_of_announced {s : Snapshot} (hfits : Fits s) {bytes : Bytes}
    (hann : Announced bytes) (hlen : bytes.length = (file s).length)
    (hdrop : bytes.drop 28 = (file s).drop 28) (hn : fieldAt bytes 4 4 ≠ s.nodes.length)
    (he : fieldAt bytes 8 4 = edgeTotal s.nodes)
    (hc : fieldAt bytes 20 4 = fieldAt (file s) 20 4) :
    ∃ count < s.nodes.length, fieldAt bytes 4 4 = count ∧ bodyCrc ((regions s.nodes).take
      (count * 8 + (count + 1) * 4 + edgeTotal s.nodes * 8 + count)) =
        bodyCrc (regions s.nodes) := by
  have hwhole := hann.whole
  have hcrc := hann.crc
  rw [hlen, length_file, length_regions] at hwhole
  simp only [layoutAt, layoutFor, he] at hwhole hcrc
  generalize fieldAt bytes 4 4 = count at hn hwhole hcrc
  refine ⟨count, by omega, rfl, UInt32.toNat_inj.mp ?_⟩
  rw [hc, crc_file hfits, List.drop_take, hdrop, drop_file] at hcrc
  have hsize : 28 + count * 8 + (count + 1) * 4 + edgeTotal s.nodes * 8 + count - 28 =
      count * 8 + (count + 1) * 4 + edgeTotal s.nodes * 8 + count := by omega
  rw [hsize] at hcrc
  exact hcrc

/-- With another edge count the file is refused: it announces more than there is, or the
    edges of the last node are outside the table. -/
theorem edgeCount_of_load {s : Snapshot} (hfits : Fits s) {bytes : Bytes}
    (hlen : bytes.length = (file s).length) (hdrop : bytes.drop 28 = (file s).drop 28)
    (hn : fieldAt bytes 4 4 = s.nodes.length) {g : NswGraph}
    (h : load (some bytes) = .ok (some g)) : fieldAt bytes 8 4 = edgeTotal s.nodes := by
  -- more edges would make the file longer than it is
  have hle : Announced bytes → fieldAt bytes 8 4 ≤ edgeTotal s.nodes := by
    intro hann
    have hwhole := hann.whole
    rw [hlen, length_file, length_regions] at hwhole
    simp only [layoutAt, layoutFor, hn] at hwhole
    omega
  obtain ⟨msg, herr⟩ | ⟨hann, hzero, -⟩ | ⟨hann, hne, g₁, hg₁, -, -⟩ := load_cases bytes
  · simp [herr] at h
  · -- without nodes there are no edges
    have hnil : s.nodes = [] := List.length_eq_zero_iff.mp (hn.symm.trans hzero)
    have := hle hann
    rw [hnil] at this ⊢
    simpa using this
  · -- fewer would cut off the edges of the last node
    obtain ⟨k, hk⟩ := Nat.exists_eq_succ_of_ne_zero hne
    obtain ⟨-, node, hread, -⟩ := readGraph_last hk hg₁
    have hoff : readLE bytes ((layoutAt bytes).offsetsOff + (k + 1) * 4) 4 =
        .ok (edgeTotal s.nodes) := by
      have hsize : s.nodes.length = k + 1 := hn.symm.trans hk
      simp only [layoutAt, layoutFor, hn]
      rw [readLE_congr hlen hdrop (by omega), ← hsize]
      exact last_offset hfits
    have hge : edgeTotal s.nodes ≤ fieldAt bytes 8 4 := edges_le_of_readNode hread hoff
    have := hle hann
    omega

/-- A byte of the header is changed in the file of a graph that was loaded from some file:
    it is refused, or loads as the graph, or as the graph with another live node as entry
    point if the byte is in that field; or the byte makes the node count smaller and the
    shorter body happens to have the same checksum. -/
theorem load_header_change {source : Bytes} {g g₀ : NswGraph}
    (hacc : load (some source) = .ok (some g₀)) (hsame : Snapshot.SameGraph g g₀) {s : Snapshot}
    (hs : s.Lists g) {bytes : Bytes} (henc : encode s = .ok bytes) {i : Nat} (hi : i < 28)
    (b : UInt8) :
    (∃ err, load (some (bytes.set i b)) = .error err) ∨
    (∃ g', load (some (bytes.set i b)) = .ok (some g') ∧ Snapshot.SameGraph g g') ∨
    (12 ≤ i ∧ i < 20 ∧ ∃ ep g', load (some (bytes.set i b)) = .ok (some g') ∧
      g.isDeleted ep = false ∧ Snapshot.SameGraph { g with entryPoint := some ep } g') ∨
    (4 ≤ i ∧ i < 8 ∧ ∃ count < s.nodes.length, fieldAt (bytes.set i b) 4 4 = count ∧
      bodyCrc ((regions s.nodes).take
        (count * 8 + (count + 1) * 4 + edgeTotal s.nodes * 8 + count)) =
          bodyCrc (regions s.nodes)) := by
  obtain ⟨hfits, rfl⟩ := encode_eq_ok_iff.mp henc
  have hg : g.Inv := Snapshot.SameGraph.inv ⟨fun id => (hsame.nodes id).symm, hsame.entry.symm⟩
    (inv_of_load hacc)
  obtain ⟨-, hl⟩ := announced_file hfits
  have hfn : fieldAt (file s) 4 4 = s.nodes.length := congrArg Layout.nodeCount hl
  have hfe : fieldAt (file s) 8 4 = edgeTotal s.nodes := congrArg Layout.edgeCount hl
  have hlen : ((file s).set i b).length = (file s).length := List.length_set
  have hdrop : ((file s).set i b).drop 28 = (file s).drop 28 := List.drop_set_of_lt hi
  by_cases hchg : (file s).set i b = file s
  · -- nothing was changed
    rw [hchg, (load_encode hfits).2]
    obtain ⟨hok, -⟩ | ⟨ep, -, -, herr⟩ := hs.load hg
    · exact Or.inr (Or.inl hok)
    · exact Or.inl ⟨_, herr⟩
  -- the file is refused, or it passes the checks
  obtain ⟨msg, herr⟩ | ⟨hann, g', hload⟩ : (∃ msg, load (some ((file s).set i b)) =
      .error (.corrupt msg)) ∨ Announced ((file s).set i b) ∧ ∃ g',
        load (some ((file s).set i b)) = .ok (some g') := by
    obtain herr | ⟨hann, -, hok⟩ | ⟨hann, -, g₁, -, hok, -⟩ := load_cases ((file s).set i b)
    · exact Or.inl herr
    · exact Or.inr ⟨hann, _, hok⟩
    · exact Or.inr ⟨hann, _, hok⟩
  · exact Or.inl ⟨_, herr⟩
  -- the magic and the checksum are compared
  have hmagic : ¬ i < 4 := by
    intro hlt
    refine fieldAt_set_ne 0 4 hchg (by omega) (by omega) ?_
    rw [hann.magic, (announced_file hfits).1.magic]
  -- a smaller node count, with a checksum that happens to agree
  by_cases hcount : 4 ≤ i ∧ i < 8
  · refine Or.inr (Or.inr (Or.inr ⟨hcount.1, hcount.2, nodeCount_of_announced hfits hann hlen hdrop
      ?_ ?_ ?_⟩))
    · rw [← hfn]
      exact fieldAt_set_ne 4 4 hchg (by omega) (by omega)
    · rw [fieldAt_set_of_lt (by omega), hfe]
    · rw [fieldAt_set_of_lt (by omega)]
  -- the counts are unchanged, so it is the entry point or the padding
  have hn : fieldAt ((file s).set i b) 4 4 = s.nodes.length := by
    rw [fieldAt_set_of_lt (by omega), hfn]
  have he := edgeCount_of_load hfits hlen hdrop hn hload
  obtain hgood | ⟨hep, ep, hlive, hother⟩ := load_of_counts hfits hs hg hlen hdrop hn he hload
  · exact Or.inr (Or.inl ⟨g', hload, hgood⟩)
  · refine Or.inr (Or.inr (Or.inl ⟨?_, ?_, ep, g', hload, hlive, hother⟩))
    · by_contra hlt
      exact hep (fieldAt_set_of_lt (by omega))
    · by_contra hge
      exact hep (fieldAt_set_of_lt (by omega))

/-- The file of a graph of the program whose entry point is live. -/
theorem file_of_run (es : List GraphEvent) (ep : NodeId)
    (hfits : Fits (.serialize (Run.exec NswGraph.step .new es)))
    (hep : (Run.exec NswGraph.step .new es).entryPoint = some ep)
    (hlive : (Run.exec NswGraph.step .new es).isDeleted ep = false) :
    let g := Run.exec NswGraph.step .new es
    encode (.serialize g) = .ok (file (.serialize g)) ∧
      ∃ g₀, load (some (file (.serialize g))) = .ok (some g₀) ∧ Snapshot.SameGraph g g₀ := by
  have hinv := Run.exec_invariant NswGraph.Inv (fun _ ev h => h.step ev) es NswGraph.inv_new
  obtain ⟨bytes, henc, hok, -⟩ := load_of_lists hinv (Snapshot.lists_serialize _) hfits
  obtain rfl := (encode_eq_ok_iff.mp henc).2
  refine ⟨henc, hok fun ep' hep' => ?_⟩
  obtain rfl := Option.some.inj (hep.symm.trans hep')
  exact hlive

/-- A byte that nothing reads. -/
theorem load_header_change_reserved :
    let g := Run.exec NswGraph.step .new [.insert 0 fun _ => 0, .insert 1 fun _ => 0]
    (∃ err, load (some ((file (.serialize g)).set 27 1)) = .error err) ∨
      ∃ g', load (some ((file (.serialize g)).set 27 1)) = .ok (some g') ∧
        Snapshot.SameGraph g g' := by
  obtain ⟨henc, g₀, hacc, hsame⟩ := file_of_run [.insert 0 fun _ => 0, .insert 1 fun _ => 0] 0
    ⟨by decide +kernel, by decide +kernel⟩ (by decide +kernel) (by decide +kernel)
  obtain herr | hok | ⟨-, hlt, -⟩ | ⟨-, hlt, -⟩ := load_header_change hacc hsame
    (Snapshot.lists_serialize _) henc (show 27 < 28 by decide) 1
  · exact Or.inl herr
  · exact Or.inr hok
  · omega
  · omega

/-- The entry point of a graph that was loaded. -/
def loadedEntry : Except StoreError (Option NswGraph) → Option (Option NodeId)
  | .ok (some g) => some g.entryPoint
  | _ => none

/-- A file that loads with another entry point holds another graph. -/
theorem ne_of_loadedEntry (bytes : Bytes) (g : NswGraph) (ep : Option NodeId)
    (h : loadedEntry (load (some bytes)) = some ep) (hne : g.entryPoint ≠ ep) :
    ∃ g', load (some bytes) = .ok (some g') ∧ ¬ Snapshot.SameGraph g g' := by
  obtain ⟨msg, herr⟩ | ⟨-, -, hok⟩ | ⟨-, -, g₁, -, hok, -⟩ := load_cases bytes
  · rw [herr] at h
    cases h
  all_goals
    refine ⟨_, hok, fun hsame => hne ?_⟩
    rw [hok] at h
    exact hsame.entry.symm.trans (Option.some.inj h)

/-- Two changes that are accepted.  The entry point 0 of two nodes is overwritten with 1.
    The node count of a single node is overwritten with 0: its id is such that the first four
    bytes of the body have the checksum of the whole body, and the empty graph is loaded. -/
theorem header_changes_accepted :
    (let g := Run.exec NswGraph.step .new [.insert 0 fun _ => 0, .insert 1 fun _ => 0]
    ∃ bytes g₀ g', encode (.serialize g) = .ok bytes ∧
      load (some bytes) = .ok (some g₀) ∧ Snapshot.SameGraph g g₀ ∧
      load (some (bytes.set 12 1)) = .ok (some g') ∧ ¬ Snapshot.SameGraph g g') ∧
    (let g := Run.exec NswGraph.step .new [.insert 6554243762984321025 fun _ => 0]
    ∃ bytes g₀ g', encode (.serialize g) = .ok bytes ∧
      load (some bytes) = .ok (some g₀) ∧ Snapshot.SameGraph g g₀ ∧
      load (some (bytes.set 4 0)) = .ok (some g') ∧ ¬ Snapshot.SameGraph g g') := by
  constructor
  · -- the entry point moved from node 0 to node 1
    obtain ⟨henc, g₀, hacc, hsame⟩ := file_of_run [.insert 0 fun _ => 0, .insert 1 fun _ => 0]
      0 ⟨by decide +kernel, by decide +kernel⟩ (by decide +kernel) (by decide +kernel)
    obtain ⟨g', hload, hother⟩ := ne_of_loadedEntry ((file (.serialize (Run.exec NswGraph.step
      .new [.insert 0 fun _ => 0, .insert 1 fun _ => 0]))).set 12 1) (Run.exec NswGraph.step .new
      [.insert 0 fun _ => 0, .insert 1 fun _ => 0]) (some 1) (by decide +kernel) (by decide +kernel)
    exact ⟨_, g₀, g', henc, hacc, hsame, hload, hother⟩
  · -- the node count moved from one to zero, for an id with this checksum
    obtain ⟨henc, g₀, hacc, hsame⟩ := file_of_run [.insert 6554243762984321025 fun _ => 0]
      6554243762984321025 ⟨by decide +kernel, by decide +kernel⟩ (by decide +kernel)
      (by decide +kernel)
    obtain ⟨g', hload, hother⟩ := ne_of_loadedEntry ((file (.serialize (Run.exec NswGraph.step
      .new [.insert 6554243762984321025 fun _ => 0]))).set 4 0) (Run.exec NswGraph.step .new
      [.insert 6554243762984321025 fun _ => 0]) none (by decide +kernel) (by decide +kernel)
    exact ⟨_, g₀, g', henc, hacc, hsame, hload, hother⟩

end SnapshotFile

end FusionStore
