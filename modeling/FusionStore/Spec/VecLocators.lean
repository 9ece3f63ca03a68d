import FusionStore.ForStd.Run
import FusionStore.Spec.VectorCorrect

/-!
# The locators of the vector pool

Appends to a fresh pool fill its segments slot by slot, so the place of every vector is known:
vector `i` goes to slot `i % c` of segment `i / c`, where `c` slots fit a segment
(`Filled.append`).  Its locator is that place with offset and length cut to 32 bits, and
`read_vec` adds the two in `u32` once the segment is sealed.  The locators are faithful exactly
as long as neither shows (`faithful_iff`).
-/

namespace FusionStore

namespace VecSegmentPool

/-- The pool after the appends of `vs`. -/
def appends (p : VecSegmentPool) (vs : List (List F32)) : VecSegmentPool :=
  Run.exec (fun q v => (q.append v).2) p vs

/-- The locators `locs` are those of the appends of `vs`: each names the place its vector was
    written to, which ends at the write cursor; no two overlap; and each reads back its vector
    after every later append, on both paths. -/
structure Locates (p : VecSegmentPool) (vs : List (List F32)) (locs : List ValueLocator) :
    Prop where
  length : locs.length = vs.length
  returned : ∀ i v loc, vs[i]? = some v → locs[i]? = some loc →
    ((p.appends (vs.take i)).append v).1 = .ok loc
  cursor : ∀ i loc, locs[i]? = some loc → loc.segId = (p.appends (vs.take (i + 1))).activeId ∧
    loc.offset + p.byteLen = (p.appends (vs.take (i + 1))).activeCursor
  disjoint : locs.Pairwise fun a b => a.segId = b.segId →
    a.offset + a.len ≤ b.offset ∨ b.offset + b.len ≤ a.offset
  readVec : ∀ i v loc, vs[i]? = some v → locs[i]? = some loc → ∀ k, i < k → k ≤ vs.length →
    (p.appends (vs.take k)).readVec loc = .ok v
  vecSlice : ∀ i v loc, vs[i]? = some v → locs[i]? = some loc → ∀ k, i < k → k ≤ vs.length →
    (p.appends (vs.take k)).vecSlice loc = .ok v

/-- The appends of `vs` return locators, and these are faithful. -/
def Faithful (p : VecSegmentPool) (vs : List (List F32)) : Prop := ∃ locs, p.Locates vs locs

/-- What `n` appends write stays in the reach of 32 bits: the length of a slot, the offsets of
    the slots, and the end of the last one if its segment is sealed. -/
def InReach (segSize byteLen n : Nat) : Prop :=
  n = 0 ∨ (byteLen < 2 ^ 32 ∧ (min n (segSize / byteLen) - 1) * byteLen < 2 ^ 32 ∧
    (segSize / byteLen < n → segSize / byteLen * byteLen < 2 ^ 32))

instance (segSize byteLen n : Nat) : Decidable (InReach segSize byteLen n) :=
  inferInstanceAs (Decidable (_ ∨ _))

/-- A segment size that fits 32 bits is enough, however many vectors there are. -/
theorem inReach_of_lt {segSize byteLen : Nat} (hfit : byteLen ≤ segSize)
    (hsize : segSize < 2 ^ 32) (n : Nat) : InReach segSize byteLen n := by
  have hfull : segSize / byteLen * byteLen ≤ segSize := Nat.div_mul_le_self _ _
  have hmin : (min n (segSize / byteLen) - 1) * byteLen ≤ segSize / byteLen * byteLen :=
    Nat.mul_le_mul_right _ (Nat.le_trans (Nat.sub_le _ _) (Nat.min_le_right _ _))
  exact .inr ⟨by omega, by omega, fun _ => by omega⟩

/-- What `read_vec` reads from a sealed segment ends where `u32` does not overflow. -/
theorem end_of_readVec {p : VecSegmentPool} {loc : ValueLocator} {v : List F32}
    (h : p.readVec loc = .ok v) (hsealed : loc.segId ≠ p.activeId) :
    loc.offset + loc.len ≤ u32Max := by
  unfold readVec at h
  rw [if_neg hsealed] at h
  split at h
  · cases h
  · split at h
    · cases h
    · omega

section Slots

variable (base segSize byteLen : Nat)

/-- The place of vector `i`, where `base` is the number of the first segment. -/
def place (i : Nat) : ValueLocator :=
  ⟨base + i / (segSize / byteLen), i % (segSize / byteLen) * byteLen, byteLen⟩

/-- The locator `append` returns for it. -/
def cutPlace (i : Nat) : ValueLocator :=
  ⟨base + i / (segSize / byteLen), i % (segSize / byteLen) * byteLen % 2 ^ 32, byteLen % 2 ^ 32⟩

/-- The pool after `k` appends: the cursor is behind vector `k - 1`. -/
structure Filled (q : VecSegmentPool) (k : Nat) : Prop where
  byteLen_eq : q.byteLen = byteLen
  segSize_eq : q.segSize = segSize
  writer : q.writer.Inv
  id : q.activeId = base + (k - 1) / (segSize / byteLen)
  cursor : q.activeCursor = (k - (k - 1) / (segSize / byteLen) * (segSize / byteLen)) * byteLen

end Slots

variable {base segSize byteLen : Nat} {q : VecSegmentPool} {k : Nat}

/-- Behind vector `k - 1` is the place of vector `k`, or the end of a segment. -/
theorem next_slot {c : Nat} (hc : 0 < c) (k : Nat) :
    ((k - 1) / c = k / c ∧ k - (k - 1) / c * c = k % c) ∨
      ((k - 1) / c + 1 = k / c ∧ k - (k - 1) / c * c = c ∧ k % c = 0) := by
  have hdiv : k / c * c + k % c = k := by rw [Nat.mul_comm]; exact Nat.div_add_mod k c
  obtain _ | j := k
  · simp
  · simp only [Nat.add_sub_cancel]
    rw [Nat.succ_div] at hdiv ⊢
    split at hdiv
    · right
      rename_i hdvd
      have hmod := Nat.mod_eq_zero_of_dvd hdvd
      rw [Nat.add_mul] at hdiv
      exact ⟨by rw [if_pos hdvd], by omega, hmod⟩
    · left
      rename_i hdvd
      rw [Nat.add_zero] at hdiv
      exact ⟨by rw [if_neg hdvd, Nat.add_zero], by omega⟩

/-- A vector is written at the place that is next. -/
theorem filled_of_put {w : Writer} (hw : w.Inv) (hsize : w.segSize = segSize)
    (hid : w.id = base + k / (segSize / byteLen))
    (hcur : w.cursor = k % (segSize / byteLen) * byteLen)
    (hroom : w.cursor + byteLen ≤ segSize) {bs : Bytes} (hbs : bs.length = byteLen)
    (hq : q.writer = w.put bs) (hbyte : q.byteLen = byteLen) :
    q.Filled base segSize byteLen (k + 1) ∧
      q.writer.Holds (place base segSize byteLen k) ∧
      q.writer.bytesAt (place base segSize byteLen k) = bs := by
  have hplace : place base segSize byteLen k = ⟨w.id, w.cursor, bs.length⟩ := by
    rw [place, hid, hcur, hbs]
  have hput : w.cursor + bs.length ≤ w.segSize := by rw [hbs, hsize]; exact hroom
  rw [hplace, hq]
  refine ⟨⟨hbyte, ?_, hq ▸ Writer.inv_put hw hput, ?_, ?_⟩, Writer.holds_put hw hput,
    Writer.bytesAt_put w bs⟩
  · exact (congrArg Writer.segSize hq).trans hsize
  · exact (congrArg Writer.id hq).trans hid
  · rw [show q.activeCursor = w.cursor + bs.length from congrArg Writer.cursor hq, hbs, hcur,
      Nat.add_sub_cancel]
    have hdiv := Nat.div_add_mod k (segSize / byteLen)
    rw [Nat.mul_comm] at hdiv
    rw [show k + 1 - k / (segSize / byteLen) * (segSize / byteLen) =
      k % (segSize / byteLen) + 1 by omega, Nat.add_mul, Nat.one_mul]

/-- One more append: what it returns, and where it puts the vector. -/
theorem Filled.append (h : q.Filled base segSize byteLen k) (hpos : 0 < byteLen)
    (hfit : byteLen ≤ segSize) {v : List F32} (hdim : v.length = q.dim) :
    ∃ q', q.append v = (.ok (cutPlace base segSize byteLen k), q') ∧
      q'.Filled base segSize byteLen (k + 1) ∧ q.writer.Keeps q'.writer ∧
      q'.writer.Holds (place base segSize byteLen k) ∧
      q'.writer.bytesAt (place base segSize byteLen k) = encodeF32s v ∧ q'.dim = q.dim := by
  have hc : 0 < segSize / byteLen := Nat.div_pos hfit hpos
  have hbytes : (encodeF32s v).length = byteLen := by
    rw [length_encodeF32s, hdim, ← h.byteLen_eq]
    rfl
  have hrest := Nat.div_add_mod segSize byteLen
  have hless := Nat.mod_lt segSize hpos
  have hbyteLen := h.byteLen_eq
  have hsize := h.segSize_eq
  have hcursor := h.cursor
  have hlen : ∀ q' : VecSegmentPool, q'.dim = q.dim → q'.byteLen = byteLen := by
    intro q' hd
    show q'.dim * 4 = byteLen
    rw [hd]
    exact h.byteLen_eq
  rw [Nat.mul_comm] at hrest
  -- the next slot is in the same segment or the first one of the next
  rcases next_slot hc k with ⟨hid, hslot⟩ | ⟨hid, hslot, hmod⟩
  · -- there is room behind the cursor
    rw [hslot] at hcursor
    have hmul : (k % (segSize / byteLen) + 1) * byteLen ≤ segSize / byteLen * byteLen :=
      Nat.mul_le_mul_right _ (Nat.mod_lt k hc)
    rw [Nat.add_mul] at hmul
    obtain ⟨q', happ, hw, hd⟩ := append_here hdim (p := q) (by omega)
    have hactive : q.activeId = base + k / (segSize / byteLen) := by rw [h.id, hid]
    obtain ⟨hf, hholds, hat⟩ := filled_of_put h.writer hsize hactive hcursor
      (show q.activeCursor + byteLen ≤ segSize by omega) hbytes hw (hlen q' hd)
    refine ⟨q', ?_, hf, hw ▸ Writer.keeps_put _ _, hholds, hat, hd⟩
    rw [happ, cutPlace, hactive, hcursor, hbyteLen]
  · -- the segment is full
    rw [hslot] at hcursor
    obtain ⟨q', happ, hw, hd⟩ := append_rotated hdim (p := q) (by rw [remaining]; omega)
      (by omega)
    have hactive : q.activeId + 1 = base + k / (segSize / byteLen) := by rw [h.id]; omega
    obtain ⟨hf, hholds, hat⟩ := filled_of_put (Writer.inv_rotate h.writer) hsize hactive
      (show 0 = k % (segSize / byteLen) * byteLen by rw [hmod, Nat.zero_mul])
      (show 0 + byteLen ≤ segSize by omega) hbytes hw (hlen q' hd)
    refine ⟨q', ?_, hf, (Writer.keeps_rotate h.writer).trans (hw ▸ Writer.keeps_put _ _), hholds,
      hat, hd⟩
    rw [happ, cutPlace, ← hactive, hmod, hbyteLen, Nat.zero_mul, Nat.zero_mod]

/-! ### All appends -/

section Run

variable {p : VecSegmentPool} {vs : List (List F32)}

theorem appends_succ {v : List F32} (hv : vs[k]? = some v) :
    p.appends (vs.take (k + 1)) = ((p.appends (vs.take k)).append v).2 := by
  rw [List.take_add_one, hv]
  simp only [appends, Run.exec, Option.toList_some, List.foldl_append, List.foldl_cons,
    List.foldl_nil]

/-- After `k` appends every vector is at its place, and was found there all along. -/
theorem filled_appends (h : p.Filled base segSize byteLen 0) (hpos : 0 < byteLen)
    (hfit : byteLen ≤ segSize) (hdim : ∀ v ∈ vs, v.length = p.dim) (hk : k ≤ vs.length) :
    (p.appends (vs.take k)).Filled base segSize byteLen k ∧ (p.appends (vs.take k)).dim = p.dim ∧
      ∀ i v, i < k → vs[i]? = some v →
        (p.appends (vs.take k)).writer.Holds (place base segSize byteLen i) ∧
        (p.appends (vs.take k)).writer.bytesAt (place base segSize byteLen i) =
          encodeF32s v := by
  induction k with
  | zero =>
    refine ⟨h, rfl, fun i v hi => ?_⟩
    omega
  | succ k ih =>
    obtain ⟨hf, hd, hall⟩ := ih (by omega)
    have hv : vs[k]? = some vs[k] := List.getElem?_eq_getElem hk
    have hlen := (hdim _ (List.getElem_mem hk)).trans hd.symm
    obtain ⟨q', happ, hf', hkeep, hholds, hat, hd'⟩ := hf.append hpos hfit hlen
    rw [appends_succ hv, happ]
    refine ⟨hf', hd'.trans hd, fun i v hi hvi => ?_⟩
    by_cases hik : i = k
    · subst hik
      obtain rfl := Option.some.inj (hvi.symm.trans hv)
      exact ⟨hholds, hat⟩
    · -- an earlier vector stays where it is
      obtain ⟨hold, hbytes⟩ := hall i v (by omega) hvi
      exact ⟨hkeep.holds _ hold, (hkeep.bytesAt _ hold).trans hbytes⟩

/-- What the append of vector `i` returns. -/
theorem append_appends (h : p.Filled base segSize byteLen 0) (hpos : 0 < byteLen)
    (hfit : byteLen ≤ segSize) (hdim : ∀ v ∈ vs, v.length = p.dim) {i : Nat} {v : List F32}
    (hv : vs[i]? = some v) :
    ((p.appends (vs.take i)).append v).1 = .ok (cutPlace base segSize byteLen i) := by
  have hi : i < vs.length := (List.getElem?_eq_some_iff.mp hv).1
  obtain ⟨hf, hd, -⟩ := filled_appends h hpos hfit hdim (Nat.le_of_lt hi)
  obtain ⟨q', happ, -⟩ :=
    hf.append hpos hfit ((hdim v (List.mem_of_getElem? hv)).trans hd.symm)
  rw [happ]

/-- In reach of 32 bits nothing is cut off a place. -/
theorem cutPlace_eq {n i : Nat} (hi : i < n) (hpos : 0 < byteLen) (hfit : byteLen ≤ segSize)
    (h : InReach segSize byteLen n) :
    cutPlace base segSize byteLen i = place base segSize byteLen i := by
  have hc : 0 < segSize / byteLen := Nat.div_pos hfit hpos
  have hslot : i % (segSize / byteLen) ≤ min n (segSize / byteLen) - 1 := by
    have hlt := Nat.mod_lt i hc
    have hle := Nat.mod_le i (segSize / byteLen)
    rcases Nat.le_total n (segSize / byteLen) with hn | hn
    · rw [Nat.min_eq_left hn]
      omega
    · rw [Nat.min_eq_right hn]
      omega
  rcases h with rfl | ⟨hlen, hoff, -⟩
  · omega
  · have hmul := Nat.mul_le_mul_right byteLen hslot
    rw [cutPlace, place, Nat.mod_eq_of_lt hlen, Nat.mod_eq_of_lt (by omega)]

/-- Two places of one segment do not overlap. -/
theorem place_disjoint {i j : Nat} (hij : i < j)
    (hseg : (place base segSize byteLen i).segId = (place base segSize byteLen j).segId) :
    (place base segSize byteLen i).offset + byteLen ≤ (place base segSize byteLen j).offset := by
  simp only [place] at hseg ⊢
  have hi := Nat.div_add_mod i (segSize / byteLen)
  have hj := Nat.div_add_mod j (segSize / byteLen)
  rw [show i / (segSize / byteLen) = j / (segSize / byteLen) by omega] at hi
  have hmul : (i % (segSize / byteLen) + 1) * byteLen ≤ j % (segSize / byteLen) * byteLen :=
    Nat.mul_le_mul_right _ (by omega)
  rw [Nat.add_mul] at hmul
  omega

/-- Where the cursor is once vector `i` is written. -/
theorem Filled.cursor_succ {i : Nat} (h : q.Filled base segSize byteLen (i + 1)) :
    q.activeId = (place base segSize byteLen i).segId ∧
      q.activeCursor = (place base segSize byteLen i).offset + byteLen := by
  have hcursor := h.cursor
  have hdiv := Nat.div_add_mod i (segSize / byteLen)
  rw [Nat.mul_comm] at hdiv
  rw [Nat.add_sub_cancel, show i + 1 - i / (segSize / byteLen) * (segSize / byteLen) =
    i % (segSize / byteLen) + 1 by omega, Nat.add_mul, Nat.one_mul] at hcursor
  exact ⟨h.id, hcursor⟩

/-- A place in a sealed segment is not the last one that is reached. -/
theorem place_end_of_sealed {i : Nat} (hi : i < k) (hpos : 0 < byteLen) (hfit : byteLen ≤ segSize)
    (hreach : InReach segSize byteLen k)
    (hsealed : (place base segSize byteLen i).segId ≠ base + (k - 1) / (segSize / byteLen)) :
    (place base segSize byteLen i).offset + byteLen ≤ u32Max := by
  have hc : 0 < segSize / byteLen := Nat.div_pos hfit hpos
  simp only [place] at hsealed ⊢
  have hmul : (i % (segSize / byteLen) + 1) * byteLen ≤ segSize / byteLen * byteLen :=
    Nat.mul_le_mul_right _ (Nat.mod_lt i hc)
  rw [Nat.add_mul] at hmul
  have hrotated : segSize / byteLen < k := by
    by_contra hle
    rw [Nat.div_eq_of_lt (show i < segSize / byteLen by omega),
      Nat.div_eq_of_lt (show k - 1 < segSize / byteLen by omega)] at hsealed
    exact hsealed rfl
  rcases hreach with rfl | ⟨-, -, hend⟩
  · omega
  · have hlt := hend hrotated
    unfold u32Max
    omega

theorem InReach.mono {n m : Nat} (h : InReach segSize byteLen n) (hle : m ≤ n) :
    InReach segSize byteLen m := by
  rcases h with rfl | ⟨hlen, hoff, hend⟩
  · exact .inl (by omega)
  · refine .inr ⟨hlen, ?_, fun hlt => hend (by omega)⟩
    exact Nat.lt_of_le_of_lt (Nat.mul_le_mul_right _ (Nat.sub_le_sub_right
      (min_le_min_right _ hle) 1)) hoff

theorem faithful_of_inReach (h : p.Filled base segSize byteLen 0) (hpos : 0 < byteLen)
    (hfit : byteLen ≤ segSize) (hdim : ∀ v ∈ vs, v.length = p.dim)
    (hreach : InReach segSize byteLen vs.length) : p.Faithful vs := by
  have hplaces : ∀ i loc, ((List.range vs.length).map (place base segSize byteLen))[i]? =
      some loc → i < vs.length ∧ loc = place base segSize byteLen i := by
    intro i loc hloc
    obtain ⟨hi, rfl⟩ := List.getElem?_eq_some_iff.mp hloc
    rw [List.length_map, List.length_range] at hi
    simp [hi]
  -- what every later state holds of vector `i`
  have hlater : ∀ i v k, vs[i]? = some v → i < k → k ≤ vs.length →
      (p.appends (vs.take k)).Filled base segSize byteLen k ∧
      (p.appends (vs.take k)).writer.Holds (place base segSize byteLen i) ∧
      decodeF32s ((p.appends (vs.take k)).writer.bytesAt (place base segSize byteLen i)) = v := by
    intro i v k hv hik hk
    obtain ⟨hf, -, hall⟩ := filled_appends h hpos hfit hdim hk
    obtain ⟨hholds, hbytes⟩ := hall i v hik hv
    exact ⟨hf, hholds, by rw [hbytes, decodeF32s_encodeF32s]⟩
  refine ⟨(List.range vs.length).map (place base segSize byteLen), ?_, ?_, ?_, ?_, ?_, ?_⟩
  · rw [List.length_map, List.length_range]
  · intro i v loc hv hloc
    obtain ⟨hi, rfl⟩ := hplaces i loc hloc
    rw [append_appends h hpos hfit hdim hv, cutPlace_eq hi hpos hfit hreach]
  · intro i loc hloc
    obtain ⟨hi, rfl⟩ := hplaces i loc hloc
    obtain ⟨hf, -⟩ := filled_appends h hpos hfit hdim (k := i + 1) hi
    rw [h.byteLen_eq]
    exact ⟨hf.cursor_succ.1.symm, hf.cursor_succ.2.symm⟩
  · rw [List.pairwise_map]
    exact List.pairwise_lt_range.imp fun hij hseg => .inl (place_disjoint hij hseg)
  · intro i v loc hv hloc k hik hk
    obtain ⟨-, rfl⟩ := hplaces i loc hloc
    obtain ⟨hf, hholds, hread⟩ := hlater i v k hv hik hk
    rw [readVec_of_end hholds hf.byteLen_eq.symm, hread]
    intro hsealed
    exact place_end_of_sealed hik hpos hfit (hreach.mono hk) (hf.id ▸ hsealed)
  · intro i v loc hv hloc k hik hk
    obtain ⟨-, rfl⟩ := hplaces i loc hloc
    obtain ⟨hf, hholds, hread⟩ := hlater i v k hv hik hk
    rw [vecSlice_of_holds hholds hf.byteLen_eq.symm, hread]

/-- A locator of a faithful run is what `append` returned. -/
theorem Locates.loc_eq {locs : List ValueLocator} (hl : p.Locates vs locs)
    (h : p.Filled base segSize byteLen 0) (hpos : 0 < byteLen) (hfit : byteLen ≤ segSize)
    (hdim : ∀ v ∈ vs, v.length = p.dim) {i : Nat} {v : List F32} (hv : vs[i]? = some v) :
    locs[i]? = some (cutPlace base segSize byteLen i) := by
  have hi : i < locs.length := hl.length ▸ (List.getElem?_eq_some_iff.mp hv).1
  have hloc : locs[i]? = some locs[i] := List.getElem?_eq_getElem hi
  have hret := hl.returned i v _ hv hloc
  rw [append_appends h hpos hfit hdim hv] at hret
  rw [hloc, Except.ok.inj hret]

theorem inReach_of_faithful (h : p.Filled base segSize byteLen 0) (hpos : 0 < byteLen)
    (hfit : byteLen ≤ segSize) (hdim : ∀ v ∈ vs, v.length = p.dim) (hp : p.Faithful vs) :
    InReach segSize byteLen vs.length := by
  obtain ⟨locs, hl⟩ := hp
  have hc : 0 < segSize / byteLen := Nat.div_pos hfit hpos
  have hbyte : p.dim * 4 = byteLen := h.byteLen_eq
  have hat : ∀ i (hi : i < vs.length), vs[i]? = some vs[i] := fun i hi =>
    List.getElem?_eq_getElem hi
  by_cases hn : vs.length = 0
  · exact .inl hn
  -- the first vector is read back at its full length
  have hlen : byteLen < 2 ^ 32 := by
    have hv := hat 0 (by omega)
    have hread := hl.vecSlice 0 _ _ hv (hl.loc_eq h hpos hfit hdim hv) 1 (by omega) (by omega)
    have hlength := length_vecSlice hread
    rw [hdim _ (List.getElem_mem _)] at hlength
    simp only [cutPlace] at hlength
    omega
  -- the last slot that is written is where its locator says
  have hoff : (min vs.length (segSize / byteLen) - 1) * byteLen < 2 ^ 32 := by
    have hi : min vs.length (segSize / byteLen) - 1 < vs.length := by omega
    have hv := hat _ hi
    have hcur := (hl.cursor _ _ (hl.loc_eq h hpos hfit hdim hv)).2
    obtain ⟨hf, -⟩ := filled_appends h hpos hfit hdim (k := _ + 1) hi
    rw [hf.cursor_succ.2, h.byteLen_eq] at hcur
    simp only [cutPlace, place] at hcur
    rw [Nat.mod_eq_of_lt (show min vs.length (segSize / byteLen) - 1 < segSize / byteLen by
      omega)] at hcur
    omega
  refine .inr ⟨hlen, hoff, fun hlt => ?_⟩
  -- the last slot of the first segment, read once the segment is sealed
  have hi : segSize / byteLen - 1 < vs.length := by omega
  have hv := hat _ hi
  have hread := hl.readVec _ _ _ hv (hl.loc_eq h hpos hfit hdim hv) (segSize / byteLen + 1)
    (by omega) hlt
  obtain ⟨hf, -⟩ := filled_appends h hpos hfit hdim (k := segSize / byteLen + 1) hlt
  have hid := hf.id
  rw [Nat.add_sub_cancel, Nat.div_self hc] at hid
  rw [Nat.min_eq_right (by omega)] at hoff
  have hslot : segSize / byteLen - 1 < segSize / byteLen := by omega
  have hend := end_of_readVec hread (by
    simp only [cutPlace, Nat.div_eq_of_lt hslot, hid]
    omega)
  simp only [cutPlace, Nat.mod_eq_of_lt hslot, Nat.mod_eq_of_lt hoff,
    Nat.mod_eq_of_lt hlen] at hend
  have hsum : segSize / byteLen * byteLen = (segSize / byteLen - 1) * byteLen + byteLen := by
    rw [← Nat.succ_mul, Nat.succ_eq_add_one, Nat.sub_add_cancel hc]
  unfold u32Max at hend
  omega

/-- The locators of a fresh pool are faithful exactly as long as 32 bits reach. -/
theorem faithful_iff (h : p.Filled base segSize byteLen 0) (hpos : 0 < byteLen)
    (hfit : byteLen ≤ segSize) (hdim : ∀ v ∈ vs, v.length = p.dim) :
    p.Faithful vs ↔ InReach segSize byteLen vs.length :=
  ⟨inReach_of_faithful h hpos hfit hdim, faithful_of_inReach h hpos hfit hdim⟩

end Run

/-- The pool of an index that was just opened. -/
theorem filled_open {d : VecDir} {schema : VectorSchema} {segSize : Nat} {x : VectorIndex}
    (hpos : 0 < segSize) (hopen : (VectorIndex.open d schema segSize).1 = .ok x) :
    x.pool.Filled d.segs.nextSegId segSize (schema.dim * 4) 0 ∧ x.pool.dim = schema.dim := by
  have hpool : x.pool = «open» d.segs segSize schema.dim := by
    simp only [VectorIndex.open] at hopen
    split at hopen
    · cases hopen
    · rw [← Except.ok.inj hopen]
  have hsize : sizeOf segSize = segSize := if_neg (by omega)
  rw [hpool]
  refine ⟨⟨rfl, hsize, writer_inv_open d.segs segSize schema.dim, ?_, ?_⟩, rfl⟩
  · simp [«open»]
  · simp [«open»]

end VecSegmentPool

open VecSegmentPool

/-- For every index that opens, with a segment size that holds a vector, the locators of any
    sequence of appends are faithful if and only if the appends stay in the reach of 32 bits. -/
theorem locators_faithful_iff (d : VecDir) (schema : VectorSchema) (segSize : Nat)
    {x : VectorIndex} (hdim : 0 < schema.dim) (hfit : schema.dim * 4 ≤ segSize)
    (hopen : (VectorIndex.open d schema segSize).1 = .ok x) (vs : List (List F32))
    (hvs : ∀ v ∈ vs, v.length = schema.dim) :
    x.pool.Faithful vs ↔ InReach segSize (schema.dim * 4) vs.length := by
  obtain ⟨hf, hd⟩ := filled_open (by omega) hopen
  exact faithful_iff hf (by omega) hfit fun v hv => (hvs v hv).trans hd.symm

/-- Three vectors in segments of two. -/
theorem locators_faithful_rotated : ∃ x,
    (VectorIndex.open .empty (.new 1 .l2) 8).1 = .ok x ∧
    x.pool.Faithful [[0], [F32.one], [0]] :=
  ⟨_, rfl, (locators_faithful_iff .empty (.new 1 .l2) 8 (by decide) (by decide) rfl _
    (by decide)).mpr (by decide)⟩

/-- In a segment of 8 GB, the vector behind byte `2 ^ 32` gets the locator of the first one. -/
theorem locator_behind_four_gigabytes : ∃ x,
    (VectorIndex.open .empty (.new 1024 .l2) (2 ^ 33)).1 = .ok x ∧
    ¬x.pool.Faithful (List.replicate (2 ^ 20 + 1) (List.replicate 1024 0)) := by
  have hopen : (VectorIndex.open .empty (.new 1024 .l2) (2 ^ 33)).1 = .ok _ := rfl
  obtain ⟨hf, hd⟩ := filled_open (by decide) hopen
  refine ⟨_, rfl, fun hp => ?_⟩
  have hreach := inReach_of_faithful hf (by decide) (by decide) (fun v hv => ?_) hp
  · rw [List.length_replicate] at hreach
    exact absurd hreach (by decide)
  · rw [List.eq_of_mem_replicate hv]
    exact List.length_replicate

end FusionStore
