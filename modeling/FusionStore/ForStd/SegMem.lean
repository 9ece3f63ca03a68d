import Mathlib.Data.List.GetD

/-!
# Append-only segment memory

A memory of numbered segments, read and written by byte ranges.  A writer that
only moves forward through positions `(segment, offset)` never changes a range
that lies before its position: `read_write_of_before` is the frame rule every
log-structured store rests on.
-/

/-- The bytes of all segments: segment number, then offset. -/
abbrev SegMem := Nat → Nat → UInt8

namespace SegMem

/-- Overwrite `[off, off + bs.length)` of segment `seg` with `bs`. -/
def write (m : SegMem) (seg off : Nat) (bs : List UInt8) : SegMem :=
  fun s i => if s = seg ∧ off ≤ i ∧ i < off + bs.length then bs.getD (i - off) 0 else m s i

/-- The bytes `[off, off + len)` of segment `seg`. -/
def read (m : SegMem) (seg off len : Nat) : List UInt8 :=
  (List.range len).map fun j => m seg (off + j)

/-- A freshly created segment holds zeros. -/
def clear (m : SegMem) (seg : Nat) : SegMem :=
  fun s i => if s = seg then 0 else m s i

/-- Take segment `seg` from `n` and everything else from `m`. -/
def copySeg (m n : SegMem) (seg : Nat) : SegMem :=
  fun s => if s = seg then n s else m s

/-- The range `[off, off + len)` of segment `seg` lies before position `(pseg, poff)`. -/
def Before (seg off len pseg poff : Nat) : Prop :=
  seg < pseg ∨ (seg = pseg ∧ off + len ≤ poff)

instance (seg off len pseg poff : Nat) : Decidable (Before seg off len pseg poff) :=
  inferInstanceAs (Decidable (_ ∨ _))

@[simp] theorem length_read (m : SegMem) (seg off len : Nat) :
    (m.read seg off len).length = len := by
  simp only [read, List.length_map, List.length_range]

/-- Reading a range that was just written returns what was written. -/
theorem read_write_same (m : SegMem) (seg off : Nat) (bs : List UInt8) :
    (m.write seg off bs).read seg off bs.length = bs := by
  apply List.ext_getElem
  · exact length_read _ _ _ _
  · intro i h1 h2
    simp only [read, write, List.getElem_map, List.getElem_range]
    rw [if_pos ⟨trivial, by omega, by omega⟩, Nat.add_sub_cancel_left, List.getD_eq_getElem _ _ h2]

/-- Two memories that agree on a range read the same there. -/
theorem read_congr {m n : SegMem} {seg off len : Nat}
    (h : ∀ i, off ≤ i → i < off + len → m seg i = n seg i) :
    m.read seg off len = n.read seg off len := by
  apply List.map_congr_left
  intro j hj
  rw [List.mem_range] at hj
  exact h _ (by omega) (by omega)

/-- The frame rule: a write at position `(pseg, poff)` keeps every range before it. -/
theorem read_write_of_before {m : SegMem} {seg off len pseg poff : Nat} {bs : List UInt8}
    (h : Before seg off len pseg poff) :
    (m.write pseg poff bs).read seg off len = m.read seg off len := by
  apply read_congr
  intro i hlo hhi
  simp only [write]
  rw [if_neg]
  rintro ⟨rfl, hi, -⟩
  rcases h with h | ⟨-, h⟩
  · exact absurd h (Nat.lt_irrefl _)
  · omega

/-- Creating another segment keeps every range. -/
theorem read_clear_of_ne {m : SegMem} {seg off len new : Nat} (h : seg ≠ new) :
    (m.clear new).read seg off len = m.read seg off len := by
  apply read_congr
  intro i _ _
  simp only [clear, if_neg h]

/-- What lies before a place lies before every later one. -/
theorem Before.mono {seg off len pseg poff qseg qoff : Nat} (h : Before seg off len pseg poff)
    (hle : pseg < qseg ∨ (pseg = qseg ∧ poff ≤ qoff)) : Before seg off len qseg qoff := by
  simp only [Before] at h ⊢
  omega

end SegMem
