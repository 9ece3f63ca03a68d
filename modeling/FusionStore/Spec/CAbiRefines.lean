import FusionStore.Native.CAbi
import FusionStore.Spec.EngineCalls

/-!
# A C client sees a map

Through its return codes and its buffers a C client sees one map of values and one of vectors,
from the `fs_store_create` on an empty path through any number of closes and opens.  Every code
is determined by the maps and the arguments.  A soft-deleted vector is back after
`fs_store_open`, and may keep `fs_store_create` from opening an existing store.

## Key results

- `CHost.client_sees_map`: every call of a client is answered as `CServes` says
-/

namespace FusionStore

/-! ### What a client expects -/

/-- What the client knows: whether it has a handle, and what the store holds. -/
structure CView where
  handle : Bool
  contents : Contents

/-- The code of a put. -/
def putCode (key value : Bytes) : Int :=
  if (encodeOp (.putKv key value)).length > u32Max then -14
  else if key = [] ∨ key.length > lmdbMaxKey then -17
  else codeOk

/-- The code of an insert. -/
def insertCode (schema : VectorSchema) (vectors : VecMap) (id : NodeId) (v : List F32) : Int :=
  if (encodeOp (.insertVector id v)).length > u32Max then -14
  else if v.length ≠ schema.dim then -5
  else if (vectors id).isSome then -4
  else codeOk

namespace CCall

/-- The answer to a null pointer. -/
def refusal : CCall → CReply
  | .close => .void
  | .create _ _ | .open _ _ | .putKv _ _ | .insertVector _ _ | .deleteVector _ | .checkpoint =>
    .code errOther
  | .getKv _ out => .bytes errOther out
  | .searchKnn _ topK out => .hits errOther topK out
  | .getVector _ out => .floats errOther out
  | .listVectorIds out => .ids errOther out
  | .vectorDim => .dim 0

/-- Calls that open the store. -/
def opens : CCall → Bool
  | .create _ _ | .open _ _ => true
  | _ => false

/-- An argument is a null pointer. -/
def hasNull : CCall → Bool
  | .create named _ | .open named _ => !named
  | .putKv key value => key.isNone || value.isNone
  | .getKv key out => key.isNone || out.isNone
  | .insertVector _ v => v.isNone
  | .searchKnn q _ out => q.isNone || out.isNone
  | .getVector _ out => out.isNone
  | .listVectorIds out => out.isNone
  | .close | .deleteVector _ | .vectorDim | .checkpoint => false

/-- The length of the value of a put. -/
def valueBytes : CCall → Nat
  | .putKv _ (some value) => value.length
  | _ => 0

end CCall

/-- The bytes of all values that are put. -/
def valueBytes : List CCall → Nat
  | [] => 0
  | call :: calls => call.valueBytes + valueBytes calls

variable (A : F32Arith)

/-- A call, its answer, and what the client knows after it. -/
inductive CServes (schema : VectorSchema) (v : CView) : CCall → CReply → CView → Prop
  | skipped {call : CCall} (hopens : call.opens = true) (hnamed : call.hasNull = false)
      (hopen : v.handle = true) : CServes schema v call .skipped v
  | null {call : CCall}
      (hnull : v.handle = false ∧ call.opens = false ∨ call.hasNull = true) :
      CServes schema v call call.refusal v
  | create {order : MapOrder} (hclosed : v.handle = false) :
      CServes schema v (.create true order) (.code codeOk) { v with handle := true }
  | createFailed {order : MapOrder} (hclosed : v.handle = false)
      (hdead : ∃ id x, v.contents.vectors id = some (x, true)) :
      CServes schema v (.create true order) (.code (-9)) v
  | reopen {order : MapOrder} (hclosed : v.handle = false) :
      CServes schema v (.open true order) (.code codeOk) ⟨true, v.contents.revive⟩
  | close (hopen : v.handle = true) : CServes schema v .close .void { v with handle := false }
  | checkpoint (hopen : v.handle = true) : CServes schema v .checkpoint (.code codeOk) v
  | put {key value : Bytes} (hopen : v.handle = true) (hcode : putCode key value = codeOk) :
      CServes schema v (.putKv (some key) (some value)) (.code codeOk) { v with contents :=
        { v.contents with value := Function.update v.contents.value key (some value) } }
  | putFailed {key value : Bytes} (hopen : v.handle = true)
      (hcode : putCode key value ≠ codeOk) :
      CServes schema v (.putKv (some key) (some value)) (.code (putCode key value)) v
  | get {key value : Bytes} {out : OutBuf UInt8} (hopen : v.handle = true) (hne : key ≠ [])
      (hvalue : v.contents.value key = some value) :
      CServes schema v (.getKv (some key) (some out))
        (.bytes (out.fill value).1 (some (out.fill value).2)) v
  | getAbsent {key : Bytes} {out : OutBuf UInt8} (hopen : v.handle = true) (hne : key ≠ [])
      (hvalue : v.contents.value key = none) :
      CServes schema v (.getKv (some key) (some out)) (.bytes errNotFound (some out)) v
  | getEmpty {out : OutBuf UInt8} (hopen : v.handle = true) :
      CServes schema v (.getKv (some []) (some out)) (.bytes (-2) (some out)) v
  | insert {id : NodeId} {x : List F32} (hopen : v.handle = true)
      (hcode : insertCode schema v.contents.vectors id x = codeOk) :
      CServes schema v (.insertVector id (some x)) (.code codeOk) { v with contents :=
        { v.contents with
          vectors := Function.update v.contents.vectors id (some (x, false)) } }
  | insertFailed {id : NodeId} {x : List F32} (hopen : v.handle = true)
      (hcode : insertCode schema v.contents.vectors id x ≠ codeOk) :
      CServes schema v (.insertVector id (some x))
        (.code (insertCode schema v.contents.vectors id x)) v
  | search {q : List F32} {topK : Nat} {out : HitBuf topK} {results : List (NodeId × F32)}
      (hopen : v.handle = true) (hdim : q.length = schema.dim)
      (hshows : IndexSession.Shows A schema.metric q topK v.contents.vectors.visible results) :
      CServes schema v (.searchKnn (some q) topK (some out))
        (.hits codeOk topK (some (out.fill results))) v
  | searchFailed {q : List F32} {topK : Nat} {out : HitBuf topK} (hopen : v.handle = true)
      (hdim : q.length ≠ schema.dim) :
      CServes schema v (.searchKnn (some q) topK (some out)) (.hits (-5) topK (some out)) v
  | delete {id : NodeId} (hopen : v.handle = true)
      (hlive : (v.contents.vectors.visible id).isSome) :
      CServes schema v (.deleteVector id) (.code codeOk) { v with contents :=
        { v.contents with vectors := v.contents.vectors.delete id } }
  | deleteAbsent {id : NodeId} (hopen : v.handle = true)
      (hno : v.contents.vectors.visible id = none) :
      CServes schema v (.deleteVector id) (.code errNotFound) v
  | getVector {id : NodeId} {x : List F32} {out : OutBuf F32} (hopen : v.handle = true)
      (hvisible : v.contents.vectors.visible id = some x) :
      CServes schema v (.getVector id (some out))
        (.floats (out.fill x).1 (some (out.fill x).2)) v
  | getVectorAbsent {id : NodeId} {out : OutBuf F32} (hopen : v.handle = true)
      (hno : v.contents.vectors.visible id = none) :
      CServes schema v (.getVector id (some out)) (.floats errNotFound (some out)) v
  | list {ids : List NodeId} {out : OutBuf NodeId} (hopen : v.handle = true) (hnd : ids.Nodup)
      (hmem : ∀ id, id ∈ ids ↔ (v.contents.vectors.visible id).isSome) :
      CServes schema v (.listVectorIds (some out))
        (.ids (out.fill ids).1 (some (out.fill ids).2)) v
  | vectorDim (hopen : v.handle = true) : CServes schema v .vectorDim (.dim schema.dim) v

/-! ### The engine behind a handle -/

/-- An engine that was opened without a quota, after puts of `n` bytes in all. -/
structure Engine.Handles (schema : VectorSchema) (e : Engine) (c : Contents) (n : Nat) : Prop where
  holds : e.Matches schema c
  used : e.kv.env.volatile.used ≤ n
  quota : e.kv.quotaLimit = 0

namespace Engine

variable {schema : VectorSchema} {e : Engine} {c : Contents} {n : Nat}

/-- A larger account of the bytes put. -/
theorem Handles.mono (h : e.Handles schema c n) {m : Nat} (hle : n ≤ m) : e.Handles schema c m :=
  ⟨h.holds, h.used.trans hle, h.quota⟩

/-- The code of a put says whether it was done, and why not. -/
theorem Handles.putKv (h : e.Handles schema c n) (key : Bytes) {value : Bytes}
    (hlen : value.length ≤ defaultSegmentSize) (htotal : n + value.length ≤ u64Max) :
    ∃ r e', e.putKv key value true = (r, e') ∧ codeOf r = some (putCode key value) ∧
      e'.Handles schema (if putCode key value = codeOk then
        { c with value := Function.update c.value key (some value) } else c)
        (n + value.length) := by
  have hfrom := h.mono (Nat.le_add_right n value.length)
  unfold Engine.putKv putCode
  -- an entry longer than the log takes is refused before anything is written
  obtain ⟨hlong, hw⟩ | ⟨hshort, wal, hw⟩ := e.wal.append_cases (.putKv key value)
  · rw [hw, if_pos hlong]
    exact ⟨_, e, rfl, rfl, hfrom⟩
  rw [hw, if_neg hshort]
  -- logged, then applied
  have h₁ : ({ e with wal } : Engine).Matches schema c := h.holds.logged hw
  have happ : ({ e with wal } : Engine).apply zeroArith true (.putKv key value) =
      ((e.kv.putKv key value true none).1,
        { e with wal, kv := (e.kv.putKv key value true none).2 }) := rfl
  by_cases hkey : key = [] ∨ key.length > lmdbMaxKey
  · rw [if_pos hkey]
    -- an empty key or one that LMDB does not take
    obtain ⟨msg, herr⟩ : ∃ msg, e.kv.putKv key value true none =
        (.error (.invalidKey msg), e.kv) := by
      unfold KvStore.putKv KvStore.putKvInner
      by_cases hempty : key.isEmpty = true
      · rw [if_pos rfl, if_pos hempty]
        exact ⟨_, rfl⟩
      · rw [if_pos rfl, if_neg hempty, if_pos]
        · exact ⟨_, rfl⟩
        · exact hkey.resolve_left (by simpa using hempty)
    rw [herr] at happ ⊢
    exact ⟨_, _, rfl, rfl, h₁.putKv_error zeroArith happ, hfrom.used, h.quota⟩
  · rw [if_neg hkey]
    rw [not_or, not_lt] at hkey
    have hused := h.used
    -- no quota, and the counter of the bytes does not overflow
    have haccepts : e.kv.Accepts key value := by
      refine ⟨hkey.1, hkey.2, ?_, .inl h.quota, hlen⟩
      unfold KvStore.newUsed
      omega
    obtain ⟨-, -, loc, pool, hput, -⟩ | ⟨hno, -⟩ :=
      KvStore.putKv_cases h.holds.inv.kv key value true
    · -- what was put is counted in
      obtain ⟨-, -, heff, hcount, -⟩ := KvStore.putKv_ok h.holds.inv.kv hput
      rw [hput] at happ ⊢
      refine ⟨_, _, rfl, rfl, (h₁.putKv_ok zeroArith happ).1, ?_, heff.quotaLimit.trans h.quota⟩
      show (e.kv.stored key value loc pool).env.volatile.used ≤ _
      rw [hcount, KvStore.newUsed]
      omega
    · exact absurd ⟨rfl, haccepts⟩ hno

/-- The code of an insert says whether it was done, and why not. -/
theorem Handles.insertVector (h : e.Handles schema c n) (id : NodeId) (x : List F32) :
    ∃ r e', e.insertVector A id x = (r, e') ∧
      codeOf r = some (insertCode schema c.vectors id x) ∧
      e'.Handles schema (if insertCode schema c.vectors id x = codeOk then
        { c with vectors := Function.update c.vectors id (some (x, false)) } else c) n := by
  obtain ⟨r, e', hins, hkv, hcase⟩ := h.holds.insertVector_call A id x
  refine ⟨r, e', hins, ?_⟩
  have hhandles : ∀ {c'}, e'.Matches schema c' → e'.Handles schema c' n := by
    intro c' he'
    refine ⟨he', ?_, ?_⟩ <;> rw [hkv]
    · exact h.used
    · exact h.quota
  unfold insertCode
  obtain ⟨hlong, rfl, he'⟩ | ⟨hshort, hcase⟩ := hcase
  · -- the entry is longer than the log takes
    rw [if_pos hlong]
    exact ⟨rfl, hhandles he'⟩
  rw [if_neg hshort]
  obtain ⟨hdim, rfl, he'⟩ | ⟨hdim, hsome, rfl, he'⟩ | ⟨hdim, hnone, rfl, he'⟩ := hcase
  · -- a wrong length, a stored id, or an id that is free
    rw [if_pos hdim]
    exact ⟨rfl, hhandles he'⟩
  · rw [if_neg (not_not.mpr hdim), if_pos hsome]
    exact ⟨rfl, hhandles he'⟩
  · rw [if_neg (not_not.mpr hdim), hnone, if_neg (by simp)]
    exact ⟨rfl, hhandles he'⟩

/-- A vector is deleted if it is shown. -/
theorem Handles.deleteVector (h : e.Handles schema c n) (id : NodeId) :
    ∃ e', e.deleteVector id = (.ok (c.vectors.visible id).isSome, e') ∧
      e'.Handles schema { c with vectors := c.vectors.delete id } n := by
  obtain ⟨e', hdel, hkv, he'⟩ := h.holds.deleteVector_eq id
  refine ⟨e', hdel, he', ?_, ?_⟩ <;> rw [hkv]
  · exact h.used
  · exact h.quota

/-- A checkpoint changes no contents. -/
theorem Handles.checkpoint (h : e.Handles schema c n) : e.checkpoint.Handles schema c n where
  holds := h.holds.checkpoint
  used := by
    rw [kv_checkpoint]
    exact h.used
  quota := by
    rw [kv_checkpoint]
    exact h.quota

end Engine

/-- A delete of what does not show changes nothing. -/
theorem VecMap.delete_of_visible_none {m : VecMap} {id : NodeId} (h : m.visible id = none) :
    m.delete id = m := by
  unfold visible at h
  unfold delete
  rw [Function.update_eq_self_iff]
  rcases hm : m id with _ | ⟨v, _ | _⟩
  · rfl
  · rw [hm] at h
    cases h
  · rfl

/-! ### Clients -/

namespace CHost

variable {I : Ipc} {dim : Nat} {s : CHost} {v : CView} {n : Nat}

/-- The process has what the client knows of. -/
inductive Shows (schema : VectorSchema) : CHost → CView → Nat → Prop
  | opened {e : Engine} {c : Contents} {n : Nat} (h : e.Handles schema c n) :
      Shows schema (.opened e) ⟨true, c⟩ n
  | closed {d : EngineDir} {c : Contents} {n : Nat} (h : d.Holds schema c)
      (hused : d.kv.env.volatile.used ≤ n) : Shows schema (.closed d) ⟨false, c⟩ n

/-- A larger account of the bytes put. -/
theorem Shows.mono {schema : VectorSchema} (h : Shows schema s v n) {m : Nat} (hle : n ≤ m) :
    Shows schema s v m := by
  cases h with
  | opened h => exact .opened (h.mono hle)
  | closed h hused => exact .closed h (hused.trans hle)

/-- A null pointer changes nothing. -/
theorem step_null {call : CCall}
    (hnull : s.handle = none ∧ call.opens = false ∨ call.hasNull = true) :
    s.step A I dim call = (s, call.refusal) := by
  -- call by call: the pointers are tested before anything else, in the order of the source
  cases call with
  | create named order =>
    cases s <;> cases named <;> first | rfl | simp [handle, CCall.hasNull, CCall.opens] at hnull
  | «open» named order =>
    cases s <;> cases named <;> first | rfl | simp [handle, CCall.hasNull, CCall.opens] at hnull
  | close => cases s <;> first | rfl | simp [handle, CCall.hasNull] at hnull
  | putKv key value =>
    cases s <;> cases key <;> cases value <;>
      first | rfl | simp [handle, CCall.hasNull] at hnull
  | getKv key out =>
    cases s <;> cases key <;> cases out <;> first | rfl | simp [handle, CCall.hasNull] at hnull
  | insertVector id x =>
    cases s <;> cases x <;> first | rfl | simp [handle, CCall.hasNull] at hnull
  | searchKnn q topK out =>
    cases s <;> cases q <;> cases out <;> first | rfl | simp [handle, CCall.hasNull] at hnull
  | deleteVector id => cases s <;> first | rfl | simp [handle, CCall.hasNull] at hnull
  | getVector id out =>
    cases s <;> cases out <;> first | rfl | simp [handle, CCall.hasNull] at hnull
  | listVectorIds out =>
    cases s <;> cases out <;> first | rfl | simp [handle, CCall.hasNull] at hnull
  | vectorDim => cases s <;> first | rfl | simp [handle, CCall.hasNull] at hnull
  | checkpoint => cases s <;> first | rfl | simp [handle, CCall.hasNull] at hnull

/-- A client without a handle. -/
theorem step_closed {d : EngineDir} {c : Contents} (h : d.Holds (.new dim .l2) c)
    (hused : d.kv.env.volatile.used ≤ n) (call : CCall) :
    ∃ v', CServes A (.new dim .l2) ⟨false, c⟩ call ((CHost.closed d).step A I dim call).2 v' ∧
      Shows (.new dim .l2) ((CHost.closed d).step A I dim call).1 v' n := by
  -- an open reads the value bytes in use from the files
  have hopened : ∀ {e : Engine} {c' : Contents}, e.Matches (.new dim .l2) c' →
      e.kv = KvStore.open d.kv 0 0 → Shows (.new dim .l2) (.opened e) ⟨true, c'⟩ n := by
    intro e c' he hkv
    refine .opened ⟨he, ?_, ?_⟩ <;> rw [hkv]
    · exact hused
    · rfl
  by_cases hnull : call.opens = false ∨ call.hasNull = true
  · -- a null handle, or a null pointer in a call that opens
    rw [step_null A (hnull.imp_left fun hcall => ⟨rfl, hcall⟩)]
    exact ⟨_, .null (hnull.imp_left fun hcall => ⟨rfl, hcall⟩), .closed h hused⟩
  cases call with
  | create named order =>
    obtain rfl : named = true := by simpa [CCall.opens, CCall.hasNull] using hnull
    simp only [step, fsStoreCreate]
    -- a schema is passed, so a snapshot that cannot be read ends the open
    obtain ⟨e, hop, he, hkv, -⟩ | ⟨hdead, msg, left, hop, hleft, henv⟩ :=
      h.open_some (A := A) (I := I) 0 order
    · rw [hop]
      exact ⟨_, .create rfl, hopened he hkv⟩
    · rw [hop]
      refine ⟨_, .createFailed rfl hdead, .closed hleft ?_⟩
      show left.kv.env.volatile.used ≤ n
      rw [henv]
      exact hused
  | «open» named order =>
    obtain rfl : named = true := by simpa [CCall.opens, CCall.hasNull] using hnull
    simp only [step, fsStoreOpen]
    obtain ⟨e, hop, he, hkv, -⟩ := h.reopen (A := A) (I := I) 0 order
    rw [hop]
    exact ⟨_, .reopen rfl, hopened he hkv⟩
  -- no other call is left
  | close => exact absurd (.inl rfl) hnull
  | putKv key value => exact absurd (.inl rfl) hnull
  | getKv key out => exact absurd (.inl rfl) hnull
  | insertVector id x => exact absurd (.inl rfl) hnull
  | searchKnn q topK out => exact absurd (.inl rfl) hnull
  | deleteVector id => exact absurd (.inl rfl) hnull
  | getVector id out => exact absurd (.inl rfl) hnull
  | listVectorIds out => exact absurd (.inl rfl) hnull
  | vectorDim => exact absurd (.inl rfl) hnull
  | checkpoint => exact absurd (.inl rfl) hnull

/-- The answer to a call, and the process after it, are what the client expects. -/
def Answered (I : Ipc) (dim n : Nat) (s : CHost) (v : CView) (call : CCall) : Prop :=
  ∃ v', CServes A (.new dim .l2) v call (s.step A I dim call).2 v' ∧
    Shows (.new dim .l2) (s.step A I dim call).1 v' (n + call.valueBytes)

/-- An answer, from the step that gives it. -/
theorem answered_of_step {call : CCall} {s' : CHost} {reply : CReply} {v' : CView}
    (hstep : s.step A I dim call = (s', reply)) (hserves : CServes A (.new dim .l2) v call reply v')
    (hshows : Shows (.new dim .l2) s' v' (n + call.valueBytes)) :
    Answered A I dim n s v call := by
  unfold Answered
  rw [hstep]
  exact ⟨v', hserves, hshows⟩

section Opened

variable {e : Engine} {c : Contents} (h : e.Handles (.new dim .l2) c n)

include h

/-- Close. -/
theorem answered_close : Answered A I dim n (.opened e) ⟨true, c⟩ .close := by
  refine ⟨_, .close rfl, .closed h.holds.holds_close ?_⟩
  show e.checkpoint.kv.env.volatile.used ≤ n
  rw [Engine.kv_checkpoint]
  exact h.used

/-- A put, with the code of what it finds first. -/
theorem answered_putKv {key value : Bytes} (hvalue : value.length ≤ defaultSegmentSize)
    (htotal : n + value.length ≤ u64Max) :
    Answered A I dim n (.opened e) ⟨true, c⟩ (.putKv (some key) (some value)) := by
  obtain ⟨r, e', hput, hcode, he'⟩ := h.putKv key hvalue htotal
  have hstep : (CHost.opened e).step A I dim (.putKv (some key) (some value)) =
      (.opened e', .code (putCode key value)) := by
    simp only [step, handle, fsStorePutKv, hput, hcode, update]
  by_cases hok : putCode key value = codeOk
  · rw [if_pos hok] at he'
    rw [hok] at hstep
    exact answered_of_step A hstep (.put rfl hok) (.opened he')
  · rw [if_neg hok] at he'
    exact answered_of_step A hstep (.putFailed rfl hok) (.opened he')

/-- A read of a value. -/
theorem answered_getKv (key : Bytes) (out : OutBuf UInt8) :
    Answered A I dim n (.opened e) ⟨true, c⟩ (.getKv (some key) (some out)) := by
  have hstay : Shows (.new dim .l2) (.opened e) ⟨true, c⟩ n := .opened h
  by_cases hne : key = []
  · -- heed refuses an empty key before it looks for it
    subst hne
    exact ⟨_, .getEmpty rfl, hstay⟩
  have hget := h.holds.getKv_eq hne
  cases hval : c.value key with
  | none =>
    have hstep : (CHost.opened e).step A I dim (.getKv (some key) (some out)) =
        (.opened e, .bytes errNotFound (some out)) := by
      simp only [step, handle, fsStoreGetKv, hget, hval, read]
    exact answered_of_step A hstep (.getAbsent rfl hne hval) hstay
  | some value =>
    have hstep : (CHost.opened e).step A I dim (.getKv (some key) (some out)) =
        (.opened e, .bytes (out.fill value).1 (some (out.fill value).2)) := by
      simp only [step, handle, fsStoreGetKv, hget, hval, read]
    exact answered_of_step A hstep (.get rfl hne hval) hstay

/-- An insert, with the code of what it finds first. -/
theorem answered_insertVector (id : NodeId) (x : List F32) :
    Answered A I dim n (.opened e) ⟨true, c⟩ (.insertVector id (some x)) := by
  obtain ⟨r, e', hins, hcode, he'⟩ := h.insertVector A id x
  have hstep : (CHost.opened e).step A I dim (.insertVector id (some x)) =
      (.opened e', .code (insertCode (.new dim .l2) c.vectors id x)) := by
    simp only [step, handle, fsStoreInsertVector, hins, hcode, update]
  by_cases hok : insertCode (.new dim .l2) c.vectors id x = codeOk
  · rw [if_pos hok] at he'
    rw [hok] at hstep
    exact answered_of_step A hstep (.insert rfl hok) (.opened he')
  · rw [if_neg hok] at he'
    exact answered_of_step A hstep (.insertFailed rfl hok) (.opened he')

/-- A search. -/
theorem answered_searchKnn (q : List F32) (topK : Nat) (out : HitBuf topK) :
    Answered A I dim n (.opened e) ⟨true, c⟩ (.searchKnn (some q) topK (some out)) := by
  obtain ⟨hdim, results, hres, hshows⟩ | ⟨hdim, hres⟩ := h.holds.searchKnn A q topK fun _ => false
  · have hstep : (CHost.opened e).step A I dim (.searchKnn (some q) topK (some out)) =
        (.opened e, .hits codeOk topK (some (out.fill results))) := by
      simp only [step, handle, fsStoreSearchKnn, hres, read]
    exact answered_of_step A hstep (.search rfl hdim hshows) (.opened h)
  · -- the dimension is checked before the buffer is touched
    have hstep : (CHost.opened e).step A I dim (.searchKnn (some q) topK (some out)) =
        (.opened e, .hits (-5) topK (some out)) := by
      simp only [step, handle, fsStoreSearchKnn, hres, errCode, read]
    exact answered_of_step A hstep (.searchFailed rfl hdim) (.opened h)

/-- A delete. -/
theorem answered_deleteVector (id : NodeId) :
    Answered A I dim n (.opened e) ⟨true, c⟩ (.deleteVector id) := by
  obtain ⟨e', hdel, he'⟩ := h.deleteVector id
  cases hvis : c.vectors.visible id with
  | none =>
    -- `delete_vector` reports that the id was not there
    have hstep : (CHost.opened e).step A I dim (.deleteVector id) =
        (.opened e', .code errNotFound) := by
      simp only [step, handle, fsStoreDeleteVector, hdel, hvis, update]
      rfl
    -- deleting what is not shown is deleting nothing
    have hsame : c.vectors.delete id = c.vectors := VecMap.delete_of_visible_none hvis
    rw [hsame] at he'
    exact answered_of_step A hstep (.deleteAbsent rfl hvis) (.opened he')
  | some x =>
    have hstep : (CHost.opened e).step A I dim (.deleteVector id) = (.opened e', .code codeOk) := by
      simp only [step, handle, fsStoreDeleteVector, hdel, hvis, update]
      rfl
    have hlive : (c.vectors.visible id).isSome := by
      rw [hvis]
      rfl
    exact answered_of_step A hstep (.delete rfl hlive) (.opened he')

/-- A read of a vector. -/
theorem answered_getVector (id : NodeId) (out : OutBuf F32) :
    Answered A I dim n (.opened e) ⟨true, c⟩ (.getVector id (some out)) := by
  have hget := h.holds.getVector_eq id
  cases hvis : c.vectors.visible id with
  | none =>
    have hstep : (CHost.opened e).step A I dim (.getVector id (some out)) =
        (.opened e, .floats errNotFound (some out)) := by
      simp only [step, handle, fsStoreGetVector, hget, hvis, read]
    exact answered_of_step A hstep (.getVectorAbsent rfl hvis) (.opened h)
  | some x =>
    have hstep : (CHost.opened e).step A I dim (.getVector id (some out)) =
        (.opened e, .floats (out.fill x).1 (some (out.fill x).2)) := by
      simp only [step, handle, fsStoreGetVector, hget, hvis, read]
    exact answered_of_step A hstep (.getVector rfl hvis) (.opened h)

/-- The list of ids. -/
theorem answered_listVectorIds (out : OutBuf NodeId) :
    Answered A I dim n (.opened e) ⟨true, c⟩ (.listVectorIds (some out)) := by
  obtain ⟨x, -, hlist, hnodup, hmem⟩ := h.holds.listVectorIds_eq
  have hstep : (CHost.opened e).step A I dim (.listVectorIds (some out)) = (.opened e,
      .ids (out.fill x.listVectorIds).1 (some (out.fill x.listVectorIds).2)) := by
    simp only [step, handle, fsStoreListVectorIds, hlist, read]
  exact answered_of_step A hstep (.list rfl hnodup hmem) (.opened h)

/-- The dimension. -/
theorem answered_vectorDim : Answered A I dim n (.opened e) ⟨true, c⟩ .vectorDim := by
  obtain ⟨x, hvec, -⟩ := h.holds.index
  have hstep : (CHost.opened e).step A I dim .vectorDim = (.opened e, .dim dim) := by
    simp only [step, handle, fsStoreVectorDim, Engine.ensureVec, hvec, h.holds.schema_eq hvec]
    rfl
  exact answered_of_step A hstep (.vectorDim rfl) (.opened h)

end Opened

/-- A client with a handle. -/
theorem step_opened {e : Engine} {c : Contents} (h : e.Handles (.new dim .l2) c n) (call : CCall)
    (hvalue : call.valueBytes ≤ defaultSegmentSize) (htotal : n + call.valueBytes ≤ u64Max) :
    Answered A I dim n (.opened e) ⟨true, c⟩ call := by
  have hstay : Shows (.new dim .l2) (.opened e) ⟨true, c⟩ (n + call.valueBytes) :=
    .opened (h.mono (Nat.le_add_right _ _))
  by_cases hnull : call.hasNull = true
  · exact answered_of_step A (step_null A (.inr hnull)) (.null (.inr hnull)) hstay
  -- from here on no pointer is null
  cases call with
  | create named order =>
    -- the environment is in use, so a second open is skipped
    obtain rfl : named = true := by simpa [CCall.hasNull] using hnull
    exact ⟨_, .skipped rfl rfl rfl, hstay⟩
  | «open» named order =>
    obtain rfl : named = true := by simpa [CCall.hasNull] using hnull
    exact ⟨_, .skipped rfl rfl rfl, hstay⟩
  | close => exact answered_close A h
  | putKv key value =>
    cases key with
    | none => exact absurd rfl hnull
    | some key =>
      cases value with
      | none => exact absurd rfl hnull
      | some value => exact answered_putKv A h hvalue htotal
  | getKv key out =>
    cases key with
    | none => exact absurd rfl hnull
    | some key =>
      cases out with
      | none => exact absurd rfl hnull
      | some out => exact answered_getKv A h key out
  | insertVector id x =>
    cases x with
    | none => exact absurd rfl hnull
    | some x => exact answered_insertVector A h id x
  | searchKnn q topK out =>
    cases q with
    | none => exact absurd rfl hnull
    | some q =>
      cases out with
      | none => exact absurd rfl hnull
      | some out => exact answered_searchKnn A h q topK out
  | deleteVector id => exact answered_deleteVector A h id
  | getVector id out =>
    cases out with
    | none => exact absurd rfl hnull
    | some out => exact answered_getVector A h id out
  | listVectorIds out =>
    cases out with
    | none => exact absurd rfl hnull
    | some out => exact answered_listVectorIds A h out
  | vectorDim => exact answered_vectorDim A h
  | checkpoint => exact ⟨_, .checkpoint rfl, .opened h.checkpoint⟩

/-- A call of a client, with what it was told before. -/
def next (I : Ipc) (dim : Nat) (r : CHost × List (Linear.Entry Unit CCall CReply)) (call : CCall) :
    CHost × List (Linear.Entry Unit CCall CReply) :=
  ((r.1.step A I dim call).1, r.2 ++ [⟨(), call, (r.1.step A I dim call).2⟩])

/-- One call, with what the client was told before. -/
theorem Shows.next {schema : VectorSchema} (hschema : schema = .new dim .l2)
    (h : Shows schema s v n) (call : CCall) (hvalue : call.valueBytes ≤ defaultSegmentSize)
    (htotal : n + call.valueBytes ≤ u64Max) :
    ∃ v', CServes A schema v call (s.step A I dim call).2 v' ∧
      Shows schema (s.step A I dim call).1 v' (n + call.valueBytes) := by
  subst hschema
  cases h with
  | opened h => exact step_opened A h call hvalue htotal
  | closed h hused =>
    obtain ⟨v', hserves, hshows⟩ := step_closed A h hused call
    exact ⟨v', hserves, hshows.mono (Nat.le_add_right _ _)⟩

/-- What is told in one call after the other is one history of the maps. -/
theorem Shows.run {v₀ : CView} {es : List (Linear.Entry Unit CCall CReply)}
    (h : Shows (.new dim .l2) s v n)
    (hlegal : Linear.Legal (CServes A (.new dim .l2)) v₀ es v) {calls : List CCall}
    (hvalues : ∀ call ∈ calls, call.valueBytes ≤ defaultSegmentSize)
    (htotal : n + valueBytes calls ≤ u64Max) :
    ∃ v', Linear.Legal (CServes A (.new dim .l2)) v₀
      (Run.exec (CHost.next A I dim) (s, es) calls).2 v' := by
  induction calls generalizing s v n es with
  | nil => exact ⟨v, hlegal⟩
  | cons call calls ih =>
    simp only [valueBytes] at htotal
    obtain ⟨v', hserves, hshows⟩ := h.next A (I := I) rfl call
      (hvalues call List.mem_cons_self) (by omega)
    exact ih hshows (hlegal.snoc hserves)
      (fun call hmem => hvalues call (List.mem_cons_of_mem _ hmem)) (by omega)

/-- Every answer a client ever gets is the one that the map it has built up prescribes: which
    code, what is in its buffers, and that the process does not abort. -/
theorem client_sees_map (I : Ipc) {dim : Nat} (hfits : dim * 4 ≤ defaultVecSegmentSize)
    {order : MapOrder} {e : Engine} {left : Option EngineDir}
    (hcreate : fsStoreCreate A I (some .empty) dim order = (some codeOk, some e, left))
    {calls : List CCall} (hvalues : ∀ call ∈ calls, call.valueBytes ≤ defaultSegmentSize)
    (htotal : valueBytes calls ≤ u64Max) :
    ∃ v, Linear.Legal (CServes A (.new dim .l2)) ⟨true, .empty⟩
      (Run.exec (next A I dim) (.opened e, []) calls).2 v := by
  have hopen : (Engine.open A I .empty (some (.new dim .l2)) 0 order).1 = .ok e := by
    unfold fsStoreCreate at hcreate
    dsimp only at hcreate
    split at hcreate
    · rename_i e' left' hop
      rw [hop]
      exact congrArg Except.ok (Option.some.inj (Prod.mk.inj (Prod.mk.inj hcreate).2).1)
    · cases (Prod.mk.inj (Prod.mk.inj hcreate).2).1
  obtain ⟨hblank, -⟩ := Engine.blank_open A I hopen
  have hholds : e.Matches (.new dim .l2) .empty := Engine.matches_open A I hfits hopen
  have hshows : Shows (.new dim .l2) (.opened e) ⟨true, .empty⟩ 0 := by
    refine .opened ⟨hholds, ?_, ?_⟩ <;> rw [hblank.kv]
    · exact Nat.le_refl 0
    · rfl
  exact hshows.run A .nil hvalues (by omega)

/-- A client that closes and opens its store. -/
theorem client_sees_map_reopened : ∃ e left v,
    fsStoreCreate zeroArith noIpc (some .empty) 1 .id = (some codeOk, some e, left) ∧
    Linear.Legal (CServes zeroArith (.new 1 .l2)) ⟨true, .empty⟩
      (Run.exec (next zeroArith noIpc 1) (.opened e, [])
        [.putKv (some [1]) (some [2]), .insertVector 1 (some [0]), .deleteVector 1, .close,
          .open false .id, .open true .id, .getVector 1 (some ⟨[5], 1, 0, by decide⟩)]).2 v := by
  obtain ⟨e, left, hcreate⟩ : ∃ e left,
      fsStoreCreate zeroArith noIpc (some .empty) 1 .id = (some codeOk, some e, left) :=
    ⟨_, _, rfl⟩
  have hvalues : ∀ call ∈ ([.putKv (some [1]) (some [2]), .insertVector 1 (some [0]),
      .deleteVector 1, .close, .open false .id, .open true .id,
      .getVector 1 (some ⟨[5], 1, 0, by decide⟩)] : List CCall),
      call.valueBytes ≤ defaultSegmentSize := by decide
  obtain ⟨v, hlegal⟩ := client_sees_map zeroArith noIpc (by decide) hcreate hvalues (by decide)
  exact ⟨e, left, v, hcreate, hlegal⟩

end CHost

end FusionStore
