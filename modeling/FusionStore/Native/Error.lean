/-!
# Errors of the store

`StoreError` follows `error.rs`.  The payloads that come from other crates
(`std::io::Error`, `heed::Error`, `serde_json::Error`, `ArrowError`) are kept as
texts, since nothing in the store branches on them.
-/

namespace FusionStore

/-- `StoreError` (`error.rs`).  The last constructor is not a value of the
    source type: it stands for a Rust panic (an out-of-range slice of a mapped
    segment), which unwinds the call instead of returning. -/
inductive StoreError where
  | io (msg : String)
  | heed (msg : String)
  | serdeJson (msg : String)
  | notFound
  | duplicateVector (id : UInt64)
  | dimensionMismatch (expected got : Nat)
  | quotaExceeded
  | busy
  | segmentFull
  | lockBusy
  | corrupt (msg : String)
  | mapFull (current limit : Nat)
  | timeout
  | valueTooLarge (len : Nat)
  | lockPoisoned
  | invalidKey (msg : String)
  | arrow (msg : String)
  | panicked (msg : String)
  deriving DecidableEq, Repr

/-- The call returned, with a result or an error; a panic does not. -/
def Returns {α : Type} (r : Except StoreError α) : Prop := ∀ msg, r ≠ .error (.panicked msg)

/-- The call panicked. -/
def panics {α : Type} : Except StoreError α → Bool
  | .error (.panicked _) => true
  | _ => false

namespace StoreError

/-- An error that a call returns. -/
def NoPanic (err : StoreError) : Prop := ∀ msg, err ≠ .panicked msg

theorem noPanic_iff {α : Type} {err : StoreError} :
    err.NoPanic ↔ Returns (.error err : Except StoreError α) :=
  forall_congr' fun _ => not_congr ⟨congrArg _, Except.error.inj⟩

theorem NoPanic.of_panics {err : StoreError}
    (h : panics (.error err : Except StoreError Unit) = false) : err.NoPanic := by
  rintro msg rfl
  cases h

theorem NoPanic.panics_eq_false {α : Type} {err : StoreError} (h : err.NoPanic) :
    panics (.error err : Except StoreError α) = false := by
  cases err with
  | panicked msg => exact absurd rfl (h msg)
  | _ => rfl

end StoreError

/-- `u32::MAX`. -/
def u32Max : Nat := 4294967295

/-- `u64::MAX`. -/
def u64Max : Nat := 18446744073709551615

/-- Byte strings: keys, values and file contents. -/
abbrev Bytes := List UInt8

/-- An `f32`, as its bit pattern. -/
abbrev F32 := UInt32

end FusionStore
