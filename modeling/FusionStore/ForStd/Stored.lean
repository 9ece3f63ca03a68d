import Mathlib.Tactic.TypeStar

/-!
# Volatile and durable copies

A `Stored α` is a piece of persistent data with the copy that the running system
and every later process see (`volatile`: page cache, mapped pages) and the copy
that survives a power loss (`durable`).
-/

/-- Data with a volatile and a durable copy. -/
structure Stored (α : Type*) where
  volatile : α
  durable : α

namespace Stored

variable {α : Type*}

/-- Data that was written and synced. -/
def synced (a : α) : Stored α := ⟨a, a⟩

/-- Replace the volatile copy. -/
def write (s : Stored α) (a : α) : Stored α := { s with volatile := a }

/-- Make the volatile copy durable. -/
def sync (s : Stored α) : Stored α := { s with durable := s.volatile }

/-- A power loss: only the durable copy is left. -/
def powerLoss (s : Stored α) : Stored α := ⟨s.durable, s.durable⟩

@[simp] theorem volatile_synced (a : α) : (synced a).volatile = a := rfl
@[simp] theorem durable_synced (a : α) : (synced a).durable = a := rfl
@[simp] theorem volatile_write (s : Stored α) (a : α) : (s.write a).volatile = a := rfl
@[simp] theorem durable_write (s : Stored α) (a : α) : (s.write a).durable = s.durable := rfl
@[simp] theorem volatile_sync (s : Stored α) : s.sync.volatile = s.volatile := rfl
@[simp] theorem durable_sync (s : Stored α) : s.sync.durable = s.volatile := rfl
@[simp] theorem volatile_powerLoss (s : Stored α) : s.powerLoss.volatile = s.durable := rfl
@[simp] theorem durable_powerLoss (s : Stored α) : s.powerLoss.durable = s.durable := rfl

end Stored
