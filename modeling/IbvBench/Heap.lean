import IbvBench.Verbs

/-!
# The contexts a rank allocates

`malloc` and `delete`, as the rendezvous programs use them on `SendCtx` and `RecvCtx`.  The heap
holds the live contexts; dereferencing or deleting an address that is not live, or whose context is
of the other kind, is a fault.

Two ghosts follow the life of a context.  Contexts are numbered in the order of allocation, and the
numbers of the deleted ones are recorded; each context also carries the round it was allocated in.
An address may be handed out again after it was deleted, so it is the number, not the address, that
says which allocation is meant.
-/

set_option autoImplicit false

namespace IbvBench

open StepMachine

/-- A live context. -/
structure HeapCell (Obj : Type) where
  addr : ℕ
  /-- The how-many-eth allocation of the rank this is. -/
  idx : ℕ
  /-- The round it was allocated in. -/
  round : ℕ
  obj : Obj

structure Heap (Obj : Type) where
  live : List (HeapCell Obj) := []
  /-- How many contexts have been allocated. -/
  allocs : ℕ := 0
  /-- The numbers of the deleted contexts, in the order of deletion. -/
  freed : List ℕ := []

namespace Heap

variable {Obj β : Type}

/-- Allocate a context at the address `addr` and fill it in. -/
def malloc (addr round : ℕ) (obj : Obj) (h : Heap Obj) : Heap Obj :=
  { h with live := { addr, idx := h.allocs, round, obj } :: h.live, allocs := h.allocs + 1 }

/-- The live context at an address, viewed through `sel` as one of the kind expected there. -/
def deref (sel : Obj → Option β) (addr : ℕ) (h : Heap Obj) : Exec β :=
  match h.live.find? (·.addr == addr) with
  | none => .error (.fault .dangling)
  | some c =>
    match sel c.obj with
    | none => .error (.fault .badPointer)
    | some b => .ok b

/-- Assign to a live context. -/
def store (addr : ℕ) (obj : Obj) (h : Heap Obj) : Exec (Heap Obj) :=
  if h.live.any (·.addr == addr) then
    .ok { h with live := h.live.map fun c ↦ if c.addr == addr then { c with obj } else c }
  else .error (.fault .dangling)

/-- `delete`, on a pointer of the type `sel` expects. -/
def delete (sel : Obj → Option β) (addr : ℕ) (h : Heap Obj) : Exec (Heap Obj) :=
  match h.live.find? (·.addr == addr) with
  | none => .error (.fault .dangling)
  | some c =>
    match sel c.obj with
    | none => .error (.fault .badPointer)
    | some _ => .ok { h with live := h.live.eraseP (·.addr == addr), freed := h.freed ++ [c.idx] }

/-! ## One context at a time

The programs never hold more than one, and all three operations then act on that one. -/

/-- The heap after `t` contexts have been allocated and deleted in turn. -/
def spent (t : ℕ) : Heap Obj := { allocs := t, freed := List.range t }

/-- The same with one more context allocated. -/
def holding (t : ℕ) (c : HeapCell Obj) : Heap Obj :=
  { live := [c], allocs := t + 1, freed := List.range t }

variable {sel : Obj → Option β} {addr t : ℕ} {c : HeapCell Obj} {b : β} {h : Heap Obj}

theorem deref_holding (hc : c.addr = addr) (hb : sel c.obj = some b) :
    (holding t c).deref sel addr = .ok b := by
  simp [deref, holding, hc, hb]

theorem store_holding (hc : c.addr = addr) (obj : Obj) :
    (holding t c).store addr obj = .ok (holding t { c with obj }) := by
  simp [store, holding, hc]

theorem delete_holding (hi : c.idx = t) (hc : c.addr = addr) (hb : sel c.obj = some b) :
    (holding t c).delete sel addr = .ok (spent (t + 1)) := by
  simp [delete, holding, spent, hc, hb, hi, List.range_succ]

end Heap

end IbvBench
