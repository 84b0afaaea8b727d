import IbvBench.Verbs
import Mathlib.Data.Nat.Bits
import Mathlib.Logic.Function.Basic

/-!
# The archive

`lcm_archive.h`: a table that maps an address to a key with fewer bits.  A value is put into the
first free slot of a short probe sequence, and the index of the slot is its key.

The probe sequence is not reduced modulo the size of the table, so it may run past the end; an access
there is a fault.  The table is accessed through `load`, `cas` and `store` only, the three accesses
that are atomic in the source, and `put`, `get` and `remove` are sequences of these.
-/

set_option autoImplicit false

namespace IbvBench

open StepMachine

/-- `LCM_archive_t`, for `nbits` less than 31, so that `1 << nbits` is an `int`. -/
structure LCMArchive where
  nbits : ℕ
  /-- `ptr[i].val`. -/
  val : ℕ → ℕ

namespace LCMArchive

/-- `LCM_SUCCESS`. -/
def success : ℤ := 1

/-- `LCM_ARCHIVE_NTRY`. -/
def ntry : ℕ := 3

/-- `LCM_ARCHIVE_EMPTY`. -/
def emptyVal : ℕ := 0

/-- The number of slots. -/
def cap (a : LCMArchive) : ℕ := 1 <<< a.nbits

/-! ## Accesses -/

/-- Read a slot. -/
def load (a : LCMArchive) (key : ℕ) : Exec ℕ :=
  if key < a.cap then .ok (a.val key) else .error (.fault .outOfTable)

/-- Write a slot. -/
def store (a : LCMArchive) (key val : ℕ) : Exec LCMArchive :=
  if key < a.cap then .ok { a with val := Function.update a.val key val }
  else .error (.fault .outOfTable)

/-- `__sync_bool_compare_and_swap`. -/
def cas (a : LCMArchive) (key old new : ℕ) : Exec (Bool × LCMArchive) := do
  let val ← a.load key
  if val = old then do
    let a ← a.store key new
    .ok (true, a)
  else .ok (false, a)

/-! ## The operations -/

/-- `LCM_archive_init`, which returns `LCM_SUCCESS`. -/
def init (nbits : ℕ) : ℤ × LCMArchive := (success, { nbits, val := fun _ ↦ emptyVal })

/-- The key that `put` tries first. -/
def hash (a : LCMArchive) (value : ℕ) : ℕ := (value >>> 6) &&& (1 <<< a.nbits - 1)

/-- The loop of `put`, from try `i` on, with `n` tries left. -/
def putLoop (a : LCMArchive) (value : ℕ) : (n i key : ℕ) → Exec (Option ℕ × LCMArchive)
  | 0, _, _ => .ok (none, a)
  | n + 1, i, key => do
    let val ← a.load key
    if val = emptyVal then do
      let (swapped, a') ← a.cas key emptyVal value
      if swapped then .ok (some key, a') else a.putLoop value n (i + 1) (key + i * i)
    else a.putLoop value n (i + 1) (key + i * i)

/-- `LCM_archive_put`: the key, or `none` for `LCM_RETRY`. -/
def put (a : LCMArchive) (value : ℕ) : Exec (Option ℕ × LCMArchive) :=
  a.putLoop value ntry 1 (a.hash value)

/-- `LCM_archive_get`. -/
def get (a : LCMArchive) (key : ℕ) : Exec ℕ := a.load key

/-- `LCM_archive_remove`. -/
def remove (a : LCMArchive) (key : ℕ) : Exec (ℕ × LCMArchive) := do
  let val ← a.load key
  let a ← a.store key emptyVal
  .ok (val, a)

/-! ## What they do -/

variable {a : LCMArchive} {key value old new : ℕ}

theorem cap_eq (a : LCMArchive) : a.cap = 2 ^ a.nbits := Nat.one_shiftLeft _

theorem load_eq_ok {val : ℕ} (h : a.load key = .ok val) : key < a.cap ∧ val = a.val key := by
  rw [load] at h
  split at h
  · exact ⟨‹_›, (Except.ok.inj h).symm⟩
  · cases h

theorem store_eq_ok {a' : LCMArchive} {val : ℕ} (h : a.store key val = .ok a') :
    key < a.cap ∧ a' = { a with val := Function.update a.val key val } := by
  rw [store] at h
  split at h
  · exact ⟨‹_›, (Except.ok.inj h).symm⟩
  · cases h

/-- What a compare-and-swap did. -/
theorem cas_eq_ok {a' : LCMArchive} {b : Bool} (h : a.cas key old new = .ok (b, a')) :
    key < a.cap ∧ (b = true ∧ a.val key = old ∧ a' = { a with val := Function.update a.val key new } ∨
      b = false ∧ a.val key ≠ old ∧ a' = a) := by
  obtain ⟨val, hl, h⟩ := bind_eq_ok.mp h
  obtain ⟨hlt, rfl⟩ := load_eq_ok hl
  refine ⟨hlt, ?_⟩
  split at h
  · rename_i hval
    obtain ⟨a'', hs, h⟩ := bind_eq_ok.mp h
    obtain ⟨-, rfl⟩ := store_eq_ok hs
    cases h
    exact .inl ⟨rfl, hval, rfl⟩
  · rename_i hval
    cases h
    exact .inr ⟨rfl, hval, rfl⟩

/-- The first key is in the table. -/
theorem hash_lt_cap (a : LCMArchive) (value : ℕ) : a.hash value < a.cap := by
  have hle : a.hash value ≤ 1 <<< a.nbits - 1 := Nat.and_le_right
  have hpos : 0 < 1 <<< a.nbits := by rw [Nat.one_shiftLeft]; exact Nat.two_pow_pos _
  rw [cap]
  omega

/-- A value whose first slot is free is put there. -/
theorem put_eq (h : a.val (a.hash value) = emptyVal) : a.put value =
    .ok (some (a.hash value), { a with val := Function.update a.val (a.hash value) value }) := by
  have hlt := a.hash_lt_cap value
  simp only [put, ntry, putLoop, load, hlt, if_true, ok_bind, h, cas, store]

/-- Removing gives back what is in the slot, and empties it. -/
theorem remove_eq (h : key < a.cap) : a.remove key =
    .ok (a.val key, { a with val := Function.update a.val key emptyVal }) := by
  simp only [remove, load, store, h, if_true, ok_bind]

end LCMArchive

end IbvBench
