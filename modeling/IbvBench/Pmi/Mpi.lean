import IbvBench.Lib.CString
import IbvBench.Lib.PutFence
import IbvBench.Lib.StepMachine
import Mathlib.Algebra.Ring.Nat

/-!
# The key-value exchange of the MPI backend

`pmi_wrapper_mpi.c`.  Each rank keeps two archives of key and value strings: `l_archive` has what it
published since the last barrier, `g_archive` what all ranks published before it.  The barrier packs
the local archive into a buffer of fixed-size slots, two for each entry, gathers the buffers of all
ranks into one and appends what it finds in there to the global archive.

`MPI_Allgather` and `MPI_Allgatherv` are modelled by what they are specified to do: every rank gets
the contributions of all, in the order of the ranks, and the latter places them by `recvcounts` and
`displs`.  The barrier is therefore one step of all ranks, and publishing a step of one.

Fresh memory has arbitrary contents (`junk`).  Arithmetic on `int` goes through `int`, for which an
overflow is a fault.
-/

set_option autoImplicit false

namespace IbvBench

open StepMachine

/-- What can go wrong in the exchange. -/
inductive PmiFault where
  /-- A block was read or written past its end. -/
  | overrun
  /-- A signed integer overflowed. -/
  | overflow
  /-- `exit(1)`: "Cannot get more memory for archive". -/
  | outOfMemory
  /-- A null pointer was dereferenced. -/
  | nullPointer
  /-- A rank contributed more or less than `recvcounts` says. -/
  | badCount
  deriving DecidableEq, Repr

abbrev Pmi (α : Type) := Comp PmiFault α

/-- The result of a function that is undefined past the end of a block. -/
def inBlock {α : Type} : Option α → Pmi α
  | some a => .ok a
  | none => .error (.fault .overrun)

/-- A value of type `int`, computed from smaller ones. -/
def int (x : ℕ) : Pmi ℕ := if x < 2 ^ 31 then .ok x else .error (.fault .overflow)

/-- `malloc`, with whatever the memory holds. -/
def malloc (junk : ℕ → Char) (size : ℕ) : List Char := (List.range size).map junk

def STRING_LIMIT : ℕ := 256

/-- `Entry_t`, by the two blocks it points at. -/
structure Entry where
  key : List Char
  value : List Char

/-- `Archive_t`. -/
structure Archive where
  ptr : ℕ → Entry
  size : ℕ
  capacity : ℕ

namespace Archive

/-- `archive_init`. -/
def init : Archive where
  ptr _ := { key := [], value := [] }
  size := 0
  capacity := 8

/-- `archive_clear`. -/
def clear (archive : Archive) : Archive := { archive with size := 0 }

/-- The `realloc` of `archive_push`.  When the doubled capacity is no `int`, what `realloc` is asked
for is a negative number as a `size_t`, which it has not got. -/
def grow (archive : Archive) : Pmi Archive :=
  if archive.size = archive.capacity then
    if archive.capacity * 2 < 2 ^ 31 then
      .ok { archive with capacity := archive.capacity * 2 }
    else .error (.fault .outOfMemory)
  else .ok archive

/-- `archive_push`. -/
def push (junk : ℕ → Char) (archive : Archive) (key value : List Char) : Pmi Archive := do
  let archive ← archive.grow
  let keyIn ← inBlock (strcpy (malloc junk STRING_LIMIT) key)
  let valueIn ← inBlock (strcpy (malloc junk STRING_LIMIT) value)
  if archive.size < archive.capacity then
    .ok { archive with
      ptr := Function.update archive.ptr archive.size { key := keyIn, value := valueIn }
      size := archive.size + 1 }
  else .error (.fault .overrun)

/-- The loop of `archive_search`, from entry `i` on with `todo` entries to go. -/
def searchLoop (archive : Archive) (key : List Char) : (todo i : ℕ) → Option (List Char)
  | 0, _ => none
  | todo + 1, i =>
    if cstr (archive.ptr i).key = cstr key then some (archive.ptr i).value
    else searchLoop archive key todo (i + 1)

/-- `archive_search`. -/
def search (archive : Archive) (key : List Char) : Option (List Char) :=
  archive.searchLoop key archive.size 0

/-- The strings an archive holds, where its blocks hold strings. -/
def entries (archive : Archive) : List (Option CString × Option CString) :=
  (List.range archive.size).map fun i ↦ (cstr (archive.ptr i).key, cstr (archive.ptr i).value)

end Archive

/-! ## The two collectives -/

/-- What every rank receives from `MPI_Allgather`. -/
def allgather {n : ℕ} {α : Type} (contribution : Fin n → α) : List α :=
  (List.finRange n).map contribution

/-- What `MPI_Allgatherv` makes of the receive buffer: the contribution of each rank is placed where
`displs` says, and must be as long as `recvcounts` says. -/
def allgatherv : (contributions : List (List Char)) → (recvcounts displs : List ℕ) →
    (recvbuf : List Char) → Pmi (List Char)
  | [], [], [], recvbuf => .ok recvbuf
  | b :: bs, count :: counts, displ :: displs, recvbuf =>
    if b.length = count then do
      let recvbuf ← inBlock (memcpy recvbuf displ b count)
      allgatherv bs counts displs recvbuf
    else .error (.fault .badCount)
  | _, _, _, _ => .error (.fault .badCount)

/-! ## The barrier -/

/-- The loop that assembles the send buffer, from entry `i` on with `todo` entries to go. -/
def assembleLoop (archive : Archive) : (todo i : ℕ) → (srcBuf : List Char) → Pmi (List Char)
  | 0, _, srcBuf => .ok srcBuf
  | todo + 1, i, srcBuf => do
    let keyOffset ← int (2 * i * STRING_LIMIT)
    let srcBuf ← inBlock (memcpy srcBuf keyOffset (archive.ptr i).key STRING_LIMIT)
    let valueOffset ← int ((i * 2 + 1) * STRING_LIMIT)
    let srcBuf ← inBlock (memcpy srcBuf valueOffset (archive.ptr i).value STRING_LIMIT)
    assembleLoop archive todo (i + 1) srcBuf

/-- `src_buf`, as the rank hands it to `MPI_Allgatherv`. -/
def assemble (junk : ℕ → Char) (archive : Archive) : Pmi (List Char) := do
  let size ← int (archive.size * STRING_LIMIT * 2)
  assembleLoop archive archive.size 0 (malloc junk size)

/-- `total_count`. -/
def totalCount : (total : ℕ) → (countBuf : List ℕ) → Pmi ℕ
  | total, [] => .ok total
  | total, count :: counts => do
    let total ← int (total + count)
    totalCount total counts

/-- `count_buf`, in bytes. -/
def refactorCounts : (countBuf : List ℕ) → Pmi (List ℕ)
  | [] => .ok []
  | count :: counts => do
    let count ← int (count * (STRING_LIMIT * 2))
    let counts ← refactorCounts counts
    .ok (count :: counts)

/-- `displs_buf`. -/
def assembleDispls : (currentDispls : ℕ) → (countBuf : List ℕ) → Pmi (List ℕ)
  | _, [] => .ok []
  | currentDispls, count :: counts => do
    let next ← int (currentDispls + count)
    let displs ← assembleDispls next counts
    .ok (currentDispls :: displs)

/-- The loop that puts the data back into the global archive, from entry `i` on. -/
def putBack (junk : ℕ → Char) (dstBuf : List Char) : (todo i : ℕ) → Archive → Pmi Archive
  | 0, _, archive => .ok archive
  | todo + 1, i, archive => do
    let keyOffset ← int (2 * i * STRING_LIMIT)
    let valueOffset ← int ((2 * i + 1) * STRING_LIMIT)
    let archive ← archive.push junk (dstBuf.drop keyOffset) (dstBuf.drop valueOffset)
    putBack junk dstBuf todo (i + 1) archive

/-- The archives of a rank. -/
structure Proc where
  lArchive : Archive
  gArchive : Archive

/-- `lcm_pm_initialize`. -/
def Proc.init : Proc where
  lArchive := .init
  gArchive := .init

/-- `lcm_pm_barrier` on one rank, given what all ranks bring to the two collectives. -/
def lcmPmBarrier (junk : ℕ → Char) (countBuf : List ℕ) (srcBufs : List (List Char)) (p : Proc) :
    Pmi Proc := do
  let total ← totalCount 0 countBuf
  let size ← int (total * STRING_LIMIT * 2)
  let countBuf ← refactorCounts countBuf
  let displsBuf ← assembleDispls 0 countBuf
  let dstBuf ← allgatherv srcBufs countBuf displsBuf (malloc junk size)
  let gArchive ← putBack junk dstBuf total 0 p.gArchive
  .ok { lArchive := p.lArchive.clear, gArchive }

/-- `lcm_pm_publish`. -/
def lcmPmPublish (junk : ℕ → Char) (key value : CString) (p : Proc) : Pmi Proc := do
  let lArchive ← p.lArchive.push junk key.buf value.buf
  .ok { p with lArchive }

/-- `lcm_pm_getname`. -/
def lcmPmGetname (p : Proc) (key : CString) : Pmi CString :=
  match p.gArchive.search key.buf with
  | some value => inBlock (cstr value)
  | none => .error (.fault .nullPointer)

/-! ## All ranks -/

/-- One computation on each rank. -/
def onRanks {α : Type} : {n : ℕ} → (Fin n → Pmi α) → Pmi (Fin n → α)
  | 0, _ => .ok Fin.elim0
  | _ + 1, f => do
    let a ← f 0
    let g ← onRanks fun i ↦ f i.succ
    .ok (Fin.cons a g)

abbrev MpiCall (n : ℕ) := PutFence.Call n CString CString

/-- A rank publishes, or all ranks pass a barrier. -/
def mpiStep {n : ℕ} (junk : ℕ → Char) (job : Fin n → Proc) : MpiCall n → Pmi (Fin n → Proc)
  | .put r key value => do
    let p ← lcmPmPublish junk key value (job r)
    .ok (Function.update job r p)
  | .fence => do
    let srcBufs ← onRanks fun r ↦ assemble junk (job r).lArchive
    onRanks fun r ↦
      lcmPmBarrier junk (allgather fun i ↦ (job i).lArchive.size) (allgather srcBufs) (job r)

/-- The ranks of a job. -/
def mpiMachine (n : ℕ) (junk : ℕ → Char) : Machine (Fin n → Proc) (MpiCall n) PmiFault where
  init job := job = fun _ ↦ .init
  step := mpiStep junk

/-- The ranks after a list of calls. -/
def mpiRun {n : ℕ} (junk : ℕ → Char) (calls : List (MpiCall n)) : Pmi (Fin n → Proc) :=
  (mpiMachine n junk).run (fun _ ↦ .init) calls

end IbvBench
