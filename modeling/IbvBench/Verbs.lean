import Mathlib.Algebra.Ring.Int.Defs
import Mathlib.Algebra.Ring.Nat
import Mathlib.Tactic.Common
import IbvBench.Lib.StepMachine

/-!
# Verbs objects and the reliable transport between two ranks

The part of the verbs interface that the benchmarks use: work requests, completion queues, the
shared receive queue, registered memory, and what the hardware does with them.

A rank's registered memory (`Mem`) is a fixed set of places: four *message slots*, each holding one
control message, and the two data buffers.  Pointers into registered memory are `RegPtr`s.  Every
byte of a data buffer is a `Cell`, its value together with the round that wrote it; the round is a
ghost that the programs never look at, and it is what lets a statement say *whose* bytes a buffer
holds although every round writes the same value.

The transport of one direction is three queues in a row:

* `Nic.sq` — work requests posted by the rank and not yet executed at the peer,
* `Nic.unacked` — executed at the peer, completion not yet generated here,
* `Nic.sendCq` — completions not yet polled.

`deliver` executes the oldest request at the peer: a SEND lands in the buffer of the oldest posted
receive and generates a receive completion, a RDMA_WRITE_WITH_IMM consumes a receive without
touching its buffer, a RDMA_READ fetches.  `complete` moves the oldest acknowledgement to the send
completion queue, and is the moment at which fetched bytes appear in local memory.  Payloads are
read from the sender's memory when the request is *executed*, not when it is posted (unless it was
posted inline): this is what makes overwriting a message slot too early visible.

A SEND finds no posted receive: the step is blocked, which is `rnr_retry = 7` (retry for ever).
-/

set_option autoImplicit false

namespace IbvBench

open StepMachine

/-! ## Ranks, faults, assertions -/

/-- The two processes.  `run` asserts `nranks == 2`. -/
inductive Rank where
  | r0
  | r1
  deriving DecidableEq, Repr

namespace Rank

/-- `1 - rank`. -/
def peer : Rank → Rank
  | r0 => r1
  | r1 => r0

def toNat : Rank → ℕ
  | r0 => 0
  | r1 => 1

/-- `char value = 'a' + rank`. -/
def value (r : Rank) : ℕ := 97 + r.toNat

@[simp] theorem peer_peer (r : Rank) : r.peer.peer = r := by cases r <;> rfl

@[simp] theorem peer_ne (r : Rank) : r.peer ≠ r := by cases r <;> decide

@[simp] theorem ne_peer (r : Rank) : r ≠ r.peer := by cases r <;> decide

instance {p : Rank → Prop} [DecidablePred p] : Decidable (∀ r, p r) :=
  decidable_of_iff (p r0 ∧ p r1) ⟨fun h r ↦ by cases r; exacts [h.1, h.2], fun h ↦ ⟨h r0, h r1⟩⟩

theorem eq_or_eq_peer (r x : Rank) : x = r ∨ x = r.peer := by
  cases r <;> cases x <;> simp [peer]

end Rank

/-- What can go wrong in a run. -/
inductive Fault where
  /-- `MLOG_Assert` failed. -/
  | assertFailed (msg : String)
  /-- `check_buffer` found a wrong byte and called `abort`. -/
  | checkFailed
  /-- A context was dereferenced or deleted that is not live. -/
  | dangling
  /-- A pointer was dereferenced as something it does not point at. -/
  | badPointer
  /-- A receive was too short for the message, or not covered by its key. -/
  | badRecv
  /-- A request was refused because of its keys. -/
  | accessDenied
  /-- A completion was generated into a full completion queue. -/
  | cqOverrun
  /-- A request was posted on the queue pair of a rank to itself, which no program does. -/
  | loopback
  /-- A slot outside its table was accessed. -/
  | outOfTable
  deriving DecidableEq, Repr

abbrev Exec (α : Type) := Comp Fault α

/-- `MLOG_Assert`. -/
def mlogAssert (b : Bool) (msg : String) : Exec Unit :=
  if b then .ok () else .error (.fault (.assertFailed msg))

@[simp] theorem mlogAssert_true (msg : String) : mlogAssert true msg = .ok () := rfl

theorem mlogAssert_eq_ok {b : Bool} {msg : String} : mlogAssert b msg = .ok () ↔ b = true := by
  cases b <;> simp [mlogAssert]

/-! ## Registered memory -/

/-- The control-message places of the registered region. -/
inductive MsgSlot where
  | rtsMsg
  | rtrMsg
  | finMsg
  | controlRecvBuf
  deriving DecidableEq, Repr

/-- The data buffers of the registered region. -/
inductive BufSlot where
  | sendBuf
  | recvBuf
  deriving DecidableEq, Repr

/-- A pointer into registered memory. -/
inductive RegPtr where
  | msg (s : MsgSlot)
  | buf (b : BufSlot)
  deriving DecidableEq, Repr

/-- One byte of a data buffer, with the round that wrote it (a ghost). -/
structure Cell where
  val : ℕ
  round : Option ℕ
  deriving DecidableEq, Repr

/-- What a transfer moves: one control message, or a run of bytes. -/
inductive Data (Msg : Type) where
  | msg (m : Option Msg)
  | bytes (cells : List Cell)

/-- The registered memory of a rank. -/
structure Mem (Msg : Type) where
  /-- The control messages; `none` is uninitialised memory. -/
  msg : MsgSlot → Option Msg
  /-- The data buffers. -/
  buf : BufSlot → ℕ → Cell

namespace Mem

variable {Msg : Type}

def setMsg (mem : Mem Msg) (s : MsgSlot) (m : Option Msg) : Mem Msg :=
  { mem with msg := fun x ↦ if x = s then m else mem.msg x }

def setBuf (mem : Mem Msg) (b : BufSlot) (f : ℕ → Cell) : Mem Msg :=
  { mem with buf := fun x ↦ if x = b then f else mem.buf x }

@[simp] theorem setMsg_msg (mem : Mem Msg) (s x : MsgSlot) (m : Option Msg) :
    (mem.setMsg s m).msg x = if x = s then m else mem.msg x := rfl

@[simp] theorem setMsg_buf (mem : Mem Msg) (s : MsgSlot) (m : Option Msg) :
    (mem.setMsg s m).buf = mem.buf := rfl

@[simp] theorem setBuf_buf (mem : Mem Msg) (b x : BufSlot) (f : ℕ → Cell) :
    (mem.setBuf b f).buf x = if x = b then f else mem.buf x := rfl

@[simp] theorem setBuf_msg (mem : Mem Msg) (b : BufSlot) (f : ℕ → Cell) :
    (mem.setBuf b f).msg = mem.msg := rfl

/-- The first `n` bytes of a buffer. -/
def bytes (mem : Mem Msg) (b : BufSlot) (n : ℕ) : List Cell := (List.range n).map (mem.buf b)

theorem bytes_setBuf_ne (mem : Mem Msg) {b x : BufSlot} (h : x ≠ b) (f : ℕ → Cell) (n : ℕ) :
    (mem.setBuf b f).bytes x n = mem.bytes x n := by
  simp [bytes, h]

/-- The hardware reads `n` bytes at `p`; a message slot is always read whole. -/
def dmaRead (mem : Mem Msg) (p : RegPtr) (n : ℕ) : Data Msg :=
  match p with
  | .msg s => .msg (mem.msg s)
  | .buf b => .bytes (mem.bytes b n)

/-- The hardware writes at `p`. -/
def dmaWrite (mem : Mem Msg) (p : RegPtr) (d : Data Msg) : Exec (Mem Msg) :=
  match p, d with
  | .msg s, .msg m => .ok (mem.setMsg s m)
  | .buf b, .bytes cs => .ok (mem.setBuf b fun i ↦ cs.getD i (mem.buf b i))
  | _, _ => .error (.fault .badPointer)

/-- What is read back from the start of a buffer is what was just written there. -/
theorem bytes_setBuf_write (mem : Mem Msg) (b : BufSlot) (cs : List Cell) :
    (mem.setBuf b fun i ↦ cs.getD i (mem.buf b i)).bytes b cs.length = cs := by
  refine List.ext_getElem (by simp [bytes]) fun i h _ ↦ ?_
  have hi : i < cs.length := by simpa [bytes] using h
  simp [bytes, hi]

end Mem

/-! ## Work requests and completions -/

inductive WrOpcode where
  | send
  | sendWithImm
  | rdmaWrite
  | rdmaWriteWithImm
  | rdmaRead
  deriving DecidableEq, Repr

inductive WcOpcode where
  | send
  | rdmaWrite
  | rdmaRead
  | recv
  | recvRdmaWithImm
  deriving DecidableEq, Repr

/-- The transport is reliable and a refused request is a fault, so every completion there is has
the first status. -/
inductive WcStatus where
  | success
  | error
  deriving DecidableEq, Repr

/-- A `user_context` as it travels in `wr_id`. -/
inductive WrId where
  | null
  /-- The address of a context allocated by the rank. -/
  | ctx (addr : ℕ)
  /-- A pointer into registered memory. -/
  | reg (p : RegPtr)
  deriving DecidableEq, Repr

/-- `struct ibv_send_wr`, with its single scatter/gather entry. -/
structure SendWr (Msg : Type) where
  wrId : WrId
  opcode : WrOpcode
  addr : RegPtr
  length : ℕ
  lkey : ℕ
  remoteAddr : RegPtr := .msg .controlRecvBuf
  rkey : ℕ := 0
  immData : ℕ := 0
  /-- The payload, when the request was posted with `IBV_SEND_INLINE`. -/
  inlined : Option (Data Msg) := none

/-- `struct ibv_recv_wr`, with its single scatter/gather entry. -/
structure RecvWr where
  wrId : WrId
  addr : RegPtr
  length : ℕ
  lkey : ℕ
  deriving DecidableEq, Repr

/-- `struct ibv_wc`.  The last field is a ghost: what the completed operation put into the memory
of the rank that polls the completion. -/
structure Wc (Msg : Type) where
  wrId : WrId
  status : WcStatus
  opcode : WcOpcode
  qpNum : ℕ
  immData : ℕ := 0
  payload : Option (Data Msg) := none

/-- A request executed at the peer, on its way back. -/
structure Ack (Msg : Type) where
  wr : SendWr Msg
  /-- The bytes a RDMA_READ fetched. -/
  data : Option (Data Msg) := none

/-- The opcode of the sender's completion. -/
def WrOpcode.wcOpcode : WrOpcode → WcOpcode
  | .send | .sendWithImm => .send
  | .rdmaWrite | .rdmaWriteWithImm => .rdmaWrite
  | .rdmaRead => .rdmaRead

/-- Does executing a request with this opcode consume a receive of the peer? -/
def WrOpcode.consumesRecv : WrOpcode → Bool
  | .send | .sendWithImm | .rdmaWriteWithImm => true
  | .rdmaWrite | .rdmaRead => false

/-- Does it write to the memory of the peer, at an address in the request? -/
def WrOpcode.isWrite : WrOpcode → Bool
  | .rdmaWrite | .rdmaWriteWithImm => true
  | .send | .sendWithImm | .rdmaRead => false

def SendWr.consumesRecv {Msg : Type} (w : SendWr Msg) : Bool := w.opcode.consumesRecv

/-- Is the request one-sided, so that its remote key is checked? -/
def SendWr.isRdma {Msg : Type} (w : SendWr Msg) : Bool :=
  match w.opcode with
  | .send | .sendWithImm => false
  | .rdmaWrite | .rdmaWriteWithImm | .rdmaRead => true

/-- The bytes of an outgoing request, read when it is executed unless it was inlined. -/
def SendWr.payload {Msg : Type} (w : SendWr Msg) (mem : Mem Msg) : Data Msg :=
  w.inlined.getD (mem.dmaRead w.addr w.length)

/-- A completion queue.  The two counters are ghosts: how many completions it has received, and how
many have been polled. -/
structure Cq (Msg : Type) where
  entries : List (Wc Msg) := []
  generated : ℕ := 0
  polled : ℕ := 0

/-- The queues of a rank: its shared receive queue, its two completion queues, and the queue pair
to the peer. -/
structure Nic (Msg : Type) where
  postedRecvNum : ℤ := 0
  srq : List RecvWr := []
  recvCq : Cq Msg := {}
  sendCq : Cq Msg := {}
  sq : List (SendWr Msg) := []
  unacked : List (Ack Msg) := []

/-- The requests whose completion has not been generated yet: the provider may still read from their
buffers. -/
def Nic.outstanding {Msg : Type} (nic : Nic Msg) : List (SendWr Msg) :=
  nic.sq ++ nic.unacked.map Ack.wr

/-- What the hardware of a rank acts on. -/
structure Host (Msg : Type) where
  nic : Nic Msg := {}
  mem : Mem Msg

/-! ## The fixed part of a device -/

/-- `DeviceConfig`: the sizes of the queues, with their defaults. -/
structure DeviceConfig where
  sendInline : Bool := true
  inlineSize : ℕ := 0
  maxSendNum : ℕ := 8
  maxRecvNum : ℕ := 8
  minRecvNum : ℕ := 8
  maxCqeNum : ℕ := maxRecvNum + 1
  deriving DecidableEq, Repr

/-- `struct ibv_mr`, as far as the programs read it. -/
structure Mr where
  lkey : ℕ
  rkey : ℕ
  deriving DecidableEq, Repr

/-- `Device` after `init`: what no later step changes.  The queue-pair map is the table `init`
builds, so looking a queue pair's number up in it gives the rank the queue pair connects to. -/
structure Device where
  rank : Rank
  config : DeviceConfig
  mr : Mr
  /-- The number of the queue pair to each rank. -/
  qpNum : Rank → ℕ
  qp2rank : ℕ → Rank
  qp2rankMod : ℕ
  /-- The map is correct. -/
  qp2rank_qpNum : ∀ i, qp2rank (qpNum i % qp2rankMod) = i

/-! ## The transport -/

variable {Msg : Type}

/-- A completion is generated. -/
def Cq.push (cfg : DeviceConfig) (cq : Cq Msg) (wc : Wc Msg) : Exec (Cq Msg) :=
  if cq.entries.length < cfg.maxCqeNum then
    .ok { cq with entries := cq.entries ++ [wc], generated := cq.generated + 1 }
  else .error (.fault .cqOverrun)

/-- The access checks of a request from `src` to `dst`. -/
def accessOk (src dst : Device) (w : SendWr Msg) : Bool :=
  w.lkey == src.mr.lkey && (!w.isRdma || w.rkey == dst.mr.rkey)

/-- The oldest posted receive of the rank is consumed, and its completion generated. -/
def consumeRecv (dev : Device) (opcode : WcOpcode) (immData : ℕ) (payload : Option (Data Msg))
    (rw : RecvWr) (srq : List RecvWr) (nic : Nic Msg) : Exec (Nic Msg) := do
  let cq ← nic.recvCq.push dev.config
    { wrId := rw.wrId, status := .success, opcode, qpNum := dev.qpNum dev.rank.peer, immData,
      payload }
  .ok { nic with srq, recvCq := cq }

/-- An incoming SEND: the message overwrites the buffer of the oldest posted receive, and then its
completion is generated. -/
def landSend (dev : Device) (w : SendWr Msg) (d : Data Msg) (h : Host Msg) : Exec (Host Msg) :=
  match h.nic.srq with
  | [] => .error .blocked
  | rw :: srq => do
    if rw.length < w.length ∨ rw.lkey ≠ dev.mr.lkey then .error (.fault .badRecv)
    let mem ← h.mem.dmaWrite rw.addr d
    let nic ← consumeRecv dev .recv w.immData (some d) rw srq h.nic
    .ok { nic, mem }

/-- An incoming RDMA_WRITE_WITH_IMM: the bytes land at the address in the request, and the oldest
posted receive is consumed without its buffer being touched. -/
def landWriteImm (dev : Device) (w : SendWr Msg) (d : Data Msg) (h : Host Msg) :
    Exec (Host Msg) :=
  match h.nic.srq with
  | [] => .error .blocked
  | rw :: srq => do
    let mem ← h.mem.dmaWrite w.remoteAddr d
    let nic ← consumeRecv dev .recvRdmaWithImm w.immData (some d) rw srq h.nic
    .ok { nic, mem }

/-- What executing `w` does at the peer, and the data it brings back. -/
def execute (dst : Device) (w : SendWr Msg) (srcMem : Mem Msg) (h : Host Msg) :
    Exec (Host Msg × Option (Data Msg)) :=
  match w.opcode with
  | .send | .sendWithImm => do
    let h ← landSend dst w (w.payload srcMem) h
    .ok (h, none)
  | .rdmaWrite => do
    let mem ← h.mem.dmaWrite w.remoteAddr (w.payload srcMem)
    .ok ({ h with mem }, none)
  | .rdmaWriteWithImm => do
    let h ← landWriteImm dst w (w.payload srcMem) h
    .ok (h, none)
  | .rdmaRead => .ok (h, some (h.mem.dmaRead w.remoteAddr w.length))

/-- **Delivery.**  The oldest posted request of the rank is executed at the peer. -/
def deliver (src dst : Device) (h k : Host Msg) : Exec (Host Msg × Host Msg) :=
  match h.nic.sq with
  | [] => .error .blocked
  | w :: sq =>
    if accessOk src dst w then do
      let (k, data) ← execute dst w h.mem k
      .ok ({ h with nic := { h.nic with sq, unacked := h.nic.unacked ++ [{ wr := w, data }] } }, k)
    else .error (.fault .accessDenied)

/-- The bytes a RDMA_READ brought back are placed in local memory. -/
def placeFetched (a : Ack Msg) (mem : Mem Msg) : Exec (Mem Msg) :=
  match a.data with
  | some d => mem.dmaWrite a.wr.addr d
  | none => .ok mem

/-- **Completion.**  The oldest executed request of the rank completes: what it fetched is placed in
local memory, and its completion is generated. -/
def complete (dev : Device) (h : Host Msg) : Exec (Host Msg) :=
  match h.nic.unacked with
  | [] => .error .blocked
  | a :: unacked => do
    let mem ← placeFetched a h.mem
    let cq ← h.nic.sendCq.push dev.config
      { wrId := a.wr.wrId, status := .success, opcode := a.wr.opcode.wcOpcode,
        qpNum := dev.qpNum dev.rank.peer, payload := a.data }
    .ok { nic := { h.nic with unacked, sendCq := cq }, mem }

/-! ## What the transport does to the queues -/

/-- The completion queue after a completion was generated. -/
def Cq.pushed (cq : Cq Msg) (wc : Wc Msg) : Cq Msg :=
  { cq with entries := cq.entries ++ [wc], generated := cq.generated + 1 }

theorem Cq.push_eq {cfg : DeviceConfig} {cq : Cq Msg} (h : cq.entries.length < cfg.maxCqeNum)
    (wc : Wc Msg) : cq.push cfg wc = .ok (cq.pushed wc) := by
  simp [push, pushed, h]

theorem Cq.push_eq_ok {cfg : DeviceConfig} {cq cq' : Cq Msg} {wc : Wc Msg}
    (h : cq.push cfg wc = .ok cq') : cq' = cq.pushed wc := by
  rw [push] at h
  split at h
  · cases h; rfl
  · cases h

/-- The queues after the oldest receive was consumed. -/
def Nic.recvd (nic : Nic Msg) (wc : Wc Msg) : Nic Msg :=
  { nic with srq := nic.srq.tail, recvCq := nic.recvCq.pushed wc }

theorem consumeRecv_eq_ok {dev : Device} {opcode : WcOpcode} {immData : ℕ}
    {payload : Option (Data Msg)} {rw : RecvWr} {srq : List RecvWr} {nic nic' : Nic Msg}
    (hsrq : nic.srq = rw :: srq)
    (h : consumeRecv dev opcode immData payload rw srq nic = .ok nic') :
    ∃ wc, nic' = nic.recvd wc := by
  obtain ⟨cq, hcq, hn⟩ := bind_eq_ok.mp h
  cases hn
  exact ⟨_, by rw [Nic.recvd, ← Cq.push_eq_ok hcq, hsrq]; rfl⟩

theorem landSend_nic {dev : Device} {w : SendWr Msg} {d : Data Msg} {h h' : Host Msg}
    (he : landSend dev w d h = .ok h') : h.nic.srq ≠ [] ∧ ∃ wc, h'.nic = h.nic.recvd wc := by
  rw [landSend] at he
  split at he
  · cases he
  · rename_i rw srq hsrq
    refine ⟨by simp [hsrq], ?_⟩
    split at he
    · cases he
    · obtain ⟨mem, -, he⟩ := bind_eq_ok.mp he
      obtain ⟨nic, hnic, he⟩ := bind_eq_ok.mp he
      cases he
      exact consumeRecv_eq_ok hsrq hnic

theorem landWriteImm_nic {dev : Device} {w : SendWr Msg} {d : Data Msg} {h h' : Host Msg}
    (he : landWriteImm dev w d h = .ok h') : h.nic.srq ≠ [] ∧ ∃ wc, h'.nic = h.nic.recvd wc := by
  rw [landWriteImm] at he
  split at he
  · cases he
  · rename_i rw srq hsrq
    refine ⟨by simp [hsrq], ?_⟩
    obtain ⟨mem, -, he⟩ := bind_eq_ok.mp he
    obtain ⟨nic, hnic, he⟩ := bind_eq_ok.mp he
    cases he
    exact consumeRecv_eq_ok hsrq hnic

/-- Executing a request consumes a receive of the peer or leaves its queues alone. -/
theorem execute_nic {dst : Device} {w : SendWr Msg} {m : Mem Msg} {h h' : Host Msg}
    {d : Option (Data Msg)} (he : execute dst w m h = .ok (h', d)) :
    if w.consumesRecv then h.nic.srq ≠ [] ∧ ∃ wc, h'.nic = h.nic.recvd wc
    else h'.nic = h.nic := by
  rw [execute] at he
  cases hop : w.opcode <;> simp only [hop] at he <;>
    simp only [SendWr.consumesRecv, WrOpcode.consumesRecv, hop]
  case send | sendWithImm =>
    obtain ⟨k, hk, he⟩ := bind_eq_ok.mp he
    cases he
    simpa using landSend_nic hk
  case rdmaWriteWithImm =>
    obtain ⟨k, hk, he⟩ := bind_eq_ok.mp he
    cases he
    simpa using landWriteImm_nic hk
  case rdmaWrite =>
    obtain ⟨k, hk, he⟩ := bind_eq_ok.mp he
    cases he
    simp
  case rdmaRead =>
    cases he
    simp

theorem deliver_eq_ok {src dst : Device} {h k h' k' : Host Msg}
    (he : deliver src dst h k = .ok (h', k')) :
    ∃ w sq data, h.nic.sq = w :: sq ∧ execute dst w h.mem k = .ok (k', data) ∧
      h' = { h with nic := { h.nic with sq, unacked := h.nic.unacked ++ [{ wr := w, data }] } } := by
  rw [deliver] at he
  split at he
  · cases he
  · rename_i w sq hsq
    split at he
    · obtain ⟨⟨k', data⟩, hk, he⟩ := bind_eq_ok.mp he
      cases he
      exact ⟨w, sq, data, hsq, hk, rfl⟩
    · cases he

theorem complete_nic {dev : Device} {h h' : Host Msg} (he : complete dev h = .ok h') :
    ∃ a unacked wc, h.nic.unacked = a :: unacked ∧
      h'.nic = { h.nic with unacked, sendCq := h.nic.sendCq.pushed wc } := by
  rw [complete] at he
  split at he
  · cases he
  · rename_i a unacked hu
    obtain ⟨mem, -, he⟩ := bind_eq_ok.mp he
    obtain ⟨cq, hcq, he⟩ := bind_eq_ok.mp he
    cases he
    exact ⟨a, unacked, _, hu, by rw [← Cq.push_eq_ok hcq]⟩

end IbvBench
