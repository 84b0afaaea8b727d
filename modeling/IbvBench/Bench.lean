import IbvBench.TwoRank

/-!
# Statements the benchmarks share

`write_buffer` and `check_buffer` of `bench_common.hpp`, and the two polling statements of the
lambdas, each a `pollCQ` with the assertion that follows it.  The programs differ in the assertion
only, which is therefore a parameter here and instantiated under the source's name there.
-/

set_option autoImplicit false

namespace IbvBench

open StepMachine

variable {Msg Obj Ext : Type}

/-- `write_buffer`, by a rank in the given round. -/
def writeBuffer (len input round : ℕ) (buffer : ℕ → Cell) : ℕ → Cell := fun i ↦
  if i < len then { val := input, round := some round } else buffer i

/-- `check_buffer`, which aborts on the first wrong byte. -/
def checkBuffer (buffer : ℕ → Cell) (len expect : ℕ) : Exec Unit :=
  if (List.range len).all fun i ↦ (buffer i).val == expect then .ok ()
  else .error (.fault .checkFailed)

namespace RankState

variable (st : RankState Msg Obj Ext)

/-- `wc`, which must have been assigned. -/
def getWc : Exec (Wc Msg) :=
  match st.wc with
  | some wc => .ok wc
  | none => .error (.fault .badPointer)

/-- The message at a `wr_id`, viewed through `sel` as one of the type it is cast to. -/
def derefMsg {β : Type} (sel : Msg → Option β) (id : WrId) : Exec β :=
  match id with
  | .reg (.msg s) =>
    match (st.host.mem.msg s).bind sel with
    | some m => .ok m
    | none => .error (.fault .badPointer)
  | _ => .error (.fault .badPointer)

def setMem (mem : Mem Msg) : RankState Msg Obj Ext := { st with host := { st.host with mem } }

/-- `if (config.touch_data) write_buffer(send_buf, msg_size, value)`. -/
def writeSendBuf (touchData : Bool) (r : Rank) (round msgSize : ℕ) : RankState Msg Obj Ext :=
  if touchData then
    st.setMem (st.host.mem.setBuf .sendBuf
      (writeBuffer msgSize r.value round (st.host.mem.buf .sendBuf)))
  else st

/-- `if (config.touch_data) check_buffer(recv_buf, msg_size, peer_value)`. -/
def checkRecvBuf (touchData : Bool) (r : Rank) (msgSize : ℕ) : Exec (RankState Msg Obj Ext) :=
  if touchData then do
    checkBuffer (st.host.mem.buf .recvBuf) msgSize r.peer.value
    .ok st
  else .ok st

/-- `wc = pollCQ(device.send_cq)` and the assertion after it. -/
def pollSendStep (ok : Wc Msg → Bool) (msg : String) : Exec (RankState Msg Obj Ext) := do
  let (wc, sendCq) ← pollCQ st.host.nic.sendCq
  mlogAssert (ok wc) msg
  .ok { st with host := { st.host with nic := { st.host.nic with sendCq } }, wc := some wc }

/-- `pollRecvCQ` up to its `checkAndPostRecvs`: the poll, its assertion, and the decrement. -/
def pollRecvStep (ok : Wc Msg → Bool) (msg : String) : Exec (RankState Msg Obj Ext) := do
  let (wc, recvCq) ← pollCQ st.host.nic.recvCq
  mlogAssert (ok wc) msg
  let postedRecvNum := st.host.nic.postedRecvNum - 1
  .ok { st with
    host := { st.host with nic := { st.host.nic with recvCq, postedRecvNum } }, wc := some wc }

/-- The `checkAndPostRecvs` of a receiving rank, with the receive it is given. -/
def repostStep (dev : Device) (rw : RecvWr) : Exec (RankState Msg Obj Ext) := do
  let nic ← checkAndPostRecvs dev rw.addr rw.length rw.lkey rw.wrId st.host.nic
  .ok { st with host := { st.host with nic } }

theorem getWc_eq {wc : Wc Msg} (h : st.wc = some wc) : st.getWc = .ok wc := by
  rw [getWc, h]

theorem derefMsg_eq {β : Type} {sel : Msg → Option β} {s : MsgSlot} {m : Msg} {b : β}
    (h : st.host.mem.msg s = some m) (hb : sel m = some b) :
    st.derefMsg sel (.reg (.msg s)) = .ok b := by
  simp only [derefMsg, h, Option.bind_some, hb]

/-! ### What the shared statements do -/

variable {st} {st' : RankState Msg Obj Ext} {ok : Wc Msg → Bool} {msg : String}

theorem pollSendStep_eq_ok (h : st.pollSendStep ok msg = .ok st') :
    ∃ wc sendCq, pollCQ st.host.nic.sendCq = .ok (wc, sendCq) ∧
      st' = { st with
        host := { st.host with nic := { st.host.nic with sendCq } }, wc := some wc } := by
  obtain ⟨⟨wc, sendCq⟩, hq, h⟩ := bind_eq_ok.mp h
  obtain ⟨-, -, h⟩ := bind_eq_ok.mp h
  exact ⟨wc, sendCq, hq, (Except.ok.inj h).symm⟩

theorem pollRecvStep_eq_ok (h : st.pollRecvStep ok msg = .ok st') :
    ∃ wc recvCq, pollCQ st.host.nic.recvCq = .ok (wc, recvCq) ∧
      st' = { st with
        host := { st.host with nic := { st.host.nic with
          recvCq, postedRecvNum := st.host.nic.postedRecvNum - 1 } }, wc := some wc } := by
  obtain ⟨⟨wc, recvCq⟩, hq, h⟩ := bind_eq_ok.mp h
  obtain ⟨-, -, h⟩ := bind_eq_ok.mp h
  exact ⟨wc, recvCq, hq, (Except.ok.inj h).symm⟩

theorem repostStep_eq_ok {dev : Device} {rw : RecvWr} (h : st.repostStep dev rw = .ok st') :
    ∃ nic, checkAndPostRecvs dev rw.addr rw.length rw.lkey rw.wrId st.host.nic = .ok nic ∧
      st' = { st with host := { st.host with nic } } := by
  obtain ⟨nic, hn, h⟩ := bind_eq_ok.mp h
  exact ⟨nic, hn, (Except.ok.inj h).symm⟩

theorem checkRecvBuf_eq_ok {t : Bool} {r : Rank} {n : ℕ} (h : st.checkRecvBuf t r n = .ok st') :
    st' = st := by
  rw [checkRecvBuf] at h
  split at h
  · obtain ⟨-, -, h⟩ := bind_eq_ok.mp h
    exact (Except.ok.inj h).symm
  · exact (Except.ok.inj h).symm

/-- A poll leaves everything but the queues and `wc` alone. -/
def SameOwn (st st' : RankState Msg Obj Ext) : Prop :=
  st'.heap = st.heap ∧ st'.ext = st.ext ∧ st'.host.mem = st.host.mem

theorem pollSendStep_safe (h : ∀ wc ∈ st.host.nic.sendCq.entries, ok wc = true) :
    Safe (st.pollSendStep ok msg) st.SameOwn := by
  rcases hq : st.host.nic.sendCq.entries with _ | ⟨wc, rest⟩
  · simp [pollSendStep, pollCQ, hq]
  · have hok := h wc (by rw [hq]; exact List.mem_cons_self)
    simp only [pollSendStep, pollCQ, hq, ok_bind, hok, mlogAssert_true]
    exact ⟨rfl, rfl, rfl⟩

theorem pollRecvStep_safe (h : ∀ wc ∈ st.host.nic.recvCq.entries.head?, ok wc = true) :
    Safe (st.pollRecvStep ok msg) st.SameOwn := by
  rcases hq : st.host.nic.recvCq.entries with _ | ⟨wc, rest⟩
  · simp [pollRecvStep, pollCQ, hq]
  · have hok := h wc (by rw [hq]; rfl)
    simp only [pollRecvStep, pollCQ, hq, ok_bind, hok, mlogAssert_true]
    exact ⟨rfl, rfl, rfl⟩

theorem repostStep_safe {dev : Device} {rw : RecvWr} {nic : Nic Msg}
    (h : checkAndPostRecvs dev rw.addr rw.length rw.lkey rw.wrId st.host.nic = .ok nic) :
    Safe (st.repostStep dev rw) st.SameOwn := by
  simp only [repostStep, h, ok_bind]
  exact ⟨rfl, rfl, rfl⟩

/-- The comparison succeeds on the bytes of the peer's round. -/
theorem checkRecvBuf_safe {t : Bool} {r : Rank} {n k : ℕ}
    (h : t = true → st.host.mem.bytes .recvBuf n
      = List.replicate n { val := r.peer.value, round := some k }) :
    Safe (st.checkRecvBuf t r n) st.SameOwn := by
  rw [checkRecvBuf]
  split
  · rename_i ht
    have hall : ((List.range n).all fun i ↦ (st.host.mem.buf .recvBuf i).val == r.peer.value)
        = true := by
      rw [List.all_eq_true]
      intro i hi
      have hmem : st.host.mem.buf .recvBuf i ∈ st.host.mem.bytes .recvBuf n :=
        List.mem_map_of_mem hi
      rw [h ht] at hmem
      rw [List.eq_of_mem_replicate hmem]
      exact beq_self_eq_true _
    rw [checkBuffer, hall]
    exact ⟨rfl, rfl, rfl⟩
  · exact ⟨rfl, rfl, rfl⟩

theorem writeSendBuf_sameOwn (st : RankState Msg Obj Ext) (t : Bool) (r : Rank)
    (round msgSize : ℕ) : (st.writeSendBuf t r round msgSize).heap = st.heap ∧
      (st.writeSendBuf t r round msgSize).ext = st.ext ∧
      (st.writeSendBuf t r round msgSize).host.mem.msg = st.host.mem.msg := by
  rw [writeSendBuf]
  split <;> exact ⟨rfl, rfl, rfl⟩

end RankState

/-- Every polled send must have succeeded with the given opcode. -/
def sendOk (opcode : WcOpcode) (wc : Wc Msg) : Bool := wc.status == .success && wc.opcode == opcode

/-- Every polled receive must have succeeded, and be the receive of a SEND. -/
def recvOk (wc : Wc Msg) : Bool := wc.status == .success && wc.opcode == .recv

/-- The context whose address came back in `wr_id`. -/
def ctxOfWrId : WrId → Exec ℕ
  | .ctx addr => .ok addr
  | _ => .error (.fault .badPointer)

end IbvBench
