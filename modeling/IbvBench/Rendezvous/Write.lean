import IbvBench.Bench
import IbvBench.Control

/-!
# The four-step write rendezvous

`ibv_pingpong_rdv_write.cpp`.  The sender announces a message (RTS), the receiver answers with the
address of its buffer (RTR), the sender writes the bytes there with a RDMA_WRITE, and tells the
receiver so (FIN).  In each round rank 0 sends first and receives second, rank 1 the other way
round.

The contexts travel as addresses: the RTS carries the sender's `SendCtx`, the RTR brings it back
together with the receiver's `RecvCtx`, and the FIN brings that one back.
-/

set_option autoImplicit false

namespace IbvBench

open StepMachine

namespace RdvWrite

structure SendCtx where
  buf : RegPtr
  size : ℕ
  mr : Mr
  userContext : WrId
  /-- Not assigned before the RTR has arrived. -/
  recvCtx : Option ℕ := none

structure RecvCtx where
  buf : RegPtr
  size : ℕ
  mr : Mr
  userContext : WrId

structure RTSMsg where
  sendCtx : ℕ
  size : ℕ

structure RTRMsg where
  sendCtx : ℕ
  recvCtx : ℕ
  remoteAddr : RegPtr
  rkey : ℕ

structure FINMsg where
  recvCtx : ℕ

inductive MsgType where
  | rts
  | rtr
  | fin
  deriving DecidableEq, Repr

/-- The value of the enumerator, as it is sent in `imm_data`. -/
def MsgType.code : MsgType → ℕ
  | rts => 0
  | rtr => 1
  | fin => 2

/-- A control message in a slot. -/
inductive Msg where
  | rts (m : RTSMsg)
  | rtr (m : RTRMsg)
  | fin (m : FINMsg)

namespace Msg

def asRTS : Msg → Option RTSMsg
  | rts m => some m
  | _ => none

def asRTR : Msg → Option RTRMsg
  | rtr m => some m
  | _ => none

def asFIN : Msg → Option FINMsg
  | fin m => some m
  | _ => none

end Msg

/-- `sizeof`, with the padding of a 64-bit target. -/
def sizeofRTSMsg : ℕ := 16

def sizeofRTRMsg : ℕ := 32

def sizeofFINMsg : ℕ := 8

/-- An allocated context. -/
inductive Ctx where
  | send (c : SendCtx)
  | recv (c : RecvCtx)

namespace Ctx

def asSend : Ctx → Option SendCtx
  | send c => some c
  | _ => none

def asRecv : Ctx → Option RecvCtx
  | recv c => some c
  | _ => none

end Ctx

abbrev State := RankState Msg Ctx Unit

/-! ## The handlers -/

/-- `pollRecvCQ`, up to its `checkAndPostRecvs`. -/
def pollRecvCQ (st : State) : Exec State :=
  st.pollRecvStep recvOk "Recv RTS completion failed!\n"

/-- `postRTS`; `addr` is what its `malloc` returns. -/
def postRTS (dev : Device) (addr round : ℕ) (rank : Rank) (buf : RegPtr) (size : ℕ) (mr : Mr)
    (userContext : WrId) (st : State) : Exec State := do
  let heap := st.heap.malloc addr round (.send { buf, size, mr, userContext })
  let mem := st.host.mem.setMsg .rtsMsg (some (.rts { sendCtx := addr, size }))
  let (ret, host) ← postSendImm dev rank (.msg .rtsMsg) sizeofRTSMsg dev.mr.lkey MsgType.rts.code
    .null { st.host with mem }
  mlogAssert (ret == 0) "\n"
  .ok { st with host, heap }

/-- `handleRTS`; `addr` is what its `malloc` returns. -/
def handleRTS (dev : Device) (addr round : ℕ) (wc : Wc Msg) (buf : RegPtr) (size : ℕ) (mr : Mr)
    (userContext : WrId) (st : State) : Exec State := do
  mlogAssert (wc.opcode == .recv && wc.immData == MsgType.rts.code) ""
  let recvRTSMsg ← st.derefMsg Msg.asRTS wc.wrId
  mlogAssert (recvRTSMsg.size ≤ size) ""
  let srcRank := dev.qp2rank (wc.qpNum % dev.qp2rankMod)
  let heap := st.heap.malloc addr round (.recv { size, buf, mr, userContext })
  let mem := st.host.mem.setMsg .rtrMsg (some (.rtr
    { sendCtx := recvRTSMsg.sendCtx, recvCtx := addr, remoteAddr := buf, rkey := mr.rkey }))
  let (ret, host) ← postSendImm dev srcRank (.msg .rtrMsg) sizeofRTRMsg dev.mr.lkey
    MsgType.rtr.code .null { st.host with mem }
  mlogAssert (ret == 0) "\n"
  .ok { st with host, heap }

def handleRTR (dev : Device) (wc : Wc Msg) (st : State) : Exec State := do
  mlogAssert (wc.opcode == .recv && wc.immData == MsgType.rtr.code) ""
  let recvRTRMsg ← st.derefMsg Msg.asRTR wc.wrId
  let srcRank := dev.qp2rank (wc.qpNum % dev.qp2rankMod)
  let ctx ← st.heap.deref Ctx.asSend recvRTRMsg.sendCtx
  let heap ← st.heap.store recvRTRMsg.sendCtx (.send { ctx with recvCtx := recvRTRMsg.recvCtx })
  let (ret, host) ← postWrite dev srcRank ctx.buf ctx.size ctx.mr.lkey recvRTRMsg.remoteAddr
    recvRTRMsg.rkey (.ctx recvRTRMsg.sendCtx) st.host
  mlogAssert (ret == 0) "\n"
  .ok { st with host, heap }

def handleWriteCompletion (dev : Device) (wc : Wc Msg) (st : State) : Exec State := do
  mlogAssert (wc.status == .success && wc.opcode == .rdmaWrite) "Write completion failed! %d %d\n"
  let addr ← ctxOfWrId wc.wrId
  let ctx ← st.heap.deref Ctx.asSend addr
  let srcRank := dev.qp2rank (wc.qpNum % dev.qp2rankMod)
  match ctx.recvCtx with
  | none => .error (.fault .badPointer)
  | some recvCtx => do
    let mem := st.host.mem.setMsg .finMsg (some (.fin { recvCtx }))
    let heap ← st.heap.delete Ctx.asSend addr
    let (ret, host) ← postSendImm dev srcRank (.msg .finMsg) sizeofFINMsg dev.mr.lkey
      MsgType.fin.code .null { st.host with mem }
    mlogAssert (ret == 0) "\n"
    .ok { st with host, heap }

def handleFIN (wc : Wc Msg) (st : State) : Exec State := do
  mlogAssert (wc.immData == MsgType.fin.code) "Recv FIN failed"
  let recvFINMsg ← st.derefMsg Msg.asFIN wc.wrId
  let heap ← st.heap.delete Ctx.asRecv recvFINMsg.recvCtx
  .ok { st with heap }

/-! ## The lambdas -/

/-- The statements of the two lambdas.  The polls are named after what they wait for. -/
inductive Stmt where
  | writeBuffer
  | postRTS
  | pollSentRTS
  | pollRecvRTR
  | repostRTR
  | handleRTR
  | pollWritten
  | handleWriteCompletion
  | pollSentFIN
  | pollRecvRTS
  | repostRTS
  | handleRTS
  | pollSentRTR
  | pollRecvFIN
  | repostFIN
  | handleFIN
  | checkBuffer
  deriving DecidableEq, Repr

/-- The lambda of each rank: post one rendezvous send, then receive one; or the other way round. -/
def lambda : Rank → List Stmt
  | .r0 =>
    [.writeBuffer, .postRTS, .pollSentRTS, .pollRecvRTR, .repostRTR, .handleRTR, .pollWritten,
     .handleWriteCompletion, .pollSentFIN,
     .pollRecvRTS, .repostRTS, .handleRTS, .pollSentRTR, .pollRecvFIN, .repostFIN, .handleFIN,
     .checkBuffer]
  | .r1 =>
    [.pollRecvRTS, .repostRTS, .handleRTS, .pollSentRTR, .pollRecvFIN, .repostFIN, .handleFIN,
     .checkBuffer,
     .writeBuffer, .postRTS, .pollSentRTS, .pollRecvRTR, .repostRTR, .handleRTR, .pollWritten,
     .handleWriteCompletion, .pollSentFIN]

/-- The receive that `checkAndPostRecvs` is called with throughout. -/
def recvWr (env : Env Msg sizeofRTRMsg) (r : Rank) : RecvWr where
  wrId := .reg (.msg .controlRecvBuf)
  addr := .msg .controlRecvBuf
  length := env.cacheLineSize
  lkey := (env.mr r).lkey

def exec (env : Env Msg sizeofRTRMsg) (r : Rank) (round msgSize : ℕ) (stmt : Stmt) (st : State) :
    Exec State :=
  let dev := env.device r
  let addr := env.alloc r st.heap.allocs
  match stmt with
  | .writeBuffer => .ok (st.writeSendBuf env.touchData r round msgSize)
  | .postRTS => RdvWrite.postRTS dev addr round r.peer (.buf .sendBuf) msgSize dev.mr .null st
  | .pollSentRTS =>
    st.pollSendStep (sendOk .send) "Send RTS completion failed! %d %d\n"
  | .pollRecvRTR | .pollRecvRTS | .pollRecvFIN => pollRecvCQ st
  | .repostRTR | .repostRTS | .repostFIN => st.repostStep dev (recvWr env r)
  | .handleRTR => do RdvWrite.handleRTR dev (← st.getWc) st
  | .pollWritten => st.pollSendStep (fun _ ↦ true) ""
  | .handleWriteCompletion => do RdvWrite.handleWriteCompletion dev (← st.getWc) st
  | .pollSentFIN => st.pollSendStep (sendOk .send) "Send FIN completion failed!\n"
  | .handleRTS => do
    RdvWrite.handleRTS dev addr round (← st.getWc) (.buf .recvBuf) msgSize dev.mr .null st
  | .pollSentRTR => st.pollSendStep (sendOk .send) "Send RTR completion failed! %d %d\n"
  | .handleFIN => do RdvWrite.handleFIN (← st.getWc) st
  | .checkBuffer => st.checkRecvBuf env.touchData r msgSize

end RdvWrite

/-- `ibv_pingpong_rdv_write`. -/
abbrev rdvWrite : Program where
  Msg := RdvWrite.Msg
  msgLength := RdvWrite.sizeofRTRMsg
  Obj := RdvWrite.Ctx
  Ext := Unit
  Stmt := RdvWrite.Stmt
  lambda := RdvWrite.lambda
  exec := RdvWrite.exec
  recvWr := RdvWrite.recvWr
  setup := .ok
  ext0 := ()

end IbvBench
