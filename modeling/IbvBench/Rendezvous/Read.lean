import IbvBench.Bench
import IbvBench.Control

/-!
# The read rendezvous

`ibv_pingpong_rdv_read.cpp`.  The sender announces a message (RTS) with the address of its buffer,
the receiver reads the bytes from there with a RDMA_READ, and tells the sender that it is done (FIN).
In each round rank 0 sends first and receives second, rank 1 the other way round.

The FIN and the RTS of the next send follow each other without the peer having to answer, so both
may land in the control buffer before the first has been looked at.  This is why `handleFIN` takes
the context from the rank's own RTS message.
-/

set_option autoImplicit false

namespace IbvBench

open StepMachine

namespace RdvRead

structure SendCtx where
  buf : RegPtr
  size : ℕ
  mr : Mr
  userContext : WrId

structure RecvCtx where
  buf : RegPtr
  size : ℕ
  mr : Mr
  userContext : WrId
  sendCtx : ℕ

structure RTSMsg where
  sendCtx : ℕ
  sendBuf : RegPtr
  size : ℕ
  rkey : ℕ

structure FINMsg where
  sendCtx : ℕ

inductive MsgType where
  | rts
  | fin
  deriving DecidableEq, Repr

/-- The value of the enumerator, as it is sent in `imm_data`. -/
def MsgType.code : MsgType → ℕ
  | rts => 0
  | fin => 1

/-- A control message in a slot. -/
inductive Msg where
  | rts (m : RTSMsg)
  | fin (m : FINMsg)

def Msg.asRTS : Msg → Option RTSMsg
  | rts m => some m
  | _ => none

/-- `sizeof`, on a 64-bit target. -/
def sizeofRTSMsg : ℕ := 24

def sizeofFINMsg : ℕ := 8

/-- An allocated context. -/
inductive Ctx where
  | send (c : SendCtx)
  | recv (c : RecvCtx)

namespace Ctx

def asSend : Ctx → Option SendCtx
  | send c => some c
  | _ => none

def asRecv : Ctx → Option RecvCtx
  | recv c => some c
  | _ => none

end Ctx

abbrev State := RankState Msg Ctx Unit

/-! ## The handlers -/

/-- `pollRecvCQ`, up to its `checkAndPostRecvs`. -/
def pollRecvCQ (st : State) : Exec State :=
  st.pollRecvStep recvOk "Recv RTS completion failed!\n"

/-- `postRTS`; `addr` is what its `malloc` returns. -/
def postRTS (dev : Device) (addr round : ℕ) (rank : Rank) (buf : RegPtr) (size : ℕ) (mr : Mr)
    (userContext : WrId) (st : State) : Exec State := do
  let heap := st.heap.malloc addr round (.send { buf, size, mr, userContext })
  let mem := st.host.mem.setMsg .rtsMsg
    (some (.rts { sendCtx := addr, sendBuf := buf, size, rkey := mr.rkey }))
  let (ret, host) ← postSendImm dev rank (.msg .rtsMsg) sizeofRTSMsg dev.mr.lkey MsgType.rts.code
    (.ctx addr) { st.host with mem }
  mlogAssert (ret == 0) ""
  .ok { st with host, heap }

/-- `handleRTS`; `addr` is what its `malloc` returns. -/
def handleRTS (dev : Device) (addr round : ℕ) (wc : Wc Msg) (buf : RegPtr) (size : ℕ) (mr : Mr)
    (userContext : WrId) (st : State) : Exec State := do
  mlogAssert (wc.opcode == .recv && wc.immData == MsgType.rts.code) ""
  let recvRTSMsg ← st.derefMsg Msg.asRTS wc.wrId
  let srcRank := dev.qp2rank (wc.qpNum % dev.qp2rankMod)
  mlogAssert (recvRTSMsg.size ≤ size) ""
  let heap := st.heap.malloc addr round
    (.recv { buf, size, mr, userContext, sendCtx := recvRTSMsg.sendCtx })
  let (ret, host) ← postRead dev srcRank buf size mr.lkey recvRTSMsg.sendBuf recvRTSMsg.rkey
    (.ctx addr) st.host
  mlogAssert (ret == 0) ""
  .ok { st with host, heap }

/-- `handleReadCompletion`.  Its return value, what `postSendImm` returned, is the first
component. -/
def handleReadCompletion (dev : Device) (wc : Wc Msg) (st : State) : Exec (ℤ × State) := do
  mlogAssert (wc.status == .success && wc.opcode == .rdmaRead) ""
  let srcRank := dev.qp2rank (wc.qpNum % dev.qp2rankMod)
  let addr ← ctxOfWrId wc.wrId
  let ctx ← st.heap.deref Ctx.asRecv addr
  let mem := st.host.mem.setMsg .finMsg (some (.fin { sendCtx := ctx.sendCtx }))
  let heap ← st.heap.delete Ctx.asRecv addr
  let (ret, host) ← postSendImm dev srcRank (.msg .finMsg) sizeofFINMsg dev.mr.lkey
    MsgType.fin.code .null { st.host with mem }
  .ok (ret, { st with host, heap })

/-- `handleFIN`, which reads `rtsMsg` and not the message it has received. -/
def handleFIN (wc : Wc Msg) (st : State) : Exec State := do
  mlogAssert (wc.immData == MsgType.fin.code) "Recv FIN failed"
  let rtsMsg ← st.derefMsg Msg.asRTS (.reg (.msg .rtsMsg))
  let heap ← st.heap.delete Ctx.asSend rtsMsg.sendCtx
  .ok { st with heap }

/-! ## The lambdas -/

/-- The statements of the two lambdas.  The polls are named after what they wait for. -/
inductive Stmt where
  | writeBuffer
  | postRTS
  | pollSentRTS
  | pollRecvFIN
  | repostFIN
  | handleFIN
  | pollRecvRTS
  | repostRTS
  | handleRTS
  | pollRead
  | handleReadCompletion
  | pollSentFIN
  | checkBuffer
  deriving DecidableEq, Repr

/-- The lambda of each rank: post one rendezvous send, then receive one; or the other way round. -/
def lambda : Rank → List Stmt
  | .r0 =>
    [.writeBuffer, .postRTS, .pollSentRTS, .pollRecvFIN, .repostFIN, .handleFIN,
     .pollRecvRTS, .repostRTS, .handleRTS, .pollRead, .handleReadCompletion, .pollSentFIN,
     .checkBuffer]
  | .r1 =>
    [.pollRecvRTS, .repostRTS, .handleRTS, .pollRead, .handleReadCompletion, .pollSentFIN,
     .checkBuffer,
     .writeBuffer, .postRTS, .pollSentRTS, .pollRecvFIN, .repostFIN, .handleFIN]

/-- The receive that `checkAndPostRecvs` is called with throughout. -/
def recvWr (env : Env Msg sizeofRTSMsg) (r : Rank) : RecvWr where
  wrId := .reg (.msg .controlRecvBuf)
  addr := .msg .controlRecvBuf
  length := env.cacheLineSize
  lkey := (env.mr r).lkey

def exec (env : Env Msg sizeofRTSMsg) (r : Rank) (round msgSize : ℕ) (stmt : Stmt) (st : State) :
    Exec State :=
  let dev := env.device r
  let addr := env.alloc r st.heap.allocs
  match stmt with
  | .writeBuffer => .ok (st.writeSendBuf env.touchData r round msgSize)
  | .postRTS => RdvRead.postRTS dev addr round r.peer (.buf .sendBuf) msgSize dev.mr .null st
  | .pollSentRTS => st.pollSendStep (sendOk .send) "Send RTS completion failed! %d %d\n"
  | .pollRecvFIN | .pollRecvRTS => pollRecvCQ st
  | .repostFIN | .repostRTS => st.repostStep dev (recvWr env r)
  | .handleFIN => do RdvRead.handleFIN (← st.getWc) st
  | .handleRTS => do
    RdvRead.handleRTS dev addr round (← st.getWc) (.buf .recvBuf) msgSize dev.mr .null st
  | .pollRead => st.pollSendStep (fun _ ↦ true) ""
  | .handleReadCompletion => do
    let (_, st) ← RdvRead.handleReadCompletion dev (← st.getWc) st
    .ok st
  | .pollSentFIN => st.pollSendStep (sendOk .send) "Send FIN completion failed!\n"
  | .checkBuffer => st.checkRecvBuf env.touchData r msgSize

end RdvRead

/-- `ibv_pingpong_rdv_read`. -/
abbrev rdvRead : Program where
  Msg := RdvRead.Msg
  msgLength := RdvRead.sizeofRTSMsg
  Obj := RdvRead.Ctx
  Ext := Unit
  Stmt := RdvRead.Stmt
  lambda := RdvRead.lambda
  exec := RdvRead.exec
  recvWr := RdvRead.recvWr
  setup := .ok
  ext0 := ()

end IbvBench
