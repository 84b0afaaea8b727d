import IbvBench.Bench
import IbvBench.Control
import IbvBench.Archive.Basic

/-!
# The three-step write rendezvous

`ibv_pingpong_rdv_write_imm.cpp`.  The sender announces a message (RTS), the receiver answers with
the address of its buffer (RTR), and the sender writes the bytes there with a RDMA_WRITE_WITH_IMM,
which also tells the receiver that they have arrived.  In each round rank 0 sends first and receives
second, rank 1 the other way round.

The immediate data is too short for an address, so the receiver puts its `RecvCtx` into an archive,
and it is the key that travels: in the RTR to the sender, and back as immediate data.
-/

set_option autoImplicit false

namespace IbvBench

open StepMachine

namespace RdvWriteImm

structure SendCtx where
  buf : RegPtr
  size : ℕ
  mr : Mr
  userContext : WrId

structure RecvCtx where
  buf : RegPtr
  size : ℕ
  mr : Mr
  userContext : WrId

structure RTSMsg where
  sendCtx : ℕ
  size : ℕ

structure RTRMsg where
  sendCtx : ℕ
  remoteAddr : RegPtr
  rkey : ℕ
  /-- 16 bits. -/
  recvCtxKey : ℕ

inductive MsgType where
  | rts
  | rtr
  deriving DecidableEq, Repr

/-- The value of the enumerator, as it is sent in `imm_data`. -/
def MsgType.code : MsgType → ℕ
  | rts => 0
  | rtr => 1

/-- A control message in a slot. -/
inductive Msg where
  | rts (m : RTSMsg)
  | rtr (m : RTRMsg)

namespace Msg

def asRTS : Msg → Option RTSMsg
  | rts m => some m
  | _ => none

def asRTR : Msg → Option RTRMsg
  | rtr m => some m
  | _ => none

end Msg

/-- `sizeof`, with the padding of a 64-bit target. -/
def sizeofRTSMsg : ℕ := 16

def sizeofRTRMsg : ℕ := 24

/-- An allocated context. -/
inductive Ctx where
  | send (c : SendCtx)
  | recv (c : RecvCtx)

namespace Ctx

def asSend : Ctx → Option SendCtx
  | send c => some c
  | _ => none

def asRecv : Ctx → Option RecvCtx
  | recv c => some c
  | _ => none

end Ctx

/-- What a rank holds besides its contexts is `recv_ctx_archive`. -/
abbrev State := RankState Msg Ctx LCMArchive

/-! ## The handlers -/

/-- Every polled receive must have succeeded; its opcode is left to the handlers. -/
def recvStatusOk (wc : Wc Msg) : Bool := wc.status == .success

/-- `pollRecvCQ`, up to its `checkAndPostRecvs`. -/
def pollRecvCQ (st : State) : Exec State :=
  st.pollRecvStep recvStatusOk "Recv RTS completion failed!\n"

/-- `postRTS`; `addr` is what its `malloc` returns. -/
def postRTS (dev : Device) (addr round : ℕ) (rank : Rank) (buf : RegPtr) (size : ℕ) (mr : Mr)
    (userContext : WrId) (st : State) : Exec State := do
  let heap := st.heap.malloc addr round (.send { buf, size, mr, userContext })
  let mem := st.host.mem.setMsg .rtsMsg (some (.rts { sendCtx := addr, size }))
  let (ret, host) ← postSendImm dev rank (.msg .rtsMsg) sizeofRTSMsg dev.mr.lkey MsgType.rts.code
    .null { st.host with mem }
  mlogAssert (ret == 0) "\n"
  .ok { st with host, heap }

/-- `handleRTS`; `addr` is what its `malloc` returns. -/
def handleRTS (dev : Device) (addr round : ℕ) (wc : Wc Msg) (buf : RegPtr) (size : ℕ) (mr : Mr)
    (userContext : WrId) (st : State) : Exec State := do
  mlogAssert (wc.opcode == .recv && wc.immData == MsgType.rts.code) ""
  let recvRTSMsg ← st.derefMsg Msg.asRTS wc.wrId
  mlogAssert (recvRTSMsg.size ≤ size) ""
  let srcRank := dev.qp2rank (wc.qpNum % dev.qp2rankMod)
  let (key, ext) ← st.ext.put addr
  match key with
  | none => .error (.fault (.assertFailed "Archive is full!\n"))
  | some ctxKey => do
    let heap := st.heap.malloc addr round (.recv { size, buf, mr, userContext })
    let mem := st.host.mem.setMsg .rtrMsg (some (.rtr
      { sendCtx := recvRTSMsg.sendCtx, remoteAddr := buf, rkey := mr.rkey,
        recvCtxKey := ctxKey % 2 ^ 16 }))
    let (ret, host) ← postSendImm dev srcRank (.msg .rtrMsg) sizeofRTRMsg dev.mr.lkey
      MsgType.rtr.code .null { st.host with mem }
    mlogAssert (ret == 0) "\n"
    .ok { st with host, heap, ext }

def handleRTR (dev : Device) (wc : Wc Msg) (st : State) : Exec State := do
  mlogAssert (wc.opcode == .recv && wc.immData == MsgType.rtr.code) ""
  let recvRTRMsg ← st.derefMsg Msg.asRTR wc.wrId
  let srcRank := dev.qp2rank (wc.qpNum % dev.qp2rankMod)
  let ctx ← st.heap.deref Ctx.asSend recvRTRMsg.sendCtx
  let (ret, host) ← postWriteImm dev srcRank ctx.buf ctx.size ctx.mr.lkey recvRTRMsg.remoteAddr
    recvRTRMsg.rkey recvRTRMsg.recvCtxKey .null st.host
  mlogAssert (ret == 0) "\n"
  let heap ← st.heap.delete Ctx.asSend recvRTRMsg.sendCtx
  .ok { st with host, heap }

def handleWriteImm (wc : Wc Msg) (st : State) : Exec State := do
  mlogAssert (wc.status == .success && wc.opcode == .recvRdmaWithImm) "Recv WriteImm failed"
  let (ctx, ext) ← st.ext.remove wc.immData
  let heap ← st.heap.delete Ctx.asRecv ctx
  .ok { st with heap, ext }

/-! ## The lambdas -/

/-- The statements of the two lambdas.  The polls are named after what they wait for. -/
inductive Stmt where
  | writeBuffer
  | postRTS
  | pollSentRTS
  | pollRecvRTR
  | repostRTR
  | handleRTR
  | pollWritten
  | pollRecvRTS
  | repostRTS
  | handleRTS
  | pollSentRTR
  | pollRecvImm
  | repostImm
  | handleWriteImm
  | checkBuffer
  deriving DecidableEq, Repr

/-- The lambda of each rank: post one rendezvous send, then receive one; or the other way round. -/
def lambda : Rank → List Stmt
  | .r0 =>
    [.writeBuffer, .postRTS, .pollSentRTS, .pollRecvRTR, .repostRTR, .handleRTR, .pollWritten,
     .pollRecvRTS, .repostRTS, .handleRTS, .pollSentRTR, .pollRecvImm, .repostImm, .handleWriteImm,
     .checkBuffer]
  | .r1 =>
    [.pollRecvRTS, .repostRTS, .handleRTS, .pollSentRTR, .pollRecvImm, .repostImm, .handleWriteImm,
     .checkBuffer,
     .writeBuffer, .postRTS, .pollSentRTS, .pollRecvRTR, .repostRTR, .handleRTR, .pollWritten]

/-- The receive that `checkAndPostRecvs` is called with throughout. -/
def recvWr (env : Env Msg sizeofRTRMsg) (r : Rank) : RecvWr where
  wrId := .reg (.msg .controlRecvBuf)
  addr := .msg .controlRecvBuf
  length := env.cacheLineSize
  lkey := (env.mr r).lkey

/-- `LCM_archive_init(&recv_ctx_archive, 10)` and the assertion after it. -/
def setup (_ : LCMArchive) : Exec LCMArchive := do
  let (ret, archive) := LCMArchive.init 10
  mlogAssert (ret == LCMArchive.success) "Initialize archive failed!\n"
  .ok archive

def exec (env : Env Msg sizeofRTRMsg) (r : Rank) (round msgSize : ℕ) (stmt : Stmt) (st : State) :
    Exec State :=
  let dev := env.device r
  let addr := env.alloc r st.heap.allocs
  match stmt with
  | .writeBuffer => .ok (st.writeSendBuf env.touchData r round msgSize)
  | .postRTS => RdvWriteImm.postRTS dev addr round r.peer (.buf .sendBuf) msgSize dev.mr .null st
  | .pollSentRTS => st.pollSendStep (sendOk .send) "Send RTS completion failed! %d %d\n"
  | .pollRecvRTR | .pollRecvRTS | .pollRecvImm => pollRecvCQ st
  | .repostRTR | .repostRTS | .repostImm => st.repostStep dev (recvWr env r)
  | .handleRTR => do RdvWriteImm.handleRTR dev (← st.getWc) st
  | .pollWritten => st.pollSendStep (sendOk .rdmaWrite) "WriteImm completion failed!\n"
  | .handleRTS => do
    RdvWriteImm.handleRTS dev addr round (← st.getWc) (.buf .recvBuf) msgSize dev.mr .null st
  | .pollSentRTR => st.pollSendStep (sendOk .send) "Send RTR completion failed! %d %d\n"
  | .handleWriteImm => do RdvWriteImm.handleWriteImm (← st.getWc) st
  | .checkBuffer => st.checkRecvBuf env.touchData r msgSize

end RdvWriteImm

/-- `ibv_pingpong_rdv_write_imm`. -/
abbrev rdvWriteImm : Program where
  Msg := RdvWriteImm.Msg
  msgLength := RdvWriteImm.sizeofRTRMsg
  Obj := RdvWriteImm.Ctx
  Ext := LCMArchive
  Stmt := RdvWriteImm.Stmt
  lambda := RdvWriteImm.lambda
  exec := RdvWriteImm.exec
  recvWr := RdvWriteImm.recvWr
  setup := RdvWriteImm.setup
  ext0 := { nbits := 0, val := fun _ ↦ 0 }

end IbvBench
