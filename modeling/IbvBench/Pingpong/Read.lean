import IbvBench.Bench
import IbvBench.Pingpong.VaryMsg

/-!
# The RDMA-read ping-pong

`ibv_pingpong_read.cpp`.  Only rank 0 is active: in every round it reads the bytes of rank 1.  Rank 1
fills its buffer, sends one message as a start signal and waits for one that tells it to finish.

There is one buffer, `device.mr_addr`, and everything happens in it: `write_buffer` and
`check_buffer`, the bytes that are read and the place they are put, the two signals, and all the
receives.
-/

set_option autoImplicit false

namespace IbvBench

open StepMachine

namespace PingpongRead

abbrev State := RankState Unit Unit Unit

/-- The statements of `run` behind its first barrier. -/
inductive Stmt where
  /-- The first `checkAndPostRecvs`. -/
  | postRecvs
  | writeBuffer
  | postRead
  | pollRead
  | checkBuffer
  /-- `postSend` of a signal. -/
  | postSignal
  | pollSignal
  /-- The poll of the peer's signal. -/
  | pollRecv
  | repost
  | done
  deriving DecidableEq, Repr

/-- A rank and its place in the program. -/
structure Node where
  /-- How many calls of the lambda have returned. -/
  iter : ℕ := 0
  /-- The next statement. -/
  stmt : Stmt := .postRecvs
  st : State

abbrev Sys := Rank → Node

/-! ## Control -/

/-- `RUN_VARY_MSG` calls the lambda again, or returns. -/
def again (env : Env Unit 0) (k : ℕ) : ℕ × Stmt :=
  (k, if k < env.sizes.length then .writeBuffer else .postSignal)

/-- The place behind a statement of rank 0. -/
def next0 (env : Env Unit 0) (k : ℕ) : Stmt → ℕ × Stmt
  | .postRecvs => (k, .pollRecv)
  | .pollRecv => (k, .repost)
  | .repost => again env k
  | .writeBuffer => (k, .postRead)
  | .postRead => (k, .pollRead)
  | .pollRead => (k, .checkBuffer)
  | .checkBuffer => again env (k + 1)
  | .postSignal => (k, .pollSignal)
  | .pollSignal | .done => (k, .done)

/-- The place behind a statement of rank 1, which never reads. -/
def next1 (k : ℕ) : Stmt → ℕ × Stmt
  | .postRecvs => (k, .writeBuffer)
  | .writeBuffer => (k, .postSignal)
  | .postSignal => (k, .pollSignal)
  | .pollSignal => (k, .pollRecv)
  | .pollRecv => (k, .repost)
  | .repost | .postRead | .pollRead | .checkBuffer | .done => (k, .done)

def next (env : Env Unit 0) (r : Rank) (k : ℕ) (ℓ : Stmt) : ℕ × Stmt :=
  match r with
  | .r0 => next0 env k ℓ
  | .r1 => next1 k ℓ

/-! ## Statements -/

/-- The receive that `checkAndPostRecvs` is called with throughout. -/
def recvWr (maxMsgSize : ℕ) (env : Env Unit 0) (r : Rank) : RecvWr where
  wrId := .reg (.buf .recvBuf)
  addr := .buf .recvBuf
  length := maxMsgSize
  lkey := (env.mr r).lkey

/-- How many bytes a rank writes: rank 0 a message, rank 1 the whole buffer. -/
def fillSize (maxMsgSize : ℕ) (r : Rank) (msgSize : ℕ) : ℕ :=
  match r with
  | .r0 => msgSize
  | .r1 => maxMsgSize

/-- `if (config.touch_data) write_buffer(device.mr_addr, len, value)`. -/
def fill (touchData : Bool) (r : Rank) (round len : ℕ) (st : State) : State :=
  if touchData then
    st.setMem (st.host.mem.setBuf .recvBuf
      (IbvBench.writeBuffer len r.value round (st.host.mem.buf .recvBuf)))
  else st

def exec (env : Env Unit 0) (maxMsgSize : ℕ) (r : Rank) (round msgSize : ℕ) (stmt : Stmt)
    (st : State) : Exec State :=
  let dev := env.device r
  match stmt with
  | .postRecvs | .repost => st.repostStep dev (recvWr maxMsgSize env r)
  | .writeBuffer => .ok (fill env.touchData r round (fillSize maxMsgSize r msgSize) st)
  | .postRead => do
    let (ret, host) ← IbvBench.postRead dev r.peer (.buf .recvBuf) msgSize dev.mr.lkey
      (.buf .recvBuf) (env.mr r.peer).rkey .null st.host
    mlogAssert (ret == 0) "Post Read failed!"
    .ok { st with host }
  | .pollRead => st.pollSendStep (sendOk .rdmaRead) "Read completion failed! %d %d\n"
  | .checkBuffer => st.checkRecvBuf env.touchData r msgSize
  | .postSignal => do
    -- what `postSend` returns is not looked at
    let (_, host) ← postSend dev r.peer (.buf .recvBuf) env.cacheLineSize dev.mr.lkey .null st.host
    .ok { st with host }
  | .pollSignal => st.pollSendStep (sendOk .send) "Send completion failed!\n"
  | .pollRecv => st.pollRecvStep recvOk "Recv completion failed!\x08"
  | .done => .error .blocked

/-- One statement of a rank. -/
def rankStep (env : Env Unit 0) (maxMsgSize : ℕ) (r : Rank) (n : Node) : Exec Node := do
  let st ← exec env maxMsgSize r n.iter (env.size n.iter) n.stmt n.st
  let pos := next env r n.iter n.stmt
  .ok { iter := pos.1, stmt := pos.2, st }

/-! ## The system -/

def setHost (n : Node) (host : Host Unit) : Node := { n with st := { n.st with host } }

def step (env : Env Unit 0) (maxMsgSize : ℕ) (s : Sys) : Action → Exec Sys
  | .rank r => do
    let n ← rankStep env maxMsgSize r (s r)
    .ok (Function.update s r n)
  | .deliver r => do
    let (h, k) ← IbvBench.deliver (env.device r) (env.device r.peer) (s r).st.host
      (s r.peer).st.host
    .ok (Function.update (Function.update s r (setHost (s r) h)) r.peer (setHost (s r.peer) k))
  | .complete r => do
    let h ← IbvBench.complete (env.device r) (s r).st.host
    .ok (Function.update s r (setHost (s r) h))

/-- `memset(device.mr_addr, 0, config.max_msg_size)`. -/
def memset (maxMsgSize : ℕ) (mem : Mem Unit) : Mem Unit :=
  mem.setBuf .recvBuf fun i ↦
    if i < maxMsgSize then { val := 0, round := none } else mem.buf .recvBuf i

/-- Both ranks behind the first barrier. -/
def start (env : Env Unit 0) (maxMsgSize : ℕ) : Sys := fun r ↦
  { st := { host := { mem := memset maxMsgSize (env.mem0 r) }, ext := () } }

/-- The two ranks, for the rounds that `env.sizes` lists and a buffer of `maxMsgSize` bytes. -/
def machine (env : Env Unit 0) (maxMsgSize : ℕ) : Machine Sys Action Fault where
  init s := s = start env maxMsgSize
  step := step env maxMsgSize

/-! ## What the ranks have done -/

/-- Is the rank in the middle of a round? -/
def Stmt.inRound : Stmt → Bool
  | .writeBuffer | .postRead | .pollRead | .checkBuffer => true
  | _ => false

/-- The byte that rank 1 offers to be read. -/
def offered (env : Env Unit 0) : Cell :=
  if env.touchData then { val := Rank.r1.value, round := some 0 } else { val := 0, round := none }

/-- Both ranks are done, and every completion has been consumed. -/
def Drained (s : Sys) : Prop := ∀ r, (s r).stmt = .done ∧ (s r).st.host.nic.outstanding = [] ∧
  (s r).st.host.nic.sendCq.entries = [] ∧ (s r).st.host.nic.recvCq.entries = []

end PingpongRead

end IbvBench
