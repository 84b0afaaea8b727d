import IbvBench.Bench
import IbvBench.Pingpong.VaryMsg

/-!
# The RDMA-write ping-pong

`ibv_pingpong_write.cpp`.  The ranks write into each other's receive buffer in turn, and notice that
a message has arrived by looking at two bytes of it, the first and the last.  Each rank sets these
two bytes to its own value before it sends, so that they tell the next message from the last one.

Here it matters that a RDMA_WRITE does not land all at once.  The network takes the oldest request
of a rank and has its bytes land one at a time, in increasing or in decreasing order of addresses;
the request may complete at the sender before, during or after that.  Bytes that land are tagged
with the number of the write, and those a rank writes itself with the round.
-/

set_option autoImplicit false

namespace IbvBench

open StepMachine

namespace PingpongWrite

/-- The order in which the bytes of a write land. -/
inductive Order where
  | increasing
  | decreasing
  deriving DecidableEq, Repr

/-- The index of the `m`th byte to land, of `n`. -/
def Order.index (o : Order) (n m : ℕ) : ℕ :=
  match o with
  | increasing => m
  | decreasing => n - 1 - m

/-- A write on its way. -/
structure Flight where
  /-- The how-many-eth write of its rank it is. -/
  num : ℕ
  cells : List Cell
  order : Order
  /-- How many bytes have landed. -/
  landed : ℕ := 0

abbrev State := RankState Unit Unit Unit

/-- A rank, its place in the program, and its writes on their way. -/
structure Node where
  /-- How many calls of the lambda have returned. -/
  iter : ℕ := 0
  /-- The next statement of the current call. -/
  pc : ℕ := 0
  st : State
  flights : List Flight := []
  /-- How many writes have landed as a whole. -/
  landed : ℕ := 0

abbrev Sys := Rank → Node

/-! ## The lambdas -/

/-- The statements of the two lambdas.  The condition of the spin loop reads two bytes, one after
the other. -/
inductive Stmt where
  /-- `buf[0] = value` -/
  | resetFirst
  /-- `buf[msg_size - 1] = value` -/
  | resetLast
  | writeBuffer
  | postWrite
  | pollSent
  /-- `buf[msg_size-1] == peer_value` -/
  | spinLast
  /-- `buf[0] == peer_value` -/
  | spinFirst
  | checkBuffer
  deriving DecidableEq, Repr

/-- The lambda of each rank: write, then wait for the peer's write; or the other way round. -/
def lambda : Rank → List Stmt
  | .r0 =>
    [.resetFirst, .resetLast, .writeBuffer, .postWrite, .pollSent, .spinLast, .spinFirst,
     .checkBuffer]
  | .r1 =>
    [.spinLast, .spinFirst, .checkBuffer, .resetFirst, .resetLast, .writeBuffer, .postWrite,
     .pollSent]

/-- A rank writes one byte of its own receive buffer. -/
def setByte (r : Rank) (round i : ℕ) (st : State) : State :=
  st.setMem (st.host.mem.setBuf .recvBuf
    (Function.update (st.host.mem.buf .recvBuf) i { val := r.value, round := some round }))

/-- What a statement does, the two of the spin loop apart. -/
def exec (env : Env Unit 0) (r : Rank) (round msgSize : ℕ) (stmt : Stmt) (st : State) :
    Exec State :=
  let dev := env.device r
  match stmt with
  | .resetFirst => .ok (setByte r round 0 st)
  | .resetLast => .ok (setByte r round (msgSize - 1) st)
  | .writeBuffer => .ok (st.writeSendBuf env.touchData r round msgSize)
  | .postWrite => do
    let (ret, host) ← IbvBench.postWrite dev r.peer (.buf .sendBuf) msgSize dev.mr.lkey
      (.buf .recvBuf) (env.mr r.peer).rkey .null st.host
    mlogAssert (ret == 0) "Post Write failed!"
    .ok { st with host }
  | .pollSent => st.pollSendStep (sendOk .rdmaWrite) "Send completion failed!"
  | .spinLast | .spinFirst => .ok st
  | .checkBuffer => st.checkRecvBuf env.touchData r msgSize

/-- The byte at `i` has the peer's value. -/
def seen (r : Rank) (i : ℕ) (st : State) : Bool :=
  (st.host.mem.buf .recvBuf i).val == r.peer.value

/-- The node after a statement. -/
def advance (r : Rank) (n : Node) (st : State) : Node :=
  let pos := Script.next (lambda r) n.iter n.pc
  { n with iter := pos.1, pc := pos.2, st }

/-- One statement of a rank.  When the second half of the condition fails, the loop starts over. -/
def rankStep (env : Env Unit 0) (r : Rank) (n : Node) : Exec Node :=
  match env.sizes[n.iter]?, (lambda r)[n.pc]? with
  | some msgSize, some .spinLast =>
    if seen r (msgSize - 1) n.st then .ok (advance r n n.st) else .error .blocked
  | some _, some .spinFirst =>
    if seen r 0 n.st then .ok (advance r n n.st) else .ok { n with pc := n.pc - 1 }
  | some msgSize, some stmt => do
    let st ← exec env r n.iter msgSize stmt n.st
    .ok (advance r n st)
  | _, _ => .error .blocked

/-! ## The network -/

/-- The oldest request of a rank goes on its way. -/
def launch (src dst : Device) (order : Order) (n : Node) : Exec Node :=
  match n.st.host.nic.sq with
  | [] => .error .blocked
  | w :: sq =>
    if accessOk src dst w then
      match w.opcode, w.remoteAddr, w.payload n.st.host.mem with
      | .rdmaWrite, .buf .recvBuf, .bytes cells => .ok { n with
          st := { n.st with host := { n.st.host with nic := { n.st.host.nic with
            sq, unacked := n.st.host.nic.unacked ++ [{ wr := w }] } } }
          flights := n.flights ++ [{ num := n.landed + n.flights.length, cells, order }] }
      | _, _, _ => .error (.fault .badPointer)
    else .error (.fault .accessDenied)

/-- One byte of the oldest write of `n` lands at `m`. -/
def land (n m : Node) : Exec (Node × Node) :=
  match n.flights with
  | [] => .error .blocked
  | f :: rest =>
    let i := f.order.index f.cells.length f.landed
    match f.cells[i]? with
    | none => .error (.fault .badPointer)
    | some c =>
      let mem := m.st.host.mem
      let m := { m with st := m.st.setMem (mem.setBuf .recvBuf
        (Function.update (mem.buf .recvBuf) i { val := c.val, round := some f.num })) }
      if f.landed + 1 < f.cells.length then
        .ok ({ n with flights := { f with landed := f.landed + 1 } :: rest }, m)
      else .ok ({ n with flights := rest, landed := n.landed + 1 }, m)

inductive Action where
  /-- The rank executes its next statement. -/
  | rank (r : Rank)
  /-- The oldest request of the rank goes on its way, to land in the given order. -/
  | launch (r : Rank) (order : Order)
  /-- One byte of the rank's oldest write lands. -/
  | land (r : Rank)
  /-- The oldest request of the rank that is on its way completes. -/
  | complete (r : Rank)
  deriving DecidableEq, Repr

def step (env : Env Unit 0) (s : Sys) : Action → Exec Sys
  | .rank r => do
    let n ← rankStep env r (s r)
    .ok (Function.update s r n)
  | .launch r order => do
    let n ← PingpongWrite.launch (env.device r) (env.device r.peer) order (s r)
    .ok (Function.update s r n)
  | .land r => do
    let (n, m) ← PingpongWrite.land (s r) (s r.peer)
    .ok (Function.update (Function.update s r n) r.peer m)
  | .complete r => do
    let host ← IbvBench.complete (env.device r) (s r).st.host
    .ok (Function.update s r { s r with st := { (s r).st with host } })

/-- The registered memory after the two `memset`s. -/
def memset (maxMsgSize : ℕ) (r : Rank) (mem : Mem Unit) : Mem Unit :=
  { mem with buf := fun b i ↦
      if i < maxMsgSize then { val := if b = .sendBuf then r.value else 0, round := none }
      else mem.buf b i }

/-- Both ranks after the barrier.  The receives that are posted then are never used, and left out. -/
def start (env : Env Unit 0) (maxMsgSize : ℕ) : Sys := fun r ↦
  { st := { host := { mem := memset maxMsgSize r (env.mem0 r) }, ext := () } }

/-- The two ranks, for the rounds that `env.sizes` lists. -/
def machine (env : Env Unit 0) (maxMsgSize : ℕ) : Machine Sys Action Fault where
  init s := s = start env maxMsgSize
  step := step env

/-- The next statement of a rank, if it is in a round. -/
def stmt (env : Env Unit 0) (r : Rank) (n : Node) : Option Stmt :=
  if n.iter < env.sizes.length then (lambda r)[n.pc]? else none

end PingpongWrite

end IbvBench
