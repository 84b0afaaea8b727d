import IbvBench.Control
import IbvBench.Pingpong.VaryMsg

/-!
# The ping-pongs that are notified by a completion

`ibv_pingpong_sendrecv.cpp` and `ibv_pingpong_write_imm.cpp`.  The ranks send to each other in turn,
the first program with a SEND, the second one with a RDMA_WRITE_WITH_IMM into the peer's receive
buffer, and both notice an arrival by its receive completion.  All the receives that a rank posts
are for the same buffer, and they are refilled before `check_buffer` looks at it.
-/

set_option autoImplicit false

namespace IbvBench

open StepMachine

namespace PingpongNotified

/-- The two programs. -/
inductive Kind where
  | sendrecv
  | writeImm
  deriving DecidableEq, Repr

abbrev State := RankState Unit Unit Unit

namespace Kind

/-- The opcode of the requests they post. -/
def opcode : Kind → WrOpcode
  | sendrecv => .send
  | writeImm => .rdmaWriteWithImm

/-- The opcode they assert of the completion of a request. -/
def sentOpcode : Kind → WcOpcode
  | sendrecv => .send
  | writeImm => .rdmaWrite

/-- The opcode they assert of the completion of a receive. -/
def recvOpcode : Kind → WcOpcode
  | sendrecv => .recv
  | writeImm => .recvRdmaWithImm

/-- The call that posts the message of a round. -/
def postMsg (q : Kind) (dev : Device) (r : Rank) (rkey msgSize : ℕ) (host : Host Unit) :
    Exec (ℤ × Host Unit) :=
  match q with
  | sendrecv => postSend dev r.peer (.buf .sendBuf) msgSize dev.mr.lkey .null host
  | writeImm => postWriteImm dev r.peer (.buf .sendBuf) msgSize dev.mr.lkey (.buf .recvBuf) rkey
      (77 + r.toNat) .null host

/-- The message of the assertion after it. -/
def postFailed : Kind → String
  | sendrecv => "Post Send failed!"
  | writeImm => "Post Write failed!"

end Kind

/-- The assertion on a receive completion. -/
def recvdOk (q : Kind) (wc : Wc Unit) : Bool :=
  wc.status == .success && wc.opcode == q.recvOpcode

/-! ## The lambdas -/

/-- The statements of the two lambdas. -/
inductive Stmt where
  | writeBuffer
  | post
  | pollSent
  | pollRecv
  | repost
  | checkBuffer
  deriving DecidableEq, Repr

/-- The lambda of each rank: send one message, then receive one; or the other way round. -/
def lambda : Rank → List Stmt
  | .r0 => [.writeBuffer, .post, .pollSent, .pollRecv, .repost, .checkBuffer]
  | .r1 => [.pollRecv, .repost, .checkBuffer, .writeBuffer, .post, .pollSent]

/-- The receive that `checkAndPostRecvs` is called with throughout. -/
def recvWr (maxMsgSize : ℕ) (env : Env Unit 0) (r : Rank) : RecvWr where
  wrId := .reg (.buf .recvBuf)
  addr := .buf .recvBuf
  length := maxMsgSize
  lkey := (env.mr r).lkey

def exec (q : Kind) (maxMsgSize : ℕ) (env : Env Unit 0) (r : Rank) (round msgSize : ℕ)
    (stmt : Stmt) (st : State) : Exec State :=
  let dev := env.device r
  match stmt with
  | .writeBuffer => .ok (st.writeSendBuf env.touchData r round msgSize)
  | .post => do
    let (ret, host) ← q.postMsg dev r (env.mr r.peer).rkey msgSize st.host
    mlogAssert (ret == 0) q.postFailed
    .ok { st with host }
  | .pollSent => st.pollSendStep (sendOk q.sentOpcode) "Send completion failed!"
  | .pollRecv => st.pollRecvStep (recvdOk q) "Recv completion failed!"
  | .repost => st.repostStep dev (recvWr maxMsgSize env r)
  | .checkBuffer => st.checkRecvBuf env.touchData r msgSize

end PingpongNotified

/-- One of the two programs, for messages of at most `maxMsgSize` bytes. -/
abbrev PingpongNotified.Kind.program (q : PingpongNotified.Kind) (maxMsgSize : ℕ) : Program where
  Msg := Unit
  msgLength := 0
  Obj := Unit
  Ext := Unit
  Stmt := PingpongNotified.Stmt
  lambda := PingpongNotified.lambda
  exec := PingpongNotified.exec q maxMsgSize
  recvWr := PingpongNotified.recvWr maxMsgSize
  setup := .ok
  ext0 := ()

/-- `ibv_pingpong_sendrecv`. -/
abbrev pingpongSendrecv : ℕ → Program := PingpongNotified.Kind.sendrecv.program

/-- `ibv_pingpong_write_imm`. -/
abbrev pingpongWriteImm : ℕ → Program := PingpongNotified.Kind.writeImm.program

namespace PingpongNotified

variable {q : Kind} {maxMsgSize : ℕ}

/-! ## The scripts -/

/-- What the statements do to the queues and the data buffers. -/
def act (q : Kind) : Stmt → Act
  | .writeBuffer => .fill
  | .post => .post q.opcode
  | .pollSent => .pollSend
  | .pollRecv => .pollRecv
  | .repost => .repost
  | .checkBuffer => .check

/-- The message of a round, posted by a rank, but for inlining. -/
def Kind.wr (q : Kind) (env : Env Unit 0) (r : Rank) (msgSize : ℕ) : SendWr Unit :=
  match q with
  | sendrecv => { wrId := .null, opcode := .send, addr := .buf .sendBuf, length := msgSize,
                  lkey := (env.mr r).lkey }
  | writeImm => { wrId := .null, opcode := .rdmaWriteWithImm, addr := .buf .sendBuf,
                  length := msgSize, lkey := (env.mr r).lkey, remoteAddr := .buf .recvBuf,
                  rkey := (env.mr r.peer).rkey, immData := 77 + r.toNat }

/-- What the call posts. -/
theorem postMsg_eq_post (env : Env Unit 0) (r : Rank) (msgSize : ℕ) (host : Host Unit) :
    q.postMsg (env.device r) r (env.mr r.peer).rkey msgSize host
      = host.post (env.device r) r.peer { q.wr env r msgSize with
          inlined := inlineData (env.device r) host.mem (.buf .sendBuf) msgSize } := by
  cases q <;> rfl

/-- How many statements of a kind come before a place of a script. -/
def before (q : Kind) (p : Act → Bool) (r : Rank) (pc : ℕ) : ℕ :=
  ((lambda r).take pc).countP (p ∘ act q)

/-- Every send is followed by the poll of its completion, every polled receive by a repost. -/
theorem before_le (q : Kind) : ∀ r, ∀ pc ≤ (lambda r).length,
    before q Act.isPost r pc ≤ before q Act.isPollSend r pc + 1 ∧
    before q Act.isRepost r pc ≤ before q Act.isPollRecv r pc ∧
    before q Act.isPollRecv r pc ≤ before q Act.isRepost r pc + 1 := by
  cases q <;> decide

/-- In a round a rank does everything once. -/
theorem perRound (q : Kind) : ∀ r,
    (lambda r).countP (Act.isPost ∘ act q) = 1 ∧ (lambda r).countP (Act.isPostRecv ∘ act q) = 1 ∧
    (lambda r).countP (Act.isPollSend ∘ act q) = 1 ∧
    (lambda r).countP (Act.isPollRecv ∘ act q) = 1 ∧
    (lambda r).countP (Act.isRepost ∘ act q) = 1 ∧ (lambda r).countP (Act.isFill ∘ act q) = 1 := by
  cases q <;> decide

theorem before_repost (q : Kind) : ∀ r, ∀ pc (h : pc < (lambda r).length),
    act q (lambda r)[pc] = .repost →
      before q Act.isPollRecv r pc = before q Act.isRepost r pc + 1 := by
  cases q <;> decide

theorem scripted : (q.program maxMsgSize).WellScripted (act q) where
  exec_spec := by
    intro env r k n stmt st st' h
    cases stmt with
    | writeBuffer => exact (Except.ok.inj h).symm
    | post =>
      obtain ⟨⟨ret, host⟩, hp, h⟩ := bind_eq_ok.mp h
      obtain ⟨-, -, h⟩ := bind_eq_ok.mp h
      obtain rfl := Except.ok.inj h
      rw [postMsg_eq_post] at hp
      exact Program.actSpec_post (P := q.program maxMsgSize) hp (by cases q <;> rfl) rfl rfl rfl rfl
        rfl
    | pollSent => exact Program.actSpec_pollSendStep (P := q.program maxMsgSize) h
    | pollRecv => exact Program.actSpec_pollRecvStep (P := q.program maxMsgSize) h
    | repost => exact Program.actSpec_repostStep (P := q.program maxMsgSize) h
    | checkBuffer => exact RankState.checkRecvBuf_eq_ok h
  length_pos r := by cases r <;> exact Nat.succ_pos _
  post_le r pc h := (before_le q r pc h).1
  post_eq r := (perRound q r).1.trans (perRound q r).2.2.1.symm
  repost_le r pc h := (before_le q r pc h).2
  repost_eq r := (perRound q r).2.2.2.1.trans (perRound q r).2.2.2.2.1.symm
  repost_after := before_repost q

end PingpongNotified

end IbvBench
