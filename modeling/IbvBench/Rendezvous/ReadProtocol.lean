import IbvBench.Rendezvous.Read
import IbvBench.Protocol.Safety
import IbvBench.Protocol.Statements

/-!
# The read rendezvous does what it announces

Which contexts, messages and bytes are where at each statement of `ibv_pingpong_rdv_read`
(`RdvRead.protocol`), and that it is so (`RdvRead.lawful`).  The results are at the end:
`rdvRead_safe`, for every environment and every interleaving.

Unlike in the write rendezvous both ranks can be a message ahead of their peer, so a rank that waits
for the FIN may find it overwritten by the next RTS; the messages are announced as received in order
all the same, and only `handleRTS` looks at the control buffer.
-/

set_option autoImplicit false

namespace IbvBench

open StepMachine

namespace RdvRead

instance : DecidableEq rdvRead.Stmt := inferInstanceAs (DecidableEq Stmt)

/-! ## Announcements -/

def act : Stmt → Act
  | .writeBuffer => .fill
  | .postRTS | .handleReadCompletion => .post .sendWithImm
  | .handleRTS => .post .rdmaRead
  | .pollSentRTS | .pollRead | .pollSentFIN => .pollSend
  | .pollRecvRTS | .pollRecvFIN => .pollRecv
  | .repostRTS | .repostFIN => .repost
  | .handleFIN => .internal
  | .checkBuffer => .check

section

variable (env : rdvRead.Env) (r : Rank) (k : ℕ)

/-- The RTS of a round. -/
def rtsOf : RTSMsg where
  sendCtx := env.sendCtx r k
  sendBuf := .buf .sendBuf
  size := env.size k
  rkey := (env.mr r).rkey

/-- The FIN of a round. -/
def finOf : FINMsg where
  sendCtx := env.sendCtx r.peer k

/-- The RDMA_READ of a round. -/
def readWr : SendWr Msg where
  wrId := .ctx (env.recvCtx r k)
  opcode := .rdmaRead
  addr := .buf .recvBuf
  length := env.size k
  lkey := (env.mr r).lkey
  remoteAddr := .buf .sendBuf
  rkey := (env.mr r.peer).rkey

def wr : Stmt → SendWr Msg
  | .pollSentFIN => env.controlWr r .null .finMsg sizeofFINMsg MsgType.fin.code
  | .pollRead => readWr env r k
  | _ => env.controlWr r (.ctx (env.sendCtx r k)) .rtsMsg sizeofRTSMsg MsgType.rts.code

def data : Stmt → Data Msg
  | .pollSentFIN => .msg (some (.fin (finOf env r k)))
  | .pollRead => .bytes (env.sentBytes r.peer k)
  | _ => .msg (some (.rts (rtsOf env r k)))

/-- The `SendCtx` of a round. -/
def sendCtxOf : SendCtx where
  buf := .buf .sendBuf
  size := env.size k
  mr := env.mr r
  userContext := .null

/-- The `RecvCtx` of a round. -/
def recvCtxOf : RecvCtx where
  buf := .buf .recvBuf
  size := env.size k
  mr := env.mr r
  userContext := .null
  sendCtx := env.sendCtx r.peer k

def sender : Stmt → Bool
  | .writeBuffer | .postRTS | .pollSentRTS | .pollRecvFIN | .repostFIN | .handleFIN => true
  | _ => false

def obj (ℓ : Stmt) : Ctx :=
  if sender ℓ then .send (sendCtxOf env r k) else .recv (recvCtxOf env r k)

end

def op : Stmt → WrOpcode
  | .pollRead => .rdmaRead
  | _ => .sendWithImm

def sendAt : Rank → ℕ → Stmt
  | .r0, 0 => .pollSentRTS
  | .r0, _ => .pollSentFIN
  | .r1, 0 => .pollSentFIN
  | .r1, _ => .pollSentRTS

def expects : Stmt → Stmt
  | .pollRecvRTS => .pollSentRTS
  | _ => .pollSentFIN

def handles : Stmt → Option Stmt
  | .handleReadCompletion => some .pollRead
  | .repostRTS | .handleRTS => some .pollRecvRTS
  | .repostFIN | .handleFIN => some .pollRecvFIN
  | _ => none

def succ : Stmt → Stmt
  | .writeBuffer => .postRTS
  | .postRTS => .pollSentRTS
  | .pollSentRTS => .pollRecvFIN
  | .pollRecvFIN => .repostFIN
  | .repostFIN => .handleFIN
  | .handleFIN => .pollRecvRTS
  | .pollRecvRTS => .repostRTS
  | .repostRTS => .handleRTS
  | .handleRTS => .pollRead
  | .pollRead => .handleReadCompletion
  | .handleReadCompletion => .pollSentFIN
  | .pollSentFIN => .checkBuffer
  | .checkBuffer => .writeBuffer

def ends (r : Rank) (ℓ : Stmt) : Bool :=
  match ℓ, r with
  | .checkBuffer, .r0 => true
  | .handleFIN, .r1 => true
  | _, _ => false

def phase : Stmt → Phase
  | .writeBuffer | .postRTS | .pollRecvRTS | .repostRTS | .handleRTS => .before
  | .pollSentFIN | .checkBuffer => .after
  | _ => .live

/-- The rank's own RTS message, from `postRTS` until `handleFIN` has read it. -/
def Local (env : rdvRead.Env) (r : Rank) (k : ℕ) (ℓ : Stmt) (_ : Unit) (rtsMsg : Option Msg) :
    Prop :=
  sender ℓ = true → phase ℓ = .live → rtsMsg = some (.rts (rtsOf env r k))

/-- What `ibv_pingpong_rdv_read` announces. -/
def protocol : Protocol rdvRead where
  op := op
  wr := wr
  data := data
  perRound := 2
  sendAt := sendAt
  expects := expects
  handles := handles
  reads := fun ℓ ↦ ℓ == .handleRTS
  filled := fun _ ↦ false
  ahead := fun _ ↦ 1
  succ := succ
  ends := ends
  sender := sender
  phase := phase
  obj := obj
  Local := Local

/-! ## The scripts -/

theorem placed : protocol.Placed act where
  next := by decide
  ends := by decide
  posts := by decide
  waits := by decide
  handles := by decide
  fill := by decide
  filled := by decide
  message := by decide
  write := by decide
  read := by decide
  window := by decide
  receives := by decide
  reads := by decide
  perRound := by decide
  fills := by decide
  oneSided := .inr (by decide)

/-! ## The statements, as the queues see them -/

section

variable {env : rdvRead.Env} {r : Rank} {k n : ℕ} {st st' : State}

theorem postRTS_spec {addr round size : ℕ} {rank : Rank} {buf : RegPtr} {mr : Mr}
    {userContext : WrId}
    (h : postRTS (env.device r) addr round rank buf size mr userContext st = .ok st') :
    rdvRead.ActSpec env r k n (.post .sendWithImm) st st' := by
  obtain ⟨⟨ret, host⟩, hp, h⟩ := bind_eq_ok.mp h
  obtain ⟨-, -, h⟩ := bind_eq_ok.mp h
  cases h
  exact Program.actSpec_post (P := rdvRead) hp rfl rfl rfl rfl rfl rfl

theorem handleRTS_spec {addr round size : ℕ} {wc : Wc Msg} {buf : RegPtr} {mr : Mr}
    {userContext : WrId}
    (h : handleRTS (env.device r) addr round wc buf size mr userContext st = .ok st') :
    rdvRead.ActSpec env r k n (.post .rdmaRead) st st' := by
  obtain ⟨-, -, h⟩ := bind_eq_ok.mp h
  obtain ⟨m, -, h⟩ := bind_eq_ok.mp h
  obtain ⟨-, -, h⟩ := bind_eq_ok.mp h
  obtain ⟨⟨ret, host⟩, hp, h⟩ := bind_eq_ok.mp h
  obtain ⟨-, -, h⟩ := bind_eq_ok.mp h
  cases h
  exact Program.actSpec_post (P := rdvRead) hp rfl rfl rfl rfl rfl rfl

theorem handleReadCompletion_spec {wc : Wc Msg} {ret : ℤ}
    (h : handleReadCompletion (env.device r) wc st = .ok (ret, st')) :
    rdvRead.ActSpec env r k n (.post .sendWithImm) st st' := by
  obtain ⟨-, -, h⟩ := bind_eq_ok.mp h
  obtain ⟨addr, -, h⟩ := bind_eq_ok.mp h
  obtain ⟨ctx, -, h⟩ := bind_eq_ok.mp h
  obtain ⟨heap, -, h⟩ := bind_eq_ok.mp h
  obtain ⟨⟨ret, host⟩, hp, h⟩ := bind_eq_ok.mp h
  cases h
  exact Program.actSpec_post (P := rdvRead) hp rfl rfl rfl rfl rfl rfl

theorem handleFIN_spec {wc : Wc Msg} (h : handleFIN wc st = .ok st') :
    rdvRead.ActSpec env r k n .internal st st' := by
  obtain ⟨-, -, h⟩ := bind_eq_ok.mp h
  obtain ⟨m, -, h⟩ := bind_eq_ok.mp h
  obtain ⟨heap, -, h⟩ := bind_eq_ok.mp h
  cases h
  exact ⟨rfl, rfl⟩

end

theorem scripted : rdvRead.WellScripted act where
  exec_spec := by
    intro env r k n stmt st st' h
    cases stmt with
    | writeBuffer => exact (Except.ok.inj h).symm
    | postRTS => exact postRTS_spec h
    | pollSentRTS | pollSentFIN => exact Program.actSpec_pollSendStep (P := rdvRead) h
    | pollRead =>
      have hpoll : st.pollSendStep (fun _ ↦ true) "" = .ok st' := h
      exact Program.actSpec_pollSendStep (P := rdvRead) hpoll
    | pollRecvRTS | pollRecvFIN => exact Program.actSpec_pollRecvStep (P := rdvRead) h
    | repostRTS | repostFIN => exact Program.actSpec_repostStep (P := rdvRead) h
    | handleReadCompletion =>
      obtain ⟨wc, -, h⟩ := bind_eq_ok.mp h
      obtain ⟨⟨ret, st''⟩, hc, h⟩ := bind_eq_ok.mp h
      cases h
      exact handleReadCompletion_spec hc
    | handleRTS =>
      obtain ⟨wc, -, h⟩ := bind_eq_ok.mp h
      exact handleRTS_spec h
    | handleFIN =>
      obtain ⟨wc, -, h⟩ := bind_eq_ok.mp h
      exact handleFIN_spec h
    | checkBuffer => exact RankState.checkRecvBuf_eq_ok h
  length_pos := by decide
  post_le := by decide
  post_eq := by decide
  repost_le := by decide
  repost_eq := by decide
  repost_after := by decide

/-! ## The statements, on what is announced -/

section

variable {env : rdvRead.Env} {r : Rank} {k : ℕ} {st st' : State}

/-- The statements that are neither handlers nor posts leave the contexts and the RTS message alone,
and the next one finds them as it expects them. -/
theorem keeps (r : Rank) (k : ℕ) {ℓ : Stmt} (hp : (act ℓ).isPost = false) (hi : act ℓ ≠ .internal) :
    protocol.Keeps env act r k ℓ where
  isPost := hp
  heapAt := by
    cases ℓ <;> first | exact absurd hp (by decide) | exact absurd rfl hi | (cases r <;> rfl)
  own _ _ h := by
    intro hs hl
    cases ℓ <;> first | exact h rfl rfl | exact absurd hs (by decide) | exact absurd hl (by decide) |
      exact absurd hp (by decide)

theorem postRTS_safe (h : protocol.Ready env act r k .postRTS st) :
    Safe (exec env r k (env.size k) .postRTS st) (protocol.Done env act r k .postRTS) := by
  have hheap : st.heap = .spent (sendTurn r k) := h.heap
  have hroom : st.host.nic.sqUsed < (env.device r).config.maxSendNum := env.room (h.room rfl)
  simp only [exec, postRTS, hheap]
  rw [postSendImm_eq r.peer_ne hroom]
  simp only [ok_bind, beq_self_eq_true, mlogAssert_true]
  exact safe_ok.mpr ⟨rfl, fun _ _ ↦ rfl, fun _ ↦ ⟨_, _, rfl, rfl, fun _ ↦ inlineData_getD ..⟩⟩

/-- The completion of the RDMA_READ. -/
def readWc (env : rdvRead.Env) (r : Rank) (k : ℕ) : Wc Msg where
  wrId := .ctx (env.recvCtx r k)
  status := .success
  opcode := .rdmaRead
  qpNum := env.qpNum r r.peer
  payload := some (.bytes (env.sentBytes r.peer k))

theorem handleRTS_safe (h : protocol.Ready env act r k .handleRTS st) :
    Safe (exec env r k (env.size k) .handleRTS st) (protocol.Done env act r k .handleRTS) := by
  have hheap : st.heap = .spent (recvTurn r k) := h.heap
  have hroom : st.host.nic.sqUsed < (env.device r).config.maxSendNum := env.room (h.room rfl)
  have hwc : st.getWc = .ok (env.controlWc r MsgType.rts.code (.rts (rtsOf env r.peer k))) :=
    st.getWc_eq (h.wc _ rfl)
  have hmsg : st.derefMsg Msg.asRTS (.reg (.msg .controlRecvBuf)) = .ok (rtsOf env r.peer k) :=
    st.derefMsg_eq (h.msg rfl rfl rfl) rfl
  simp only [exec, hwc, ok_bind, handleRTS, Env.controlWc, hmsg, beq_self_eq_true, Bool.and_self,
    mlogAssert_true, rtsOf, Nat.le_refl, decide_true, env.qp2rank_peer, hheap]
  rw [postRead_eq r.peer_ne hroom]
  simp only [ok_bind, beq_self_eq_true, mlogAssert_true]
  exact safe_ok.mpr ⟨rfl, (fun h ↦ by cases h), fun _ ↦ ⟨_, _, rfl, rfl, fun h ↦ absurd rfl h⟩⟩

theorem handleReadCompletion_safe (h : protocol.Ready env act r k .handleReadCompletion st) :
    Safe (exec env r k (env.size k) .handleReadCompletion st)
      (protocol.Done env act r k .handleReadCompletion) := by
  have hheap : st.heap
      = .holding (recvTurn r k) (protocol.cell env r k .handleReadCompletion) := h.heap
  have hroom : st.host.nic.sqUsed < (env.device r).config.maxSendNum := env.room (h.room rfl)
  have hwc : st.getWc = .ok (readWc env r k) := st.getWc_eq (h.wc _ rfl)
  have hderef : (Heap.holding (recvTurn r k) (protocol.cell env r k .handleReadCompletion)).deref
      Ctx.asRecv (env.recvCtx r k) = .ok (recvCtxOf env r k) := Heap.deref_holding rfl rfl
  have hdelete : (Heap.holding (recvTurn r k) (protocol.cell env r k .handleReadCompletion)).delete
      Ctx.asRecv (env.recvCtx r k) = .ok (.spent (recvTurn r k + 1)) :=
    Heap.delete_holding rfl rfl rfl
  simp only [exec, hwc, ok_bind, handleReadCompletion, readWc, beq_self_eq_true, Bool.and_self,
    mlogAssert_true, ctxOfWrId, env.qp2rank_peer, hheap, hderef, hdelete]
  rw [postSendImm_eq r.peer_ne hroom]
  simp only [ok_bind]
  exact safe_ok.mpr ⟨rfl, (fun h ↦ by cases h),
    fun _ ↦ ⟨_, _, rfl, rfl, fun _ ↦ inlineData_getD ..⟩⟩

theorem handleFIN_safe (h : protocol.Ready env act r k .handleFIN st) :
    Safe (exec env r k (env.size k) .handleFIN st) (protocol.Done env act r k .handleFIN) := by
  have hheap : st.heap = .holding (sendTurn r k) (protocol.cell env r k .handleFIN) := h.heap
  have hwc : st.getWc = .ok (env.controlWc r MsgType.fin.code (.fin (finOf env r.peer k))) :=
    st.getWc_eq (h.wc _ rfl)
  have hmsg : st.derefMsg Msg.asRTS (.reg (.msg .rtsMsg)) = .ok (rtsOf env r k) :=
    st.derefMsg_eq (h.own rfl rfl) rfl
  have hdelete : (Heap.holding (sendTurn r k) (protocol.cell env r k .handleFIN)).delete
      Ctx.asSend (env.sendCtx r k) = .ok (.spent (sendTurn r k + 1)) :=
    Heap.delete_holding rfl rfl rfl
  simp only [exec, hwc, ok_bind, handleFIN, Env.controlWc, hmsg, beq_self_eq_true, mlogAssert_true,
    rtsOf, hheap, hdelete]
  refine safe_ok.mpr ⟨?_, (fun h ↦ by cases h), fun h ↦ by cases h⟩
  cases r <;> rfl

/-- **Every statement does what is announced.** -/
theorem exec_safe {ℓ : Stmt} (h : protocol.Ready env act r k ℓ st) :
    Safe (exec env r k (env.size k) ℓ st) (protocol.Done env act r k ℓ) := by
  cases ℓ with
  | postRTS => exact postRTS_safe h
  | handleRTS => exact handleRTS_safe h
  | handleReadCompletion => exact handleReadCompletion_safe h
  | handleFIN => exact handleFIN_safe h
  | writeBuffer => exact Protocol.Keeps.fill (keeps r k (by decide) (by decide)) h
  | checkBuffer => exact Protocol.Keeps.check (keeps r k (by decide) (by decide)) h rfl
  | pollSentRTS | pollSentFIN => exact Protocol.Keeps.pollSend (keeps r k (by decide) (by decide)) h rfl rfl
  | pollRead =>
    have hpoll : Safe (st.pollSendStep (fun _ ↦ true) "") (protocol.Done env act r k .pollRead) :=
      Protocol.Keeps.pollSend (keeps r k (by decide) (by decide)) h rfl rfl
    exact hpoll
  | pollRecvRTS | pollRecvFIN => exact Protocol.Keeps.pollRecv (keeps r k (by decide) (by decide)) h rfl rfl
  | repostRTS | repostFIN => exact Protocol.Keeps.repost (keeps r k (by decide) (by decide)) h rfl

end

/-! ## The two scripts together -/

/-- Where the RDMA_READ and `check_buffer` stand among the messages of a round. -/
theorem read_table : ∀ r pc (h : pc < (lambda r).length),
    ((lambda r)[pc] = .pollRead →
      Protocol.passed (P := rdvRead) act Act.isPostRecv r pc = (if r = .r0 then 1 else 0) ∧
      Protocol.passed (P := rdvRead) act Act.isPollRecv r pc = (if r = .r0 then 2 else 1)) ∧
    ((lambda r)[pc] = .checkBuffer →
      Protocol.passed (P := rdvRead) act Act.isPostRead r pc = 1) := by
  decide

/-- When the RTS of a round has been posted, the send buffer has been written. -/
theorem fill_table : ∀ r pc (_ : pc < (lambda r).length),
    Protocol.passed (P := rdvRead) act Act.isPostRecv r pc ≤ 2 ∧
    ((if r = .r0 then 1 else 2) ≤ Protocol.passed (P := rdvRead) act Act.isPostRecv r pc →
      Protocol.passed (P := rdvRead) act Act.isFill r pc = 1) := by
  decide

/-- While a RDMA_READ is outstanding the peer is in the same round, and has written its buffer. -/
theorem reads_filled {env : rdvRead.Env} {s : rdvRead.Sys} {r : Rank} (hc : rdvRead.Ctl act env s)
    (hℓ : (lambda r)[(s r).pc]? = some .pollRead) :
    rdvRead.cnt act Act.isFill r.peer (s r.peer) = (s r).iter + 1 := by
  obtain ⟨hpc, hget⟩ := Protocol.exists_getElem (P := rdvRead) hℓ
  obtain ⟨hposts, hpolls⟩ := (read_table r _ hpc).1 hget
  obtain ⟨hle, hfilled⟩ := fill_table r.peer _ (hc.node r.peer).pc_lt
  have h1 := Protocol.polled_le_posted placed hc r
  have h2 := Protocol.polled_le_posted placed hc r.peer
  rw [Rank.peer_peer] at h2
  rw [hpolls] at h1
  rw [hposts] at h2
  have hM : protocol.perRound = 2 := rfl
  rw [hM] at h1 h2
  rw [Protocol.cnt_eq, placed.fills, Nat.mul_one]
  cases r with
  | r0 =>
    simp only [if_true, Rank.peer, reduceCtorEq, if_false] at *
    rw [hfilled (by omega)]
    omega
  | r1 =>
    simp only [if_true, Rank.peer, reduceCtorEq, if_false] at *
    rw [hfilled (by omega)]
    omega

/-- At `check_buffer` the RDMA_READ of the round has completed. -/
theorem checks {s : rdvRead.Sys} {r : Rank} (hℓ : (lambda r)[(s r).pc]? = some .checkBuffer) :
    Protocol.transfers act r s = (s r).iter + 1 := by
  obtain ⟨hpc, hget⟩ := Protocol.exists_getElem (P := rdvRead) hℓ
  have hread : (rdvRead.lambda r).countP (Act.isPostRead ∘ act) = 1 :=
    (by decide : ∀ r, (lambda r).countP (Act.isPostRead ∘ act) = 1) r
  have hwrite : (rdvRead.lambda r.peer).countP (Act.isPostWrite ∘ act) = 0 :=
    (by decide : ∀ r, (lambda r).countP (Act.isPostWrite ∘ act) = 0) r.peer
  rw [Protocol.transfers, Protocol.cnt_eq_zero hwrite, Protocol.cnt_eq, hread,
    (read_table r _ hpc).2 hget]
  omega

theorem moves (env : rdvRead.Env) (r : Rank) (k : ℕ) {ℓ : Stmt} (h : act ℓ = .pollSend) :
    protocol.Moves env r k ℓ := by
  have hlen (n : ℕ) (hn : n ≤ sizeofRTSMsg) : n ≤ env.cacheLineSize :=
    Nat.le_trans hn env.cacheLineSize_ge
  cases ℓ <;> first | exact absurd h (by decide) | skip
  case pollSentRTS => exact ⟨hlen sizeofRTSMsg (by decide), ⟨.rtsMsg, by decide, rfl⟩, _, rfl⟩
  case pollSentFIN => exact ⟨hlen sizeofFINMsg (by decide), ⟨.finMsg, by decide, rfl⟩, _, rfl⟩
  case pollRead => exact ⟨rfl, rfl, rfl, rfl⟩

theorem op_not_isWrite (ℓ : Stmt) : (op ℓ).isWrite = false := by
  cases ℓ <;> rfl

/-- **`ibv_pingpong_rdv_read` does what it announces.** -/
theorem lawful : protocol.Lawful act where
  scripted := scripted
  placed := placed
  recvWr _ _ := rfl
  opcode env r k ℓ h := by cases ℓ <;> first | exact absurd h (by decide) | rfl
  keys env r k ℓ h := by
    cases ℓ <;> first | exact absurd h (by decide) | exact ⟨rfl, fun _ ↦ rfl⟩ |
      exact ⟨rfl, fun h ↦ by cases h⟩
  moves env r k ℓ h := moves env r k h
  reads_filled {env s r ℓ} hc _ hℓ ha hop := by
    obtain rfl : ℓ = .pollRead := by cases ℓ <;> first | rfl | cases hop
    exact reads_filled hc hℓ
  checks {env s r ℓ} hc _ hℓ ha := by
    obtain rfl : ℓ = .checkBuffer := by cases ℓ <;> first | rfl | cases ha
    refine ⟨checks hℓ, fun ℓ' _ _ hw ↦ ?_⟩
    have hno : (op ℓ').isWrite = true := hw
    rw [op_not_isWrite] at hno
    cases hno
  setup := by
    refine safe_ok.mpr fun env r ℓ m hℓ ↦ ?_
    cases r <;> cases hℓ <;> exact ⟨rfl, rfl, fun _ h ↦ by cases h⟩
  exec_safe _ _ h := exec_safe h

end RdvRead

/-- **The read rendezvous is safe.**  In every state that any interleaving of the two ranks,
deliveries and completions reaches, for every sequence of sizes:

* no step faults: no assertion fails, every context that is dereferenced or deleted is live on its
  own rank, and no queue overflows;
* `handleRTS` finds in `control_recv_buf` the message whose completion it was given, and it is the
  RTS that the peer posted in this round;
* `handleFIN` finds in its own `rtsMsg` the `SendCtx` that `postRTS` allocated in this round, which
  is live, and it is the one that the FIN it was given names;
* no step changes what an outstanding control message is sent from;
* at `check_buffer` the receive buffer holds the bytes that the peer wrote in this round. -/
theorem rdvRead_safe {env : rdvRead.Env} {s : rdvRead.Sys}
    (hs : (rdvRead.machine env).Reachable s) :
    (∀ a f, rdvRead.step env s a ≠ .error (.fault f)) ∧
    (∀ r, rdvRead.stmt env r (s r) = some .handleRTS → ∃ wc m,
      (s r).st.wc = some wc ∧ wc.wrId = .reg (.msg .controlRecvBuf) ∧
        wc.payload = some (.msg (some (.rts m))) ∧
        (s r).mem.msg .controlRecvBuf = some (.rts m) ∧
        m.sendCtx = env.sendCtx r.peer (s r).iter ∧ m.sendBuf = .buf .sendBuf ∧
        m.size = env.size (s r).iter ∧ m.rkey = (env.mr r.peer).rkey) ∧
    (∀ r, rdvRead.stmt env r (s r) = some .handleFIN → ∃ wc m c ctx,
      (s r).mem.msg .rtsMsg = some (.rts m) ∧ (s r).st.heap.live = [c] ∧
        c.addr = m.sendCtx ∧ c.round = (s r).iter ∧ c.obj = .send ctx ∧
        (s r).st.wc = some wc ∧ wc.payload = some (.msg (some (.fin { sendCtx := m.sendCtx })))) ∧
    (∀ a s', rdvRead.step env s a = .ok s' → ∀ r, ∀ w ∈ (s r).nic.outstanding,
      w.opcode ≠ .rdmaRead →
        (s' r).mem.dmaRead w.addr w.length = (s r).mem.dmaRead w.addr w.length) ∧
    (∀ r, rdvRead.stmt env r (s r) = some .checkBuffer →
      (s r).mem.bytes .recvBuf (env.size (s r).iter) = env.sentBytes r.peer (s r).iter) := by
  obtain ⟨⟨hc, hi⟩, hsafe⟩ := Protocol.reachable_safe RdvRead.lawful hs
  refine ⟨hsafe, ?_, ?_, ?_, ?_⟩
  · intro r hℓ
    obtain ⟨-, hready⟩ := Protocol.ready_of_stmt RdvRead.lawful hc hi hℓ
    exact ⟨_, RdvRead.rtsOf env r.peer (s r).iter, hready.wc _ rfl, rfl, rfl,
      hready.msg rfl rfl rfl, rfl, rfl, rfl, rfl⟩
  · intro r hℓ
    obtain ⟨-, hready⟩ := Protocol.ready_of_stmt RdvRead.lawful hc hi hℓ
    refine ⟨_, RdvRead.rtsOf env r (s r).iter, _, RdvRead.sendCtxOf env r (s r).iter,
      hready.own rfl rfl, by rw [hready.heap]; rfl, rfl, rfl, rfl, hready.wc _ rfl, ?_⟩
    cases r <;> rfl
  · intro a s' hstep r w hw hop
    exact Protocol.outstanding_stable RdvRead.lawful hc hi hstep hw hop
  · intro r hℓ
    obtain ⟨-, hready⟩ := Protocol.ready_of_stmt RdvRead.lawful hc hi hℓ
    exact hready.recvBuf rfl

/-- One message of two bytes in each direction, as far as the `handleRTS` of rank 0.  The FIN and
the RTS of rank 1 have both landed before rank 0 polls the first of them. -/
def RdvRead.finAndRTS : List Action :=
  [.rank .r0, .rank .r1, .rank .r0, .rank .r0, .deliver .r0, .rank .r1, .rank .r1, .rank .r1,
   .deliver .r1, .complete .r1, .rank .r1, .rank .r1, .deliver .r1, .complete .r1, .rank .r1,
   .rank .r1, .rank .r1, .rank .r1, .deliver .r1, .complete .r0, .rank .r0, .rank .r0, .rank .r0,
   .rank .r0, .rank .r0, .rank .r0]

/-- The state they lead to. -/
def RdvRead.firstRTS : rdvRead.Sys :=
  (rdvRead.machine (.small RdvRead.Msg [2])).result (rdvRead.start (.small _ [2]))
    RdvRead.finAndRTS

theorem rdvRead_safe_firstRTS :
    rdvRead.stmt (.small _ [2]) .r0 (RdvRead.firstRTS .r0) = some .handleRTS ∧ ∃ m,
      (RdvRead.firstRTS .r0).mem.msg .controlRecvBuf = some (.rts m) ∧ m.sendCtx = 2 := by
  have hs : (rdvRead.machine (.small RdvRead.Msg [2])).Reachable RdvRead.firstRTS :=
    Machine.reachable_result (.init rfl) RdvRead.finAndRTS
  have hstmt : rdvRead.stmt (.small _ [2]) .r0 (RdvRead.firstRTS .r0) = some .handleRTS := by
    decide
  have hiter : (RdvRead.firstRTS .r0).iter = 0 := by decide
  obtain ⟨wc, m, -, -, -, hmsg, hctx, -⟩ := (rdvRead_safe hs).2.1 .r0 hstmt
  rw [hiter] at hctx
  exact ⟨hstmt, m, hmsg, hctx⟩

end IbvBench
