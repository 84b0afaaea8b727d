import IbvBench.Rendezvous.Write
import IbvBench.Protocol.Safety
import IbvBench.Protocol.Statements

/-!
# The four-step write rendezvous does what it announces

Which contexts, messages and bytes are where at each statement of `ibv_pingpong_rdv_write`
(`RdvWrite.protocol`), and that it is so (`RdvWrite.lawful`).  The results are at the end:
`rdvWrite_safe`, for every environment and every interleaving.
-/

set_option autoImplicit false

namespace IbvBench

open StepMachine

namespace RdvWrite

instance : DecidableEq rdvWrite.Stmt := inferInstanceAs (DecidableEq Stmt)

/-! ## Announcements -/

def act : Stmt → Act
  | .writeBuffer => .fill
  | .postRTS | .handleRTS | .handleWriteCompletion => .post .sendWithImm
  | .handleRTR => .post .rdmaWrite
  | .pollSentRTS | .pollSentRTR | .pollWritten | .pollSentFIN => .pollSend
  | .pollRecvRTS | .pollRecvRTR | .pollRecvFIN => .pollRecv
  | .repostRTS | .repostRTR | .repostFIN => .repost
  | .handleFIN => .internal
  | .checkBuffer => .check

section

variable (env : rdvWrite.Env) (r : Rank) (k : ℕ)

/-- The RTS of a round. -/
def rtsOf : RTSMsg where
  sendCtx := env.sendCtx r k
  size := env.size k

/-- The RTR of a round. -/
def rtrOf : RTRMsg where
  sendCtx := env.sendCtx r.peer k
  recvCtx := env.recvCtx r k
  remoteAddr := .buf .recvBuf
  rkey := (env.mr r).rkey

/-- The FIN of a round. -/
def finOf : FINMsg where
  recvCtx := env.recvCtx r.peer k

/-- The RDMA_WRITE of a round. -/
def writeWr : SendWr Msg where
  wrId := .ctx (env.sendCtx r k)
  opcode := .rdmaWrite
  addr := .buf .sendBuf
  length := env.size k
  lkey := (env.mr r).lkey
  remoteAddr := .buf .recvBuf
  rkey := (env.mr r.peer).rkey

def wr : Stmt → SendWr Msg
  | .pollSentRTR => env.controlWr r .null .rtrMsg sizeofRTRMsg MsgType.rtr.code
  | .pollSentFIN => env.controlWr r .null .finMsg sizeofFINMsg MsgType.fin.code
  | .pollWritten => writeWr env r k
  | _ => env.controlWr r .null .rtsMsg sizeofRTSMsg MsgType.rts.code

def data : Stmt → Data Msg
  | .pollSentRTR => .msg (some (.rtr (rtrOf env r k)))
  | .pollSentFIN => .msg (some (.fin (finOf env r k)))
  | .pollWritten => .bytes (env.sentBytes r k)
  | _ => .msg (some (.rts (rtsOf env r k)))

/-- The `SendCtx` of a round. -/
def sendCtxOf (recvCtx : Option ℕ) : SendCtx where
  buf := .buf .sendBuf
  size := env.size k
  mr := env.mr r
  userContext := .null
  recvCtx

/-- The `RecvCtx` of a round. -/
def recvCtxOf : RecvCtx where
  buf := .buf .recvBuf
  size := env.size k
  mr := env.mr r
  userContext := .null

def obj : Stmt → Ctx
  | .pollSentRTS | .pollRecvRTR | .repostRTR | .handleRTR => .send (sendCtxOf env r k none)
  | .pollWritten | .handleWriteCompletion =>
    .send (sendCtxOf env r k (some (env.recvCtx r.peer k)))
  | _ => .recv (recvCtxOf env r k)

end

def op : Stmt → WrOpcode
  | .pollWritten => .rdmaWrite
  | _ => .sendWithImm

theorem op_ne_rdmaRead (ℓ : Stmt) : op ℓ ≠ .rdmaRead := by
  cases ℓ <;> decide

def sendAt : Rank → ℕ → Stmt
  | .r0, 0 => .pollSentRTS
  | .r0, 1 => .pollSentFIN
  | .r0, _ => .pollSentRTR
  | .r1, 0 => .pollSentRTR
  | .r1, 1 => .pollSentRTS
  | .r1, _ => .pollSentFIN

def expects : Stmt → Stmt
  | .pollRecvRTS => .pollSentRTS
  | .pollRecvRTR => .pollSentRTR
  | _ => .pollSentFIN

def handles : Stmt → Option Stmt
  | .repostRTR | .handleRTR => some .pollRecvRTR
  | .handleWriteCompletion => some .pollWritten
  | .repostRTS | .handleRTS => some .pollRecvRTS
  | .repostFIN | .handleFIN => some .pollRecvFIN
  | _ => none

def reads : Stmt → Bool
  | .handleRTR | .handleRTS | .handleFIN => true
  | _ => false

def succ : Stmt → Stmt
  | .writeBuffer => .postRTS
  | .postRTS => .pollSentRTS
  | .pollSentRTS => .pollRecvRTR
  | .pollRecvRTR => .repostRTR
  | .repostRTR => .handleRTR
  | .handleRTR => .pollWritten
  | .pollWritten => .handleWriteCompletion
  | .handleWriteCompletion => .pollSentFIN
  | .pollSentFIN => .pollRecvRTS
  | .pollRecvRTS => .repostRTS
  | .repostRTS => .handleRTS
  | .handleRTS => .pollSentRTR
  | .pollSentRTR => .pollRecvFIN
  | .pollRecvFIN => .repostFIN
  | .repostFIN => .handleFIN
  | .handleFIN => .checkBuffer
  | .checkBuffer => .writeBuffer

def ends (r : Rank) (ℓ : Stmt) : Bool :=
  match ℓ, r with
  | .checkBuffer, .r0 => true
  | .pollSentFIN, .r1 => true
  | _, _ => false

def sender : Stmt → Bool
  | .writeBuffer | .postRTS | .pollSentRTS | .pollRecvRTR | .repostRTR | .handleRTR
  | .pollWritten | .handleWriteCompletion | .pollSentFIN => true
  | _ => false

def phase : Stmt → Phase
  | .writeBuffer | .postRTS | .pollRecvRTS | .repostRTS | .handleRTS => .before
  | .pollSentFIN | .checkBuffer => .after
  | _ => .live

/-- What `ibv_pingpong_rdv_write` announces.  Rank 0 can be one message ahead of its peer, rank 1
only answers. -/
def protocol : Protocol rdvWrite where
  op := op
  wr := wr
  data := data
  perRound := 3
  sendAt := sendAt
  expects := expects
  handles := handles
  reads := reads
  filled := fun ℓ ↦ ℓ == .handleRTR
  ahead := fun r ↦ if r = .r0 then 1 else 0
  succ := succ
  ends := ends
  sender := sender
  phase := phase
  obj := obj
  Local := fun _ _ _ _ _ _ ↦ True

/-! ## The scripts -/

theorem placed : protocol.Placed act where
  next := by decide
  ends := by decide
  posts := by decide
  waits := by decide
  handles := by decide
  fill := by decide
  filled := by decide
  message := by decide
  write := by decide
  read := by decide
  window := by decide
  receives := by decide
  reads := by decide
  perRound := by decide
  fills := by decide
  oneSided := .inl (by decide)

/-! ## The statements, as the queues see them -/

section

variable {env : rdvWrite.Env} {r : Rank} {k n : ℕ} {st st' : State}

theorem postRTS_spec {addr round size : ℕ} {rank : Rank} {buf : RegPtr} {mr : Mr}
    {userContext : WrId}
    (h : postRTS (env.device r) addr round rank buf size mr userContext st = .ok st') :
    rdvWrite.ActSpec env r k n (.post .sendWithImm) st st' := by
  obtain ⟨⟨ret, host⟩, hp, h⟩ := bind_eq_ok.mp h
  obtain ⟨-, -, h⟩ := bind_eq_ok.mp h
  cases h
  exact Program.actSpec_post (P := rdvWrite) hp rfl rfl rfl rfl rfl rfl

theorem handleRTS_spec {addr round size : ℕ} {wc : Wc Msg} {buf : RegPtr} {mr : Mr}
    {userContext : WrId}
    (h : handleRTS (env.device r) addr round wc buf size mr userContext st = .ok st') :
    rdvWrite.ActSpec env r k n (.post .sendWithImm) st st' := by
  obtain ⟨-, -, h⟩ := bind_eq_ok.mp h
  obtain ⟨m, -, h⟩ := bind_eq_ok.mp h
  obtain ⟨-, -, h⟩ := bind_eq_ok.mp h
  obtain ⟨⟨ret, host⟩, hp, h⟩ := bind_eq_ok.mp h
  obtain ⟨-, -, h⟩ := bind_eq_ok.mp h
  cases h
  exact Program.actSpec_post (P := rdvWrite) hp rfl rfl rfl rfl rfl rfl

theorem handleRTR_spec {wc : Wc Msg} (h : handleRTR (env.device r) wc st = .ok st') :
    rdvWrite.ActSpec env r k n (.post .rdmaWrite) st st' := by
  obtain ⟨-, -, h⟩ := bind_eq_ok.mp h
  obtain ⟨m, -, h⟩ := bind_eq_ok.mp h
  obtain ⟨ctx, -, h⟩ := bind_eq_ok.mp h
  obtain ⟨heap, -, h⟩ := bind_eq_ok.mp h
  obtain ⟨⟨ret, host⟩, hp, h⟩ := bind_eq_ok.mp h
  obtain ⟨-, -, h⟩ := bind_eq_ok.mp h
  cases h
  exact Program.actSpec_post (P := rdvWrite) hp rfl rfl rfl rfl rfl rfl

theorem handleWriteCompletion_spec {wc : Wc Msg}
    (h : handleWriteCompletion (env.device r) wc st = .ok st') :
    rdvWrite.ActSpec env r k n (.post .sendWithImm) st st' := by
  obtain ⟨-, -, h⟩ := bind_eq_ok.mp h
  obtain ⟨addr, -, h⟩ := bind_eq_ok.mp h
  obtain ⟨ctx, -, h⟩ := bind_eq_ok.mp h
  rcases hrc : ctx.recvCtx with _ | recvCtx <;> rw [hrc] at h
  · cases h
  · obtain ⟨heap, -, h⟩ := bind_eq_ok.mp h
    obtain ⟨⟨ret, host⟩, hp, h⟩ := bind_eq_ok.mp h
    obtain ⟨-, -, h⟩ := bind_eq_ok.mp h
    cases h
    exact Program.actSpec_post (P := rdvWrite) hp rfl rfl rfl rfl rfl rfl

theorem handleFIN_spec {wc : Wc Msg} (h : handleFIN wc st = .ok st') :
    rdvWrite.ActSpec env r k n .internal st st' := by
  obtain ⟨-, -, h⟩ := bind_eq_ok.mp h
  obtain ⟨m, -, h⟩ := bind_eq_ok.mp h
  obtain ⟨heap, -, h⟩ := bind_eq_ok.mp h
  cases h
  exact ⟨rfl, rfl⟩

end

theorem scripted : rdvWrite.WellScripted act where
  exec_spec := by
    intro env r k n stmt st st' h
    cases stmt with
    | writeBuffer => exact (Except.ok.inj h).symm
    | postRTS => exact postRTS_spec h
    | pollSentRTS | pollSentFIN | pollSentRTR =>
      exact Program.actSpec_pollSendStep (P := rdvWrite) h
    | pollWritten =>
      have hpoll : st.pollSendStep (fun _ ↦ true) "" = .ok st' := h
      exact Program.actSpec_pollSendStep (P := rdvWrite) hpoll
    | pollRecvRTR | pollRecvRTS | pollRecvFIN =>
      exact Program.actSpec_pollRecvStep (P := rdvWrite) h
    | repostRTR | repostRTS | repostFIN => exact Program.actSpec_repostStep (P := rdvWrite) h
    | handleRTR =>
      obtain ⟨wc, -, h⟩ := bind_eq_ok.mp h
      exact handleRTR_spec h
    | handleWriteCompletion =>
      obtain ⟨wc, -, h⟩ := bind_eq_ok.mp h
      exact handleWriteCompletion_spec h
    | handleRTS =>
      obtain ⟨wc, -, h⟩ := bind_eq_ok.mp h
      exact handleRTS_spec h
    | handleFIN =>
      obtain ⟨wc, -, h⟩ := bind_eq_ok.mp h
      exact handleFIN_spec h
    | checkBuffer => exact RankState.checkRecvBuf_eq_ok h
  length_pos := by decide
  post_le := by decide
  post_eq := by decide
  repost_le := by decide
  repost_eq := by decide
  repost_after := by decide

/-! ## The statements, on what is announced -/

section

variable {env : rdvWrite.Env} {r : Rank} {k : ℕ} {st st' : State}

/-- The statements that are neither handlers nor posts leave the contexts alone, and the next one
finds them as it expects them. -/
theorem keeps (r : Rank) (k : ℕ) {ℓ : Stmt} (hp : (act ℓ).isPost = false) (hi : act ℓ ≠ .internal) :
    protocol.Keeps env act r k ℓ where
  isPost := hp
  heapAt := by
    cases ℓ <;> first | exact absurd hp (by decide) | exact absurd rfl hi | (cases r <;> rfl)
  own _ _ _ := trivial

theorem postRTS_safe (h : protocol.Ready env act r k .postRTS st) :
    Safe (exec env r k (env.size k) .postRTS st) (protocol.Done env act r k .postRTS) := by
  have hheap : st.heap = .spent (sendTurn r k) := h.heap
  have hroom : st.host.nic.sqUsed < (env.device r).config.maxSendNum := env.room (h.room rfl)
  simp only [exec, postRTS, hheap]
  rw [postSendImm_eq r.peer_ne hroom]
  simp only [ok_bind, beq_self_eq_true, mlogAssert_true]
  exact safe_ok.mpr ⟨rfl, trivial, fun _ ↦ ⟨_, _, rfl, rfl, fun _ ↦ inlineData_getD ..⟩⟩

/-- The completion of the RDMA_WRITE. -/
def writtenWc (env : rdvWrite.Env) (r : Rank) (k : ℕ) : Wc Msg where
  wrId := .ctx (env.sendCtx r k)
  status := .success
  opcode := .rdmaWrite
  qpNum := env.qpNum r r.peer

theorem handleRTS_safe (h : protocol.Ready env act r k .handleRTS st) :
    Safe (exec env r k (env.size k) .handleRTS st) (protocol.Done env act r k .handleRTS) := by
  have hheap : st.heap = .spent (recvTurn r k) := h.heap
  have hroom : st.host.nic.sqUsed < (env.device r).config.maxSendNum := env.room (h.room rfl)
  have hwc : st.getWc = .ok (env.controlWc r MsgType.rts.code (.rts (rtsOf env r.peer k))) :=
    st.getWc_eq (h.wc _ rfl)
  have hmsg : st.derefMsg Msg.asRTS (.reg (.msg .controlRecvBuf)) = .ok (rtsOf env r.peer k) :=
    st.derefMsg_eq (h.msg rfl rfl rfl) rfl
  simp only [exec, hwc, ok_bind, handleRTS, Env.controlWc, hmsg, beq_self_eq_true, Bool.and_self,
    mlogAssert_true, rtsOf, Nat.le_refl, decide_true, env.qp2rank_peer, hheap]
  rw [postSendImm_eq r.peer_ne hroom]
  simp only [ok_bind, beq_self_eq_true, mlogAssert_true]
  exact safe_ok.mpr ⟨rfl, trivial, fun _ ↦ ⟨_, _, rfl, rfl, fun _ ↦ inlineData_getD ..⟩⟩

theorem handleRTR_safe (h : protocol.Ready env act r k .handleRTR st) :
    Safe (exec env r k (env.size k) .handleRTR st) (protocol.Done env act r k .handleRTR) := by
  have hheap : st.heap = .holding (sendTurn r k) (protocol.cell env r k .handleRTR) := h.heap
  have hroom : st.host.nic.sqUsed < (env.device r).config.maxSendNum := env.room (h.room rfl)
  have hwc : st.getWc = .ok (env.controlWc r MsgType.rtr.code (.rtr (rtrOf env r.peer k))) :=
    st.getWc_eq (h.wc _ rfl)
  have hmsg : st.derefMsg Msg.asRTR (.reg (.msg .controlRecvBuf)) = .ok (rtrOf env r.peer k) :=
    st.derefMsg_eq (h.msg rfl rfl rfl) rfl
  -- the context comes back from the peer
  have hctx : (rtrOf env r.peer k).sendCtx = env.sendCtx r k := by rw [rtrOf, Rank.peer_peer]
  have hderef : (Heap.holding (sendTurn r k) (protocol.cell env r k .handleRTR)).deref Ctx.asSend
      (env.sendCtx r k) = .ok (sendCtxOf env r k none) := Heap.deref_holding rfl rfl
  have hstore (obj : Ctx) : (Heap.holding (sendTurn r k) (protocol.cell env r k .handleRTR)).store
      (env.sendCtx r k) obj
        = .ok (.holding (sendTurn r k) { protocol.cell env r k .handleRTR with obj }) :=
    Heap.store_holding rfl obj
  simp only [exec, hwc, ok_bind, handleRTR, Env.controlWc, hmsg, beq_self_eq_true, Bool.and_self,
    mlogAssert_true, env.qp2rank_peer, hctx, hheap, hderef, hstore]
  rw [postWrite_eq r.peer_ne hroom]
  simp only [ok_bind, beq_self_eq_true, mlogAssert_true]
  refine safe_ok.mpr ⟨rfl, trivial, fun _ ↦ ⟨_, _, rfl, rfl, fun _ ↦ ?_⟩⟩
  exact (inlineData_getD ..).trans (congrArg Data.bytes (h.sendBuf rfl))

theorem handleWriteCompletion_safe (h : protocol.Ready env act r k .handleWriteCompletion st) :
    Safe (exec env r k (env.size k) .handleWriteCompletion st)
      (protocol.Done env act r k .handleWriteCompletion) := by
  have hheap : st.heap
      = .holding (sendTurn r k) (protocol.cell env r k .handleWriteCompletion) := h.heap
  have hroom : st.host.nic.sqUsed < (env.device r).config.maxSendNum := env.room (h.room rfl)
  have hwc : st.getWc = .ok (writtenWc env r k) := st.getWc_eq (h.wc _ rfl)
  have hderef : (Heap.holding (sendTurn r k) (protocol.cell env r k .handleWriteCompletion)).deref
      Ctx.asSend (env.sendCtx r k) = .ok (sendCtxOf env r k (some (env.recvCtx r.peer k))) :=
    Heap.deref_holding rfl rfl
  have hdelete : (Heap.holding (sendTurn r k) (protocol.cell env r k .handleWriteCompletion)).delete
      Ctx.asSend (env.sendCtx r k) = .ok (.spent (sendTurn r k + 1)) :=
    Heap.delete_holding rfl rfl rfl
  simp only [exec, hwc, ok_bind, handleWriteCompletion, writtenWc, beq_self_eq_true, Bool.and_self,
    mlogAssert_true, ctxOfWrId, env.qp2rank_peer, hheap, hderef, sendCtxOf, hdelete]
  rw [postSendImm_eq r.peer_ne hroom]
  simp only [ok_bind, beq_self_eq_true, mlogAssert_true]
  exact safe_ok.mpr ⟨rfl, trivial, fun _ ↦ ⟨_, _, rfl, rfl, fun _ ↦ inlineData_getD ..⟩⟩

theorem handleFIN_safe (h : protocol.Ready env act r k .handleFIN st) :
    Safe (exec env r k (env.size k) .handleFIN st) (protocol.Done env act r k .handleFIN) := by
  have hheap : st.heap = .holding (recvTurn r k) (protocol.cell env r k .handleFIN) := h.heap
  have hwc : st.getWc = .ok (env.controlWc r MsgType.fin.code (.fin (finOf env r.peer k))) :=
    st.getWc_eq (h.wc _ rfl)
  have hmsg : st.derefMsg Msg.asFIN (.reg (.msg .controlRecvBuf)) = .ok (finOf env r.peer k) :=
    st.derefMsg_eq (h.msg rfl rfl rfl) rfl
  have hctx : (finOf env r.peer k).recvCtx = env.recvCtx r k := by rw [finOf, Rank.peer_peer]
  have hdelete : (Heap.holding (recvTurn r k) (protocol.cell env r k .handleFIN)).delete
      Ctx.asRecv (env.recvCtx r k) = .ok (.spent (recvTurn r k + 1)) :=
    Heap.delete_holding rfl rfl rfl
  simp only [exec, hwc, ok_bind, handleFIN, Env.controlWc, hmsg, beq_self_eq_true, mlogAssert_true,
    hctx, hheap, hdelete]
  exact safe_ok.mpr ⟨rfl, trivial, fun h ↦ by cases h⟩

/-- **Every statement does what is announced.** -/
theorem exec_safe {ℓ : Stmt} (h : protocol.Ready env act r k ℓ st) :
    Safe (exec env r k (env.size k) ℓ st) (protocol.Done env act r k ℓ) := by
  cases ℓ with
  | postRTS => exact postRTS_safe h
  | handleRTS => exact handleRTS_safe h
  | handleRTR => exact handleRTR_safe h
  | handleWriteCompletion => exact handleWriteCompletion_safe h
  | handleFIN => exact handleFIN_safe h
  | writeBuffer => exact Protocol.Keeps.fill (keeps r k (by decide) (by decide)) h
  | checkBuffer => exact Protocol.Keeps.check (keeps r k (by decide) (by decide)) h rfl
  | pollSentRTS | pollSentFIN | pollSentRTR =>
    exact Protocol.Keeps.pollSend (keeps r k (by decide) (by decide)) h rfl rfl
  | pollWritten =>
    have hpoll : Safe (st.pollSendStep (fun _ ↦ true) "") (protocol.Done env act r k .pollWritten) :=
      Protocol.Keeps.pollSend (keeps r k (by decide) (by decide)) h rfl rfl
    exact hpoll
  | pollRecvRTR | pollRecvRTS | pollRecvFIN =>
    exact Protocol.Keeps.pollRecv (keeps r k (by decide) (by decide)) h rfl rfl
  | repostRTR | repostRTS | repostFIN => exact Protocol.Keeps.repost (keeps r k (by decide) (by decide)) h rfl

end

/-! ## The two scripts together -/

/-- Where `check_buffer` stands among the messages of a round. -/
theorem check_table : ∀ r pc (h : pc < (lambda r).length), (lambda r)[pc] = .checkBuffer →
    Protocol.passed (P := rdvWrite) act Act.isPostRecv r pc = (if r = .r0 then 3 else 1) ∧
    Protocol.passed (P := rdvWrite) act Act.isPollRecv r pc = (if r = .r0 then 3 else 2) := by
  decide

/-- Where the RDMA_WRITE stands among the messages of a round: it is posted between taking the RTR
and posting the FIN. -/
theorem write_table : ∀ r pc (h : pc < (lambda r).length),
    Protocol.passed (P := rdvWrite) act Act.isPostRecv r pc ≤ 3 ∧
    ((if r = .r0 then 2 else 3) ≤ Protocol.passed (P := rdvWrite) act Act.isPostRecv r pc →
      Protocol.passed (P := rdvWrite) act Act.isPostWrite r pc = 1 ∧
        (lambda r)[pc] ≠ .pollWritten) ∧
    (Protocol.passed (P := rdvWrite) act Act.isPollRecv r pc = 0 →
      Protocol.passed (P := rdvWrite) act Act.isPostWrite r pc = 0 ∧
        (lambda r)[pc] ≠ .pollWritten) := by
  decide

/-- At `check_buffer` the RDMA_WRITE of the round has completed, and the next one has not been
posted. -/
theorem checks {env : rdvWrite.Env} {s : rdvWrite.Sys} {r : Rank} (hc : rdvWrite.Ctl act env s)
    (hℓ : (lambda r)[(s r).pc]? = some .checkBuffer) :
    Protocol.transfers act r s = (s r).iter + 1 ∧
      (lambda r.peer)[(s r.peer).pc]? ≠ some .pollWritten := by
  obtain ⟨hpc, hget⟩ := Protocol.exists_getElem (P := rdvWrite) hℓ
  have hpc' := (hc.node r.peer).pc_lt
  obtain ⟨hposts, hpolls⟩ := check_table r _ hpc hget
  obtain ⟨hle, hpast, hbefore⟩ := write_table r.peer _ hpc'
  have h1 := Protocol.polled_le_posted placed hc r
  have h2 := Protocol.polled_le_posted placed hc r.peer
  rw [Rank.peer_peer] at h2
  rw [hpolls] at h1
  rw [hposts] at h2
  have hwrites : (rdvWrite.lambda r.peer).countP (Act.isPostWrite ∘ act) = 1 :=
    (by decide : ∀ r, (lambda r).countP (Act.isPostWrite ∘ act) = 1) r.peer
  rw [Protocol.transfers, Protocol.cnt_eq, hwrites,
    Protocol.cnt_eq_zero ((by decide : ∀ r, (lambda r).countP (Act.isPostRead ∘ act) = 0) r),
    List.getElem?_eq_getElem hpc', Nat.mul_one, Nat.add_zero]
  have hM : protocol.perRound = 3 := rfl
  rw [hM] at h1 h2
  have hdone (h : (s r.peer).iter + Protocol.passed (P := rdvWrite) act Act.isPostWrite r.peer
      (s r.peer).pc = (s r).iter + 1 ∧ (lambda r.peer)[(s r.peer).pc] ≠ .pollWritten) :
      (s r.peer).iter + Protocol.passed (P := rdvWrite) act Act.isPostWrite r.peer
        (s r.peer).pc = (s r).iter + 1 ∧
      some (lambda r.peer)[(s r.peer).pc] ≠ some .pollWritten :=
    ⟨h.1, fun he ↦ h.2 (Option.some.inj he)⟩
  refine hdone ?_
  -- rank 1 sends after rank 0 has checked, and may be in its next round by then
  cases r with
  | r0 =>
    simp only [if_true, Rank.peer, reduceCtorEq, if_false] at *
    by_cases hk : (s .r1).iter = (s .r0).iter
    · obtain ⟨hw, hne⟩ := hpast (by omega)
      exact ⟨by omega, hne⟩
    · obtain ⟨hw, hne⟩ := hbefore (by omega)
      exact ⟨by omega, hne⟩
  | r1 =>
    simp only [if_true, Rank.peer, reduceCtorEq, if_false] at *
    obtain ⟨hw, hne⟩ := hpast (by omega)
    exact ⟨by omega, hne⟩

theorem moves (env : rdvWrite.Env) (r : Rank) (k : ℕ) {ℓ : Stmt} (h : act ℓ = .pollSend) :
    protocol.Moves env r k ℓ := by
  have hlen (n : ℕ) (hn : n ≤ sizeofRTRMsg) : n ≤ env.cacheLineSize :=
    Nat.le_trans hn env.cacheLineSize_ge
  cases ℓ <;> first | exact absurd h (by decide) | skip
  case pollSentRTS => exact ⟨hlen sizeofRTSMsg (by decide), ⟨.rtsMsg, by decide, rfl⟩, _, rfl⟩
  case pollSentRTR => exact ⟨hlen sizeofRTRMsg (by decide), ⟨.rtrMsg, by decide, rfl⟩, _, rfl⟩
  case pollSentFIN => exact ⟨hlen sizeofFINMsg (by decide), ⟨.finMsg, by decide, rfl⟩, _, rfl⟩
  case pollWritten => exact ⟨rfl, rfl, rfl⟩

/-- **`ibv_pingpong_rdv_write` does what it announces.** -/
theorem lawful : protocol.Lawful act where
  scripted := scripted
  placed := placed
  recvWr _ _ := rfl
  opcode env r k ℓ h := by cases ℓ <;> first | exact absurd h (by decide) | rfl
  keys env r k ℓ h := by
    cases ℓ <;> first | exact absurd h (by decide) | exact ⟨rfl, fun _ ↦ rfl⟩ |
      exact ⟨rfl, fun h ↦ by cases h⟩
  moves env r k ℓ h := moves env r k h
  reads_filled _ _ _ _ h := absurd h (op_ne_rdmaRead _)
  checks {env s r ℓ} hc _ hℓ ha := by
    obtain rfl : ℓ = .checkBuffer := by cases ℓ <;> first | rfl | cases ha
    obtain ⟨h1, h2⟩ := checks hc hℓ
    refine ⟨h1, fun ℓ' hℓ' _ hw ↦ ?_⟩
    obtain rfl : ℓ' = .pollWritten := by cases ℓ' <;> first | rfl | cases hw
    exact absurd hℓ' h2
  setup := by
    refine safe_ok.mpr fun env r ℓ m hℓ ↦ ?_
    cases r <;> cases hℓ <;> exact ⟨rfl, rfl, trivial⟩
  exec_safe _ _ h := exec_safe h

end RdvWrite

/-- **The four-step write rendezvous is safe.**  In every state that any interleaving of the two
ranks, deliveries and completions reaches, for every sequence of sizes:

* no step faults: no assertion fails, every message is of the type of its handler, every context that
  is dereferenced or deleted is live on its own rank, and no queue overflows;
* a handler that looks at `control_recv_buf` finds the message whose completion it was given;
* no step changes what an outstanding request is sent from, be it a message slot or `send_buf`;
* the FIN names the `RecvCtx` that `handleRTS` allocated in this round;
* at `check_buffer` the receive buffer holds the bytes that the peer wrote in this round. -/
theorem rdvWrite_safe {env : rdvWrite.Env} {s : rdvWrite.Sys}
    (hs : (rdvWrite.machine env).Reachable s) :
    (∀ a f, rdvWrite.step env s a ≠ .error (.fault f)) ∧
    (∀ r ℓ, rdvWrite.stmt env r (s r) = some ℓ →
      ℓ = .handleRTS ∨ ℓ = .handleRTR ∨ ℓ = .handleFIN →
      ∃ wc, (s r).st.wc = some wc ∧ wc.wrId = .reg (.msg .controlRecvBuf) ∧
        wc.payload = some (.msg ((s r).mem.msg .controlRecvBuf))) ∧
    (∀ a s', rdvWrite.step env s a = .ok s' → ∀ r, ∀ w ∈ (s r).nic.outstanding,
      (s' r).mem.dmaRead w.addr w.length = (s r).mem.dmaRead w.addr w.length) ∧
    (∀ r, rdvWrite.stmt env r (s r) = some .handleFIN → ∃ m c ctx,
      (s r).mem.msg .controlRecvBuf = some (.fin m) ∧ (s r).st.heap.live = [c] ∧
        c.addr = m.recvCtx ∧ c.round = (s r).iter ∧ c.obj = .recv ctx) ∧
    (∀ r, rdvWrite.stmt env r (s r) = some .checkBuffer →
      (s r).mem.bytes .recvBuf (env.size (s r).iter) = env.sentBytes r.peer (s r).iter) := by
  obtain ⟨⟨hc, hi⟩, hsafe⟩ := Protocol.reachable_safe RdvWrite.lawful hs
  refine ⟨hsafe, ?_, ?_, ?_, ?_⟩
  · intro r ℓ hℓ hcase
    obtain ⟨-, hready⟩ := Protocol.ready_of_stmt RdvWrite.lawful hc hi hℓ
    rcases hcase with rfl | rfl | rfl <;>
      exact Protocol.reads_polled RdvWrite.lawful hready rfl rfl rfl
  · intro a s' hstep r w hw
    refine Protocol.outstanding_stable RdvWrite.lawful hc hi hstep hw ?_
    obtain ⟨-, _, -, -, hop⟩ := Protocol.outstanding_eq RdvWrite.lawful hc hi hw
    rw [hop]
    exact RdvWrite.op_ne_rdmaRead _
  · intro r hℓ
    obtain ⟨-, hready⟩ := Protocol.ready_of_stmt RdvWrite.lawful hc hi hℓ
    refine ⟨RdvWrite.finOf env r.peer (s r).iter, _, RdvWrite.recvCtxOf env r (s r).iter,
      hready.msg rfl rfl rfl, by rw [hready.heap]; rfl, ?_, rfl, rfl⟩
    rw [RdvWrite.finOf, Rank.peer_peer]
    rfl
  · intro r hℓ
    obtain ⟨-, hready⟩ := Protocol.ready_of_stmt RdvWrite.lawful hc hi hℓ
    exact hready.recvBuf rfl

/-- One message of two bytes, as far as the `check_buffer` of rank 1. -/
def RdvWrite.firstMessage : List Action :=
  [.rank .r0, .rank .r1, .rank .r0, .rank .r0, .deliver .r0, .rank .r1, .rank .r1, .rank .r1,
   .complete .r0, .deliver .r1, .complete .r1, .rank .r1, .rank .r0, .rank .r0, .rank .r0,
   .rank .r0, .deliver .r0, .complete .r0, .rank .r0, .rank .r0, .deliver .r0, .rank .r1,
   .rank .r1, .rank .r1]

/-- The state they lead to. -/
def RdvWrite.firstCheck : rdvWrite.Sys :=
  (rdvWrite.machine (.small RdvWrite.Msg [2])).result (rdvWrite.start (.small _ [2]))
    RdvWrite.firstMessage

theorem rdvWrite_safe_firstCheck :
    rdvWrite.stmt (.small _ [2]) .r1 (RdvWrite.firstCheck .r1) = some .checkBuffer ∧
      (RdvWrite.firstCheck .r1).mem.bytes .recvBuf 2 = [⟨97, some 0⟩, ⟨97, some 0⟩] := by
  have hstmt : rdvWrite.stmt (.small _ [2]) .r1 (RdvWrite.firstCheck .r1)
      = some .checkBuffer := by decide
  have hbytes := (rdvWrite_safe (Machine.reachable_result (.init rfl) RdvWrite.firstMessage)).2.2.2.2
    .r1 hstmt
  exact ⟨hstmt, hbytes⟩

end IbvBench
