import IbvBench.Rendezvous.WriteImm
import IbvBench.Protocol.Safety
import IbvBench.Protocol.Statements

/-!
# The three-step write rendezvous does what it announces

Which contexts, messages, bytes and archive entries are where at each statement of
`ibv_pingpong_rdv_write_imm` (`RdvWriteImm.protocol`), and that it is so (`RdvWriteImm.lawful`).  The
results are at the end: `rdvWriteImm_safe`, for every environment and every interleaving.

The archive holds the live `RecvCtx` and nothing else, so its key is always the one that `put` tries
first, and it fits in the 16 bits that the RTR has for it.
-/

set_option autoImplicit false

namespace IbvBench

open StepMachine

namespace RdvWriteImm

instance : DecidableEq rdvWriteImm.Stmt := inferInstanceAs (DecidableEq Stmt)

/-! ## The archive -/

/-- The archive when no context is in it. -/
def emptyArchive : LCMArchive := (LCMArchive.init 10).2

/-- The archive when the context at `ctx` is in it. -/
def archiveOf (ctx : ℕ) : LCMArchive :=
  { emptyArchive with val := Function.update emptyArchive.val (emptyArchive.hash ctx) ctx }

/-- The key of a context. -/
def keyOf (ctx : ℕ) : ℕ := emptyArchive.hash ctx

theorem keyOf_lt (ctx : ℕ) : keyOf ctx < 2 ^ 10 := emptyArchive.hash_lt_cap ctx

/-- The key survives the cast to `uint16_t`. -/
theorem keyOf_mod (ctx : ℕ) : keyOf ctx % 2 ^ 16 = keyOf ctx :=
  Nat.mod_eq_of_lt (Nat.lt_trans (keyOf_lt ctx) (by decide))

theorem put_emptyArchive (ctx : ℕ) :
    emptyArchive.put ctx = .ok (some (keyOf ctx), archiveOf ctx) :=
  LCMArchive.put_eq rfl

/-- The key leads back to the context, and the archive is empty again. -/
theorem remove_archiveOf (ctx : ℕ) :
    (archiveOf ctx).remove (keyOf ctx) = .ok (ctx, emptyArchive) := by
  have hval : (archiveOf ctx).val (keyOf ctx) = ctx := Function.update_self ..
  have hempty : Function.update (archiveOf ctx).val (keyOf ctx) LCMArchive.emptyVal
      = emptyArchive.val := by
    rw [archiveOf, keyOf, Function.update_idem]
    exact Function.update_eq_self (f := emptyArchive.val) _
  rw [LCMArchive.remove_eq (keyOf_lt ctx), hval, hempty]
  rfl

/-! ## Announcements -/

def act : Stmt → Act
  | .writeBuffer => .fill
  | .postRTS | .handleRTS => .post .sendWithImm
  | .handleRTR => .post .rdmaWriteWithImm
  | .pollSentRTS | .pollSentRTR | .pollWritten => .pollSend
  | .pollRecvRTS | .pollRecvRTR | .pollRecvImm => .pollRecv
  | .repostRTS | .repostRTR | .repostImm => .repost
  | .handleWriteImm => .internal
  | .checkBuffer => .check

section

variable (env : rdvWriteImm.Env) (r : Rank) (k : ℕ)

/-- The RTS of a round. -/
def rtsOf : RTSMsg where
  sendCtx := env.sendCtx r k
  size := env.size k

/-- The RTR of a round. -/
def rtrOf : RTRMsg where
  sendCtx := env.sendCtx r.peer k
  remoteAddr := .buf .recvBuf
  rkey := (env.mr r).rkey
  recvCtxKey := keyOf (env.recvCtx r k)

/-- The RDMA_WRITE_WITH_IMM of a round. -/
def writeWr : SendWr Msg where
  wrId := .null
  opcode := .rdmaWriteWithImm
  addr := .buf .sendBuf
  length := env.size k
  lkey := (env.mr r).lkey
  remoteAddr := .buf .recvBuf
  rkey := (env.mr r.peer).rkey
  immData := keyOf (env.recvCtx r.peer k)

def wr : Stmt → SendWr Msg
  | .pollSentRTR => env.controlWr r .null .rtrMsg sizeofRTRMsg MsgType.rtr.code
  | .pollWritten => writeWr env r k
  | _ => env.controlWr r .null .rtsMsg sizeofRTSMsg MsgType.rts.code

def data : Stmt → Data Msg
  | .pollSentRTR => .msg (some (.rtr (rtrOf env r k)))
  | .pollWritten => .bytes (env.sentBytes r k)
  | _ => .msg (some (.rts (rtsOf env r k)))

/-- The `SendCtx` of a round. -/
def sendCtxOf : SendCtx where
  buf := .buf .sendBuf
  size := env.size k
  mr := env.mr r
  userContext := .null

/-- The `RecvCtx` of a round. -/
def recvCtxOf : RecvCtx where
  buf := .buf .recvBuf
  size := env.size k
  mr := env.mr r
  userContext := .null

def sender : Stmt → Bool
  | .writeBuffer | .postRTS | .pollSentRTS | .pollRecvRTR | .repostRTR | .handleRTR
  | .pollWritten => true
  | _ => false

def obj (ℓ : Stmt) : Ctx :=
  if sender ℓ then .send (sendCtxOf env r k) else .recv (recvCtxOf env r k)

end

def op : Stmt → WrOpcode
  | .pollWritten => .rdmaWriteWithImm
  | _ => .sendWithImm

theorem op_ne_rdmaRead (ℓ : Stmt) : op ℓ ≠ .rdmaRead := by
  cases ℓ <;> decide

def sendAt : Rank → ℕ → Stmt
  | .r0, 0 => .pollSentRTS
  | .r0, 1 => .pollWritten
  | .r0, _ => .pollSentRTR
  | .r1, 0 => .pollSentRTR
  | .r1, 1 => .pollSentRTS
  | .r1, _ => .pollWritten

def expects : Stmt → Stmt
  | .pollRecvRTS => .pollSentRTS
  | .pollRecvRTR => .pollSentRTR
  | _ => .pollWritten

def handles : Stmt → Option Stmt
  | .repostRTR | .handleRTR => some .pollRecvRTR
  | .repostRTS | .handleRTS => some .pollRecvRTS
  | .repostImm | .handleWriteImm => some .pollRecvImm
  | _ => none

def reads : Stmt → Bool
  | .handleRTR | .handleRTS => true
  | _ => false

def succ : Stmt → Stmt
  | .writeBuffer => .postRTS
  | .postRTS => .pollSentRTS
  | .pollSentRTS => .pollRecvRTR
  | .pollRecvRTR => .repostRTR
  | .repostRTR => .handleRTR
  | .handleRTR => .pollWritten
  | .pollWritten => .pollRecvRTS
  | .pollRecvRTS => .repostRTS
  | .repostRTS => .handleRTS
  | .handleRTS => .pollSentRTR
  | .pollSentRTR => .pollRecvImm
  | .pollRecvImm => .repostImm
  | .repostImm => .handleWriteImm
  | .handleWriteImm => .checkBuffer
  | .checkBuffer => .writeBuffer

def ends (r : Rank) (ℓ : Stmt) : Bool :=
  match ℓ, r with
  | .checkBuffer, .r0 => true
  | .pollWritten, .r1 => true
  | _, _ => false

def phase : Stmt → Phase
  | .writeBuffer | .postRTS | .pollRecvRTS | .repostRTS | .handleRTS => .before
  | .pollWritten | .checkBuffer => .after
  | _ => .live

/-- The archive before a statement: a `RecvCtx` is in it as long as it is live. -/
def archiveAt (env : rdvWriteImm.Env) (r : Rank) (k : ℕ) (ℓ : Stmt) : LCMArchive :=
  if sender ℓ = false ∧ phase ℓ = .live then archiveOf (env.recvCtx r k) else emptyArchive

/-- What `ibv_pingpong_rdv_write_imm` announces.  Rank 0 can be one message ahead of its peer, rank 1
only answers. -/
def protocol : Protocol rdvWriteImm where
  op := op
  wr := wr
  data := data
  perRound := 3
  sendAt := sendAt
  expects := expects
  handles := handles
  reads := reads
  filled := fun ℓ ↦ ℓ == .handleRTR
  ahead := fun r ↦ if r = .r0 then 1 else 0
  succ := succ
  ends := ends
  sender := sender
  phase := phase
  obj := obj
  Local := fun env r k ℓ ext _ ↦ ext = archiveAt env r k ℓ

/-! ## The scripts -/

theorem placed : protocol.Placed act where
  next := by decide
  ends := by decide
  posts := by decide
  waits := by decide
  handles := by decide
  fill := by decide
  filled := by decide
  message := by decide
  write := by decide
  read := by decide
  window := by decide
  receives := by decide
  reads := by decide
  perRound := by decide
  fills := by decide
  oneSided := .inl (by decide)

/-! ## The statements, as the queues see them -/

section

variable {env : rdvWriteImm.Env} {r : Rank} {k n : ℕ} {st st' : State}

theorem postRTS_spec {addr round size : ℕ} {rank : Rank} {buf : RegPtr} {mr : Mr}
    {userContext : WrId}
    (h : postRTS (env.device r) addr round rank buf size mr userContext st = .ok st') :
    rdvWriteImm.ActSpec env r k n (.post .sendWithImm) st st' := by
  obtain ⟨⟨ret, host⟩, hp, h⟩ := bind_eq_ok.mp h
  obtain ⟨-, -, h⟩ := bind_eq_ok.mp h
  cases h
  exact Program.actSpec_post (P := rdvWriteImm) hp rfl rfl rfl rfl rfl rfl

theorem handleRTS_spec {addr round size : ℕ} {wc : Wc Msg} {buf : RegPtr} {mr : Mr}
    {userContext : WrId}
    (h : handleRTS (env.device r) addr round wc buf size mr userContext st = .ok st') :
    rdvWriteImm.ActSpec env r k n (.post .sendWithImm) st st' := by
  obtain ⟨-, -, h⟩ := bind_eq_ok.mp h
  obtain ⟨m, -, h⟩ := bind_eq_ok.mp h
  obtain ⟨-, -, h⟩ := bind_eq_ok.mp h
  obtain ⟨⟨key, ext⟩, -, h⟩ := bind_eq_ok.mp h
  rcases key with _ | ctxKey
  · cases h
  · obtain ⟨⟨ret, host⟩, hp, h⟩ := bind_eq_ok.mp h
    obtain ⟨-, -, h⟩ := bind_eq_ok.mp h
    cases h
    exact Program.actSpec_post (P := rdvWriteImm) hp rfl rfl rfl rfl rfl rfl

theorem handleRTR_spec {wc : Wc Msg} (h : handleRTR (env.device r) wc st = .ok st') :
    rdvWriteImm.ActSpec env r k n (.post .rdmaWriteWithImm) st st' := by
  obtain ⟨-, -, h⟩ := bind_eq_ok.mp h
  obtain ⟨m, -, h⟩ := bind_eq_ok.mp h
  obtain ⟨ctx, -, h⟩ := bind_eq_ok.mp h
  obtain ⟨⟨ret, host⟩, hp, h⟩ := bind_eq_ok.mp h
  obtain ⟨-, -, h⟩ := bind_eq_ok.mp h
  obtain ⟨heap, -, h⟩ := bind_eq_ok.mp h
  cases h
  exact Program.actSpec_post (P := rdvWriteImm) hp rfl rfl rfl rfl rfl rfl

theorem handleWriteImm_spec {wc : Wc Msg} (h : handleWriteImm wc st = .ok st') :
    rdvWriteImm.ActSpec env r k n .internal st st' := by
  obtain ⟨-, -, h⟩ := bind_eq_ok.mp h
  obtain ⟨⟨ctx, ext⟩, -, h⟩ := bind_eq_ok.mp h
  obtain ⟨heap, -, h⟩ := bind_eq_ok.mp h
  cases h
  exact ⟨rfl, rfl⟩

end

theorem scripted : rdvWriteImm.WellScripted act where
  exec_spec := by
    intro env r k n stmt st st' h
    cases stmt with
    | writeBuffer => exact (Except.ok.inj h).symm
    | postRTS => exact postRTS_spec h
    | pollSentRTS | pollSentRTR | pollWritten =>
      exact Program.actSpec_pollSendStep (P := rdvWriteImm) h
    | pollRecvRTR | pollRecvRTS | pollRecvImm =>
      exact Program.actSpec_pollRecvStep (P := rdvWriteImm) h
    | repostRTR | repostRTS | repostImm => exact Program.actSpec_repostStep (P := rdvWriteImm) h
    | handleRTR =>
      obtain ⟨wc, -, h⟩ := bind_eq_ok.mp h
      exact handleRTR_spec h
    | handleRTS =>
      obtain ⟨wc, -, h⟩ := bind_eq_ok.mp h
      exact handleRTS_spec h
    | handleWriteImm =>
      obtain ⟨wc, -, h⟩ := bind_eq_ok.mp h
      exact handleWriteImm_spec h
    | checkBuffer => exact RankState.checkRecvBuf_eq_ok h
  length_pos := by decide
  post_le := by decide
  post_eq := by decide
  repost_le := by decide
  repost_eq := by decide
  repost_after := by decide

/-! ## The statements, on what is announced -/

section

variable {env : rdvWriteImm.Env} {r : Rank} {k : ℕ} {st st' : State}

/-- The statements that are neither handlers nor posts leave the contexts and the archive alone, and
the next one finds them as it expects them. -/
theorem keeps (r : Rank) (k : ℕ) {ℓ : Stmt} (hp : (act ℓ).isPost = false) (hi : act ℓ ≠ .internal) :
    protocol.Keeps env act r k ℓ where
  isPost := hp
  heapAt := by
    cases ℓ <;> first | exact absurd hp (by decide) | exact absurd rfl hi | (cases r <;> rfl)
  own ext m h := by
    have harchive : archiveAt env r (protocol.nextRound r k ℓ) (succ ℓ) = archiveAt env r k ℓ := by
      cases ℓ <;> first | exact absurd hp (by decide) | exact absurd rfl hi | (cases r <;> rfl)
    exact Eq.trans h harchive.symm

theorem postRTS_safe (h : protocol.Ready env act r k .postRTS st) :
    Safe (exec env r k (env.size k) .postRTS st) (protocol.Done env act r k .postRTS) := by
  have hheap : st.heap = .spent (sendTurn r k) := h.heap
  have hroom : st.host.nic.sqUsed < (env.device r).config.maxSendNum := env.room (h.room rfl)
  simp only [exec, postRTS, hheap]
  rw [postSendImm_eq r.peer_ne hroom]
  simp only [ok_bind, beq_self_eq_true, mlogAssert_true]
  exact safe_ok.mpr ⟨rfl, h.own, fun _ ↦ ⟨_, _, rfl, rfl, fun _ ↦ inlineData_getD ..⟩⟩

theorem handleRTS_safe (h : protocol.Ready env act r k .handleRTS st) :
    Safe (exec env r k (env.size k) .handleRTS st) (protocol.Done env act r k .handleRTS) := by
  have hheap : st.heap = .spent (recvTurn r k) := h.heap
  have hroom : st.host.nic.sqUsed < (env.device r).config.maxSendNum := env.room (h.room rfl)
  have hwc : st.getWc = .ok (env.controlWc r MsgType.rts.code (.rts (rtsOf env r.peer k))) :=
    st.getWc_eq (h.wc _ rfl)
  have hmsg : st.derefMsg Msg.asRTS (.reg (.msg .controlRecvBuf)) = .ok (rtsOf env r.peer k) :=
    st.derefMsg_eq (h.msg rfl rfl rfl) rfl
  have hput (addr : ℕ) : st.ext.put addr = .ok (some (keyOf addr), archiveOf addr) := by
    rw [show st.ext = emptyArchive from h.own]
    exact put_emptyArchive addr
  simp only [exec, hwc, ok_bind, handleRTS, Env.controlWc, hmsg, beq_self_eq_true, Bool.and_self,
    mlogAssert_true, rtsOf, Nat.le_refl, decide_true, env.qp2rank_peer, hput, hheap, keyOf_mod]
  rw [postSendImm_eq r.peer_ne hroom]
  simp only [ok_bind, beq_self_eq_true, mlogAssert_true]
  exact safe_ok.mpr ⟨rfl, rfl, fun _ ↦ ⟨_, _, rfl, rfl, fun _ ↦ inlineData_getD ..⟩⟩

theorem handleRTR_safe (h : protocol.Ready env act r k .handleRTR st) :
    Safe (exec env r k (env.size k) .handleRTR st) (protocol.Done env act r k .handleRTR) := by
  have hheap : st.heap = .holding (sendTurn r k) (protocol.cell env r k .handleRTR) := h.heap
  have hroom : st.host.nic.sqUsed < (env.device r).config.maxSendNum := env.room (h.room rfl)
  have hwc : st.getWc = .ok (env.controlWc r MsgType.rtr.code (.rtr (rtrOf env r.peer k))) :=
    st.getWc_eq (h.wc _ rfl)
  have hmsg : st.derefMsg Msg.asRTR (.reg (.msg .controlRecvBuf)) = .ok (rtrOf env r.peer k) :=
    st.derefMsg_eq (h.msg rfl rfl rfl) rfl
  -- the context comes back from the peer
  have hctx : (rtrOf env r.peer k).sendCtx = env.sendCtx r k := by rw [rtrOf, Rank.peer_peer]
  have hderef : (Heap.holding (sendTurn r k) (protocol.cell env r k .handleRTR)).deref Ctx.asSend
      (env.sendCtx r k) = .ok (sendCtxOf env r k) := Heap.deref_holding rfl rfl
  have hdelete : (Heap.holding (sendTurn r k) (protocol.cell env r k .handleRTR)).delete
      Ctx.asSend (env.sendCtx r k) = .ok (.spent (sendTurn r k + 1)) :=
    Heap.delete_holding rfl rfl rfl
  simp only [exec, hwc, ok_bind, handleRTR, Env.controlWc, hmsg, beq_self_eq_true, Bool.and_self,
    mlogAssert_true, env.qp2rank_peer, hctx, hheap, hderef]
  rw [postWriteImm_eq r.peer_ne hroom]
  simp only [ok_bind, beq_self_eq_true, mlogAssert_true, hdelete]
  refine safe_ok.mpr ⟨rfl, h.own, fun _ ↦ ⟨_, _, rfl, rfl, fun _ ↦ ?_⟩⟩
  exact (inlineData_getD ..).trans (congrArg Data.bytes (h.sendBuf rfl))

/-- The completion of the peer's RDMA_WRITE_WITH_IMM. -/
def immWc (env : rdvWriteImm.Env) (r : Rank) (k : ℕ) : Wc Msg where
  wrId := .reg (.msg .controlRecvBuf)
  status := .success
  opcode := .recvRdmaWithImm
  qpNum := env.qpNum r r.peer
  immData := keyOf (env.recvCtx r k)
  payload := some (.bytes (env.sentBytes r.peer k))

theorem completion_pollRecvImm (env : rdvWriteImm.Env) (r : Rank) (k : ℕ) :
    protocol.completion env act r k .pollRecvImm = immWc env r k := by
  cases r <;> rfl

theorem handleWriteImm_safe (h : protocol.Ready env act r k .handleWriteImm st) :
    Safe (exec env r k (env.size k) .handleWriteImm st)
      (protocol.Done env act r k .handleWriteImm) := by
  have hheap : st.heap = .holding (recvTurn r k) (protocol.cell env r k .handleWriteImm) := h.heap
  have hwc : st.getWc = .ok (immWc env r k) := by
    rw [← completion_pollRecvImm]
    exact st.getWc_eq (h.wc _ rfl)
  have hremove : st.ext.remove (keyOf (env.recvCtx r k)) = .ok (env.recvCtx r k, emptyArchive) := by
    rw [show st.ext = archiveOf (env.recvCtx r k) from h.own]
    exact remove_archiveOf _
  have hdelete : (Heap.holding (recvTurn r k) (protocol.cell env r k .handleWriteImm)).delete
      Ctx.asRecv (env.recvCtx r k) = .ok (.spent (recvTurn r k + 1)) :=
    Heap.delete_holding rfl rfl rfl
  simp only [exec, hwc, ok_bind, handleWriteImm, immWc, beq_self_eq_true, Bool.and_self,
    mlogAssert_true, hremove, hheap, hdelete]
  exact safe_ok.mpr ⟨rfl, rfl, fun h ↦ by cases h⟩

/-- **Every statement does what is announced.** -/
theorem exec_safe {ℓ : Stmt} (h : protocol.Ready env act r k ℓ st) :
    Safe (exec env r k (env.size k) ℓ st) (protocol.Done env act r k ℓ) := by
  cases ℓ with
  | postRTS => exact postRTS_safe h
  | handleRTS => exact handleRTS_safe h
  | handleRTR => exact handleRTR_safe h
  | handleWriteImm => exact handleWriteImm_safe h
  | writeBuffer => exact Protocol.Keeps.fill (keeps r k (by decide) (by decide)) h
  | checkBuffer => exact Protocol.Keeps.check (keeps r k (by decide) (by decide)) h rfl
  | pollSentRTS | pollSentRTR | pollWritten =>
    exact Protocol.Keeps.pollSend (keeps r k (by decide) (by decide)) h rfl rfl
  | pollRecvRTR | pollRecvRTS | pollRecvImm =>
    exact Protocol.Keeps.pollRecv (keeps r k (by decide) (by decide)) h rfl rfl
  | repostRTR | repostRTS | repostImm =>
    exact Protocol.Keeps.repost (keeps r k (by decide) (by decide)) h rfl

end

/-! ## The two scripts together -/

/-- Where `check_buffer` stands among the messages of a round. -/
theorem check_table : ∀ r pc (h : pc < (lambda r).length), (lambda r)[pc] = .checkBuffer →
    Protocol.passed (P := rdvWriteImm) act Act.isPostRecv r pc = (if r = .r0 then 3 else 1) ∧
    Protocol.passed (P := rdvWriteImm) act Act.isPollRecv r pc = (if r = .r0 then 3 else 2) := by
  decide

/-- Where the RDMA_WRITE_WITH_IMM stands among the messages of a round: it is the second one of rank
0, and the third one of rank 1. -/
theorem write_table : ∀ r pc (h : pc < (lambda r).length),
    Protocol.passed (P := rdvWriteImm) act Act.isPostRecv r pc ≤ 3 ∧
    ((if r = .r0 then 2 else 3) ≤ Protocol.passed (P := rdvWriteImm) act Act.isPostRecv r pc →
      Protocol.passed (P := rdvWriteImm) act Act.isPostWrite r pc = 1) ∧
    (Protocol.passed (P := rdvWriteImm) act Act.isPollRecv r pc = 0 →
      Protocol.passed (P := rdvWriteImm) act Act.isPostWrite r pc = 0 ∧
        (lambda r)[pc] ≠ .pollWritten) ∧
    ((lambda r)[pc] = .pollWritten →
      Protocol.passed (P := rdvWriteImm) act Act.isPostRecv r pc = if r = .r0 then 2 else 3) := by
  decide

/-- At `check_buffer` the RDMA_WRITE_WITH_IMM of the round has landed, and the next one has not been
posted. -/
theorem checks {env : rdvWriteImm.Env} {s : rdvWriteImm.Sys} {r : Rank}
    (hc : rdvWriteImm.Ctl act env s) (hℓ : (lambda r)[(s r).pc]? = some .checkBuffer) :
    Protocol.transfers act r s = (s r).iter + 1 ∧
      ((lambda r.peer)[(s r.peer).pc]? = some .pollWritten →
        (s r.peer).nic.sq.countP SendWr.consumesRecv = 0) := by
  obtain ⟨hpc, hget⟩ := Protocol.exists_getElem (P := rdvWriteImm) hℓ
  have hpc' := (hc.node r.peer).pc_lt
  obtain ⟨hposts, hpolls⟩ := check_table r _ hpc hget
  obtain ⟨hle, hpast, hbefore, hat⟩ := write_table r.peer _ hpc'
  have h1 := Protocol.polled_add_pending_le placed hc r
  have h2 := Protocol.polled_le_posted placed hc r.peer
  rw [Rank.peer_peer] at h2
  rw [hpolls] at h1
  rw [hposts] at h2
  have hwrites : (rdvWriteImm.lambda r.peer).countP (Act.isPostWrite ∘ act) = 1 :=
    (by decide : ∀ r, (lambda r).countP (Act.isPostWrite ∘ act) = 1) r.peer
  rw [Protocol.transfers, Protocol.cnt_eq, hwrites,
    Protocol.cnt_eq_zero ((by decide : ∀ r, (lambda r).countP (Act.isPostRead ∘ act) = 0) r),
    List.getElem?_eq_getElem hpc', Nat.mul_one, Nat.add_zero]
  have hM : protocol.perRound = 3 := rfl
  rw [hM] at h1 h2
  -- rank 1 sends after rank 0 has checked, and may be in its next round by then
  cases r with
  | r0 =>
    simp only [if_true, Rank.peer, reduceCtorEq, if_false] at *
    by_cases hk : (s .r1).iter = (s .r0).iter
    · have hw := hpast (by omega)
      refine ⟨by omega, fun he ↦ ?_⟩
      have hp := hat (Option.some.inj he)
      omega
    · obtain ⟨hw, hne⟩ := hbefore (by omega)
      exact ⟨by omega, fun he ↦ absurd (Option.some.inj he) hne⟩
  | r1 =>
    simp only [if_true, Rank.peer, reduceCtorEq, if_false] at *
    have hw := hpast (by omega)
    refine ⟨by omega, fun he ↦ ?_⟩
    have hp := hat (Option.some.inj he)
    omega

theorem moves (env : rdvWriteImm.Env) (r : Rank) (k : ℕ) {ℓ : Stmt} (h : act ℓ = .pollSend) :
    protocol.Moves env r k ℓ := by
  have hlen (n : ℕ) (hn : n ≤ sizeofRTRMsg) : n ≤ env.cacheLineSize :=
    Nat.le_trans hn env.cacheLineSize_ge
  cases ℓ <;> first | exact absurd h (by decide) | skip
  case pollSentRTS => exact ⟨hlen sizeofRTSMsg (by decide), ⟨.rtsMsg, by decide, rfl⟩, _, rfl⟩
  case pollSentRTR => exact ⟨hlen sizeofRTRMsg (by decide), ⟨.rtrMsg, by decide, rfl⟩, _, rfl⟩
  case pollWritten => exact ⟨rfl, rfl, rfl⟩

/-- **`ibv_pingpong_rdv_write_imm` does what it announces.** -/
theorem lawful : protocol.Lawful act where
  scripted := scripted
  placed := placed
  recvWr _ _ := rfl
  opcode env r k ℓ h := by cases ℓ <;> first | exact absurd h (by decide) | rfl
  keys env r k ℓ h := by
    cases ℓ <;> first | exact absurd h (by decide) | exact ⟨rfl, fun _ ↦ rfl⟩ |
      exact ⟨rfl, fun h ↦ by cases h⟩
  moves env r k ℓ h := moves env r k h
  reads_filled _ _ _ _ h := absurd h (op_ne_rdmaRead _)
  checks {env s r ℓ} hc _ hℓ ha := by
    obtain rfl : ℓ = .checkBuffer := by cases ℓ <;> first | rfl | cases ha
    obtain ⟨h1, h2⟩ := checks hc hℓ
    refine ⟨h1, fun ℓ' hℓ' _ hw ↦ ?_⟩
    obtain rfl : ℓ' = .pollWritten := by cases ℓ' <;> first | rfl | cases hw
    exact ⟨rfl, h2 hℓ'⟩
  setup := by
    refine safe_ok.mpr fun env r ℓ m hℓ ↦ ?_
    cases r <;> cases hℓ <;> exact ⟨rfl, rfl, rfl⟩
  exec_safe _ _ h := exec_safe h

end RdvWriteImm

/-- **The three-step write rendezvous is safe.**  In every state that any interleaving of the two
ranks, deliveries and completions reaches, for every sequence of sizes:

* no step faults: no assertion fails, so in particular the archive is never full and every completion
  has the opcode expected; every context that is dereferenced or deleted is live on its own rank, and
  no queue overflows;
* a handler that looks at `control_recv_buf` finds the message whose completion it was given;
* the key in the RTR is the one under which the peer has put its `RecvCtx` of this round;
* the immediate data that `handleWriteImm` is given is the key under which its own rank has put the
  `RecvCtx` of this round; removing it gives back that context, which is live, and leaves the archive
  empty;
* no step changes what an outstanding request is sent from;
* at `check_buffer` the archive is empty, and the receive buffer holds the bytes that the peer wrote
  in this round. -/
theorem rdvWriteImm_safe {env : rdvWriteImm.Env} {s : rdvWriteImm.Sys}
    (hs : (rdvWriteImm.machine env).Reachable s) :
    (∀ a f, rdvWriteImm.step env s a ≠ .error (.fault f)) ∧
    (∀ r ℓ, rdvWriteImm.stmt env r (s r) = some ℓ → ℓ = .handleRTS ∨ ℓ = .handleRTR →
      ∃ wc, (s r).st.wc = some wc ∧ wc.wrId = .reg (.msg .controlRecvBuf) ∧
        wc.payload = some (.msg ((s r).mem.msg .controlRecvBuf))) ∧
    (∀ r, rdvWriteImm.stmt env r (s r) = some .handleRTR → ∃ m archive,
      (s r).mem.msg .controlRecvBuf = some (.rtr m) ∧
        (LCMArchive.init 10).2.put (env.recvCtx r.peer (s r).iter)
          = .ok (some m.recvCtxKey, archive)) ∧
    (∀ r, rdvWriteImm.stmt env r (s r) = some .handleWriteImm → ∃ wc c ctx,
      (s r).st.wc = some wc ∧
        (s r).st.heap.live = [c] ∧ c.addr = env.recvCtx r (s r).iter ∧ c.round = (s r).iter ∧
        c.obj = .recv ctx ∧
        (LCMArchive.init 10).2.put c.addr = .ok (some wc.immData, (s r).st.ext) ∧
        (s r).st.ext.remove wc.immData = .ok (c.addr, (LCMArchive.init 10).2)) ∧
    (∀ a s', rdvWriteImm.step env s a = .ok s' → ∀ r, ∀ w ∈ (s r).nic.outstanding,
      (s' r).mem.dmaRead w.addr w.length = (s r).mem.dmaRead w.addr w.length) ∧
    (∀ r, rdvWriteImm.stmt env r (s r) = some .checkBuffer →
      (s r).st.ext = (LCMArchive.init 10).2 ∧
        (s r).mem.bytes .recvBuf (env.size (s r).iter) = env.sentBytes r.peer (s r).iter) := by
  obtain ⟨⟨hc, hi⟩, hsafe⟩ := Protocol.reachable_safe RdvWriteImm.lawful hs
  refine ⟨hsafe, ?_, ?_, ?_, ?_, ?_⟩
  · intro r ℓ hℓ hcase
    obtain ⟨-, hready⟩ := Protocol.ready_of_stmt RdvWriteImm.lawful hc hi hℓ
    rcases hcase with rfl | rfl <;>
      exact Protocol.reads_polled RdvWriteImm.lawful hready rfl rfl rfl
  · intro r hℓ
    obtain ⟨-, hready⟩ := Protocol.ready_of_stmt RdvWriteImm.lawful hc hi hℓ
    exact ⟨RdvWriteImm.rtrOf env r.peer (s r).iter, _, hready.msg rfl rfl rfl,
      RdvWriteImm.put_emptyArchive _⟩
  · intro r hℓ
    obtain ⟨-, hready⟩ := Protocol.ready_of_stmt RdvWriteImm.lawful hc hi hℓ
    have hwc := hready.wc _ rfl
    have hext : (s r).st.ext = RdvWriteImm.archiveOf (env.recvCtx r (s r).iter) := hready.own
    rw [RdvWriteImm.completion_pollRecvImm] at hwc
    rw [hready.heap, hext]
    exact ⟨_, _, RdvWriteImm.recvCtxOf env r (s r).iter, hwc, rfl, rfl, rfl, rfl,
      RdvWriteImm.put_emptyArchive _, RdvWriteImm.remove_archiveOf _⟩
  · intro a s' hstep r w hw
    refine Protocol.outstanding_stable RdvWriteImm.lawful hc hi hstep hw ?_
    obtain ⟨-, _, -, -, hop⟩ := Protocol.outstanding_eq RdvWriteImm.lawful hc hi hw
    rw [hop]
    exact RdvWriteImm.op_ne_rdmaRead _
  · intro r hℓ
    obtain ⟨-, hready⟩ := Protocol.ready_of_stmt RdvWriteImm.lawful hc hi hℓ
    exact ⟨hready.own, hready.recvBuf rfl⟩

/-- One message of two bytes, as far as the `handleWriteImm` of rank 1. -/
def RdvWriteImm.firstMessage : List Action :=
  [.rank .r0, .rank .r1, .rank .r0, .rank .r0, .deliver .r0, .rank .r1, .rank .r1, .rank .r1,
   .complete .r0, .deliver .r1, .complete .r1, .rank .r1, .rank .r0, .rank .r0, .rank .r0,
   .rank .r0, .deliver .r0, .rank .r1, .rank .r1]

/-- The state they lead to. -/
def RdvWriteImm.firstWriteImm : rdvWriteImm.Sys :=
  (rdvWriteImm.machine (.small RdvWriteImm.Msg [2])).result
    (rdvWriteImm.start (.small _ [2])) RdvWriteImm.firstMessage

theorem rdvWriteImm_safe_firstWriteImm :
    rdvWriteImm.stmt (.small _ [2]) .r1 (RdvWriteImm.firstWriteImm .r1) = some .handleWriteImm ∧
      ∃ wc ctx, (RdvWriteImm.firstWriteImm .r1).st.wc = some wc ∧
        (RdvWriteImm.firstWriteImm .r1).st.ext.remove wc.immData
          = .ok (ctx, (LCMArchive.init 10).2) := by
  have hs : (rdvWriteImm.machine (.small RdvWriteImm.Msg [2])).Reachable
      RdvWriteImm.firstWriteImm := Machine.reachable_result (.init rfl) RdvWriteImm.firstMessage
  have hstmt : rdvWriteImm.stmt (.small _ [2]) .r1 (RdvWriteImm.firstWriteImm .r1)
      = some .handleWriteImm := by decide
  obtain ⟨wc, c, ctx, hwc, -, -, -, -, -, hremove⟩ := (rdvWriteImm_safe hs).2.2.2.1 .r1 hstmt
  exact ⟨hstmt, wc, c.addr, hwc, hremove⟩

end IbvBench
