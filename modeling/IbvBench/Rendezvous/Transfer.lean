import IbvBench.Rendezvous.Read
import IbvBench.Rendezvous.Write
import IbvBench.Rendezvous.WriteImm

/-!
# What the one-sided request of a rendezvous moves

A message is announced with its size `s`, and the receiver has a buffer of size `r`, which its
handler only asserts to be long enough.  The two write programs take the length of their request
from the sender's context, so they move the `s` announced bytes.  The read program takes it from the
arguments of the receive: it fetches `r` bytes, and overwrites the receive buffer behind the
message.  So it moves the message exactly when the two sizes agree, as they do in the benchmark.

An `Exchange` of a program is the calls of its handlers on the way of one message, from `postRTS` to
the request; everything else that the two ranks do meanwhile is left open.
-/

set_option autoImplicit false

namespace IbvBench

open StepMachine

variable {Msg : Type}

/-! ## A request and its effect -/

/-- The place the bytes of a request come from: that of the sender of the message. -/
def SendWr.source (w : SendWr Msg) : RegPtr :=
  if w.opcode = .rdmaRead then w.remoteAddr else w.addr

/-- The place they go to: that of the receiver. -/
def SendWr.sink (w : SendWr Msg) : RegPtr :=
  if w.opcode = .rdmaRead then w.addr else w.remoteAddr

/-- **The effect of a request on the two memories**, that of the rank that posted it and that of the
device `dst` it was posted to: it is executed, and what it fetched is placed. -/
def SendWr.transfer (dst : Device) (w : SendWr Msg) (mine : Mem Msg) (theirs : Host Msg) :
    Exec (Mem Msg × Mem Msg) := do
  let (theirs, data) ← execute dst w mine theirs
  let mine ← placeFetched { wr := w, data } mine
  .ok (mine, theirs.mem)

/-- The memory of the receiver after the first `n` bytes of the buffer `b` of the sender were copied
to the start of its buffer `b'`. -/
def Mem.copied (n : ℕ) (b b' : BufSlot) (snd rcv : Mem Msg) : Mem Msg :=
  rcv.setBuf b' fun i ↦ if i < n then snd.buf b i else rcv.buf b' i

/-- The memories after `w` has moved `n` bytes and nothing else: that of the poster, which is the
receiver of a RDMA_READ and the sender of a RDMA_WRITE, and that of its peer. -/
def SendWr.moved (w : SendWr Msg) (n : ℕ) (b b' : BufSlot) (mine theirs : Mem Msg) :
    Mem Msg × Mem Msg :=
  if w.opcode = .rdmaRead then (Mem.copied n b b' theirs mine, theirs)
  else (mine, Mem.copied n b b' mine theirs)

/-- A request transfers exactly `n` bytes, from the start of `b` to the start of `b'`.  The memory
of the poster is arbitrary, except that a payload sent inline is still in its buffer; an execution
can only fail for want of a posted receive or of room for its completion. -/
structure SendWr.MovesExactly (dst : Device) (w : SendWr Msg) (n : ℕ) (b b' : BufSlot) : Prop where
  length : w.length = n
  source : w.source = .buf b
  sink : w.sink = .buf b'
  exact : ∀ mine theirs out, w.payload mine = mine.dmaRead w.addr w.length →
    w.transfer dst mine theirs = .ok out → out = w.moved n b b' mine theirs.mem
  done : ∀ mine theirs, (w.consumesRecv = true → theirs.nic.srq ≠ [] ∧
      theirs.nic.recvCq.entries.length < dst.config.maxCqeNum) →
    w.payload mine = mine.dmaRead w.addr w.length → ∃ out, w.transfer dst mine theirs = .ok out

theorem Mem.setBuf_getD_bytes (n : ℕ) (b b' : BufSlot) (snd rcv : Mem Msg) :
    (rcv.setBuf b' fun i ↦ (snd.bytes b n).getD i (rcv.buf b' i)) = Mem.copied n b b' snd rcv := by
  have hget : ∀ i d, (snd.bytes b n).getD i d = if i < n then snd.buf b i else d := by
    intro i d
    by_cases hi : i < n <;> simp [bytes, hi]
  simp only [Mem.copied, hget]

section

variable (dst : Device) {w : SendWr Msg} {n : ℕ} {b b' : BufSlot}

theorem movesExactly_rdmaRead (hop : w.opcode = .rdmaRead) (haddr : w.addr = .buf b')
    (hremote : w.remoteAddr = .buf b) (hlen : w.length = n) : w.MovesExactly dst n b b' := by
  subst hlen
  have heq : ∀ mine theirs,
      w.transfer dst mine theirs = .ok (w.moved w.length b b' mine theirs.mem) := by
    intro mine theirs
    simp only [SendWr.transfer, execute, hop, ok_bind, placeFetched, haddr, hremote, Mem.dmaRead,
      Mem.dmaWrite, SendWr.moved, if_true, Mem.setBuf_getD_bytes]
  refine ⟨rfl, by simp [SendWr.source, hop, hremote], by simp [SendWr.sink, hop, haddr], ?_, ?_⟩
  · intro mine theirs out _ h
    rw [heq] at h
    exact (Except.ok.inj h).symm
  · exact fun mine theirs _ _ ↦ ⟨_, heq mine theirs⟩

theorem movesExactly_rdmaWrite (hop : w.opcode = .rdmaWrite) (haddr : w.addr = .buf b)
    (hremote : w.remoteAddr = .buf b') (hlen : w.length = n) : w.MovesExactly dst n b b' := by
  subst hlen
  have heq : ∀ mine theirs, w.payload mine = mine.dmaRead w.addr w.length →
      w.transfer dst mine theirs = .ok (w.moved w.length b b' mine theirs.mem) := by
    intro mine theirs hpay
    rw [haddr] at hpay
    simp only [SendWr.transfer, execute, hop, hpay, hremote, Mem.dmaRead, Mem.dmaWrite, ok_bind,
      placeFetched, SendWr.moved, Mem.setBuf_getD_bytes]
    simp
  refine ⟨rfl, by simp [SendWr.source, hop, haddr], by simp [SendWr.sink, hop, hremote], ?_, ?_⟩
  · intro mine theirs out hpay h
    rw [heq _ _ hpay] at h
    exact (Except.ok.inj h).symm
  · exact fun mine theirs _ hpay ↦ ⟨_, heq mine theirs hpay⟩

theorem movesExactly_rdmaWriteWithImm (hop : w.opcode = .rdmaWriteWithImm)
    (haddr : w.addr = .buf b) (hremote : w.remoteAddr = .buf b') (hlen : w.length = n) :
    w.MovesExactly dst n b b' := by
  subst hlen
  refine ⟨rfl, by simp [SendWr.source, hop, haddr], by simp [SendWr.sink, hop, hremote], ?_, ?_⟩
  · intro mine theirs out hpay h
    rw [haddr] at hpay
    simp only [SendWr.transfer, execute, hop, hpay] at h
    obtain ⟨⟨k, data⟩, hk, h⟩ := bind_eq_ok.mp h
    obtain ⟨k', hland, hk⟩ := bind_eq_ok.mp hk
    cases hk
    cases h
    rw [landWriteImm] at hland
    split at hland
    · cases hland
    · obtain ⟨mem, hmem, hland⟩ := bind_eq_ok.mp hland
      obtain ⟨nic, -, hland⟩ := bind_eq_ok.mp hland
      cases hland
      simp only [hremote, Mem.dmaRead, Mem.dmaWrite, Mem.setBuf_getD_bytes, Except.ok.injEq] at hmem
      simp [SendWr.moved, hop, ← hmem]
  · intro mine theirs hready hpay
    obtain ⟨hsrq, hroom⟩ := hready (by simp [SendWr.consumesRecv, hop, WrOpcode.consumesRecv])
    obtain ⟨rw', srq, hsrq⟩ := List.exists_cons_of_ne_nil hsrq
    rw [haddr] at hpay
    simp [SendWr.transfer, execute, hop, hpay, hremote, Mem.dmaRead, Mem.dmaWrite, landWriteImm,
      hsrq, consumeRecv, Cq.push_eq hroom, placeFetched]

end

/-- The arguments of `postRTS` and `handleRTS` that this file leaves open, and what their `malloc`
returns. -/
structure CtxArgs where
  addr : ℕ
  round : ℕ
  mr : Mr
  userContext : WrId

/-! ## The exchanges -/

/-- The way of one message of `s` bytes in the buffer `b` to the buffer `b'` with its `r` bytes, in
the read rendezvous. -/
structure RdvRead.Exchange (s r : ℕ) (b b' : BufSlot) where
  sender : Device
  receiver : Device
  /-- The sender announces its buffer. -/
  sendArgs : CtxArgs
  rank : Rank
  snd₀ : RdvRead.State
  snd₁ : RdvRead.State
  postRTS : RdvRead.postRTS sender sendArgs.addr sendArgs.round rank (.buf b) s sendArgs.mr
    sendArgs.userContext snd₀ = .ok snd₁
  /-- The RTS arrives as it was sent. -/
  rts : RdvRead.RTSMsg
  sentRTS : snd₁.host.mem.msg .rtsMsg = some (.rts rts)
  wc : Wc RdvRead.Msg
  rcv₀ : RdvRead.State
  recvRTS : rcv₀.derefMsg RdvRead.Msg.asRTS wc.wrId = .ok rts
  /-- The receiver posts the request. -/
  recvArgs : CtxArgs
  rcv₁ : RdvRead.State
  handleRTS : RdvRead.handleRTS receiver recvArgs.addr recvArgs.round wc (.buf b') r recvArgs.mr
    recvArgs.userContext rcv₀ = .ok rcv₁
  wr : SendWr RdvRead.Msg
  posted : rcv₁.host.nic.sq = rcv₀.host.nic.sq ++ [wr]

/-- The same in the four-step write rendezvous. -/
structure RdvWrite.Exchange (s r : ℕ) (b b' : BufSlot) where
  sender : Device
  receiver : Device
  /-- The sender announces its buffer. -/
  sendArgs : CtxArgs
  rank : Rank
  snd₀ : RdvWrite.State
  snd₁ : RdvWrite.State
  postRTS : RdvWrite.postRTS sender sendArgs.addr sendArgs.round rank (.buf b) s sendArgs.mr
    sendArgs.userContext snd₀ = .ok snd₁
  /-- The RTS arrives as it was sent. -/
  rts : RdvWrite.RTSMsg
  sentRTS : snd₁.host.mem.msg .rtsMsg = some (.rts rts)
  wc : Wc RdvWrite.Msg
  rcv₀ : RdvWrite.State
  recvRTS : rcv₀.derefMsg RdvWrite.Msg.asRTS wc.wrId = .ok rts
  /-- The receiver answers with its own buffer. -/
  recvArgs : CtxArgs
  rcv₁ : RdvWrite.State
  handleRTS : RdvWrite.handleRTS receiver recvArgs.addr recvArgs.round wc (.buf b') r recvArgs.mr
    recvArgs.userContext rcv₀ = .ok rcv₁
  /-- The RTR arrives as it was sent, and the sender's context is still there. -/
  rtr : RdvWrite.RTRMsg
  sentRTR : rcv₁.host.mem.msg .rtrMsg = some (.rtr rtr)
  wc' : Wc RdvWrite.Msg
  snd₂ : RdvWrite.State
  recvRTR : snd₂.derefMsg RdvWrite.Msg.asRTR wc'.wrId = .ok rtr
  kept : snd₂.heap.deref RdvWrite.Ctx.asSend sendArgs.addr
    = snd₁.heap.deref RdvWrite.Ctx.asSend sendArgs.addr
  /-- The sender posts the request. -/
  snd₃ : RdvWrite.State
  handleRTR : RdvWrite.handleRTR sender wc' snd₂ = .ok snd₃
  wr : SendWr RdvWrite.Msg
  posted : snd₃.host.nic.sq = snd₂.host.nic.sq ++ [wr]

/-- The same in the three-step write rendezvous. -/
structure RdvWriteImm.Exchange (s r : ℕ) (b b' : BufSlot) where
  sender : Device
  receiver : Device
  /-- The sender announces its buffer. -/
  sendArgs : CtxArgs
  rank : Rank
  snd₀ : RdvWriteImm.State
  snd₁ : RdvWriteImm.State
  postRTS : RdvWriteImm.postRTS sender sendArgs.addr sendArgs.round rank (.buf b) s sendArgs.mr
    sendArgs.userContext snd₀ = .ok snd₁
  /-- The RTS arrives as it was sent. -/
  rts : RdvWriteImm.RTSMsg
  sentRTS : snd₁.host.mem.msg .rtsMsg = some (.rts rts)
  wc : Wc RdvWriteImm.Msg
  rcv₀ : RdvWriteImm.State
  recvRTS : rcv₀.derefMsg RdvWriteImm.Msg.asRTS wc.wrId = .ok rts
  /-- The receiver answers with its own buffer. -/
  recvArgs : CtxArgs
  rcv₁ : RdvWriteImm.State
  handleRTS : RdvWriteImm.handleRTS receiver recvArgs.addr recvArgs.round wc (.buf b') r
    recvArgs.mr recvArgs.userContext rcv₀ = .ok rcv₁
  /-- The RTR arrives as it was sent, and the sender's context is still there. -/
  rtr : RdvWriteImm.RTRMsg
  sentRTR : rcv₁.host.mem.msg .rtrMsg = some (.rtr rtr)
  wc' : Wc RdvWriteImm.Msg
  snd₂ : RdvWriteImm.State
  recvRTR : snd₂.derefMsg RdvWriteImm.Msg.asRTR wc'.wrId = .ok rtr
  kept : snd₂.heap.deref RdvWriteImm.Ctx.asSend sendArgs.addr
    = snd₁.heap.deref RdvWriteImm.Ctx.asSend sendArgs.addr
  /-- The sender posts the request. -/
  snd₃ : RdvWriteImm.State
  handleRTR : RdvWriteImm.handleRTR sender wc' snd₂ = .ok snd₃
  wr : SendWr RdvWriteImm.Msg
  posted : snd₃.host.nic.sq = snd₂.host.nic.sq ++ [wr]

/-! ## What is posted -/

/-- A request that was accepted is the newest in the send queue. -/
theorem Host.post_accepted {dev : Device} {rank : Rank} {w w' : SendWr Msg} {h h' : Host Msg}
    {ret : ℤ} {msg : String} (hp : h.post dev rank w = .ok (ret, h'))
    (hret : mlogAssert (ret == 0) msg = .ok ()) (hq : h'.nic.sq = h.nic.sq ++ [w']) : w' = w := by
  obtain ⟨⟨ret', nic⟩, hn, he⟩ := bind_eq_ok.mp hp
  cases he
  have hzero : ret = 0 := by simpa using mlogAssert_eq_ok.mp hret
  rw [ibvPostSend] at hn
  split at hn
  · cases hn
  split at hn
  · cases hn
    simpa using hq.symm
  · cases hn
    cases hzero

namespace RdvRead.Exchange

variable {s r : ℕ} {b b' : BufSlot} (e : RdvRead.Exchange s r b b')

/-- The RTS names the sender's buffer and its size. -/
theorem rts_eq : e.rts.sendBuf = .buf b ∧ e.rts.size = s := by
  obtain ⟨⟨ret, host⟩, hpost, h⟩ := bind_eq_ok.mp e.postRTS
  obtain ⟨-, -, h⟩ := bind_eq_ok.mp h
  have hsent := e.sentRTS
  rw [← Except.ok.inj h] at hsent
  simp only [(Host.post_nic hpost).2, Mem.setMsg_msg, if_true, Option.some.injEq,
    RdvRead.Msg.rts.injEq] at hsent
  exact ⟨by rw [← hsent], by rw [← hsent]⟩

/-- The request has the length of the receive. -/
theorem wr_eq : e.wr.opcode = .rdmaRead ∧ e.wr.addr = .buf b' ∧ e.wr.remoteAddr = .buf b ∧
    e.wr.length = r := by
  obtain ⟨-, -, h⟩ := bind_eq_ok.mp e.handleRTS
  obtain ⟨m, hm, h⟩ := bind_eq_ok.mp h
  cases hm.symm.trans e.recvRTS
  obtain ⟨-, -, h⟩ := bind_eq_ok.mp h
  obtain ⟨⟨ret, host⟩, hpost, h⟩ := bind_eq_ok.mp h
  obtain ⟨⟨⟩, hret, h⟩ := bind_eq_ok.mp h
  have hq := e.posted
  rw [← Except.ok.inj h] at hq
  rw [Host.post_accepted hpost hret hq]
  exact ⟨rfl, rfl, e.rts_eq.1, rfl⟩

end RdvRead.Exchange

namespace RdvWrite.Exchange

variable {s r : ℕ} {b b' : BufSlot} (e : RdvWrite.Exchange s r b b')

/-- `postRTS` leaves the address of its context in the RTS, and the size and the buffer in the
context. -/
theorem announced : e.rts.sendCtx = e.sendArgs.addr ∧
    e.snd₁.heap.deref RdvWrite.Ctx.asSend e.sendArgs.addr = .ok
      { buf := .buf b, size := s, mr := e.sendArgs.mr, userContext := e.sendArgs.userContext } := by
  obtain ⟨⟨ret, host⟩, hpost, h⟩ := bind_eq_ok.mp e.postRTS
  obtain ⟨-, -, h⟩ := bind_eq_ok.mp h
  have hsent := e.sentRTS
  rw [← Except.ok.inj h] at hsent ⊢
  simp only [(Host.post_nic hpost).2, Mem.setMsg_msg, if_true, Option.some.injEq,
    RdvWrite.Msg.rts.injEq] at hsent
  exact ⟨by rw [← hsent], by simp [Heap.deref, Heap.malloc, RdvWrite.Ctx.asSend]⟩

/-- The RTR brings the context back, and names the receiver's buffer. -/
theorem answered : e.rtr.sendCtx = e.rts.sendCtx ∧ e.rtr.remoteAddr = .buf b' := by
  obtain ⟨-, -, h⟩ := bind_eq_ok.mp e.handleRTS
  obtain ⟨m, hm, h⟩ := bind_eq_ok.mp h
  cases hm.symm.trans e.recvRTS
  obtain ⟨-, -, h⟩ := bind_eq_ok.mp h
  obtain ⟨⟨ret, host⟩, hpost, h⟩ := bind_eq_ok.mp h
  obtain ⟨-, -, h⟩ := bind_eq_ok.mp h
  have hsent := e.sentRTR
  rw [← Except.ok.inj h] at hsent
  simp only [(Host.post_nic hpost).2, Mem.setMsg_msg, if_true, Option.some.injEq,
    RdvWrite.Msg.rtr.injEq] at hsent
  exact ⟨by rw [← hsent], by rw [← hsent]⟩

/-- The request has the length of the send. -/
theorem wr_eq : e.wr.opcode = .rdmaWrite ∧ e.wr.addr = .buf b ∧ e.wr.remoteAddr = .buf b' ∧
    e.wr.length = s := by
  obtain ⟨-, -, h⟩ := bind_eq_ok.mp e.handleRTR
  obtain ⟨m, hm, h⟩ := bind_eq_ok.mp h
  cases hm.symm.trans e.recvRTR
  obtain ⟨ctx, hctx, h⟩ := bind_eq_ok.mp h
  rw [e.answered.1, e.announced.1, e.kept, e.announced.2] at hctx
  cases hctx
  obtain ⟨heap, -, h⟩ := bind_eq_ok.mp h
  obtain ⟨⟨ret, host⟩, hpost, h⟩ := bind_eq_ok.mp h
  obtain ⟨⟨⟩, hret, h⟩ := bind_eq_ok.mp h
  have hq := e.posted
  rw [← Except.ok.inj h] at hq
  rw [Host.post_accepted hpost hret hq]
  exact ⟨rfl, rfl, e.answered.2, rfl⟩

end RdvWrite.Exchange

namespace RdvWriteImm.Exchange

variable {s r : ℕ} {b b' : BufSlot} (e : RdvWriteImm.Exchange s r b b')

/-- `postRTS` leaves the address of its context in the RTS, and the size and the buffer in the
context. -/
theorem announced : e.rts.sendCtx = e.sendArgs.addr ∧
    e.snd₁.heap.deref RdvWriteImm.Ctx.asSend e.sendArgs.addr = .ok
      { buf := .buf b, size := s, mr := e.sendArgs.mr, userContext := e.sendArgs.userContext } := by
  obtain ⟨⟨ret, host⟩, hpost, h⟩ := bind_eq_ok.mp e.postRTS
  obtain ⟨-, -, h⟩ := bind_eq_ok.mp h
  have hsent := e.sentRTS
  rw [← Except.ok.inj h] at hsent ⊢
  simp only [(Host.post_nic hpost).2, Mem.setMsg_msg, if_true, Option.some.injEq,
    RdvWriteImm.Msg.rts.injEq] at hsent
  exact ⟨by rw [← hsent], by simp [Heap.deref, Heap.malloc, RdvWriteImm.Ctx.asSend]⟩

/-- The RTR brings the context back, and names the receiver's buffer. -/
theorem answered : e.rtr.sendCtx = e.rts.sendCtx ∧ e.rtr.remoteAddr = .buf b' := by
  obtain ⟨-, -, h⟩ := bind_eq_ok.mp e.handleRTS
  obtain ⟨m, hm, h⟩ := bind_eq_ok.mp h
  cases hm.symm.trans e.recvRTS
  obtain ⟨-, -, h⟩ := bind_eq_ok.mp h
  obtain ⟨⟨key, ext⟩, -, h⟩ := bind_eq_ok.mp h
  rcases key with _ | key
  · cases h
  obtain ⟨⟨ret, host⟩, hpost, h⟩ := bind_eq_ok.mp h
  obtain ⟨-, -, h⟩ := bind_eq_ok.mp h
  have hsent := e.sentRTR
  rw [← Except.ok.inj h] at hsent
  simp only [(Host.post_nic hpost).2, Mem.setMsg_msg, if_true, Option.some.injEq,
    RdvWriteImm.Msg.rtr.injEq] at hsent
  exact ⟨by rw [← hsent], by rw [← hsent]⟩

/-- The request has the length of the send. -/
theorem wr_eq : e.wr.opcode = .rdmaWriteWithImm ∧ e.wr.addr = .buf b ∧
    e.wr.remoteAddr = .buf b' ∧ e.wr.length = s := by
  obtain ⟨-, -, h⟩ := bind_eq_ok.mp e.handleRTR
  obtain ⟨m, hm, h⟩ := bind_eq_ok.mp h
  cases hm.symm.trans e.recvRTR
  obtain ⟨ctx, hctx, h⟩ := bind_eq_ok.mp h
  rw [e.answered.1, e.announced.1, e.kept, e.announced.2] at hctx
  cases hctx
  obtain ⟨⟨ret, host⟩, hpost, h⟩ := bind_eq_ok.mp h
  obtain ⟨⟨⟩, hret, h⟩ := bind_eq_ok.mp h
  obtain ⟨heap, -, h⟩ := bind_eq_ok.mp h
  have hq := e.posted
  rw [← Except.ok.inj h] at hq
  rw [Host.post_accepted hpost hret hq]
  exact ⟨rfl, rfl, e.answered.2, rfl⟩

end RdvWriteImm.Exchange

/-! ## The three programs -/

/-- The rendezvous programs. -/
inductive Rdv where
  | read
  | write
  | writeImm
  deriving DecidableEq, Repr

namespace Rdv

variable {p : Rdv} {s r : ℕ} {b b' : BufSlot}

def program : Rdv → Program
  | read => rdvRead
  | write => rdvWrite
  | writeImm => rdvWriteImm

def Exchange : Rdv → ℕ → ℕ → BufSlot → BufSlot → Type
  | read => RdvRead.Exchange
  | write => RdvWrite.Exchange
  | writeImm => RdvWriteImm.Exchange

/-- The request of an exchange. -/
def request : (p : Rdv) → p.Exchange s r b b' → SendWr p.program.Msg
  | read, e => RdvRead.Exchange.wr e
  | write, e => RdvWrite.Exchange.wr e
  | writeImm, e => RdvWriteImm.Exchange.wr e

/-- The device whose rank executes it. -/
def target : (p : Rdv) → p.Exchange s r b b' → Device
  | read, e => RdvRead.Exchange.sender e
  | write, e => RdvWrite.Exchange.receiver e
  | writeImm, e => RdvWriteImm.Exchange.receiver e

end Rdv

/-! ### The exchanges there are -/

/-- The arguments of a call whose `malloc` returns `addr`. -/
def CtxArgs.small (r : Rank) (addr : ℕ) : CtxArgs where
  addr
  round := 0
  mr := { lkey := r.toNat, rkey := r.toNat + 2 }
  userContext := .null

/-- A control message that has arrived in the control buffer of a rank. -/
def arrived {Obj Ext : Type} (m : Msg) (heap : Heap Obj) (ext : Ext) : RankState Msg Obj Ext where
  host := { mem := { msg := fun _ ↦ some m, buf := fun _ _ ↦ { val := 0, round := none } } }
  heap
  ext

/-- Its completion. -/
def arrivedWc (r : Rank) (immData : ℕ) : Wc Msg where
  wrId := .reg (.msg .controlRecvBuf)
  status := .success
  opcode := .recv
  qpNum := r.peer.toNat
  immData

/-- In the read rendezvous every receive that is long enough takes part in an exchange. -/
theorem RdvRead.exists_exchange {s r : ℕ} (h : s ≤ r) (b b' : BufSlot) :
    Nonempty (RdvRead.Exchange s r b b') := by
  let sender := (Env.small RdvRead.Msg [] : Env _ 0).device .r0
  let receiver := (Env.small RdvRead.Msg [] : Env _ 0).device .r1
  let rts : RdvRead.RTSMsg := { sendCtx := 1, sendBuf := .buf b, size := s, rkey := 2 }
  let wc : Wc RdvRead.Msg := arrivedWc .r1 RdvRead.MsgType.rts.code
  let rcv : RdvRead.State := arrived (.rts rts) {} ()
  let args := CtxArgs.small .r1 1
  have hrecv : rcv.derefMsg RdvRead.Msg.asRTS wc.wrId = .ok rts := rfl
  have hle : mlogAssert (rts.size ≤ r) "" = .ok () := mlogAssert_eq_ok.mpr (decide_eq_true h)
  obtain ⟨rcv₁, handled, wr, posted⟩ : ∃ rcv₁, RdvRead.handleRTS receiver args.addr args.round wc
      (.buf b') r args.mr args.userContext rcv = .ok rcv₁ ∧
      ∃ wr, rcv₁.host.nic.sq = rcv.host.nic.sq ++ [wr] := by
    simp only [RdvRead.handleRTS, hrecv, ok_bind, hle]
    exact ⟨_, rfl, _, rfl⟩
  exact ⟨{
    sender, receiver, sendArgs := .small .r0 1, rank := .r1, snd₀ := rcv, snd₁ := _, postRTS := rfl
    rts, sentRTS := rfl, wc, rcv₀ := rcv, recvRTS := hrecv, recvArgs := args, rcv₁
    handleRTS := handled, wr, posted }⟩

/-- In the four-step write rendezvous, too. -/
theorem RdvWrite.exists_exchange {s r : ℕ} (h : s ≤ r) (b b' : BufSlot) :
    Nonempty (RdvWrite.Exchange s r b b') := by
  let sender := (Env.small RdvWrite.Msg [] : Env _ 0).device .r0
  let receiver := (Env.small RdvWrite.Msg [] : Env _ 0).device .r1
  let rts : RdvWrite.RTSMsg := { sendCtx := 1, size := s }
  let rtr : RdvWrite.RTRMsg := { sendCtx := 1, recvCtx := 1, remoteAddr := .buf b', rkey := 3 }
  let wc : Wc RdvWrite.Msg := arrivedWc .r1 RdvWrite.MsgType.rts.code
  let snd : RdvWrite.State := arrived (.rts rts) {} ()
  let args := CtxArgs.small .r1 1
  have hrecv : snd.derefMsg RdvWrite.Msg.asRTS wc.wrId = .ok rts := rfl
  have hle : mlogAssert (rts.size ≤ r) "" = .ok () := mlogAssert_eq_ok.mpr (decide_eq_true h)
  obtain ⟨rcv₁, handled, sentRTR⟩ : ∃ rcv₁, RdvWrite.handleRTS receiver args.addr args.round wc
      (.buf b') r args.mr args.userContext snd = .ok rcv₁ ∧
      rcv₁.host.mem.msg .rtrMsg = some (.rtr rtr) := by
    simp only [RdvWrite.handleRTS, hrecv, ok_bind, hle]
    exact ⟨_, rfl, rfl⟩
  exact ⟨{
    sender, receiver, sendArgs := .small .r0 1, rank := .r1, snd₀ := snd, snd₁ := _, postRTS := rfl
    rts, sentRTS := rfl, wc, rcv₀ := snd, recvRTS := hrecv, recvArgs := args, rcv₁
    handleRTS := handled, rtr, sentRTR, wc' := arrivedWc .r0 RdvWrite.MsgType.rtr.code
    snd₂ := arrived (.rtr rtr) (snd.heap.malloc 1 0 (.send
      { buf := .buf b, size := s, mr := { lkey := 0, rkey := 2 }, userContext := .null })) ()
    recvRTR := rfl, kept := rfl, snd₃ := _, handleRTR := rfl, wr := _, posted := rfl }⟩

/-- In the three-step write rendezvous, too. -/
theorem RdvWriteImm.exists_exchange {s r : ℕ} (h : s ≤ r) (b b' : BufSlot) :
    Nonempty (RdvWriteImm.Exchange s r b b') := by
  let sender := (Env.small RdvWriteImm.Msg [] : Env _ 0).device .r0
  let receiver := (Env.small RdvWriteImm.Msg [] : Env _ 0).device .r1
  let rts : RdvWriteImm.RTSMsg := { sendCtx := 1, size := s }
  let archive := (LCMArchive.init 10).2
  let key := archive.hash 64
  let rtr : RdvWriteImm.RTRMsg :=
    { sendCtx := 1, remoteAddr := .buf b', rkey := 3, recvCtxKey := key % 2 ^ 16 }
  let wc : Wc RdvWriteImm.Msg := arrivedWc .r1 RdvWriteImm.MsgType.rts.code
  let snd : RdvWriteImm.State := arrived (.rts rts) {} archive
  let args := CtxArgs.small .r1 64
  have hrecv : snd.derefMsg RdvWriteImm.Msg.asRTS wc.wrId = .ok rts := rfl
  have hle : mlogAssert (rts.size ≤ r) "" = .ok () := mlogAssert_eq_ok.mpr (decide_eq_true h)
  have hput : snd.ext.put args.addr = .ok (some key, _) := LCMArchive.put_eq rfl
  obtain ⟨rcv₁, handled, sentRTR⟩ : ∃ rcv₁, RdvWriteImm.handleRTS receiver args.addr args.round wc
      (.buf b') r args.mr args.userContext snd = .ok rcv₁ ∧
      rcv₁.host.mem.msg .rtrMsg = some (.rtr rtr) := by
    simp only [RdvWriteImm.handleRTS, hrecv, ok_bind, hle, hput]
    exact ⟨_, rfl, rfl⟩
  exact ⟨{
    sender, receiver, sendArgs := .small .r0 1, rank := .r1, snd₀ := snd, snd₁ := _, postRTS := rfl
    rts, sentRTS := rfl, wc, rcv₀ := snd, recvRTS := hrecv, recvArgs := args, rcv₁
    handleRTS := handled, rtr, sentRTR, wc' := arrivedWc .r0 RdvWriteImm.MsgType.rtr.code
    snd₂ := arrived (.rtr rtr) (snd.heap.malloc 1 0 (.send
      { buf := .buf b, size := s, mr := { lkey := 0, rkey := 2 }, userContext := .null })) archive
    recvRTR := rfl, kept := rfl, snd₃ := _, handleRTR := rfl, wr := _, posted := rfl }⟩

/-- Every receive that passes the assertion takes part in an exchange. -/
theorem Rdv.exists_exchange (p : Rdv) {s r : ℕ} (h : s ≤ r) (b b' : BufSlot) :
    Nonempty (p.Exchange s r b b') := by
  cases p
  exacts [RdvRead.exists_exchange h b b', RdvWrite.exists_exchange h b b',
    RdvWriteImm.exists_exchange h b b']

/-- **The write programs move exactly the announced message, the read program does so exactly when
the receive has the announced size.** -/
theorem rdv_movesExactly (p : Rdv) (s r : ℕ) (b b' : BufSlot) (e : p.Exchange s r b b') :
    (p.request e).MovesExactly (p.target e) s b b' ↔ (p = .read → r = s) := by
  cases p with
  | read =>
    obtain ⟨hop, haddr, hremote, hlen⟩ := RdvRead.Exchange.wr_eq e
    refine ⟨fun h _ ↦ hlen.symm.trans h.length, fun h ↦ ?_⟩
    exact movesExactly_rdmaRead _ hop haddr hremote (hlen.trans (h rfl))
  | write =>
    obtain ⟨hop, haddr, hremote, hlen⟩ := RdvWrite.Exchange.wr_eq e
    exact ⟨fun _ h ↦ (by cases h), fun _ ↦ movesExactly_rdmaWrite _ hop haddr hremote hlen⟩
  | writeImm =>
    obtain ⟨hop, haddr, hremote, hlen⟩ := RdvWriteImm.Exchange.wr_eq e
    refine ⟨fun _ h ↦ (by cases h), fun _ ↦ ?_⟩
    exact movesExactly_rdmaWriteWithImm _ hop haddr hremote hlen

/-- Announcing one byte to a receive of two bytes, a write program moves one, -/
theorem rdv_movesExactly_oneOfTwo : ∃ e : Rdv.write.Exchange 1 2 .sendBuf .recvBuf,
    (Rdv.write.request e).MovesExactly (Rdv.write.target e) 1 .sendBuf .recvBuf := by
  obtain ⟨e⟩ := Rdv.write.exists_exchange (Nat.le_succ 1) .sendBuf .recvBuf
  exact ⟨e, (rdv_movesExactly .write 1 2 .sendBuf .recvBuf e).mpr fun h ↦ (by cases h)⟩

/-- and the read program moves two. -/
theorem rdvRead_movesTooMuch : ¬ ∀ (p : Rdv) (s r : ℕ) (b b' : BufSlot) (e : p.Exchange s r b b'),
    (p.request e).MovesExactly (p.target e) s b b' := by
  intro h
  obtain ⟨e⟩ := RdvRead.exists_exchange (Nat.le_succ 1) .sendBuf .recvBuf
  have hlen : e.wr.length = 1 := (h .read 1 2 .sendBuf .recvBuf e).length
  rw [e.wr_eq.2.2.2] at hlen
  cases hlen

end IbvBench
