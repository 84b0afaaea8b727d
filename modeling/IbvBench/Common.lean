import IbvBench.Verbs

/-!
# Posting and polling

The inline functions at the end of `ibv_common.hpp`: `pollCQ`, `postRecv`, `checkAndPostRecvs` and
the five ways to post a send.  They act on the queues of the calling rank only; what the hardware
does with the queues is in `IbvBench.Verbs`.

The `post…` functions return what `ibv_post_send` and `ibv_post_srq_recv` return, `0` or an error
number.  The provider refuses a request when its queue is full: the shared receive queue has
`max_recv_num` places, and a send keeps its place in the send queue until its completion has been
polled, `max_send_num` in all.
-/

set_option autoImplicit false

namespace IbvBench

open StepMachine

variable {Msg : Type}

/-- The provider's answer to a full queue. -/
def ENOMEM : ℤ := 12

/-- `pollCQ`: spin until a completion arrives, and take it. -/
def pollCQ (cq : Cq Msg) : Exec (Wc Msg × Cq Msg) :=
  match cq.entries with
  | [] => .error .blocked
  | wc :: entries => .ok (wc, { cq with entries, polled := cq.polled + 1 })

/-- A poll takes one completion. -/
theorem pollCQ_eq_ok {cq cq' : Cq Msg} {wc : Wc Msg} (h : pollCQ cq = .ok (wc, cq')) :
    cq.entries = wc :: cq'.entries ∧ cq'.polled = cq.polled + 1 ∧ cq'.generated = cq.generated := by
  rcases hq : cq.entries with _ | ⟨c, rest⟩
  · simp [pollCQ, hq] at h
  · simp only [pollCQ, hq, Except.ok.injEq, Prod.mk.injEq] at h
    obtain ⟨rfl, rfl⟩ := h
    exact ⟨rfl, rfl, rfl⟩

/-! ## Receives -/

/-- The receives the rank has to its account: posted and not consumed, or consumed and not
polled. -/
def Nic.recvs (nic : Nic Msg) : ℕ := nic.srq.length + nic.recvCq.entries.length

/-- `ibv_post_srq_recv`. -/
def ibvPostSrqRecv (dev : Device) (wr : RecvWr) (nic : Nic Msg) : ℤ × Nic Msg :=
  if nic.srq.length < dev.config.maxRecvNum then (0, { nic with srq := nic.srq ++ [wr] })
  else (ENOMEM, nic)

/-- `postRecv`.  The counter moves whether or not the provider accepts the receive. -/
def postRecv (dev : Device) (buf : RegPtr) (size lkey : ℕ) (userContext : WrId) (nic : Nic Msg) :
    ℤ × Nic Msg :=
  ibvPostSrqRecv dev { wrId := userContext, addr := buf, length := size, lkey }
    { nic with postedRecvNum := nic.postedRecvNum + 1 }

/-- The refill loop of `checkAndPostRecvs`, with `n` rounds to go. -/
def postRecvs (dev : Device) (buf : RegPtr) (size lkey : ℕ) (userContext : WrId) :
    ℕ → Nic Msg → Exec (Nic Msg)
  | 0, nic => .ok nic
  | n + 1, nic => do
    let (ret, nic) := postRecv dev buf size lkey userContext nic
    mlogAssert (ret == 0) "Post Recv %d failed!\n"
    postRecvs dev buf size lkey userContext n nic

/-- `checkAndPostRecvs`.  The bound of the loop is fixed by the value the counter has before it:
`for (int j = device->posted_recv_num; j < device->config.max_recv_num; ++j)`. -/
def checkAndPostRecvs (dev : Device) (buf : RegPtr) (size lkey : ℕ) (userContext : WrId)
    (nic : Nic Msg) : Exec (Nic Msg) :=
  if nic.postedRecvNum < dev.config.minRecvNum then
    postRecvs dev buf size lkey userContext
      ((dev.config.maxRecvNum : ℤ) - nic.postedRecvNum).toNat nic
  else .ok nic

/-- With room for `n` receives the loop posts `n` receives, and nothing else changes. -/
theorem postRecvs_eq {dev : Device} {buf : RegPtr} {size lkey : ℕ} {userContext : WrId} {n : ℕ}
    {nic : Nic Msg} (h : nic.srq.length + n ≤ dev.config.maxRecvNum) :
    postRecvs dev buf size lkey userContext n nic = .ok { nic with
      postedRecvNum := nic.postedRecvNum + n
      srq := nic.srq ++ List.replicate n { wrId := userContext, addr := buf, length := size, lkey } } := by
  induction n generalizing nic with
  | zero => simp [postRecvs]
  | succ n ih =>
    have hroom : nic.srq.length < dev.config.maxRecvNum := by omega
    simp only [postRecvs, postRecv, ibvPostSrqRecv, hroom, if_true, beq_self_eq_true,
      mlogAssert_true, ok_bind]
    rw [ih (by simp only [List.length_append, List.length_singleton]; omega)]
    have hcast : nic.postedRecvNum + 1 + (n : ℤ) = nic.postedRecvNum + ((n + 1 : ℕ) : ℤ) := by omega
    simp only [hcast, List.append_assoc, List.singleton_append, List.replicate_succ]

theorem postRecvs_frame {dev : Device} {buf : RegPtr} {size lkey : ℕ} {userContext : WrId} {n : ℕ}
    {nic nic' : Nic Msg} (h : postRecvs dev buf size lkey userContext n nic = .ok nic') :
    nic'.recvCq = nic.recvCq ∧ nic'.sendCq = nic.sendCq ∧ nic'.sq = nic.sq ∧
      nic'.unacked = nic.unacked := by
  induction n generalizing nic with
  | zero => cases h; exact ⟨rfl, rfl, rfl, rfl⟩
  | succ n ih =>
    simp only [postRecvs] at h
    obtain ⟨-, -, hrest⟩ := bind_eq_ok.mp h
    have hih := ih hrest
    simp only [postRecv, ibvPostSrqRecv] at hih
    split at hih <;> exact hih

/-- Posting receives leaves the other queues alone. -/
theorem checkAndPostRecvs_frame {dev : Device} {buf : RegPtr} {size lkey : ℕ} {userContext : WrId}
    {nic nic' : Nic Msg} (h : checkAndPostRecvs dev buf size lkey userContext nic = .ok nic') :
    nic'.recvCq = nic.recvCq ∧ nic'.sendCq = nic.sendCq ∧ nic'.sq = nic.sq ∧
      nic'.unacked = nic.unacked := by
  rw [checkAndPostRecvs] at h
  split at h
  · exact postRecvs_frame h
  · cases h; exact ⟨rfl, rfl, rfl, rfl⟩

/-! ## Sends -/

/-- The sends that hold a place in the send queue. -/
def Nic.sqUsed (nic : Nic Msg) : ℕ :=
  nic.sq.length + nic.unacked.length + nic.sendCq.entries.length

/-- `ibv_post_send` on `qps[rank]`. -/
def ibvPostSend (dev : Device) (rank : Rank) (w : SendWr Msg) (nic : Nic Msg) :
    Exec (ℤ × Nic Msg) :=
  if rank = dev.rank then .error (.fault .loopback)
  else if nic.sqUsed < dev.config.maxSendNum then .ok (0, { nic with sq := nic.sq ++ [w] })
  else .ok (ENOMEM, nic)

/-- The queues after `w` was posted, or refused for want of room. -/
def Nic.posted (dev : Device) (w : SendWr Msg) (nic : Nic Msg) : Nic Msg :=
  if nic.sqUsed < dev.config.maxSendNum then { nic with sq := nic.sq ++ [w] } else nic

theorem ibvPostSend_nic {dev : Device} {rank : Rank} {w : SendWr Msg} {nic nic' : Nic Msg} {ret : ℤ}
    (h : ibvPostSend dev rank w nic = .ok (ret, nic')) : nic' = nic.posted dev w := by
  rw [ibvPostSend] at h
  rw [Nic.posted]
  split at h
  · cases h
  · split at h <;> cases h <;> simp only [*, if_true, if_false]

/-- The payload of a request small enough to be posted with `IBV_SEND_INLINE`. -/
def inlineData (dev : Device) (mem : Mem Msg) (buf : RegPtr) (size : ℕ) : Option (Data Msg) :=
  if dev.config.sendInline ∧ size ≤ dev.config.inlineSize then some (mem.dmaRead buf size) else none

/-- Post `w` and keep the rest of the host as it is. -/
def Host.post (dev : Device) (rank : Rank) (w : SendWr Msg) (h : Host Msg) :
    Exec (ℤ × Host Msg) := do
  let (ret, nic) ← ibvPostSend dev rank w h.nic
  .ok (ret, { h with nic })

theorem Host.post_nic {dev : Device} {rank : Rank} {w : SendWr Msg} {h h' : Host Msg} {ret : ℤ}
    (hp : h.post dev rank w = .ok (ret, h')) : h'.nic = h.nic.posted dev w ∧ h'.mem = h.mem := by
  obtain ⟨⟨ret', nic⟩, hn, he⟩ := bind_eq_ok.mp hp
  cases he
  exact ⟨ibvPostSend_nic hn, rfl⟩

/-- With room in the send queue a request to the peer is accepted. -/
theorem Host.post_eq {dev : Device} {rank : Rank} {w : SendWr Msg} {h : Host Msg}
    (hr : rank ≠ dev.rank) (hroom : h.nic.sqUsed < dev.config.maxSendNum) :
    h.post dev rank w = .ok (0, { h with nic := { h.nic with sq := h.nic.sq ++ [w] } }) := by
  simp only [Host.post, ibvPostSend, if_neg hr, if_pos hroom, ok_bind]

def postSend (dev : Device) (rank : Rank) (buf : RegPtr) (size lkey : ℕ) (userContext : WrId)
    (h : Host Msg) : Exec (ℤ × Host Msg) :=
  h.post dev rank { wrId := userContext, opcode := .send, addr := buf, length := size, lkey,
                    inlined := inlineData dev h.mem buf size }

def postSendImm (dev : Device) (rank : Rank) (buf : RegPtr) (size lkey data : ℕ)
    (userContext : WrId) (h : Host Msg) : Exec (ℤ × Host Msg) :=
  h.post dev rank { wrId := userContext, opcode := .sendWithImm, addr := buf, length := size, lkey,
                    immData := data, inlined := inlineData dev h.mem buf size }

def postWrite (dev : Device) (rank : Rank) (buf : RegPtr) (size lkey : ℕ) (remoteAddr : RegPtr)
    (rkey : ℕ) (userContext : WrId) (h : Host Msg) : Exec (ℤ × Host Msg) :=
  h.post dev rank { wrId := userContext, opcode := .rdmaWrite, addr := buf, length := size, lkey,
                    remoteAddr, rkey, inlined := inlineData dev h.mem buf size }

def postWriteImm (dev : Device) (rank : Rank) (buf : RegPtr) (size lkey : ℕ) (remoteAddr : RegPtr)
    (rkey data : ℕ) (userContext : WrId) (h : Host Msg) : Exec (ℤ × Host Msg) :=
  h.post dev rank { wrId := userContext, opcode := .rdmaWriteWithImm, addr := buf, length := size,
                    lkey, remoteAddr, rkey, immData := data,
                    inlined := inlineData dev h.mem buf size }

/-- `postRead`, which never posts inline. -/
def postRead (dev : Device) (rank : Rank) (buf : RegPtr) (size lkey : ℕ) (remoteAddr : RegPtr)
    (rkey : ℕ) (userContext : WrId) (h : Host Msg) : Exec (ℤ × Host Msg) :=
  h.post dev rank { wrId := userContext, opcode := .rdmaRead, addr := buf, length := size, lkey,
                    remoteAddr, rkey }

section

variable {dev : Device} {rank : Rank} {nic : Nic Msg} (hr : rank ≠ dev.rank)
  (hroom : nic.sqUsed < dev.config.maxSendNum) (mem : Mem Msg)

include hr hroom

theorem postSendImm_eq (buf : RegPtr) (size lkey data : ℕ) (userContext : WrId) :
    postSendImm dev rank buf size lkey data userContext { nic, mem } = .ok (0, { mem, nic := { nic with
      sq := nic.sq ++ [{ wrId := userContext, opcode := .sendWithImm, addr := buf,
                         length := size, lkey, immData := data,
                         inlined := inlineData dev mem buf size }] } }) :=
  Host.post_eq hr hroom

theorem postWrite_eq (buf : RegPtr) (size lkey : ℕ) (remoteAddr : RegPtr) (rkey : ℕ)
    (userContext : WrId) :
    postWrite dev rank buf size lkey remoteAddr rkey userContext { nic, mem }
      = .ok (0, { mem, nic := { nic with
        sq := nic.sq ++ [{ wrId := userContext, opcode := .rdmaWrite, addr := buf, length := size,
                           lkey, remoteAddr, rkey,
                           inlined := inlineData dev mem buf size }] } }) :=
  Host.post_eq hr hroom

theorem postWriteImm_eq (buf : RegPtr) (size lkey : ℕ) (remoteAddr : RegPtr) (rkey data : ℕ)
    (userContext : WrId) :
    postWriteImm dev rank buf size lkey remoteAddr rkey data userContext { nic, mem }
      = .ok (0, { mem, nic := { nic with
        sq := nic.sq ++ [{ wrId := userContext, opcode := .rdmaWriteWithImm, addr := buf,
                           length := size, lkey, remoteAddr, rkey, immData := data,
                           inlined := inlineData dev mem buf size }] } }) :=
  Host.post_eq hr hroom

theorem postRead_eq (buf : RegPtr) (size lkey : ℕ) (remoteAddr : RegPtr) (rkey : ℕ)
    (userContext : WrId) :
    postRead dev rank buf size lkey remoteAddr rkey userContext { nic, mem }
      = .ok (0, { mem, nic := { nic with
        sq := nic.sq ++ [{ wrId := userContext, opcode := .rdmaRead, addr := buf, length := size,
                           lkey, remoteAddr, rkey }] } }) :=
  Host.post_eq hr hroom

end

/-- Inlining does not change what is sent, as long as the memory is what it was at the post. -/
theorem inlineData_getD (dev : Device) (mem : Mem Msg) (buf : RegPtr) (size : ℕ) :
    (inlineData dev mem buf size).getD (mem.dmaRead buf size) = mem.dmaRead buf size := by
  rw [inlineData]
  split <;> rfl

end IbvBench
