import IbvBench.Protocol.Basic

/-!
# Delivery and completion

The network keeps everything as announced: a message that lands is the next one of its direction, a
request that completes is the one its rank waits for, and neither touches the memory that an
outstanding request is still to be read from.
-/

set_option autoImplicit false

namespace IbvBench

open StepMachine

/-! ## Landing, when nothing is in the way -/

section

variable {Msg : Type} {dev : Device} {w : SendWr Msg} {h : Host Msg} {rw : RecvWr}
  {srq : List RecvWr}

theorem landSend_eq {s : MsgSlot} {m : Option Msg} (hsrq : h.nic.srq = rw :: srq)
    (hlen : w.length ≤ rw.length) (hkey : rw.lkey = dev.mr.lkey) (haddr : rw.addr = .msg s)
    (hroom : h.nic.recvCq.entries.length < dev.config.maxCqeNum) :
    landSend dev w (.msg m) h = .ok
      { nic := h.nic.recvd { wrId := rw.wrId, status := .success, opcode := .recv,
                             qpNum := dev.qpNum dev.rank.peer, immData := w.immData,
                             payload := some (.msg m) }
        mem := h.mem.setMsg s m } := by
  have hno : ¬ (rw.length < w.length ∨ rw.lkey ≠ dev.mr.lkey) := by
    rintro (hlt | hne)
    · omega
    · exact hne hkey
  simp only [landSend, hsrq, hno, if_false, haddr, Mem.dmaWrite, consumeRecv, Cq.push_eq hroom,
    ok_bind, Nic.recvd, List.tail_cons]

theorem landWriteImm_eq {b : BufSlot} {cs : List Cell} (hsrq : h.nic.srq = rw :: srq)
    (haddr : w.remoteAddr = .buf b)
    (hroom : h.nic.recvCq.entries.length < dev.config.maxCqeNum) :
    landWriteImm dev w (.bytes cs) h = .ok
      { nic := h.nic.recvd { wrId := rw.wrId, status := .success, opcode := .recvRdmaWithImm,
                             qpNum := dev.qpNum dev.rank.peer, immData := w.immData,
                             payload := some (.bytes cs) }
        mem := h.mem.setBuf b fun i ↦ cs.getD i (h.mem.buf b i) } := by
  simp only [landWriteImm, hsrq, haddr, Mem.dmaWrite, consumeRecv, Cq.push_eq hroom, ok_bind,
    Nic.recvd, List.tail_cons]

end

namespace Protocol

variable {P : Program} {pr : Protocol P} {act : P.Stmt → Act} {env : P.Env}

/-! ## Counting, under the laws -/

theorem cnt_eq (p : Act → Bool) (r : Rank) (n : Node P.Msg P.Obj P.Ext) :
    P.cnt act p r n = n.iter * (P.lambda r).countP (p ∘ act) + passed act p r n.pc := rfl

/-- A statement at a place is the statement of that index. -/
theorem exists_getElem {r : Rank} {pc : ℕ} {ℓ : P.Stmt} (hℓ : (P.lambda r)[pc]? = some ℓ) :
    ∃ h : pc < (P.lambda r).length, (P.lambda r)[pc] = ℓ :=
  List.getElem?_eq_some_iff.mp hℓ

theorem passed_le (p : Act → Bool) (r : Rank) (pc : ℕ) :
    passed act p r pc ≤ (P.lambda r).countP (p ∘ act) :=
  (List.take_sublist pc (P.lambda r)).countP_le

theorem cnt_eq_zero {p : Act → Bool} {r : Rank} (h : (P.lambda r).countP (p ∘ act) = 0)
    (n : Node P.Msg P.Obj P.Ext) : P.cnt act p r n = 0 := by
  have hle : passed act p r n.pc ≤ (P.lambda r).countP (p ∘ act) := passed_le p r n.pc
  rw [cnt_eq, h] at *
  omega

/-- A message is polled after it was posted and has left the send queue, by places in the
scripts. -/
theorem polled_add_pending_le (T : pr.Placed act) {s : P.Sys} (hc : P.Ctl act env s) (r : Rank) :
    (s r).iter * pr.perRound + passed act Act.isPollRecv r (s r).pc
        + (s r.peer).nic.sq.countP SendWr.consumesRecv
      ≤ (s r.peer).iter * pr.perRound + passed act Act.isPostRecv r.peer (s r.peer).pc := by
  have h := hc.polled_add_pending_le r
  rwa [cnt_eq, cnt_eq, (T.perRound r).2, (T.perRound r.peer).1] at h

theorem polled_le_posted (T : pr.Placed act) {s : P.Sys} (hc : P.Ctl act env s) (r : Rank) :
    (s r).iter * pr.perRound + passed act Act.isPollRecv r (s r).pc
      ≤ (s r.peer).iter * pr.perRound + passed act Act.isPostRecv r.peer (s r.peer).pc := by
  have := polled_add_pending_le T hc r
  omega

/-- The statement a rank is at. -/
theorem exists_stmt {s : P.Sys} (hc : P.Ctl act env s) (r : Rank) :
    ∃ ℓ, (P.lambda r)[(s r).pc]? = some ℓ :=
  ⟨_, List.getElem?_eq_getElem (hc.node r).pc_lt⟩

/-- A rank has a send outstanding exactly when it waits for it. -/
theorem sqUsed_eq (L : pr.Lawful act) {s : P.Sys} (hc : P.Ctl act env s) {r : Rank} {ℓ : P.Stmt}
    (hb : (s r).booted = true) (hℓ : (P.lambda r)[(s r).pc]? = some ℓ) :
    (s r).nic.sqUsed = if act ℓ = .pollSend then 1 else 0 := by
  obtain ⟨hpc, rfl⟩ := exists_getElem hℓ
  have h1 := L.placed.posts r _ hpc
  have h2 := ((hc.node r).queues hb).sends
  have h3 := L.scripted.post_eq r
  simp only [cnt_eq, h3] at h2
  omega

/-- A rank with a send outstanding waits for it. -/
theorem waiting (L : pr.Lawful act) {s : P.Sys} (hc : P.Ctl act env s) (hi : pr.Inv env act s)
    {r : Rank} (hne : (s r).nic.sqUsed ≠ 0) :
    (s r).booted = true ∧ (s r).nic.sqUsed = 1 ∧ ∃ h : (s r).pc < (P.lambda r).length,
      act (P.lambda r)[(s r).pc] = .pollSend ∧
        pr.NodeInv env act r (P.lambda r)[(s r).pc] (s r) := by
  have hb : (s r).booted = true := by
    by_contra hb
    rw [((hc.node r).unbooted (by simpa using hb)).2.2] at hne
    exact hne rfl
  obtain ⟨ℓ, hℓ⟩ := exists_stmt hc r
  have h := sqUsed_eq L hc hb hℓ
  have hn := hi.node r hb ℓ hℓ
  obtain ⟨hpc, rfl⟩ := exists_getElem hℓ
  split at h
  · rename_i ha
    exact ⟨hb, h, hpc, ha, hn⟩
  · exact absurd h hne

theorem sqUsed_ne_zero_of_sq {nic : Nic P.Msg} {w : SendWr P.Msg} (h : w ∈ nic.sq) :
    nic.sqUsed ≠ 0 := by
  have := List.length_pos_of_mem h
  rw [Nic.sqUsed]
  omega

theorem sqUsed_ne_zero_of_unacked {nic : Nic P.Msg} {a : Ack P.Msg} (h : a ∈ nic.unacked) :
    nic.sqUsed ≠ 0 := by
  have := List.length_pos_of_mem h
  rw [Nic.sqUsed]
  omega

/-- Where an outgoing message is read from, the peer does not write. -/
theorem dmaRead_eq (L : pr.Lawful act) {r : Rank} {k : ℕ} {ℓ : P.Stmt} {w : SendWr P.Msg}
    {mem mem' : Mem P.Msg} (ha : act ℓ = .pollSend) (hop : pr.op ℓ ≠ .rdmaRead)
    (hw : { w with inlined := none } = pr.wr env r k ℓ)
    (hmsg : ∀ s, s ≠ .controlRecvBuf → mem'.msg s = mem.msg s)
    (hbuf : mem'.buf .sendBuf = mem.buf .sendBuf) :
    mem'.dmaRead w.addr w.length = mem.dmaRead w.addr w.length := by
  have hm := L.moves env r k ℓ ha
  have haddr : (pr.wr env r k ℓ).addr = w.addr := by rw [← hw]
  rw [Moves, haddr] at hm
  split at hm
  · obtain ⟨-, ⟨s, hs, hw⟩, -⟩ := hm
    rw [hw, Mem.dmaRead, Mem.dmaRead, hmsg s hs]
  · obtain ⟨-, ⟨s, hs, hw⟩, -⟩ := hm
    rw [hw, Mem.dmaRead, Mem.dmaRead, hmsg s hs]
  · rw [hm.1, Mem.dmaRead, Mem.dmaRead, Mem.bytes, Mem.bytes, hbuf]
  · rw [hm.1, Mem.dmaRead, Mem.dmaRead, Mem.bytes, Mem.bytes, hbuf]
  · rename_i hr
    exact absurd hr hop

namespace Carries

variable {r : Rank} {k : ℕ} {ℓ : P.Stmt} {mem : Mem P.Msg} {w : SendWr P.Msg}

theorem opcode (L : pr.Lawful act) (h : pr.Carries env r k ℓ mem w) (ha : act ℓ = .pollSend) :
    w.opcode = pr.op ℓ := by
  rw [← L.opcode env r k ℓ ha, ← h.eq]

/-- An outstanding request is admitted at the peer. -/
theorem accessOk (L : pr.Lawful act) (h : pr.Carries env r k ℓ mem w) (ha : act ℓ = .pollSend) :
    IbvBench.accessOk (env.device r) (env.device r.peer) w = true := by
  obtain ⟨hl, hr⟩ := L.keys env r k ℓ ha
  rw [← h.eq] at hl hr
  have hl' : w.lkey = (env.mr r).lkey := hl
  have hr' : w.isRdma = true → w.rkey = (env.mr r.peer).rkey := hr
  rw [IbvBench.accessOk]
  cases hrd : w.isRdma with
  | false => simp [hl', Env.device]
  | true => simp [hl', hr' hrd, Env.device]

/-- Only the receive buffer and the control buffer change under a rank's feet, and no outgoing
message is in either. -/
theorem of_mem (L : pr.Lawful act) (h : pr.Carries env r k ℓ mem w) (ha : act ℓ = .pollSend)
    {mem' : Mem P.Msg} (hmsg : ∀ s, s ≠ .controlRecvBuf → mem'.msg s = mem.msg s)
    (hbuf : mem'.buf .sendBuf = mem.buf .sendBuf) : pr.Carries env r k ℓ mem' w := by
  refine ⟨h.eq, fun hop ↦ ?_⟩
  rw [← h.payload hop, SendWr.payload, SendWr.payload,
    dmaRead_eq L ha (by rw [← h.opcode L ha]; exact hop) h.eq hmsg hbuf]

end Carries

theorem Carried.opcode (L : pr.Lawful act) {r : Rank} {k : ℕ} {ℓ : P.Stmt} {a : Ack P.Msg}
    (h : pr.Carried env r k ℓ a) (ha : act ℓ = .pollSend) : a.wr.opcode = pr.op ℓ := by
  rw [← L.opcode env r k ℓ ha, ← h.eq]

/-- A rank whose script reads nothing has no RDMA_READ outstanding. -/
theorem no_reads (L : pr.Lawful act) {s : P.Sys} (hc : P.Ctl act env s) (hi : pr.Inv env act s)
    {r : Rank} (h0 : (P.lambda r).countP (Act.isPostRead ∘ act) = 0) :
    (s r).nic.sq.countP (·.opcode == .rdmaRead) = 0 ∧
      (s r).nic.unacked.countP (·.wr.opcode == .rdmaRead) = 0 := by
  have hop : ∀ h : (s r).pc < (P.lambda r).length, act (P.lambda r)[(s r).pc] = .pollSend →
      pr.op (P.lambda r)[(s r).pc] ≠ .rdmaRead := by
    intro hpc ha hop
    have h1 := L.placed.read r _ hpc ha hop
    have h2 : passed act Act.isPostRead r (s r).pc ≤ (P.lambda r).countP (Act.isPostRead ∘ act) :=
      passed_le Act.isPostRead r (s r).pc
    omega
  refine ⟨?_, ?_⟩ <;> rw [List.countP_eq_zero]
  · intro w hw
    obtain ⟨-, -, hpc, ha, hn⟩ := waiting L hc hi (sqUsed_ne_zero_of_sq hw)
    rw [(hn.sq w hw).opcode L ha]
    simpa using hop hpc ha
  · intro a haw
    obtain ⟨-, -, hpc, ha, hn⟩ := waiting L hc hi (sqUsed_ne_zero_of_unacked haw)
    rw [(hn.unacked a haw).opcode L ha]
    simpa using hop hpc ha

/-- A rank whose script writes nothing has no RDMA_WRITE outstanding. -/
theorem no_writes (L : pr.Lawful act) {s : P.Sys} (hc : P.Ctl act env s) (hi : pr.Inv env act s)
    {r : Rank} (h0 : (P.lambda r).countP (Act.isPostWrite ∘ act) = 0) :
    (s r).nic.sq.countP (·.opcode.isWrite) = 0 := by
  rw [List.countP_eq_zero]
  intro w hw
  obtain ⟨-, -, hpc, ha, hn⟩ := waiting L hc hi (sqUsed_ne_zero_of_sq hw)
  rw [(hn.sq w hw).opcode L ha]
  intro hop
  have h1 := L.placed.write r _ hpc ha hop
  have h2 : passed act Act.isPostWrite r (s r).pc ≤ (P.lambda r).countP (Act.isPostWrite ∘ act) :=
    passed_le Act.isPostWrite r (s r).pc
  omega

/-! ## A request is executed -/

/-- The message in flight is the next one to arrive at the peer. -/
theorem nth_generated (L : pr.Lawful act) {s : P.Sys} (hc : P.Ctl act env s) {r : Rank}
    (hpc : (s r).pc < (P.lambda r).length) (ha : act (P.lambda r)[(s r).pc] = .pollSend)
    (hop : (pr.op (P.lambda r)[(s r).pc]).consumesRecv = true)
    (hsq : (s r).nic.sq.countP SendWr.consumesRecv = 1) :
    pr.nth r (s r.peer).nic.recvCq.generated = ((s r).iter, (P.lambda r)[(s r).pc]) := by
  obtain ⟨i, hi, hpassed, hsend⟩ := L.placed.message r _ hpc ha hop
  have hlink := hc.link r
  rw [hsq, cnt_eq, (L.placed.perRound r).1, hpassed] at hlink
  have hgen : (s r.peer).nic.recvCq.generated = i + pr.perRound * (s r).iter := by
    rw [Nat.mul_comm]; omega
  rw [nth, hgen, Nat.add_mul_div_left _ _ (by omega), Nat.add_mul_mod_self_left,
    Nat.div_eq_of_lt hi, Nat.mod_eq_of_lt hi, hsend, Nat.zero_add]

/-- What executing the request announced at `ℓ` does to the peer's host. -/
structure Landed (pr : Protocol P) (env : P.Env) (r : Rank) (k : ℕ) (ℓ : P.Stmt)
    (h h' : Host P.Msg) : Prop where
  msg : ∀ s, s ≠ .controlRecvBuf → h'.mem.msg s = h.mem.msg s
  sendBuf : h'.mem.buf .sendBuf = h.mem.buf .sendBuf
  recvBuf : (pr.op ℓ).isWrite = false → h'.mem.buf .recvBuf = h.mem.buf .recvBuf
  written : (pr.op ℓ).isWrite = true →
    h'.mem.bytes .recvBuf (env.size k) = env.sentBytes r k
  nic : if (pr.op ℓ).consumesRecv then
      h.nic.srq ≠ [] ∧ h'.nic = h.nic.recvd (pr.arrival env r.peer k ℓ)
    else h'.nic = h.nic ∧ h'.mem.msg .controlRecvBuf = h.mem.msg .controlRecvBuf
  control : (pr.op ℓ).consumesRecv = true → (pr.op ℓ).recvOpcode = .recv →
    Data.msg (h'.mem.msg .controlRecvBuf) = pr.data env r k ℓ

section

variable {r : Rank} {k : ℕ} {ℓ : P.Stmt} {w : SendWr P.Msg} {mem : Mem P.Msg} {h : Host P.Msg}

/-- The completion at the peer, in the terms in which the transport writes it. -/
theorem arrival_peer (L : pr.Lawful act) (ha : act ℓ = .pollSend) :
    pr.arrival env r.peer k ℓ =
      { wrId := (P.recvWr env r.peer).wrId, status := .success, opcode := (pr.op ℓ).recvOpcode,
        qpNum := (env.device r.peer).qpNum (env.device r.peer).rank.peer,
        immData := (pr.wr env r k ℓ).immData, payload := some (pr.data env r k ℓ) } := by
  rw [arrival, Rank.peer_peer, L.opcode env r k ℓ ha]
  simp only [Env.device, Rank.peer_peer]

/-- A send lands in the control buffer. -/
theorem landed_send (L : pr.Lawful act) (ha : act ℓ = .pollSend)
    (hw : pr.Carries env r k ℓ mem w) (hop : pr.op ℓ = .send ∨ pr.op ℓ = .sendWithImm)
    (hsrq : ∀ x ∈ h.nic.srq, x = P.recvWr env r.peer) (hrecvs : h.nic.recvs ≤ 8) :
    Safe (landSend (env.device r.peer) w (w.payload mem) h) (pr.Landed env r k ℓ h) := by
  rcases hq : h.nic.srq with _ | ⟨rw, srq⟩
  · simp [landSend, hq]
  · obtain rfl : rw = P.recvWr env r.peer := hsrq rw (by simp [hq])
    have hne : w.opcode ≠ .rdmaRead := by
      rw [hw.opcode L ha]; rcases hop with h | h <;> rw [h] <;> decide
    have hmoves : (pr.wr env r k ℓ).length ≤ env.cacheLineSize ∧
        (∃ s, s ≠ .controlRecvBuf ∧ (pr.wr env r k ℓ).addr = .msg s) ∧
        ∃ m, pr.data env r k ℓ = .msg m := by
      have hm := L.moves env r k ℓ ha
      rw [Moves] at hm
      rcases hop with h | h <;> rw [h] at hm <;> exact hm
    obtain ⟨hlen, -, m, hm⟩ := hmoves
    have hlen' : w.length = (pr.wr env r k ℓ).length := by rw [← hw.eq]
    have himm : w.immData = (pr.wr env r k ℓ).immData := by rw [← hw.eq]
    have hrw := L.recvWr env r.peer
    rw [hw.payload hne, hm]
    rw [landSend_eq hq (by rw [hlen', hrw]; exact hlen) (by rw [hrw]; rfl) (by rw [hrw])
      (by simp only [Nic.recvs, hq, List.length_cons] at hrecvs; simp only [Env.device]; omega)]
    have hcons : (pr.op ℓ).consumesRecv = true ∧ (pr.op ℓ).isWrite = false ∧
        (pr.op ℓ).recvOpcode = .recv := by
      rcases hop with h | h <;> rw [h] <;> exact ⟨rfl, rfl, rfl⟩
    obtain ⟨hcons, hwr, hrec⟩ := hcons
    refine safe_ok.mpr ⟨fun s hs ↦ if_neg hs, rfl, fun _ ↦ rfl, ?_, ?_, ?_⟩
    · intro h
      rw [hwr] at h; cases h
    · rw [if_pos hcons]
      refine ⟨by rw [hq]; simp, ?_⟩
      rw [arrival_peer L ha, hrec, hm, ← himm]
    · intro _ _
      rw [hm, Mem.setMsg_msg, if_pos rfl]

/-- A write takes the bytes of its round to the receive buffer. -/
theorem Carries.write (L : pr.Lawful act) (hw : pr.Carries env r k ℓ mem w)
    (ha : act ℓ = .pollSend) (hop : (pr.op ℓ).isWrite = true) :
    w.remoteAddr = .buf .recvBuf ∧ w.payload mem = .bytes (env.sentBytes r k) ∧
      pr.data env r k ℓ = .bytes (env.sentBytes r k) := by
  have hmoves : (pr.wr env r k ℓ).addr = .buf .sendBuf ∧
      (pr.wr env r k ℓ).remoteAddr = .buf .recvBuf ∧
      pr.data env r k ℓ = .bytes (env.sentBytes r k) := by
    have hm := L.moves env r k ℓ ha
    rw [Moves] at hm
    split at hm <;> rename_i heq
    · rw [heq] at hop; cases hop
    · rw [heq] at hop; cases hop
    · exact hm
    · exact hm
    · rw [heq] at hop; cases hop
  have hne : w.opcode ≠ .rdmaRead := by
    intro hr
    rw [← hw.opcode L ha, hr] at hop
    cases hop
  refine ⟨?_, by rw [hw.payload hne, hmoves.2.2], hmoves.2.2⟩
  rw [← hmoves.2.1, ← hw.eq]

/-- The receive buffer after a write of the round has landed there. -/
theorem bytes_written (mem : Mem P.Msg) (r : Rank) (k : ℕ) :
    (mem.setBuf .recvBuf fun i ↦ (env.sentBytes r k).getD i (mem.buf .recvBuf i)).bytes .recvBuf
      (env.size k) = env.sentBytes r k := by
  have h := mem.bytes_setBuf_write .recvBuf (env.sentBytes r k)
  rwa [Env.length_sentBytes] at h

theorem landed_writeImm (L : pr.Lawful act) (ha : act ℓ = .pollSend)
    (hw : pr.Carries env r k ℓ mem w) (hop : pr.op ℓ = .rdmaWriteWithImm)
    (hsrq : ∀ x ∈ h.nic.srq, x = P.recvWr env r.peer) (hrecvs : h.nic.recvs ≤ 8) :
    Safe (landWriteImm (env.device r.peer) w (w.payload mem) h) (pr.Landed env r k ℓ h) := by
  rcases hq : h.nic.srq with _ | ⟨rw, srq⟩
  · simp [landWriteImm, hq]
  · obtain rfl : rw = P.recvWr env r.peer := hsrq rw (by simp [hq])
    obtain ⟨haddr, hpay, hdata⟩ := hw.write L ha (by rw [hop]; rfl)
    have himm : w.immData = (pr.wr env r k ℓ).immData := by rw [← hw.eq]
    rw [hpay, landWriteImm_eq hq haddr
      (by simp only [Nic.recvs, hq, List.length_cons] at hrecvs; simp only [Env.device]; omega)]
    refine safe_ok.mpr ⟨fun s _ ↦ rfl, rfl, ?_, fun _ ↦ bytes_written h.mem r k, ?_, ?_⟩
    · intro h
      rw [hop] at h; cases h
    · rw [if_pos (by rw [hop]; rfl)]
      refine ⟨by rw [hq]; simp, ?_⟩
      rw [arrival_peer L ha, hop, hdata, ← himm]
      rfl
    · intro _ h
      rw [hop] at h; cases h

theorem landed_write (L : pr.Lawful act) (ha : act ℓ = .pollSend)
    (hw : pr.Carries env r k ℓ mem w) (hop : pr.op ℓ = .rdmaWrite) :
    Safe (h.mem.dmaWrite w.remoteAddr (w.payload mem)) fun m ↦
      pr.Landed env r k ℓ h { h with mem := m } := by
  obtain ⟨haddr, hpay, -⟩ := hw.write L ha (by rw [hop]; rfl)
  rw [haddr, hpay, Mem.dmaWrite]
  refine safe_ok.mpr ⟨fun s _ ↦ rfl, rfl, ?_, fun _ ↦ bytes_written h.mem r k, ?_, ?_⟩
  · intro h
    rw [hop] at h; cases h
  · rw [if_neg (by rw [hop]; decide)]
    exact ⟨rfl, rfl⟩
  · intro h
    rw [hop] at h; cases h

/-- A read takes the bytes of the peer's round, and changes nothing there. -/
theorem landed_read (L : pr.Lawful act) (ha : act ℓ = .pollSend)
    (hw : pr.Carries env r k ℓ mem w) (hop : pr.op ℓ = .rdmaRead)
    (hfill : h.mem.bytes .sendBuf (env.size k) = env.sentBytes r.peer k) :
    pr.Landed env r k ℓ h h ∧
      some (h.mem.dmaRead w.remoteAddr w.length) = pr.fetched env r k ℓ := by
  have hm := L.moves env r k ℓ ha
  rw [Moves, hop] at hm
  obtain ⟨-, hra, hlen, hdata⟩ := hm
  have hra' : w.remoteAddr = .buf .sendBuf := by rw [← hra, ← hw.eq]
  have hlen' : w.length = env.size k := by rw [← hlen, ← hw.eq]
  refine ⟨⟨fun s _ ↦ rfl, rfl, fun _ ↦ rfl, ?_, ?_, ?_⟩, ?_⟩
  · intro h
    rw [hop] at h; cases h
  · rw [if_neg (by rw [hop]; decide)]
    exact ⟨rfl, rfl⟩
  · intro h
    rw [hop] at h; cases h
  · rw [fetched, L.opcode env r k ℓ ha, if_pos hop, hdata, hra', hlen', Mem.dmaRead, hfill]

/-- **Executing the outstanding request at the peer.** -/
theorem execute_safe (L : pr.Lawful act) (ha : act ℓ = .pollSend)
    (hw : pr.Carries env r k ℓ mem w) (hsrq : ∀ x ∈ h.nic.srq, x = P.recvWr env r.peer)
    (hrecvs : h.nic.recvs ≤ 8)
    (hfill : pr.op ℓ = .rdmaRead →
      h.mem.bytes .sendBuf (env.size k) = env.sentBytes r.peer k) :
    Safe (execute (env.device r.peer) w mem h) fun (h', data) ↦
      pr.Landed env r k ℓ h h' ∧ data = pr.fetched env r k ℓ := by
  have hopw : w.opcode = pr.op ℓ := hw.opcode L ha
  have hnone : pr.op ℓ ≠ .rdmaRead → none = pr.fetched env r k ℓ := by
    intro hne
    rw [fetched, L.opcode env r k ℓ ha, if_neg hne]
  rw [execute, hopw]
  cases hop : pr.op ℓ with
  | send =>
    exact (landed_send L ha hw (.inl hop) hsrq hrecvs).bind fun h' hl ↦
      ⟨hl, hnone (by rw [hop]; decide)⟩
  | sendWithImm =>
    exact (landed_send L ha hw (.inr hop) hsrq hrecvs).bind fun h' hl ↦
      ⟨hl, hnone (by rw [hop]; decide)⟩
  | rdmaWrite =>
    exact (landed_write L ha hw hop).bind fun m hl ↦ ⟨hl, hnone (by rw [hop]; decide)⟩
  | rdmaWriteWithImm =>
    exact (landed_writeImm L ha hw hop hsrq hrecvs).bind fun h' hl ↦
      ⟨hl, hnone (by rw [hop]; decide)⟩
  | rdmaRead => exact landed_read L ha hw hop (hfill hop)

end

/-! ## The nodes after a delivery or a completion -/

section

variable {r : Rank} {ℓ : P.Stmt} {n : Node P.Msg P.Obj P.Ext}

/-- The node whose request was executed. -/
theorem NodeInv.delivered (h : pr.NodeInv env act r ℓ n) {w : SendWr P.Msg}
    {sq : List (SendWr P.Msg)} (hsq : n.nic.sq = w :: sq) {data : Option (Data P.Msg)}
    (hdata : data = pr.fetched env r n.iter ℓ) :
    pr.NodeInv env act r ℓ (P.setHost n { n.st.host with
      nic := { n.nic with sq, unacked := n.nic.unacked ++ [{ wr := w, data }] } }) := by
  refine ⟨h.heap, h.own, h.wc, h.sendBuf, ?_, ?_, h.sendCq, h.recvCq, h.control⟩
  · intro x hx
    exact h.sq x (by rw [hsq]; exact List.mem_cons_of_mem w hx)
  · intro a ha
    rcases List.mem_append.mp ha with ha | ha
    · exact h.unacked a ha
    · obtain rfl := List.mem_singleton.mp ha
      exact ⟨(h.sq w (by rw [hsq]; exact List.mem_cons_self)).eq, hdata⟩

/-- Its peer. -/
theorem NodeInv.landed (L : pr.Lawful act) (h : pr.NodeInv env act r.peer ℓ n)
    (hsend : n.nic.sq ≠ [] → act ℓ = .pollSend)
    (hcq : n.nic.recvCq.polled + n.nic.recvCq.entries.length = n.nic.recvCq.generated)
    {k : ℕ} {ℓ' : P.Stmt} {h' : Host P.Msg} (hl : pr.Landed env r k ℓ' n.st.host h')
    (ha : act ℓ' = .pollSend)
    (hnth : (pr.op ℓ').consumesRecv = true → pr.nth r n.nic.recvCq.generated = (k, ℓ')) :
    pr.NodeInv env act r.peer ℓ (P.setHost n h') := by
  have hown : pr.Local env r.peer n.iter ℓ n.st.ext (h'.mem.msg .rtsMsg) := by
    rw [hl.msg .rtsMsg (by decide)]; exact h.own
  have hbuf : env.SendBufAt r.peer (P.cnt act Act.isFill r.peer n) (h'.mem.buf .sendBuf) := by
    rw [hl.sendBuf]; exact h.sendBuf
  have hcarry : ∀ w ∈ n.nic.sq, pr.Carries env r.peer n.iter ℓ h'.mem w := fun w hw ↦
    (h.sq w hw).of_mem L (hsend (List.ne_nil_of_mem hw)) hl.msg hl.sendBuf
  have hnic := hl.nic
  by_cases hop : (pr.op ℓ').consumesRecv = true
  · rw [if_pos hop] at hnic
    have harr : pr.nthArrival env r.peer n.nic.recvCq.generated = pr.arrival env r.peer k ℓ' := by
      rw [nthArrival, Rank.peer_peer, hnth hop]
    refine ⟨h.heap, hown, h.wc, hbuf, ?_, ?_, ?_, ?_, ?_⟩ <;>
      simp only [Node.nic, Node.mem, Program.setHost_host, hnic.2, Nic.recvd, Cq.pushed]
    · exact hcarry
    · exact h.unacked
    · exact h.sendCq
    · rw [List.length_append, List.length_singleton, List.range'_concat, List.map_append,
        ← h.recvCq, List.map_singleton, Nat.one_mul, hcq, harr]
    · intro m hm hopc
      obtain rfl : n.nic.recvCq.generated = m := Nat.succ.inj hm
      rw [harr] at hopc ⊢
      rw [arrival_peer L ha] at hopc ⊢
      rw [hl.control hop hopc]
  · rw [if_neg hop] at hnic
    refine ⟨h.heap, hown, h.wc, hbuf, ?_, ?_, ?_, ?_, ?_⟩ <;>
      simp only [Node.nic, Node.mem, Program.setHost_host, hnic.1, hnic.2]
    · exact hcarry
    · exact h.unacked
    · exact h.sendCq
    · exact h.recvCq
    · exact h.control

end

/-- To know the invariant it is enough to know it at a rank and at its peer. -/
theorem Inv.of_peer {s : P.Sys} (r : Rank)
    (hu : ∀ x, (s x).booted = false → (s x).st.heap = {} ∧ (s x).st.ext = P.ext0 ∧
      (s x).mem.buf .sendBuf = (env.mem0 x).buf .sendBuf)
    (hr : (s r).booted = true → ∀ ℓ, (P.lambda r)[(s r).pc]? = some ℓ →
      pr.NodeInv env act r ℓ (s r))
    (hp : (s r.peer).booted = true → ∀ ℓ, (P.lambda r.peer)[(s r.peer).pc]? = some ℓ →
      pr.NodeInv env act r.peer ℓ (s r.peer))
    (hbr : ∀ j, j + 1 + pending r s = transfers act r s →
      (s r).mem.bytes .recvBuf (env.size j) = env.sentBytes r.peer j)
    (hbp : ∀ j, j + 1 + pending r.peer s = transfers act r.peer s →
      (s r.peer).mem.bytes .recvBuf (env.size j) = env.sentBytes r j) : pr.Inv env act s := by
  refine ⟨hu, fun x ↦ ?_, fun x ↦ ?_⟩ <;> rcases r.eq_or_eq_peer x with rfl | rfl
  · exact hr
  · exact hp
  · exact hbr
  · rw [Rank.peer_peer]
    exact hbp

/-- The transfers of a rank into the receive buffer of its peer, when it waits for a write. -/
theorem transfers_of_write (L : pr.Lawful act) {s : P.Sys} (hc : P.Ctl act env s)
    (hi : pr.Inv env act s) {r : Rank} (hpc : (s r).pc < (P.lambda r).length)
    (ha : act (P.lambda r)[(s r).pc] = .pollSend)
    (hop : (pr.op (P.lambda r)[(s r).pc]).isWrite = true) :
    transfers act r.peer s = (s r).iter + 1 ∧
      (s r.peer).nic.sq.countP (·.opcode == .rdmaRead) = 0 ∧
      (s r.peer).nic.unacked.countP (·.wr.opcode == .rdmaRead) = 0 := by
  have h1 := L.placed.write r _ hpc ha hop
  have h2 : passed act Act.isPostWrite r (s r).pc ≤ (P.lambda r).countP (Act.isPostWrite ∘ act) :=
    passed_le Act.isPostWrite r (s r).pc
  rcases L.placed.oneSided with hone | hone
  · refine ⟨?_, no_reads L hc hi (hone r.peer).2⟩
    rw [transfers, Rank.peer_peer, cnt_eq_zero (hone r.peer).2, cnt_eq, (hone r).1, h1]
    omega
  · have := (hone r).1
    omega

/-- The transfers into a rank's own receive buffer, when it waits for a read. -/
theorem transfers_of_read (L : pr.Lawful act) {s : P.Sys} (hc : P.Ctl act env s)
    (hi : pr.Inv env act s) {r : Rank} (hpc : (s r).pc < (P.lambda r).length)
    (ha : act (P.lambda r)[(s r).pc] = .pollSend)
    (hop : pr.op (P.lambda r)[(s r).pc] = .rdmaRead) :
    transfers act r s = (s r).iter + 1 ∧ (s r.peer).nic.sq.countP (·.opcode.isWrite) = 0 := by
  have h1 := L.placed.read r _ hpc ha hop
  have h2 : passed act Act.isPostRead r (s r).pc ≤ (P.lambda r).countP (Act.isPostRead ∘ act) :=
    passed_le Act.isPostRead r (s r).pc
  rcases L.placed.oneSided with hone | hone
  · have := (hone r).2
    omega
  · refine ⟨?_, no_writes L hc hi (hone r.peer).1⟩
    rw [transfers, cnt_eq_zero (hone r.peer).1, cnt_eq, (hone r).2, h1]
    omega

section

variable {s : P.Sys} {r : Rank} {w : SendWr P.Msg}

/-- What the hardware does posts nothing. -/
theorem transfers_setHost {s' : P.Sys} {h h' : Host P.Msg} (hr : s' r = P.setHost (s r) h)
    (hp : s' r.peer = P.setHost (s r.peer) h') (x : Rank) :
    transfers act x s' = transfers act x s := by
  rcases r.eq_or_eq_peer x with rfl | rfl <;>
    simp only [transfers, Rank.peer_peer, hr, hp, Program.cnt_setHost]

/-- The state after the outstanding request of `r` was executed at its peer. -/
theorem inv_delivered (L : pr.Lawful act) (hc : P.Ctl act env s) (hi : pr.Inv env act s)
    (hb : (s r).booted = true) (hpc : (s r).pc < (P.lambda r).length)
    (ha : act (P.lambda r)[(s r).pc] = .pollSend) (hsq : (s r).nic.sq = [w])
    {data : Option (Data P.Msg)} {h' : Host P.Msg}
    (hl : pr.Landed env r (s r).iter (P.lambda r)[(s r).pc] (s r.peer).st.host h')
    (hdata : data = pr.fetched env r (s r).iter (P.lambda r)[(s r).pc]) {s' : P.Sys}
    (hr : s' r = P.setHost (s r) { (s r).st.host with
      nic := { (s r).nic with sq := [], unacked := (s r).nic.unacked ++ [{ wr := w, data }] } })
    (hp : s' r.peer = P.setHost (s r.peer) h') : pr.Inv env act s' := by
  have hn := hi.node r hb _ (List.getElem?_eq_getElem hpc)
  have hopw : w.opcode = pr.op (P.lambda r)[(s r).pc] :=
    (hn.sq w (by rw [hsq]; exact List.mem_cons_self)).opcode L ha
  have hnic : h'.nic.sq = (s r.peer).nic.sq ∧ h'.nic.unacked = (s r.peer).nic.unacked := by
    have h := hl.nic
    split at h
    · rw [h.2]; exact ⟨rfl, rfl⟩
    · rw [h.1]; exact ⟨rfl, rfl⟩
  have htr : ∀ x, transfers act x s' = transfers act x s := transfers_setHost hr hp
  refine Inv.of_peer r ?_ ?_ ?_ ?_ ?_
  · intro x hx
    rcases r.eq_or_eq_peer x with rfl | rfl
    · rw [hr] at hx
      exact absurd (hb.symm.trans hx) (by decide)
    · rw [hp] at hx ⊢
      obtain ⟨h1, h2, h3⟩ := hi.unbooted r.peer hx
      exact ⟨h1, h2, hl.sendBuf.trans h3⟩
  · intro _ ℓ hℓ
    rw [hr] at hℓ ⊢
    obtain rfl : (P.lambda r)[(s r).pc] = ℓ := Option.some.inj ((List.getElem?_eq_getElem hpc).symm.trans hℓ)
    exact hn.delivered hsq hdata
  · intro hbp ℓ hℓ
    rw [hp] at hbp hℓ ⊢
    refine (hi.node r.peer hbp ℓ hℓ).landed L ?_ ((hc.node r.peer).queues hbp).recvCq hl ha ?_
    · intro hne
      obtain ⟨w', hw'⟩ := List.exists_mem_of_ne_nil _ hne
      obtain ⟨-, -, hpc', ha', -⟩ := waiting L hc hi (sqUsed_ne_zero_of_sq hw')
      obtain ⟨-, rfl⟩ := exists_getElem hℓ
      exact ha'
    · intro hop
      refine nth_generated L hc hpc ha hop ?_
      rw [hsq, List.countP_singleton, SendWr.consumesRecv, hopw, hop]
      rfl
  · intro j hj
    have hpend : pending r s' = pending r s := by
      simp only [pending, hr, hp, Node.nic, Program.setHost_host]
      rw [hnic.1, Node.nic, show (s r).st.host.nic.sq = [w] from hsq]
      simp only [List.countP_append, List.countP_singleton, List.countP_nil]
      omega
    rw [hpend, htr] at hj
    rw [hr]
    exact hi.recvBuf r j hj
  · intro j hj
    have hold := hi.recvBuf r.peer j
    rw [htr] at hj
    simp only [pending, Rank.peer_peer, hr, hp, Node.nic, Program.setHost_host, hnic.1, hnic.2,
      List.countP_nil] at hj
    rw [Rank.peer_peer] at hold
    rw [hp]
    by_cases hop : (pr.op (P.lambda r)[(s r).pc]).isWrite = true
    · obtain ⟨ht, h0, h0'⟩ := transfers_of_write L hc hi hpc ha hop
      rw [Node.nic] at h0 h0'
      obtain rfl : (s r).iter = j := by omega
      exact hl.written hop
    · have hopf : (pr.op (P.lambda r)[(s r).pc]).isWrite = false := by simpa using hop
      have hbytes := hold (by
        simp only [pending, Rank.peer_peer, hsq, List.countP_singleton, hopw, hopf]
        simpa using hj)
      rw [← hbytes]
      simp only [Mem.bytes, Node.mem, Program.setHost_host, hl.recvBuf hopf]

end

/-- What a delivery does. -/
theorem deliver_safe (L : pr.Lawful act) {s : P.Sys} (hc : P.Ctl act env s)
    (hi : pr.Inv env act s) (r : Rank) : Safe (P.step env s (.deliver r)) fun s' ↦
      ∃ (hpc : (s r).pc < (P.lambda r).length) (w : SendWr P.Msg) (data : Option (Data P.Msg))
        (h' : Host P.Msg), (s r).booted = true ∧ act (P.lambda r)[(s r).pc] = .pollSend ∧
        (s r).nic.sq = [w] ∧
        pr.Landed env r (s r).iter (P.lambda r)[(s r).pc] (s r.peer).st.host h' ∧
        data = pr.fetched env r (s r).iter (P.lambda r)[(s r).pc] ∧
        s' r = P.setHost (s r) { (s r).st.host with nic := { (s r).nic with
          sq := [], unacked := (s r).nic.unacked ++ [{ wr := w, data }] } } ∧
        s' r.peer = P.setHost (s r.peer) h' := by
  rcases hsq : (s r).nic.sq with _ | ⟨w, sq⟩
  · simp only [Node.nic] at hsq
    simp [Program.step, deliver, hsq]
  obtain ⟨hb, hused, hpc, ha, hn⟩ :=
    waiting L hc hi (sqUsed_ne_zero_of_sq (hsq ▸ List.mem_cons_self))
  have hw : pr.Carries env r (s r).iter (P.lambda r)[(s r).pc] (s r).mem w :=
    hn.sq w (by rw [hsq]; exact List.mem_cons_self)
  have hsq' : sq = [] := by
    rw [Nic.sqUsed, hsq, List.length_cons] at hused
    exact List.eq_nil_of_length_eq_zero (by omega)
  subst hsq'
  -- the peer may not have started yet, and then it has no receive posted
  have hsrq : ∀ x ∈ (s r.peer).nic.srq, x = P.recvWr env r.peer := by
    by_cases hbp : (s r.peer).booted = true
    · exact ((hc.node r.peer).queues hbp).srq
    · rw [((hc.node r.peer).unbooted (by simpa using hbp)).2.2]
      simp
  have hfill : pr.op (P.lambda r)[(s r).pc] = .rdmaRead →
      (s r.peer).mem.bytes .sendBuf (env.size (s r).iter) = env.sentBytes r.peer (s r).iter := by
    intro hop
    have hcnt := L.reads_filled hc hb (List.getElem?_eq_getElem hpc) ha hop
    by_cases hbp : (s r.peer).booted = true
    · obtain ⟨ℓ', hℓ'⟩ := exists_stmt hc r.peer
      have hbuf := (hi.node r.peer hbp ℓ' hℓ').sendBuf
      rw [hcnt] at hbuf
      exact hbuf.bytes_eq
    · obtain ⟨hiter, hpc', -⟩ := (hc.node r.peer).unbooted (by simpa using hbp)
      rw [Program.cnt_start _ hiter hpc'] at hcnt
      omega
  have hexec := execute_safe L ha hw (h := (s r.peer).st.host) hsrq
    ((hc.node r.peer).recvs_le L.scripted) hfill
  simp only [Program.step, deliver, show (s r).st.host.nic.sq = [w] from hsq, hw.accessOk L ha,
    if_true]
  have hpair := hexec.bind (k := fun x ↦ .ok (({ (s r).st.host with nic := { (s r).nic with
      sq := [], unacked := (s r).nic.unacked ++ [{ wr := w, data := x.2 }] } } : Host P.Msg), x.1))
    (R := fun x ↦ ∃ data, data = pr.fetched env r (s r).iter (P.lambda r)[(s r).pc] ∧
      x.1 = { (s r).st.host with nic := { (s r).nic with
        sq := [], unacked := (s r).nic.unacked ++ [{ wr := w, data }] } } ∧
      pr.Landed env r (s r).iter (P.lambda r)[(s r).pc] (s r.peer).st.host x.2)
    fun x hl ↦ ⟨x.2, hl.2, rfl, hl.1⟩
  refine Safe.bind hpair ?_
  rintro ⟨k, k'⟩ ⟨data, hdata, rfl, hl⟩
  refine safe_ok.mpr ⟨hpc, w, data, k', hb, ha, rfl, hl, hdata, ?_, ?_⟩
  · rw [Function.update_of_ne r.ne_peer, Function.update_self]
  · rw [Function.update_self]

/-- **Delivery keeps everything as announced.** -/
theorem inv_deliver (L : pr.Lawful act) {s : P.Sys} (hc : P.Ctl act env s)
    (hi : pr.Inv env act s) (r : Rank) :
    Safe (P.step env s (.deliver r)) (pr.Inv env act) :=
  (deliver_safe L hc hi r).mono fun _ ⟨hpc, _, _, _, hb, ha, hsq, hl, hdata, hr, hp⟩ ↦
    inv_delivered L hc hi hb hpc ha hsq hl hdata hr hp

/-! ## A request completes -/

/-- What placing the fetched bytes does to the memory of the rank. -/
structure Placement (pr : Protocol P) (env : P.Env) (r : Rank) (k : ℕ) (ℓ : P.Stmt)
    (mem mem' : Mem P.Msg) : Prop where
  msg : mem'.msg = mem.msg
  sendBuf : mem'.buf .sendBuf = mem.buf .sendBuf
  recvBuf : pr.op ℓ ≠ .rdmaRead → mem'.buf .recvBuf = mem.buf .recvBuf
  placed : pr.op ℓ = .rdmaRead →
    mem'.bytes .recvBuf (env.size k) = env.sentBytes r.peer k

theorem placeFetched_safe (L : pr.Lawful act) {r : Rank} {k : ℕ} {ℓ : P.Stmt} {a : Ack P.Msg}
    (ha : act ℓ = .pollSend) (h : pr.Carried env r k ℓ a) (mem : Mem P.Msg) :
    Safe (placeFetched a mem) (pr.Placement env r k ℓ mem) := by
  rw [placeFetched, h.data, fetched, L.opcode env r k ℓ ha]
  by_cases hop : pr.op ℓ = .rdmaRead
  · have hm := L.moves env r k ℓ ha
    rw [Moves, hop] at hm
    obtain ⟨haddr, -, -, hdata⟩ := hm
    have haddr' : a.wr.addr = .buf .recvBuf := by rw [← haddr, ← h.eq]
    rw [if_pos hop, hdata, haddr']
    refine safe_ok.mpr ⟨rfl, rfl, fun hne ↦ absurd hop hne, fun _ ↦ ?_⟩
    exact bytes_written mem r.peer k
  · rw [if_neg hop]
    exact safe_ok.mpr ⟨rfl, rfl, fun _ ↦ rfl, fun h ↦ absurd h hop⟩

/-- The node whose request completed. -/
theorem NodeInv.completed (L : pr.Lawful act) {r : Rank} {ℓ : P.Stmt}
    {n : Node P.Msg P.Obj P.Ext} (h : pr.NodeInv env act r ℓ n) (ha : act ℓ = .pollSend)
    {a : Ack P.Msg} {unacked : List (Ack P.Msg)} (hu : n.nic.unacked = a :: unacked)
    {mem : Mem P.Msg} (hp : pr.Placement env r n.iter ℓ n.mem mem) {cq : Cq P.Msg}
    (hcq : cq = n.nic.sendCq.pushed (pr.sent env r n.iter ℓ)) :
    pr.NodeInv env act r ℓ (P.setHost n { nic := { n.nic with unacked, sendCq := cq }, mem }) := by
  refine ⟨h.heap, ?_, h.wc, ?_, ?_, ?_, ?_, h.recvCq, ?_⟩
  · rw [Node.mem, Program.setHost_host, hp.msg]
    exact h.own
  · rw [Node.mem, Program.setHost_host, hp.sendBuf]
    exact h.sendBuf
  · intro w hw
    exact (h.sq w hw).of_mem L ha (fun s _ ↦ congrFun hp.msg s) hp.sendBuf
  · intro b hb
    exact h.unacked b (by rw [hu]; exact List.mem_cons_of_mem a hb)
  · intro c hc
    simp only [Node.nic, Program.setHost_host, hcq, Cq.pushed] at hc
    rcases List.mem_append.mp hc with hc | hc
    · exact h.sendCq c hc
    · exact List.mem_singleton.mp hc
  · simp only [Node.mem, Program.setHost_host, hp.msg]
    exact h.control

/-- The state after the outstanding request of `r` completed. -/
theorem inv_completed (L : pr.Lawful act) {s : P.Sys} (hc : P.Ctl act env s)
    (hi : pr.Inv env act s) {r : Rank} (hb : (s r).booted = true)
    (hpc : (s r).pc < (P.lambda r).length) (ha : act (P.lambda r)[(s r).pc] = .pollSend)
    {a : Ack P.Msg} (hsq : (s r).nic.sq = []) (hu : (s r).nic.unacked = [a]) {mem : Mem P.Msg}
    (hp : pr.Placement env r (s r).iter (P.lambda r)[(s r).pc] (s r).mem mem) {s' : P.Sys}
    (hr : s' r = P.setHost (s r) { nic := { (s r).nic with
      unacked := []
      sendCq := (s r).nic.sendCq.pushed (pr.sent env r (s r).iter (P.lambda r)[(s r).pc]) }, mem })
    (hpeer : s' r.peer = s r.peer) : pr.Inv env act s' := by
  have hn := hi.node r hb _ (List.getElem?_eq_getElem hpc)
  have hopw : a.wr.opcode = pr.op (P.lambda r)[(s r).pc] :=
    (hn.unacked a (by rw [hu]; exact List.mem_cons_self)).opcode L ha
  have hsame : s' r.peer = P.setHost (s r.peer) (s r.peer).st.host := hpeer
  have htr : ∀ x, transfers act x s' = transfers act x s := transfers_setHost hr hsame
  refine Inv.of_peer r ?_ ?_ ?_ ?_ ?_
  · intro x hx
    rcases r.eq_or_eq_peer x with rfl | rfl
    · rw [hr] at hx
      exact absurd (hb.symm.trans hx) (by decide)
    · rw [hpeer] at hx ⊢
      exact hi.unbooted r.peer hx
  · intro _ ℓ hℓ
    rw [hr] at hℓ ⊢
    obtain rfl : (P.lambda r)[(s r).pc] = ℓ :=
      Option.some.inj ((List.getElem?_eq_getElem hpc).symm.trans hℓ)
    exact hn.completed L ha hu hp rfl
  · intro hbp ℓ hℓ
    rw [hpeer] at hbp hℓ ⊢
    exact hi.node r.peer hbp ℓ hℓ
  · intro j hj
    rw [htr] at hj
    simp only [pending, hr, hpeer, Node.nic, Program.setHost_host, List.countP_nil,
      show (s r).st.host.nic.sq = [] from hsq] at hj
    rw [hr]
    by_cases hop : pr.op (P.lambda r)[(s r).pc] = .rdmaRead
    · obtain ⟨ht, h0⟩ := transfers_of_read L hc hi hpc ha hop
      rw [Node.nic] at h0
      obtain rfl : (s r).iter = j := by omega
      exact hp.placed hop
    · have hne : (a.wr.opcode == .rdmaRead) = false := by rw [hopw]; simpa using hop
      have hbytes := hi.recvBuf r j (by
        simp only [pending, hsq, hu, List.countP_singleton, hne, List.countP_nil]
        simpa using hj)
      rw [← hbytes]
      simp only [Mem.bytes, Node.mem, Program.setHost_host, hp.recvBuf hop]
  · intro j hj
    have hold := hi.recvBuf r.peer j
    rw [Rank.peer_peer] at hold
    rw [hpeer]
    refine hold ?_
    rw [htr] at hj
    rw [← hj]
    simp only [pending, Rank.peer_peer, hr, hpeer, Node.nic, Program.setHost_host]

/-- What a completion does. -/
theorem complete_safe (L : pr.Lawful act) {s : P.Sys} (hc : P.Ctl act env s)
    (hi : pr.Inv env act s) (r : Rank) : Safe (P.step env s (.complete r)) fun s' ↦
      ∃ (hpc : (s r).pc < (P.lambda r).length) (a : Ack P.Msg) (mem : Mem P.Msg),
        (s r).booted = true ∧ act (P.lambda r)[(s r).pc] = .pollSend ∧ (s r).nic.sq = [] ∧
        (s r).nic.unacked = [a] ∧
        pr.Placement env r (s r).iter (P.lambda r)[(s r).pc] (s r).mem mem ∧
        s' r = P.setHost (s r) ⟨{ (s r).nic with
          unacked := []
          sendCq := (s r).nic.sendCq.pushed
            (pr.sent env r (s r).iter (P.lambda r)[(s r).pc]) }, mem⟩ ∧
        s' r.peer = s r.peer := by
  rcases hu : (s r).nic.unacked with _ | ⟨a, unacked⟩
  · simp only [Node.nic] at hu
    simp [Program.step, complete, hu]
  obtain ⟨hb, hused, hpc, ha, hn⟩ :=
    waiting L hc hi (sqUsed_ne_zero_of_unacked (hu ▸ List.mem_cons_self))
  have hcarried := hn.unacked a (by rw [hu]; exact List.mem_cons_self)
  have hempty : (s r).nic.sq = [] ∧ unacked = [] ∧ (s r).nic.sendCq.entries = [] := by
    rw [Nic.sqUsed, hu, List.length_cons] at hused
    exact ⟨List.eq_nil_of_length_eq_zero (by omega), List.eq_nil_of_length_eq_zero (by omega),
      List.eq_nil_of_length_eq_zero (by omega)⟩
  obtain ⟨hsq, rfl, hentries⟩ := hempty
  have hwrId : a.wr.wrId = (pr.wr env r (s r).iter (P.lambda r)[(s r).pc]).wrId := by
    rw [← hcarried.eq]
  have hopw := hcarried.opcode L ha
  have hpush : (s r).st.host.nic.sendCq.push (env.device r).config
      { wrId := a.wr.wrId, status := .success, opcode := a.wr.opcode.wcOpcode,
        qpNum := (env.device r).qpNum (env.device r).rank.peer, payload := a.data }
      = .ok ((s r).nic.sendCq.pushed (pr.sent env r (s r).iter (P.lambda r)[(s r).pc])) := by
    rw [Cq.push_eq (by rw [hentries]; simp [Env.device]), hwrId, hopw, hcarried.data, sent,
      L.opcode env r _ _ ha]
    rfl
  have hpair := (placeFetched_safe L ha hcarried (s r).mem).bind
    (k := fun mem ↦ .ok (⟨{ (s r).nic with
        unacked := []
        sendCq := (s r).nic.sendCq.pushed (pr.sent env r (s r).iter (P.lambda r)[(s r).pc]) },
      mem⟩ : Host P.Msg))
    (R := fun h ↦ ∃ mem, pr.Placement env r (s r).iter (P.lambda r)[(s r).pc] (s r).mem mem ∧
      h = ⟨{ (s r).nic with
          unacked := []
          sendCq := (s r).nic.sendCq.pushed (pr.sent env r (s r).iter (P.lambda r)[(s r).pc]) },
        mem⟩)
    fun mem hp ↦ ⟨mem, hp, rfl⟩
  simp only [Program.step, complete, show (s r).st.host.nic.unacked = [a] from hu, hpush, ok_bind]
  refine Safe.bind hpair ?_
  rintro h ⟨mem, hp, rfl⟩
  refine safe_ok.mpr ⟨hpc, a, mem, hb, ha, hsq, rfl, hp, ?_, ?_⟩
  · rw [Function.update_self]
  · rw [Function.update_of_ne r.peer_ne]

/-- **Completion keeps everything as announced.** -/
theorem inv_complete (L : pr.Lawful act) {s : P.Sys} (hc : P.Ctl act env s)
    (hi : pr.Inv env act s) (r : Rank) :
    Safe (P.step env s (.complete r)) (pr.Inv env act) :=
  (complete_safe L hc hi r).mono fun _ ⟨hpc, _, _, hb, ha, hsq, hu, hp, hr, hpeer⟩ ↦
    inv_completed L hc hi hb hpc ha hsq hu hp hr hpeer

end Protocol

end IbvBench
