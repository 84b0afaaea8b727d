import IbvBench.Pingpong.Notified
import IbvBench.Protocol.Transport

/-!
# The completion-notified ping-pongs deliver each message intact

The queues are those of any balanced script (`IbvBench.Control`); what is added here is what the
messages say (`Inv`).  Nothing in it relates the two ranks, except that a receive buffer holds the
bytes of the last message that was delivered.

The ranks take turns (`turns`): a rank sends again only after it has checked the peer's last message.
So before `check_buffer` the last message delivered is that of the round, although the receives for
the next one are posted by then.
-/

set_option autoImplicit false

namespace IbvBench

open StepMachine

namespace PingpongNotified

variable {q : Kind} {maxMsgSize : ℕ} {env : Env Unit 0}

/-- A rank, its state and its place in the program. -/
abbrev Node := IbvBench.Node Unit Unit Unit

abbrev Sys := Rank → Node

/-! ## Places -/

/-- How many calls of `check_buffer` a rank has behind it. -/
def checked (r : Rank) (n : Node) : ℕ := Script.count (· == .checkBuffer) (lambda r) n.iter n.pc

/-- A send is outstanding exactly while the rank waits for it. -/
theorem before_post (q : Kind) : ∀ r, ∀ pc (h : pc < (lambda r).length),
    before q Act.isPost r pc = before q Act.isPostRecv r pc ∧ before q Act.isPost r pc
      = before q Act.isPollSend r pc + if (lambda r)[pc] = .pollSent then 1 else 0 := by
  cases q <;> decide

/-- Rank 0 posts first, and rank 1 only when it has checked what it has received. -/
theorem before_turns (q : Kind) :
    (∀ pc < (lambda .r0).length,
      before q Act.isPollRecv .r0 pc ≤ before q Act.isPost .r0 pc ∧
      before q Act.isPost .r0 pc ≤ before q Act.isPollRecv .r0 pc + 1 ∧
      before q Act.isPost .r0 pc ≤ ((lambda .r0).take pc).countP (· == .checkBuffer) + 1) ∧
    ∀ pc < (lambda .r1).length,
      before q Act.isPost .r1 pc ≤ before q Act.isPollRecv .r1 pc ∧
      before q Act.isPost .r1 pc ≤ ((lambda .r1).take pc).countP (· == .checkBuffer) := by
  cases q <;> decide

/-- What has been done in a round before the statements that use the buffers. -/
theorem before_buffers (q : Kind) : ∀ r, ∀ pc (h : pc < (lambda r).length),
    ((lambda r)[pc] = .writeBuffer → before q Act.isFill r pc = 0) ∧
    ((lambda r)[pc] = .post → before q Act.isFill r pc = 1 ∧ before q Act.isPost r pc = 0) ∧
    ((lambda r)[pc] = .checkBuffer → before q Act.isPollRecv r pc = 1 ∧
      before q Act.isPost r pc = if r = .r0 then 1 else 0) := by
  cases q <;> decide

/-- The count of a kind that occurs once in a round. -/
theorem cnt_eq {p : Act → Bool} {r : Rank} (hp : (lambda r).countP (p ∘ act q) = 1) (n : Node) :
    (q.program maxMsgSize).cnt (act q) p r n = n.iter + before q p r n.pc := by
  show n.iter * (lambda r).countP (p ∘ act q) + before q p r n.pc = _
  rw [hp, Nat.mul_one]

theorem cnt_isPost (r : Rank) (n : Node) :
    (q.program maxMsgSize).cnt (act q) Act.isPost r n = n.iter + before q Act.isPost r n.pc :=
  cnt_eq (perRound q r).1 n

theorem cnt_isPollRecv (r : Rank) (n : Node) :
    (q.program maxMsgSize).cnt (act q) Act.isPollRecv r n = n.iter + before q Act.isPollRecv r n.pc :=
  cnt_eq (perRound q r).2.2.2.1 n

theorem cnt_isFill (r : Rank) (n : Node) :
    (q.program maxMsgSize).cnt (act q) Act.isFill r n = n.iter + before q Act.isFill r n.pc :=
  cnt_eq (perRound q r).2.2.2.2.2 n

theorem cnt_isPostRecv {r : Rank} {n : Node} (h : n.pc < (lambda r).length) :
    (q.program maxMsgSize).cnt (act q) Act.isPostRecv r n = (q.program maxMsgSize).cnt (act q) Act.isPost r n := by
  rw [cnt_isPost, cnt_eq (perRound q r).2.1, (before_post q r n.pc h).1]

theorem checked_eq (r : Rank) (n : Node) :
    checked r n = n.iter + ((lambda r).take n.pc).countP (· == .checkBuffer) := by
  have hone : (lambda r).countP (· == Stmt.checkBuffer) = 1 := by cases r <;> rfl
  rw [checked, Script.count, hone, Nat.mul_one]

/-! ## The invariant -/

/-- The request a rank posts in a round, taking the bytes of the round to the peer. -/
structure Request (q : Kind) (env : Env Unit 0) (r : Rank) (k : ℕ) (mem : Mem Unit)
    (w : SendWr Unit) : Prop where
  eq : ∃ inlined, w = { q.wr env r (env.size k) with inlined }
  payload : w.payload mem = .bytes (env.sentBytes r k)

/-- What a rank holds. -/
structure NodeInv (q : Kind) (maxMsgSize : ℕ) (env : Env Unit 0) (r : Rank) (n : Node) : Prop where
  sendBuf : env.SendBufAt r ((q.program maxMsgSize).cnt (act q) Act.isFill r n) (n.mem.buf .sendBuf)
  sq : ∀ w ∈ n.nic.sq, ∀ k, (q.program maxMsgSize).cnt (act q) Act.isPost r n = k + 1 → Request q env r k n.mem w
  unacked : ∀ a ∈ n.nic.unacked, a.wr.opcode = q.opcode ∧ a.data = none
  sendCq : ∀ c ∈ n.nic.sendCq.entries, sendOk q.sentOpcode c = true
  recvCq : ∀ c ∈ n.nic.recvCq.entries, recvdOk q c = true
  /-- The bytes of the last message that was delivered. -/
  recvBuf : ∀ k, n.nic.recvCq.generated = k + 1 →
    n.mem.bytes .recvBuf (env.size k) = env.sentBytes r.peer k

abbrev Ctl (q : Kind) (maxMsgSize : ℕ) (env : Env Unit 0) (s : Sys) : Prop :=
  (q.program maxMsgSize).Ctl (act q) env s

abbrev NodeCtl (q : Kind) (maxMsgSize : ℕ) (env : Env Unit 0) (r : Rank) (n : Node) : Prop :=
  Program.NodeCtl (P := q.program maxMsgSize) (act q) env r n

/-! ## Turns -/

/-- **The ranks take turns.**  At most one message of each direction has been delivered and not been
checked, and before a rank checks one it is the one of its round. -/
theorem turns {s : Sys} (hc : Ctl q maxMsgSize env s) (r : Rank) :
    (s r).nic.recvCq.generated ≤ checked r (s r) + 1 ∧
      ∀ h : (s r).pc < (lambda r).length, (lambda r)[(s r).pc] = .checkBuffer →
        (s r).nic.recvCq.generated = (s r).iter + 1 := by
  have hlt : ∀ x, (s x).pc < (lambda x).length := fun x ↦ (hc.node x).pc_lt
  have hpost : ∀ x, (q.program maxMsgSize).cnt (act q) Act.isPostRecv x (s x)
      = (s x).iter + before q Act.isPost x (s x).pc := fun x ↦ by
    rw [cnt_isPostRecv (hlt x), cnt_isPost]
  have hlink := hc.link_peer r
  have hpolled := hc.polled_le r.peer
  rw [Rank.peer_peer, hpost, cnt_isPollRecv] at hpolled
  rw [hpost] at hlink
  have h0 := (before_turns q).1 _ (hlt .r0)
  have h1 := (before_turns q).2 _ (hlt .r1)
  constructor
  · rw [checked_eq]
    cases r with
    | r0 => simp only [Rank.peer] at hlink hpolled ⊢; omega
    | r1 => simp only [Rank.peer] at hlink hpolled ⊢; omega
  · intro h hcheck
    obtain ⟨hpoll, hposts⟩ := (before_buffers q r _ h).2.2 hcheck
    have hbooted : (s r).booted = true := by
      by_contra hb
      obtain ⟨-, hpc, -⟩ := (hc.node r).unbooted (by simpa using hb)
      simp only [hpc] at hcheck
      cases r <;> cases hcheck
    have hqueues := (hc.node r).queues hbooted
    have hle : (q.program maxMsgSize).cnt (act q) Act.isPollRecv r (s r) ≤ (s r).nic.recvCq.generated := by
      have h2 := hqueues.recvPolled
      have h3 := hqueues.recvCq
      omega
    rw [cnt_isPollRecv] at hle
    cases r with
    | r0 => simp only [Rank.peer, if_true] at hlink hpolled hposts ⊢; omega
    | r1 => simp only [Rank.peer, reduceCtorEq, if_false] at hlink hpolled hposts ⊢; omega

/-- How much of its send queue a rank uses. -/
theorem sqUsed_eq {r : Rank} {n : Node} (h : NodeCtl q maxMsgSize env r n) (hb : n.booted = true)
    (hpc : n.pc < (lambda r).length) :
    n.nic.sqUsed = if (lambda r)[n.pc] = .pollSent then 1 else 0 := by
  have hsends := (h.queues hb).sends
  have hposts := (before_post q r n.pc hpc).2
  rw [cnt_isPost, cnt_eq (perRound q r).2.2.1] at hsends
  omega

/-! ## The statements -/

section

variable {r : Rank} {n : Node} {st : State}

/-- What a rank holds depends on its place, its memory, and its queues apart from the receives. -/
theorem NodeInv.congr {n' : Node} (h : NodeInv q maxMsgSize env r n) (hiter : n'.iter = n.iter)
    (hpc : n'.pc = n.pc) (hmem : n'.mem = n.mem) (hsq : n'.nic.sq = n.nic.sq)
    (hunacked : n'.nic.unacked = n.nic.unacked) (hsendCq : n'.nic.sendCq = n.nic.sendCq)
    (hrecvCq : n'.nic.recvCq = n.nic.recvCq) : NodeInv q maxMsgSize env r n' := by
  have hcnt : ∀ p, (q.program maxMsgSize).cnt (act q) p r n'
      = (q.program maxMsgSize).cnt (act q) p r n := fun p ↦ by
    simp only [Program.cnt, hiter, hpc]
  refine ⟨?_, ?_, ?_, ?_, ?_, ?_⟩
  · rw [hcnt, hmem]
    exact h.sendBuf
  · rw [hcnt, hmem, hsq]
    exact h.sq
  · rw [hunacked]
    exact h.unacked
  · rw [hsendCq]
    exact h.sendCq
  · rw [hrecvCq]
    exact h.recvCq
  · rw [hrecvCq, hmem]
    exact h.recvBuf

/-- The node after a statement. -/
theorem NodeInv.advance (hpc : n.pc < (lambda r).length)
    (hsend : env.SendBufAt r ((q.program maxMsgSize).cnt (act q) Act.isFill r n
      + if (act q (lambda r)[n.pc]).isFill then 1 else 0) (st.host.mem.buf .sendBuf))
    (hsq : ∀ w ∈ st.host.nic.sq, ∀ k, (q.program maxMsgSize).cnt (act q) Act.isPost r n
      + (if (act q (lambda r)[n.pc]).isPost then 1 else 0) = k + 1 →
        Request q env r k st.host.mem w)
    (hunacked : ∀ a ∈ st.host.nic.unacked, a.wr.opcode = q.opcode ∧ a.data = none)
    (hsendCq : ∀ c ∈ st.host.nic.sendCq.entries, sendOk q.sentOpcode c = true)
    (hrecvCq : ∀ c ∈ st.host.nic.recvCq.entries, recvdOk q c = true)
    (hrecvBuf : ∀ k, st.host.nic.recvCq.generated = k + 1 →
      st.host.mem.bytes .recvBuf (env.size k) = env.sentBytes r.peer k) :
    NodeInv q maxMsgSize env r ((q.program maxMsgSize).advance r n st) := by
  have hcnt : ∀ p, (q.program maxMsgSize).cnt (act q) p r ((q.program maxMsgSize).advance r n st)
      = (q.program maxMsgSize).cnt (act q) p r n + if p (act q (lambda r)[n.pc]) then 1 else 0 :=
    fun p ↦ Program.cnt_advance (P := q.program maxMsgSize) p hpc st
  refine ⟨?_, ?_, ?_, ?_, ?_, ?_⟩ <;>
    simp only [Node.nic, Node.mem, Program.advance_host, hcnt]
  · exact hsend
  · exact hsq
  · exact hunacked
  · exact hsendCq
  · exact hrecvCq
  · exact hrecvBuf

/-- A statement that neither fills the send buffer nor posts, and takes nothing out of the memory. -/
theorem NodeInv.advance_same (h : NodeInv q maxMsgSize env r n) (hpc : n.pc < (lambda r).length)
    (hfill : (act q (lambda r)[n.pc]).isFill = false)
    (hpost : (act q (lambda r)[n.pc]).isPost = false) (hmem : st.host.mem = n.mem)
    (hsq : st.host.nic.sq = n.nic.sq) (hunacked : st.host.nic.unacked = n.nic.unacked)
    (hsendCq : ∀ c ∈ st.host.nic.sendCq.entries, c ∈ n.nic.sendCq.entries)
    (hrecvCq : ∀ c ∈ st.host.nic.recvCq.entries, c ∈ n.nic.recvCq.entries)
    (hgen : st.host.nic.recvCq.generated = n.nic.recvCq.generated) :
    NodeInv q maxMsgSize env r ((q.program maxMsgSize).advance r n st) := by
  refine NodeInv.advance hpc ?_ ?_ ?_ (fun c hc ↦ h.sendCq c (hsendCq c hc))
    (fun c hc ↦ h.recvCq c (hrecvCq c hc)) ?_
  · rw [hmem, hfill]
    exact h.sendBuf
  · rw [hmem, hsq, hpost]
    exact h.sq
  · rw [hunacked]
    exact h.unacked
  · rw [hmem, hgen]
    exact h.recvBuf

/-- Nothing is in the send queue of a rank that uses no place in it. -/
theorem sq_nil {nic : Nic Unit} (h : nic.sqUsed = 0) :
    nic.sq = [] ∧ nic.unacked = [] ∧ nic.sendCq.entries = [] := by
  rw [Nic.sqUsed] at h
  exact ⟨List.eq_nil_of_length_eq_zero (by omega), List.eq_nil_of_length_eq_zero (by omega),
    List.eq_nil_of_length_eq_zero (by omega)⟩

/-- `write_buffer` leaves the bytes of the round. -/
theorem writeBuffer_inv (h : NodeInv q maxMsgSize env r n) (hpc : n.pc < (lambda r).length)
    (hℓ : (lambda r)[n.pc] = .writeBuffer) (hsq : n.nic.sq = []) :
    NodeInv q maxMsgSize env r ((q.program maxMsgSize).advance r n
      (n.st.writeSendBuf env.touchData r n.iter (env.size n.iter))) := by
  have hnic : (n.st.writeSendBuf env.touchData r n.iter (env.size n.iter)).host.nic = n.nic := by
    rw [RankState.writeSendBuf]
    split <;> rfl
  have hrecv : ∀ k, (n.st.writeSendBuf env.touchData r n.iter (env.size n.iter)).host.mem.bytes
      .recvBuf k = n.mem.bytes .recvBuf k := fun k ↦ by
    rw [RankState.writeSendBuf]
    split
    · exact Mem.bytes_setBuf_ne _ (by decide) _ _
    · rfl
  have hround : (q.program maxMsgSize).cnt (act q) Act.isFill r n = n.iter := by
    rw [cnt_isFill, (before_buffers q r _ hpc).1 hℓ, Nat.add_zero]
  have hsend := h.sendBuf
  rw [hround] at hsend
  refine NodeInv.advance hpc ?_ ?_ ?_ ?_ ?_ ?_
  · rw [hround, hℓ]
    exact sendBufAt_fill hsend
  · rw [hnic, hsq]
    exact fun w hw ↦ (by cases hw)
  · rw [hnic]
    exact h.unacked
  · rw [hnic]
    exact h.sendCq
  · rw [hnic]
    exact h.recvCq
  · intro k hk
    rw [hnic] at hk
    rw [hrecv]
    exact h.recvBuf k hk

/-- The message of the round is accepted, and takes the bytes of the round. -/
theorem post_safe (h : NodeInv q maxMsgSize env r n) (hpc : n.pc < (lambda r).length)
    (hℓ : (lambda r)[n.pc] = .post) (hused : n.nic.sqUsed = 0) :
    Safe (exec q maxMsgSize env r n.iter (env.size n.iter) .post n.st) fun st ↦
      NodeInv q maxMsgSize env r ((q.program maxMsgSize).advance r n st) := by
  have hroom : n.nic.sqUsed < (env.device r).config.maxSendNum := env.room hused
  obtain ⟨hsq, -, -⟩ := sq_nil hused
  obtain ⟨hfill, hpost⟩ := (before_buffers q r _ hpc).2.1 hℓ
  have hsend := h.sendBuf
  simp only [exec]
  rw [postMsg_eq_post, Host.post_eq r.peer_ne hroom]
  simp only [ok_bind, beq_self_eq_true, mlogAssert_true]
  refine safe_ok.mpr (NodeInv.advance hpc ?_ ?_ h.unacked h.sendCq h.recvCq h.recvBuf)
  · rw [hℓ]
    exact hsend
  · intro w hw k hk
    rw [hsq] at hw
    obtain rfl := List.mem_singleton.mp hw
    have hround : n.iter = k := by
      rw [cnt_isPost, hpost, hℓ] at hk
      exact Nat.succ.inj hk
    rw [cnt_isFill, hfill, hround] at hsend
    subst hround
    refine ⟨⟨_, rfl⟩, ?_⟩
    have hpayload : (n.mem.dmaRead (.buf .sendBuf) (env.size n.iter))
        = .bytes (env.sentBytes r n.iter) := congrArg Data.bytes hsend.bytes_eq
    rw [← hpayload]
    cases q <;> exact inlineData_getD ..

/-- The completion that is polled is that of the message. -/
theorem pollSent_safe (h : NodeInv q maxMsgSize env r n) (hpc : n.pc < (lambda r).length)
    (hℓ : (lambda r)[n.pc] = .pollSent) :
    Safe (exec q maxMsgSize env r n.iter (env.size n.iter) .pollSent n.st) fun st ↦
      NodeInv q maxMsgSize env r ((q.program maxMsgSize).advance r n st) ∧
        st.host.mem = n.mem := by
  refine ((RankState.pollSendStep_safe h.sendCq).and (R := fun st ↦ _) fun st hst ↦
    RankState.pollSendStep_eq_ok hst).mono fun st hst ↦ ?_
  obtain ⟨-, wc, sendCq, hq, rfl⟩ := hst
  obtain ⟨hentries, -⟩ := pollCQ_eq_ok hq
  refine ⟨h.advance_same hpc (by rw [hℓ]; rfl) (by rw [hℓ]; rfl) rfl rfl rfl (fun c hc ↦ ?_)
    (fun c hc ↦ hc) rfl, rfl⟩
  rw [Node.nic, hentries]
  exact List.mem_cons_of_mem _ hc

/-- The completion that is polled is that of a message of the peer. -/
theorem pollRecv_safe (h : NodeInv q maxMsgSize env r n) (hpc : n.pc < (lambda r).length)
    (hℓ : (lambda r)[n.pc] = .pollRecv) :
    Safe (exec q maxMsgSize env r n.iter (env.size n.iter) .pollRecv n.st) fun st ↦
      NodeInv q maxMsgSize env r ((q.program maxMsgSize).advance r n st) ∧
        st.host.mem = n.mem := by
  have hok : ∀ wc ∈ n.nic.recvCq.entries.head?, recvdOk q wc = true := fun wc hwc ↦
    h.recvCq wc (List.mem_of_head? hwc)
  refine ((RankState.pollRecvStep_safe hok).and (R := fun st ↦ _) fun st hst ↦
    RankState.pollRecvStep_eq_ok hst).mono fun st hst ↦ ?_
  obtain ⟨-, wc, recvCq, hq, rfl⟩ := hst
  obtain ⟨hentries, -, hgen⟩ := pollCQ_eq_ok hq
  refine ⟨h.advance_same hpc (by rw [hℓ]; rfl) (by rw [hℓ]; rfl) rfl rfl rfl (fun c hc ↦ hc)
    (fun c hc ↦ ?_) hgen, rfl⟩
  rw [Node.nic, hentries]
  exact List.mem_cons_of_mem _ hc

/-- The receive that is missing is put back. -/
theorem repost_safe (h : NodeInv q maxMsgSize env r n) (hctl : NodeCtl q maxMsgSize env r n)
    (hb : n.booted = true) (hpc : n.pc < (lambda r).length) (hℓ : (lambda r)[n.pc] = .repost) :
    Safe (exec q maxMsgSize env r n.iter (env.size n.iter) .repost n.st) fun st ↦
      NodeInv q maxMsgSize env r ((q.program maxMsgSize).advance r n st) ∧
        st.host.mem = n.mem := by
  have hqueues := hctl.queues hb
  have hmissing : n.nic.recvs + 1 = 8 := by
    have h1 := Program.cnt_repost_after (P := q.program maxMsgSize) scripted hpc (by
      show act q (lambda r)[n.pc] = .repost
      rw [hℓ]
      rfl)
    have h2 := hqueues.recvs
    omega
  have hrepost := Program.repost_eq (P := q.program maxMsgSize) env (r := r)
    hqueues.posted hmissing Nat.one_pos
  refine ((RankState.repostStep_safe hrepost).and (R := fun st ↦ _) fun st hst ↦
    RankState.repostStep_eq_ok hst).mono fun st hst ↦ ?_
  obtain ⟨-, nic, hnic, rfl⟩ := hst
  obtain ⟨hrecvCq, hsendCq, hsq, hunacked⟩ := checkAndPostRecvs_frame hnic
  exact ⟨h.advance_same hpc (by rw [hℓ]; rfl) (by rw [hℓ]; rfl) rfl hsq hunacked
    (fun c hc ↦ by rwa [hsendCq] at hc) (fun c hc ↦ by rwa [hrecvCq] at hc)
    (congrArg Cq.generated hrecvCq), rfl⟩

/-- `check_buffer` finds the bytes of the round. -/
theorem checkBuffer_safe (h : NodeInv q maxMsgSize env r n) (hpc : n.pc < (lambda r).length)
    (hℓ : (lambda r)[n.pc] = .checkBuffer) (hgen : n.nic.recvCq.generated = n.iter + 1) :
    Safe (exec q maxMsgSize env r n.iter (env.size n.iter) .checkBuffer n.st) fun st ↦
      NodeInv q maxMsgSize env r ((q.program maxMsgSize).advance r n st) ∧
        st.host.mem = n.mem := by
  have hcheck : Safe (n.st.checkRecvBuf env.touchData r (env.size n.iter)) n.st.SameOwn :=
    RankState.checkRecvBuf_safe (k := n.iter) fun ht ↦ by
      rw [h.recvBuf n.iter hgen, Env.sentBytes, if_pos ht]
  refine (hcheck.and (R := fun st ↦ _) fun st hst ↦
    RankState.checkRecvBuf_eq_ok hst).mono fun st hst ↦ ?_
  obtain ⟨-, rfl⟩ := hst
  exact ⟨h.advance_same hpc (by rw [hℓ]; rfl) (by rw [hℓ]; rfl) rfl rfl rfl (fun c hc ↦ hc)
    (fun c hc ↦ hc) rfl, rfl⟩

/-- The first receives are posted. -/
theorem boot_safe (h : NodeInv q maxMsgSize env r n) (hnic : n.nic = {}) :
    Safe ((q.program maxMsgSize).boot env r n.st) fun st ↦
      NodeInv q maxMsgSize env r { n with booted := true, st } ∧ st.host.mem = n.mem := by
  have hrepost : (q.program maxMsgSize).repost env r n.st.host.nic = .ok { n.st.host.nic with
      postedRecvNum := 8
      srq := n.st.host.nic.srq ++ List.replicate 8 (recvWr maxMsgSize env r) } := by
    rw [show n.st.host.nic = {} from hnic]
    exact Program.repost_eq (P := q.program maxMsgSize) _ rfl rfl (by omega)
  rw [Program.boot, hrepost]
  exact safe_ok.mpr ⟨h.congr rfl rfl rfl rfl rfl rfl rfl, rfl⟩

/-- **A statement of a rank.** -/
theorem rankStep_safe (h : NodeInv q maxMsgSize env r n) (hctl : NodeCtl q maxMsgSize env r n)
    (hturn : ∀ hpc : n.pc < (lambda r).length, (lambda r)[n.pc] = .checkBuffer →
      n.nic.recvCq.generated = n.iter + 1) :
    Safe ((q.program maxMsgSize).rankStep env r n) fun n' ↦ NodeInv q maxMsgSize env r n' ∧
      (n.nic.sqUsed ≠ 0 → n'.mem.buf .sendBuf = n.mem.buf .sendBuf) := by
  by_cases hb : n.booted = true
  · rw [Program.rankStep, if_pos hb]
    by_cases hiter : n.iter < env.sizes.length
    · have hpc : n.pc < (lambda r).length := hctl.pc_lt
      have hused := sqUsed_eq hctl hb hpc
      simp only [List.getElem?_eq_getElem hiter, List.getElem?_eq_getElem hpc]
      rw [← env.size_eq hiter]
      have hsame {st : State} (hst : NodeInv q maxMsgSize env r
          ((q.program maxMsgSize).advance r n st) ∧ st.host.mem = n.mem) :
          NodeInv q maxMsgSize env r ((q.program maxMsgSize).advance r n st) ∧
            (n.nic.sqUsed ≠ 0 →
              ((q.program maxMsgSize).advance r n st).mem.buf .sendBuf = n.mem.buf .sendBuf) := by
        refine ⟨hst.1, fun _ ↦ ?_⟩
        rw [Node.mem, Program.advance_host, hst.2]
      rcases hℓ : (lambda r)[n.pc]
      case writeBuffer =>
        have hzero : n.nic.sqUsed = 0 := by rw [hused, hℓ]; rfl
        exact safe_ok.mpr ⟨writeBuffer_inv h hpc hℓ (sq_nil hzero).1, fun hne ↦ absurd hzero hne⟩
      case post =>
        have hzero : n.nic.sqUsed = 0 := by rw [hused, hℓ]; rfl
        exact (post_safe h hpc hℓ hzero).bind fun st hst ↦
          safe_ok.mpr ⟨hst, fun hne ↦ absurd hzero hne⟩
      case pollSent => exact (pollSent_safe h hpc hℓ).bind fun st hst ↦ safe_ok.mpr (hsame hst)
      case pollRecv => exact (pollRecv_safe h hpc hℓ).bind fun st hst ↦ safe_ok.mpr (hsame hst)
      case repost => exact (repost_safe h hctl hb hpc hℓ).bind fun st hst ↦ safe_ok.mpr (hsame hst)
      case checkBuffer =>
        exact (checkBuffer_safe h hpc hℓ (hturn hpc hℓ)).bind fun st hst ↦ safe_ok.mpr (hsame hst)
    · rw [List.getElem?_eq_none (Nat.le_of_not_lt hiter)]
      exact safe_blocked
  · rw [Program.rankStep, if_neg hb]
    obtain ⟨-, -, hnic⟩ := hctl.unbooted (by simpa using hb)
    refine (boot_safe h hnic).bind fun st hst ↦ safe_ok.mpr ⟨hst.1, fun _ ↦ ?_⟩
    rw [Node.mem, hst.2]

end

/-! ## The network -/

section

variable {r : Rank} {k : ℕ} {mem mem' : Mem Unit} {w : SendWr Unit}

theorem Request.opcode (h : Request q env r k mem w) : w.opcode = q.opcode := by
  obtain ⟨inlined, rfl⟩ := h.eq
  cases q <;> rfl

/-- Its keys are those of the two regions. -/
theorem Request.accessOk (h : Request q env r k mem w) :
    accessOk (env.device r) (env.device r.peer) w = true := by
  obtain ⟨inlined, rfl⟩ := h.eq
  cases q <;> simp [IbvBench.accessOk, SendWr.isRdma, Kind.wr, Env.device]

/-- Its payload depends on the send buffer only. -/
theorem Request.congr (h : Request q env r k mem w)
    (hbuf : mem'.buf .sendBuf = mem.buf .sendBuf) : Request q env r k mem' w := by
  have haddr : w.addr = .buf .sendBuf := by
    obtain ⟨inlined, rfl⟩ := h.eq
    cases q <;> rfl
  have hpayload : w.payload mem' = w.payload mem := by
    simp only [SendWr.payload, haddr, Mem.dmaRead, Mem.bytes, hbuf]
  exact ⟨h.eq, hpayload ▸ h.payload⟩

/-- It consumes a receive of the peer. -/
theorem Request.consumesRecv (h : Request q env r k mem w) : w.consumesRecv = true := by
  rw [SendWr.consumesRecv, h.opcode]
  cases q <;> rfl

/-- It waits for a receive. -/
theorem Request.blocked (h : Request q env r k mem w) {dst : Device} {host : Host Unit}
    (hsrq : host.nic.srq = []) : IbvBench.execute dst w mem host = .error .blocked := by
  have hop := h.opcode
  cases q with
  | sendrecv => simp only [execute, hop, Kind.opcode, landSend, hsrq, error_bind]
  | writeImm => simp only [execute, hop, Kind.opcode, landWriteImm, hsrq, error_bind]

/-- Its bytes land in the receive buffer of the peer, and it consumes a receive. -/
theorem Request.execute (h : Request q env r k mem w) {host : Host Unit} {rw : RecvWr}
    {srq : List RecvWr} (hsrq : host.nic.srq = rw :: srq) (hrw : rw = recvWr maxMsgSize env r.peer)
    (hlen : env.size k ≤ maxMsgSize)
    (hroom : host.nic.recvCq.entries.length < (env.device r.peer).config.maxCqeNum) :
    ∃ wc, recvdOk q wc = true ∧ execute (env.device r.peer) w mem host = .ok
      ({ nic := host.nic.recvd wc
         mem := host.mem.setBuf .recvBuf fun i ↦
           (env.sentBytes r k).getD i (host.mem.buf .recvBuf i) }, none) := by
  have hop := h.opcode
  have hpayload := h.payload
  cases q with
  | sendrecv =>
    have hlength : w.length = env.size k := by
      obtain ⟨inlined, rfl⟩ := h.eq
      rfl
    have hfits : ¬ (rw.length < w.length ∨ rw.lkey ≠ (env.device r.peer).mr.lkey) := by
      rw [hlength, hrw]
      rintro (hlt | hne)
      · exact absurd hlt (Nat.not_lt.mpr hlen)
      · exact hne rfl
    have haddr : rw.addr = .buf .recvBuf := by rw [hrw]; rfl
    refine ⟨{ wrId := rw.wrId, status := .success, opcode := .recv,
              qpNum := env.qpNum r.peer r.peer.peer, immData := w.immData,
              payload := some (.bytes (env.sentBytes r k)) }, rfl, ?_⟩
    simp only [IbvBench.execute, hop, Kind.opcode, hpayload, landSend, hsrq, hfits, if_false, haddr,
      Mem.dmaWrite, consumeRecv, Cq.push_eq hroom, ok_bind, Nic.recvd, List.tail_cons]
    rfl
  | writeImm =>
    have hremote : w.remoteAddr = .buf .recvBuf := by
      obtain ⟨inlined, rfl⟩ := h.eq
      rfl
    refine ⟨{ wrId := rw.wrId, status := .success, opcode := .recvRdmaWithImm,
              qpNum := env.qpNum r.peer r.peer.peer, immData := w.immData,
              payload := some (.bytes (env.sentBytes r k)) }, rfl, ?_⟩
    simp only [IbvBench.execute, hop, Kind.opcode, hpayload]
    rw [landWriteImm_eq hsrq hremote hroom]
    rfl

end

/-- **The invariant.** -/
def Inv (q : Kind) (maxMsgSize : ℕ) (env : Env Unit 0) (s : Sys) : Prop :=
  ∀ r, NodeInv q maxMsgSize env r (s r)

/-- No rank that has a send outstanding changes its send buffer. -/
def Stable (s s' : Sys) : Prop :=
  ∀ r, (s r).nic.sqUsed ≠ 0 → (s' r).mem.buf .sendBuf = (s r).mem.buf .sendBuf

/-- It is enough to know them at a rank and at its peer. -/
theorem inv_of_peer {s s' : Sys} (r : Rank)
    (h : NodeInv q maxMsgSize env r (s' r) ∧
      ((s r).nic.sqUsed ≠ 0 → (s' r).mem.buf .sendBuf = (s r).mem.buf .sendBuf))
    (h' : NodeInv q maxMsgSize env r.peer (s' r.peer) ∧
      ((s r.peer).nic.sqUsed ≠ 0 →
        (s' r.peer).mem.buf .sendBuf = (s r.peer).mem.buf .sendBuf)) :
    Inv q maxMsgSize env s' ∧ Stable s s' := by
  constructor
  · intro x
    rcases r.eq_or_eq_peer x with rfl | rfl
    exacts [h.1, h'.1]
  · intro x
    rcases r.eq_or_eq_peer x with rfl | rfl
    exacts [h.2, h'.2]

section

variable {s : Sys}

theorem inv_rank (hc : Ctl q maxMsgSize env s) (hi : Inv q maxMsgSize env s) (r : Rank) :
    Safe ((q.program maxMsgSize).step env s (.rank r)) fun s' ↦
      Inv q maxMsgSize env s' ∧ Stable s s' := by
  refine (rankStep_safe (hi r) (hc.node r) (turns hc r).2).bind fun n hn ↦ safe_ok.mpr ?_
  refine inv_of_peer r ?_ ?_
  · rwa [Function.update_self]
  · rw [Function.update_of_ne r.peer_ne]
    exact ⟨hi r.peer, fun _ ↦ rfl⟩

/-- The peer after the message of round `k` has landed. -/
theorem NodeInv.landed {r : Rank} {n : Node} {k : ℕ} {wc : Wc Unit}
    (h : NodeInv q maxMsgSize env r.peer n) (hwc : recvdOk q wc = true)
    (hk : n.nic.recvCq.generated = k) :
    NodeInv q maxMsgSize env r.peer ((q.program maxMsgSize).setHost n
      { nic := n.nic.recvd wc
        mem := n.mem.setBuf .recvBuf fun i ↦
          (env.sentBytes r k).getD i (n.mem.buf .recvBuf i) }) := by
  have hsend : (n.mem.setBuf .recvBuf fun i ↦
      (env.sentBytes r k).getD i (n.mem.buf .recvBuf i)).buf .sendBuf = n.mem.buf .sendBuf := rfl
  refine ⟨hsend ▸ h.sendBuf, fun w hw j hj ↦ (h.sq w hw j hj).congr hsend, h.unacked, h.sendCq,
    ?_, ?_⟩
  · intro c hc
    rcases List.mem_append.mp hc with hc | hc
    · exact h.recvCq c hc
    · rwa [List.mem_singleton.mp hc]
  · intro j hj
    have hlast : j = k := by
      have hgen : n.nic.recvCq.generated + 1 = j + 1 := hj
      omega
    subst hlast
    have hbytes := Mem.bytes_setBuf_write n.mem .recvBuf (env.sentBytes r j)
    rw [env.length_sentBytes] at hbytes
    rw [Rank.peer_peer]
    exact hbytes

/-- A rank uses at most one place of its send queue. -/
theorem sqUsed_le (hc : Ctl q maxMsgSize env s) (r : Rank) : (s r).nic.sqUsed ≤ 1 :=
  (hc.node r).sqUsed_le scripted

/-- The message of a rank that is in flight is the one that it has posted last, and the peer has
received all others. -/
theorem request_of_sq (hc : Ctl q maxMsgSize env s) (hi : Inv q maxMsgSize env s) {r : Rank}
    {w : SendWr Unit} {sq : List (SendWr Unit)} (hsq : (s r).nic.sq = w :: sq) :
    sq = [] ∧ Request q env r (s r.peer).nic.recvCq.generated (s r).mem w := by
  have hused := sqUsed_le hc r
  rw [Nic.sqUsed, hsq, List.length_cons] at hused
  have hnil : sq = [] := List.eq_nil_of_length_eq_zero (by omega)
  have hbooted : (s r).booted = true := by
    by_contra hb
    obtain ⟨-, -, hnic⟩ := (hc.node r).unbooted (by simpa using hb)
    rw [hnic] at hsq
    cases hsq
  have hsends := ((hc.node r).queues hbooted).sends
  rw [Nic.sqUsed, hsq, List.length_cons] at hsends
  have hlink := hc.link r
  rw [cnt_isPostRecv (hc.node r).pc_lt, hsq, hnil] at hlink
  obtain ⟨k, hk⟩ : ∃ k, (q.program maxMsgSize).cnt (act q) Act.isPost r (s r) = k + 1 :=
    Nat.exists_eq_succ_of_ne_zero (by omega)
  have hreq := (hi r).sq w (by rw [hsq]; exact List.mem_cons_self) k hk
  have hgen : (s r.peer).nic.recvCq.generated = k := by
    simp only [List.countP_cons, hreq.consumesRecv, if_true, List.countP_nil] at hlink
    omega
  rw [hgen]
  exact ⟨hnil, hreq⟩

theorem inv_deliver (hsizes : ∀ n ∈ env.sizes, n ≤ maxMsgSize) (hc : Ctl q maxMsgSize env s)
    (hi : Inv q maxMsgSize env s) (r : Rank) :
    Safe ((q.program maxMsgSize).step env s (.deliver r)) fun s' ↦
      Inv q maxMsgSize env s' ∧ Stable s s' := by
  have hn := hi r
  simp only [Program.step, deliver]
  rcases hsq : (s r).nic.sq with _ | ⟨w, sq⟩
  · exact safe_blocked
  obtain ⟨rfl, hreq⟩ := request_of_sq hc hi hsq
  simp only [hreq.accessOk, if_true]
  rcases hsrq : (s r.peer).nic.srq with _ | ⟨rw, srq⟩
  · rw [hreq.blocked hsrq]
    exact safe_blocked
  have hbooted : (s r.peer).booted = true := by
    by_contra hb
    obtain ⟨-, -, hnic⟩ := (hc.node r.peer).unbooted (by simpa using hb)
    rw [hnic] at hsrq
    cases hsrq
  have hrw : rw = recvWr maxMsgSize env r.peer :=
    ((hc.node r.peer).queues hbooted).srq rw (by rw [hsrq]; exact List.mem_cons_self)
  have hlen : env.size (s r.peer).nic.recvCq.generated ≤ maxMsgSize := by
    rw [Env.size, List.getD_eq_getElem?_getD]
    rcases hget : env.sizes[(s r.peer).nic.recvCq.generated]? with _ | n
    · exact Nat.zero_le _
    · exact hsizes n (List.mem_of_getElem? hget)
  have hroom : (s r.peer).nic.recvCq.entries.length < (env.device r.peer).config.maxCqeNum := by
    have hrecvs := (hc.node r.peer).recvs_le scripted
    rw [Nic.recvs] at hrecvs
    show (s r.peer).nic.recvCq.entries.length < 9
    omega
  obtain ⟨wc, hwc, hexec⟩ := hreq.execute hsrq hrw hlen hroom
  rw [hexec]
  simp only [ok_bind]
  refine safe_ok.mpr (inv_of_peer r ?_ ?_)
  · rw [Function.update_of_ne r.ne_peer, Function.update_self]
    refine ⟨⟨hn.sendBuf, fun x hx ↦ (by cases hx), fun a ha ↦ ?_, hn.sendCq, hn.recvCq,
      hn.recvBuf⟩, fun _ ↦ rfl⟩
    rcases List.mem_append.mp ha with ha | ha
    · exact hn.unacked a ha
    · obtain rfl := List.mem_singleton.mp ha
      exact ⟨hreq.opcode, rfl⟩
  · rw [Function.update_self]
    exact ⟨(hi r.peer).landed hwc rfl, fun _ ↦ rfl⟩

theorem inv_complete (hc : Ctl q maxMsgSize env s) (hi : Inv q maxMsgSize env s) (r : Rank) :
    Safe ((q.program maxMsgSize).step env s (.complete r)) fun s' ↦
      Inv q maxMsgSize env s' ∧ Stable s s' := by
  have hn := hi r
  simp only [Program.step, complete]
  rcases hu : (s r).nic.unacked with _ | ⟨a, unacked⟩
  · exact safe_blocked
  obtain ⟨hop, hdata⟩ := hn.unacked a (by rw [hu]; exact List.mem_cons_self)
  have hused := sqUsed_le hc r
  rw [Nic.sqUsed, hu, List.length_cons] at hused
  have hroom : (s r).nic.sendCq.entries.length < (env.device r).config.maxCqeNum := by
    show (s r).nic.sendCq.entries.length < 9
    omega
  simp only [placeFetched, hdata, ok_bind, Cq.push_eq hroom]
  refine safe_ok.mpr (inv_of_peer r ?_ ?_)
  · rw [Function.update_self]
    refine ⟨⟨hn.sendBuf, hn.sq, ?_, ?_, hn.recvCq, hn.recvBuf⟩, fun _ ↦ rfl⟩
    · intro x hx
      exact hn.unacked x (by rw [hu]; exact List.mem_cons_of_mem _ hx)
    · intro c hc
      rcases List.mem_append.mp hc with hc | hc
      · exact hn.sendCq c hc
      · obtain rfl := List.mem_singleton.mp hc
        rw [sendOk, hop]
        cases q <;> rfl
  · rw [Function.update_of_ne r.peer_ne]
    exact ⟨hi r.peer, fun _ ↦ rfl⟩

end

/-! ## Runs -/

theorem inv_start : Inv q maxMsgSize env ((q.program maxMsgSize).start env) := by
  intro r
  have hcnt : ∀ p, (q.program maxMsgSize).cnt (act q) p r ((q.program maxMsgSize).start env r) = 0 :=
    fun p ↦ Program.cnt_start (P := q.program maxMsgSize) p rfl rfl
  refine ⟨?_, fun w hw ↦ (by cases hw), fun a ha ↦ (by cases ha), fun c hc ↦ (by cases hc),
    fun c hc ↦ (by cases hc), fun k hk ↦ (by cases hk)⟩
  rw [hcnt, Env.SendBufAt]
  split
  · exact fun j hj ↦ (by cases hj)
  · rfl

/-- **A step of the system.** -/
theorem step_safe (hsizes : ∀ n ∈ env.sizes, n ≤ maxMsgSize) {s : Sys}
    (hc : Ctl q maxMsgSize env s) (hi : Inv q maxMsgSize env s) (a : Action) :
    Safe ((q.program maxMsgSize).step env s a) fun s' ↦
      (Ctl q maxMsgSize env s' ∧ Inv q maxMsgSize env s') ∧ Stable s s' := by
  have hinv : Safe ((q.program maxMsgSize).step env s a) fun s' ↦
      Inv q maxMsgSize env s' ∧ Stable s s' := by
    cases a with
    | rank r => exact inv_rank hc hi r
    | deliver r => exact inv_deliver hsizes hc hi r
    | complete r => exact inv_complete hc hi r
  exact (hinv.and (R := Ctl q maxMsgSize env) fun s' h ↦ Program.ctl_step scripted hc h).mono
    fun s' h ↦ ⟨⟨h.2, h.1.1⟩, h.1.2⟩

theorem reachable_inv (hsizes : ∀ n ∈ env.sizes, n ≤ maxMsgSize) {s : Sys}
    (hs : ((q.program maxMsgSize).machine env).Reachable s) :
    (Ctl q maxMsgSize env s ∧ Inv q maxMsgSize env s) ∧
      ∀ a f, (q.program maxMsgSize).step env s a ≠ .error (.fault f) := by
  refine Machine.reachable_safe (M := (q.program maxMsgSize).machine env)
    (I := fun s ↦ Ctl q maxMsgSize env s ∧ Inv q maxMsgSize env s) (fun s h ↦ ?_)
    (fun s a h ↦ (step_safe hsizes h.1 h.2 a).mono fun _ h' ↦ h'.1) hs
  refine ⟨Program.ctl_init scripted h, ?_⟩
  rw [show s = _ from h]
  exact inv_start

/-- **The completion-notified ping-pongs deliver each message intact**, for every sequence of sizes
that the receives are long enough for, and every order of steps.

No assertion and no `check_buffer` fails.  When a rank is about to run `check_buffer`, the last
message delivered to it is that of its round, and its buffer starts with the bytes that the peer had
in `send_buf` in that round.  No step changes the send buffer of a rank with a send outstanding.  And
at most one message has been delivered to a rank that it has not checked yet. -/
theorem pingpongNotified_safe (q : Kind) (hsizes : ∀ n ∈ env.sizes, n ≤ maxMsgSize) {s : Sys}
    (hs : ((q.program maxMsgSize).machine env).Reachable s) :
    (∀ a f, (q.program maxMsgSize).step env s a ≠ .error (.fault f)) ∧ ∀ r,
      ((q.program maxMsgSize).stmt env r (s r) = some .checkBuffer →
        (s r).nic.recvCq.generated = (s r).iter + 1 ∧
        (s r).mem.bytes .recvBuf (env.size (s r).iter) = env.sentBytes r.peer (s r).iter) ∧
      (∀ a s', (q.program maxMsgSize).step env s a = .ok s' → (s r).nic.outstanding ≠ [] →
        (s' r).mem.buf .sendBuf = (s r).mem.buf .sendBuf) ∧
      (s r).nic.recvCq.generated ≤ checked r (s r) + 1 := by
  obtain ⟨⟨hc, hi⟩, hfault⟩ := reachable_inv hsizes hs
  refine ⟨hfault, fun r ↦ ⟨?_, ?_, (turns hc r).1⟩⟩
  · intro hstmt
    rw [Program.stmt] at hstmt
    split at hstmt
    · obtain ⟨hpc, hℓ⟩ := List.getElem?_eq_some_iff.mp hstmt
      have hgen := (turns hc r).2 hpc hℓ
      exact ⟨hgen, (hi r).recvBuf _ hgen⟩
    · cases hstmt
  · intro a s' hstep hout
    refine ((step_safe hsizes hc hi a).of_ok hstep).2 r fun hzero ↦ hout ?_
    obtain ⟨hsq, hunacked, -⟩ := sq_nil hzero
    rw [Nic.outstanding, hsq, hunacked]
    rfl

/-- Both ranks post their receives, rank 0 sends, and rank 1 is notified. -/
def firstMessage : List Action :=
  [.rank .r0, .rank .r1, .rank .r0, .rank .r0, .deliver .r0, .rank .r1, .rank .r1]

theorem pingpongNotified_safe_firstMessage :
    let env : Env Unit 0 := .small Unit [2, 2]
    let s := ((pingpongWriteImm 2).machine env).result ((pingpongWriteImm 2).start env) firstMessage
    (pingpongWriteImm 2).stmt env .r1 (s .r1) = some .checkBuffer ∧
      (s .r1).mem.bytes .recvBuf 2
        = List.replicate 2 { val := Rank.r0.value, round := some 0 } := by
  intro env s
  have hsizes : ∀ n ∈ env.sizes, n ≤ 2 := by decide
  have hs : ((pingpongWriteImm 2).machine env).Reachable s :=
    Machine.reachable_result (.init rfl) firstMessage
  have hstmt : (pingpongWriteImm 2).stmt env .r1 (s .r1) = some .checkBuffer := by decide +kernel
  have hiter : (s .r1).iter = 0 := by decide +kernel
  have hbytes := (((pingpongNotified_safe .writeImm hsizes hs).2 .r1).1 hstmt).2
  rw [hiter] at hbytes
  exact ⟨hstmt, hbytes⟩

end PingpongNotified

end IbvBench
