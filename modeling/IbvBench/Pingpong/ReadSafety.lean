import IbvBench.Pingpong.NotifiedSafety
import IbvBench.Pingpong.Read

/-!
# The RDMA-read ping-pong reads what rank 1 has written

The two signals keep the ranks apart.  Rank 0 starts its rounds when it has polled the start signal,
which rank 1 posts behind its only `write_buffer`; and rank 1's buffer is next written to by the
finish signal, which rank 0 posts behind its last round (`target_stable`).  So every RDMA_READ fetches
the bytes that rank 1 has written.  And it really is the RDMA_READ that brings them: rank 0 writes its
own bytes first, and they are still there when the request completes.
-/

set_option autoImplicit false

namespace IbvBench

open StepMachine

namespace PingpongRead

variable {env : Env Unit 0} {maxMsgSize : ℕ}

/-! ## Places -/

/-- The places a rank comes to. -/
structure Occurs (env : Env Unit 0) (r : Rank) (k : ℕ) (ℓ : Stmt) : Prop where
  round : ℓ.inRound = true → r = .r0 → k < env.sizes.length
  before : ℓ = .postRecvs ∨ ℓ = .pollRecv ∨ ℓ = .repost ∨ r = .r1 → k = 0
  behind : ℓ = .postSignal ∨ ℓ = .pollSignal ∨ ℓ = .done → r = .r0 → k = env.sizes.length
  passive : ℓ = .postRead ∨ ℓ = .pollRead ∨ ℓ = .checkBuffer → r = .r0

/-- How many statements come before a place. -/
def pos (env : Env Unit 0) (r : Rank) (k : ℕ) (ℓ : Stmt) : ℕ :=
  match r, ℓ with
  | _, .postRecvs => 0
  | .r0, .pollRecv => 1
  | .r0, .repost => 2
  | .r0, .writeBuffer => 3 + 4 * k
  | .r0, .postRead => 4 + 4 * k
  | .r0, .pollRead => 5 + 4 * k
  | .r0, .checkBuffer => 6 + 4 * k
  | .r0, .postSignal => 3 + 4 * env.sizes.length
  | .r0, .pollSignal => 4 + 4 * env.sizes.length
  | .r0, .done => 5 + 4 * env.sizes.length
  | .r1, .writeBuffer => 1
  | .r1, .postSignal => 2
  | .r1, .pollSignal => 3
  | .r1, .pollRecv => 4
  | .r1, .repost => 5
  | .r1, _ => 6

/-- How many signals a rank has posted. -/
def signals (r : Rank) (ℓ : Stmt) : ℕ :=
  match r, ℓ with
  | _, .pollSignal | _, .done | .r1, .pollRecv | .r1, .repost => 1
  | _, _ => 0

/-- How many reads it has posted. -/
def reads (r : Rank) (k : ℕ) (ℓ : Stmt) : ℕ :=
  match r, ℓ with
  | .r0, .pollRead | .r0, .checkBuffer => k + 1
  | _, _ => k

/-- How many signals it has polled. -/
def taken (r : Rank) (ℓ : Stmt) : ℕ :=
  match r, ℓ with
  | _, .postRecvs | _, .pollRecv => 0
  | .r1, .writeBuffer | .r1, .postSignal | .r1, .pollSignal => 0
  | _, _ => 1

/-- How many requests are outstanding. -/
def waits : Stmt → ℕ
  | .pollRead | .pollSignal => 1
  | _ => 0

/-- How many receives are to its account. -/
def held : Stmt → ℕ
  | .postRecvs => 0
  | .repost => 7
  | _ => 8

/-- Has rank 1 filled its buffer? -/
def filled : Stmt → Bool
  | .postRecvs | .writeBuffer => false
  | _ => true

/-- What a statement adds to all that. -/
structure Moves (env : Env Unit 0) (r : Rank) (k : ℕ) (ℓ : Stmt) (k' : ℕ) (ℓ' : Stmt) : Prop where
  occurs : Occurs env r k' ℓ'
  pos : pos env r k' ℓ' = pos env r k ℓ + 1
  signals : signals r ℓ' = signals r ℓ + if ℓ = .postSignal then 1 else 0
  reads : reads r k' ℓ' = reads r k ℓ + if ℓ = .postRead then 1 else 0
  taken : taken r ℓ' = taken r ℓ + if ℓ = .pollRecv then 1 else 0
  waits : waits ℓ' = if ℓ = .postRead ∨ ℓ = .postSignal then 1 else 0
  held : held ℓ' = if ℓ = .pollRecv then 7 else 8

/-- The first statement of a round, or the one behind the last. -/
theorem again_moves {k : ℕ} {ℓ : Stmt} {k' : ℕ} (hk : k' ≤ env.sizes.length)
    (hpos : pos env .r0 k ℓ = 2 + 4 * k') (hreads : reads .r0 k ℓ = k')
    (hℓ : ℓ = .repost ∨ ℓ = .checkBuffer) :
    Moves env .r0 k ℓ (again env k').1 (again env k').2 := by
  rw [again]
  split
  · rename_i hlt
    refine ⟨⟨fun _ _ ↦ hlt, by simp, by simp, by simp⟩, ?_, ?_, ?_, ?_, ?_, ?_⟩
    · rw [hpos, pos]
      omega
    · rcases hℓ with rfl | rfl <;> rfl
    · rw [hreads]
      rcases hℓ with rfl | rfl <;> rfl
    · rcases hℓ with rfl | rfl <;> rfl
    · rcases hℓ with rfl | rfl <;> rfl
    · rcases hℓ with rfl | rfl <;> rfl
  · rename_i hge
    have hlast : k' = env.sizes.length := by omega
    refine ⟨⟨by simp [Stmt.inRound], by simp, fun _ _ ↦ hlast, by simp⟩, ?_, ?_, ?_, ?_, ?_, ?_⟩
    · rw [hpos, pos]
      omega
    · rcases hℓ with rfl | rfl <;> rfl
    · rw [hreads]
      rcases hℓ with rfl | rfl <;> rfl
    · rcases hℓ with rfl | rfl <;> rfl
    · rcases hℓ with rfl | rfl <;> rfl
    · rcases hℓ with rfl | rfl <;> rfl

theorem next_moves {r : Rank} {k : ℕ} {ℓ : Stmt} (h : Occurs env r k ℓ) (hd : ℓ ≠ .done) :
    Moves env r k ℓ (next env r k ℓ).1 (next env r k ℓ).2 := by
  obtain ⟨hround, hbefore, hbehind, hpassive⟩ := h
  cases r with
  | r0 =>
    cases ℓ with
    | done => exact absurd rfl hd
    | repost =>
      have hk : k = 0 := hbefore (by simp)
      subst hk
      exact again_moves (Nat.zero_le _) rfl rfl (.inl rfl)
    | checkBuffer => exact again_moves (hround rfl rfl) (by simp only [pos]; omega) rfl (.inr rfl)
    | postRecvs | pollRecv =>
      have hk : k = 0 := hbefore (by simp)
      exact ⟨⟨by simp [next, next0, Stmt.inRound], fun _ ↦ hk, by simp [next, next0], by simp⟩, rfl,
        rfl, rfl, rfl, rfl, rfl⟩
    | writeBuffer | postRead | pollRead =>
      have hk : k < env.sizes.length := hround rfl rfl
      refine ⟨⟨fun _ _ ↦ hk, by simp [next, next0], by simp [next, next0], by simp⟩, ?_, rfl,
        rfl, rfl, rfl, rfl⟩
      simp only [next, next0, pos]
      omega
    | postSignal | pollSignal =>
      have hk : k = env.sizes.length := hbehind (by simp) rfl
      refine ⟨⟨by simp [next, next0, Stmt.inRound], by simp [next, next0], fun _ _ ↦ hk, by simp⟩,
        ?_, rfl, rfl, rfl, rfl, rfl⟩
      simp only [next, next0, pos]
      omega
  | r1 =>
    have hk : k = 0 := hbefore (by simp)
    cases ℓ with
    | done => exact absurd rfl hd
    | postRead | pollRead | checkBuffer => exact absurd (hpassive (by simp)) (by decide)
    | postRecvs | writeBuffer | postSignal | pollSignal | pollRecv | repost =>
      exact ⟨⟨by simp, fun _ ↦ hk, by simp, by simp [next, next1]⟩, rfl, rfl, rfl, rfl, rfl,
        rfl⟩

/-! ## The invariant -/

/-- The request a rank has outstanding before a statement. -/
structure Request (env : Env Unit 0) (r : Rank) (k : ℕ) (ℓ : Stmt) (w : SendWr Unit) : Prop where
  opcode : w.opcode = if ℓ = .pollRead then .rdmaRead else .send
  lkey : w.lkey = (env.mr r).lkey
  rkey : ℓ = .pollRead → w.rkey = (env.mr r.peer).rkey
  length : w.length = if ℓ = .pollRead then env.size k else env.cacheLineSize
  remoteAddr : ℓ = .pollRead → w.remoteAddr = .buf .recvBuf
  addr : w.addr = .buf .recvBuf
  payload : ∀ mem, ∃ cells, w.payload mem = .bytes cells

/-- The bytes rank 0 reads in a round. -/
def fetched (env : Env Unit 0) (k : ℕ) : List Cell := List.replicate (env.size k) (offered env)

/-- The same after it has been executed. -/
structure Executed (env : Env Unit 0) (k : ℕ) (ℓ : Stmt) (a : Ack Unit) : Prop where
  opcode : a.wr.opcode = if ℓ = .pollRead then .rdmaRead else .send
  addr : a.wr.addr = .buf .recvBuf
  data : a.data = if ℓ = .pollRead then some (.bytes (fetched env k)) else none

/-- The queues of a rank. -/
structure Queues (env : Env Unit 0) (maxMsgSize : ℕ) (r : Rank) (k : ℕ) (ℓ : Stmt)
    (nic : Nic Unit) : Prop where
  posted : nic.postedRecvNum = nic.recvs
  recvs : nic.recvs = held ℓ
  srq : ∀ x ∈ nic.srq, x = recvWr maxMsgSize env r
  used : nic.sqUsed = waits ℓ
  sends : nic.sendCq.polled + waits ℓ = reads r k ℓ + signals r ℓ
  sendCq : nic.sendCq.polled + nic.sendCq.entries.length = nic.sendCq.generated
  polled : nic.recvCq.polled = taken r ℓ
  recvCq : nic.recvCq.polled + nic.recvCq.entries.length = nic.recvCq.generated

/-- What is in them. -/
structure Contents (env : Env Unit 0) (r : Rank) (k : ℕ) (ℓ : Stmt) (nic : Nic Unit) : Prop where
  sq : ∀ w ∈ nic.sq, Request env r k ℓ w
  unacked : ∀ a ∈ nic.unacked, Executed env k ℓ a
  sent : ∀ c ∈ nic.sendCq.entries,
    sendOk (if ℓ = .pollRead then .rdmaRead else .send) c = true
  recvd : ∀ c ∈ nic.recvCq.entries, recvOk c = true

/-- The buffer of rank 0, before a statement of a round. -/
structure Reader (env : Env Unit 0) (k : ℕ) (ℓ : Stmt) (host : Host Unit) : Prop where
  /-- Its own bytes, until the read completes. -/
  own : ℓ = .postRead ∨ ℓ = .pollRead ∧ host.nic.sendCq.entries = [] → env.touchData = true →
    host.mem.bytes .recvBuf (env.size k)
      = List.replicate (env.size k) { val := Rank.r0.value, round := some k }
  /-- The bytes it has read from then on. -/
  fetched : ℓ = .checkBuffer ∨ ℓ = .pollRead ∧ host.nic.sendCq.entries ≠ [] →
    host.mem.bytes .recvBuf (env.size k) = fetched env k

/-- The buffer of rank 1, until the finish signal lands in it. -/
def Target (env : Env Unit 0) (maxMsgSize : ℕ) (ℓ : Stmt) (host : Host Unit) : Prop :=
  host.nic.recvCq.generated = 0 → ∀ i < maxMsgSize, host.mem.buf .recvBuf i =
    if filled ℓ = true then offered env else { val := 0, round := none }

/-- The buffer of a rank. -/
def Buffer (env : Env Unit 0) (maxMsgSize : ℕ) (r : Rank) (k : ℕ) (ℓ : Stmt) (host : Host Unit) :
    Prop :=
  match r with
  | .r0 => Reader env k ℓ host
  | .r1 => Target env maxMsgSize ℓ host

/-- A rank. -/
structure NodeInv (env : Env Unit 0) (maxMsgSize : ℕ) (r : Rank) (n : Node) : Prop where
  occurs : Occurs env r n.iter n.stmt
  queues : Queues env maxMsgSize r n.iter n.stmt n.st.host.nic
  contents : Contents env r n.iter n.stmt n.st.host.nic
  buffer : Buffer env maxMsgSize r n.iter n.stmt n.st.host

/-- **The invariant.** -/
structure Inv (env : Env Unit 0) (maxMsgSize : ℕ) (s : Sys) : Prop where
  node : ∀ r, NodeInv env maxMsgSize r (s r)
  /-- The signals at the peer are those of the rank that have been delivered. -/
  link : ∀ r, (s r.peer).st.host.nic.recvCq.generated
    + (s r).st.host.nic.sq.countP SendWr.consumesRecv = signals r (s r).stmt

/-! ## The queues -/

section

variable {r : Rank} {k k' : ℕ} {ℓ ℓ' : Stmt} {nic : Nic Unit}

/-- A statement that leaves the queues alone. -/
theorem Queues.same (h : Queues env maxMsgSize r k ℓ nic) (M : Moves env r k ℓ k' ℓ')
    (hℓ : ℓ = .writeBuffer ∨ ℓ = .checkBuffer) : Queues env maxMsgSize r k' ℓ' nic := by
  have hsignals := M.signals
  have hreads := M.reads
  have htaken := M.taken
  have hwaits := M.waits
  have hheld := M.held
  obtain ⟨h1, h2, h3, h4, h5, h6, h7, h8⟩ := h
  rcases hℓ with rfl | rfl <;> simp at hsignals hreads htaken hwaits hheld <;>
    refine ⟨h1, by rw [h2, hheld]; rfl, h3, by rw [h4, hwaits]; rfl, ?_, h6, by rw [h7, htaken],
      h8⟩ <;> rw [hwaits, hreads, hsignals, ← h5] <;> rfl

/-- Receives are posted. -/
theorem Queues.reposted (h : Queues env maxMsgSize r k ℓ nic) (M : Moves env r k ℓ k' ℓ')
    (hℓ : ℓ = .postRecvs ∨ ℓ = .repost) : ∃ nic',
      checkAndPostRecvs (env.device r) (.buf .recvBuf) maxMsgSize (env.mr r).lkey
        (.reg (.buf .recvBuf)) nic = .ok nic' ∧ Queues env maxMsgSize r k' ℓ' nic' ∧
      nic'.recvCq = nic.recvCq ∧ nic'.sq = nic.sq ∧ nic'.unacked = nic.unacked ∧
      nic'.sendCq = nic.sendCq := by
  have hsignals := M.signals
  have hreads := M.reads
  have htaken := M.taken
  have hwaits := M.waits
  have hheld := M.held
  obtain ⟨h1, h2, h3, h4, h5, h6, h7, h8⟩ := h
  obtain ⟨m, hm, hpos⟩ : ∃ m, nic.recvs + m = 8 ∧ 0 < m := by
    rw [h2]
    rcases hℓ with rfl | rfl
    · exact ⟨8, rfl, by omega⟩
    · exact ⟨1, rfl, by omega⟩
  refine ⟨_, Program.repost_eq (P := pingpongSendrecv maxMsgSize) env (r := r) h1 hm hpos, ?_, rfl,
    rfl, rfl, rfl⟩
  have hzero : waits ℓ = 0 := by rcases hℓ with rfl | rfl <;> rfl
  have hrecvs : (nic.srq ++ List.replicate m (recvWr maxMsgSize env r)).length
      + nic.recvCq.entries.length = 8 := by
    simp only [Nic.recvs] at hm
    simp only [List.length_append, List.length_replicate]
    omega
  have hheld' : held ℓ' = 8 := by
    rw [hheld]
    rcases hℓ with rfl | rfl <;> rfl
  have hwaits' : waits ℓ' = 0 := by
    rw [hwaits]
    rcases hℓ with rfl | rfl <;> rfl
  refine ⟨?_, ?_, fun x hx ↦ Program.mem_srq_append_replicate h3 hx, ?_, ?_, h6, ?_, h8⟩
  · exact (congrArg Nat.cast hrecvs).symm
  · exact hrecvs.trans hheld'.symm
  · rw [hwaits', ← hzero]
    exact h4
  · rw [hwaits', hreads, hsignals, ← hzero]
    rcases hℓ with rfl | rfl <;> exact h5
  · rw [htaken]
    rcases hℓ with rfl | rfl <;> exact h7

/-- A request is posted. -/
theorem Queues.requested (h : Queues env maxMsgSize r k ℓ nic) (M : Moves env r k ℓ k' ℓ')
    (hℓ : ℓ = .postRead ∨ ℓ = .postSignal) (w : SendWr Unit) :
    Queues env maxMsgSize r k' ℓ' { nic with sq := nic.sq ++ [w] } := by
  have hsignals := M.signals
  have hreads := M.reads
  have htaken := M.taken
  have hwaits := M.waits
  have hheld := M.held
  obtain ⟨h1, h2, h3, h4, h5, h6, h7, h8⟩ := h
  have hzero : waits ℓ = 0 := by rcases hℓ with rfl | rfl <;> rfl
  refine ⟨h1, ?_, h3, ?_, ?_, h6, ?_, h8⟩
  · rw [hheld]
    rcases hℓ with rfl | rfl <;> exact h2
  · rw [hwaits, if_pos hℓ]
    simp only [Nic.sqUsed, List.length_append, List.length_singleton] at h4 ⊢
    omega
  · rw [hwaits, if_pos hℓ, hreads, hsignals]
    rcases hℓ with rfl | rfl <;> simp <;> omega
  · rw [htaken]
    rcases hℓ with rfl | rfl <;> exact h7

/-- A send completion is polled. -/
theorem Queues.polledSend (h : Queues env maxMsgSize r k ℓ nic) (M : Moves env r k ℓ k' ℓ')
    (hℓ : ℓ = .pollRead ∨ ℓ = .pollSignal) {wc : Wc Unit} {sendCq : Cq Unit}
    (hq : pollCQ nic.sendCq = .ok (wc, sendCq)) :
    Queues env maxMsgSize r k' ℓ' { nic with sendCq } := by
  have hsignals := M.signals
  have hreads := M.reads
  have htaken := M.taken
  have hwaits := M.waits
  have hheld := M.held
  obtain ⟨he, hp, hg⟩ := pollCQ_eq_ok hq
  obtain ⟨h1, h2, h3, h4, h5, h6, h7, h8⟩ := h
  have hone : waits ℓ = 1 := by rcases hℓ with rfl | rfl <;> rfl
  have hwaits' : waits ℓ' = 0 := by
    rw [hwaits]
    rcases hℓ with rfl | rfl <;> rfl
  refine ⟨h1, ?_, h3, ?_, ?_, ?_, ?_, h8⟩
  · rw [hheld]
    rcases hℓ with rfl | rfl <;> exact h2
  · simp only [Nic.sqUsed, he, List.length_cons] at h4 ⊢
    omega
  · have hsum : reads r k' ℓ' + signals r ℓ' = reads r k ℓ + signals r ℓ := by
      rw [hreads, hsignals]
      rcases hℓ with rfl | rfl <;> rfl
    rw [hsum]
    simp only [hp]
    omega
  · simp only [he, List.length_cons] at h6
    simp only [hp, hg]
    omega
  · rw [htaken]
    rcases hℓ with rfl | rfl <;> exact h7

/-- A signal is polled. -/
theorem Queues.polledRecv (h : Queues env maxMsgSize r k .pollRecv nic)
    (M : Moves env r k .pollRecv k' ℓ') {wc : Wc Unit} {recvCq : Cq Unit}
    (hq : pollCQ nic.recvCq = .ok (wc, recvCq)) :
    Queues env maxMsgSize r k' ℓ'
      { nic with recvCq, postedRecvNum := nic.postedRecvNum - 1 } := by
  have hsignals := M.signals
  have hreads := M.reads
  have htaken := M.taken
  have hwaits : waits ℓ' = 0 := M.waits
  have hheld : held ℓ' = 7 := M.held
  obtain ⟨he, hp, hg⟩ := pollCQ_eq_ok hq
  obtain ⟨h1, h2, h3, h4, h5, h6, h7, h8⟩ := h
  simp only [Nic.recvs, he, List.length_cons, held] at h1 h2
  refine ⟨?_, ?_, h3, ?_, ?_, h6, ?_, ?_⟩
  · simp only [Nic.recvs]
    omega
  · simp only [Nic.recvs]
    omega
  · rw [hwaits]
    exact h4
  · rw [hwaits, hreads, hsignals]
    exact h5
  · rw [htaken, ← h7]
    exact hp
  · simp only [he, List.length_cons] at h8
    simp only [hp, hg]
    omega

/-- A request leaves the send queue. -/
theorem Queues.sent (h : Queues env maxMsgSize r k ℓ nic) {w : SendWr Unit}
    {sq : List (SendWr Unit)} (hsq : nic.sq = w :: sq) (a : Ack Unit) :
    Queues env maxMsgSize r k ℓ { nic with sq, unacked := nic.unacked ++ [a] } := by
  obtain ⟨h1, h2, h3, h4, h5, h6, h7, h8⟩ := h
  refine ⟨h1, h2, h3, ?_, h5, h6, h7, h8⟩
  simp only [Nic.sqUsed, hsq, List.length_cons, List.length_append, List.length_nil] at h4 ⊢
  omega

/-- A completion is generated. -/
theorem Queues.completed (h : Queues env maxMsgSize r k ℓ nic) {a : Ack Unit}
    {unacked : List (Ack Unit)} (hu : nic.unacked = a :: unacked) (wc : Wc Unit) :
    Queues env maxMsgSize r k ℓ { nic with unacked, sendCq := nic.sendCq.pushed wc } := by
  obtain ⟨h1, h2, h3, h4, h5, h6, h7, h8⟩ := h
  refine ⟨h1, h2, h3, ?_, h5, ?_, h7, h8⟩
  · simp only [Nic.sqUsed, hu, Cq.pushed, List.length_cons, List.length_append,
      List.length_nil] at h4 ⊢
    omega
  · simp only [Cq.pushed, List.length_append, List.length_singleton]
    omega

/-- A signal arrives. -/
theorem Queues.recvd (h : Queues env maxMsgSize r k ℓ nic) (hsrq : nic.srq ≠ []) (wc : Wc Unit) :
    Queues env maxMsgSize r k ℓ (nic.recvd wc) := by
  obtain ⟨x, srq, hx⟩ := List.exists_cons_of_ne_nil hsrq
  have hrecvs : (nic.recvd wc).recvs = nic.recvs := by
    simp only [Nic.recvs, Nic.recvd, Cq.pushed, hx, List.tail_cons, List.length_cons,
      List.length_append, List.length_nil]
    omega
  obtain ⟨h1, h2, h3, h4, h5, h6, h7, h8⟩ := h
  refine ⟨hrecvs ▸ h1, hrecvs ▸ h2, fun y hy ↦ h3 y (List.mem_of_mem_tail hy), h4, h5, h6, h7, ?_⟩
  simp only [Nic.recvd, Cq.pushed, List.length_append, List.length_singleton]
  omega

end

/-! ## The statements -/

/-- A rank with no request outstanding has nothing but arrivals in its queues. -/
theorem Contents.idle {r : Rank} {k : ℕ} {ℓ : Stmt} {nic : Nic Unit} (hused : nic.sqUsed = 0)
    (hrecvd : ∀ c ∈ nic.recvCq.entries, recvOk c = true) : Contents env r k ℓ nic := by
  obtain ⟨hsq, hunacked, hsend⟩ := PingpongNotified.sq_nil hused
  refine ⟨?_, ?_, ?_, hrecvd⟩
  · rw [hsq]
    exact fun w hw ↦ by cases hw
  · rw [hunacked]
    exact fun a ha ↦ by cases ha
  · rw [hsend]
    exact fun c hc ↦ by cases hc

/-- Nothing is known of rank 0's buffer outside the three statements that use it. -/
theorem Reader.outside {k : ℕ} {ℓ : Stmt} {host : Host Unit}
    (hℓ : ℓ ≠ .postRead ∧ ℓ ≠ .pollRead ∧ ℓ ≠ .checkBuffer) : Reader env k ℓ host := by
  obtain ⟨h1, h2, h3⟩ := hℓ
  refine ⟨?_, ?_⟩
  · rintro (h | ⟨h, -⟩)
    · exact absurd h h1
    · exact absurd h h2
  · rintro (h | ⟨h, -⟩)
    · exact absurd h h3
    · exact absurd h h2

/-- The request is a signal, or the read of the round. -/
theorem request_signal (r : Rank) (k : ℕ) (mem : Mem Unit) :
    Request env r k .pollSignal
      { wrId := .null, opcode := .send, addr := .buf .recvBuf, length := env.cacheLineSize,
        lkey := (env.mr r).lkey,
        inlined := inlineData (env.device r) mem (.buf .recvBuf) env.cacheLineSize } := by
  refine ⟨rfl, rfl, by simp, rfl, by simp, rfl, fun mem' ↦ ?_⟩
  rw [SendWr.payload, inlineData]
  split
  · exact ⟨_, rfl⟩
  · exact ⟨_, rfl⟩

theorem request_read (r : Rank) (k : ℕ) :
    Request env r k .pollRead
      { wrId := .null, opcode := .rdmaRead, addr := .buf .recvBuf, length := env.size k,
        lkey := (env.mr r).lkey, remoteAddr := .buf .recvBuf, rkey := (env.mr r.peer).rkey } :=
  ⟨rfl, rfl, fun _ ↦ rfl, rfl, fun _ ↦ rfl, rfl, fun _ ↦ ⟨_, rfl⟩⟩

/-- What a statement of a rank establishes. -/
structure Stepped (env : Env Unit 0) (maxMsgSize : ℕ) (r : Rank) (n : Node) (st : State) : Prop where
  node : NodeInv env maxMsgSize r
    { iter := (next env r n.iter n.stmt).1, stmt := (next env r n.iter n.stmt).2, st }
  generated : st.host.nic.recvCq.generated = n.st.host.nic.recvCq.generated
  inFlight : st.host.nic.sq.countP SendWr.consumesRecv
    = n.st.host.nic.sq.countP SendWr.consumesRecv + if n.stmt = .postSignal then 1 else 0
  unacked : st.host.nic.unacked = n.st.host.nic.unacked
  completed : st.host.nic.sendCq.generated = n.st.host.nic.sendCq.generated

section

variable {r : Rank} {n : Node}

/-- The buffer behind a statement that leaves it alone, and does not lead to one that uses it. -/
theorem Buffer.outside {k k' : ℕ} {ℓ ℓ' : Stmt} {host host' : Host Unit}
    (h : Buffer env maxMsgSize r k ℓ host) (hℓ : ℓ' ≠ .postRead ∧ ℓ' ≠ .pollRead ∧ ℓ' ≠ .checkBuffer)
    (hfilled : r = .r1 → filled ℓ' = filled ℓ) (hmem : host'.mem = host.mem)
    (hgen : host'.nic.recvCq.generated = host.nic.recvCq.generated) :
    Buffer env maxMsgSize r k' ℓ' host' := by
  cases r with
  | r0 => exact Reader.outside hℓ
  | r1 =>
    simp only [Buffer, Target] at h ⊢
    rw [hgen, hmem, hfilled rfl]
    exact h

/-- Most statements do not lead to one that uses rank 0's buffer. -/
theorem next_outside {k : ℕ} {ℓ : Stmt} (hℓ : ℓ ≠ .writeBuffer ∧ ℓ ≠ .postRead ∧ ℓ ≠ .pollRead) :
    (next env r k ℓ).2 ≠ .postRead ∧ (next env r k ℓ).2 ≠ .pollRead ∧
      (next env r k ℓ).2 ≠ .checkBuffer := by
  have hagain (k : ℕ) : (again env k).2 ≠ .postRead ∧ (again env k).2 ≠ .pollRead ∧
      (again env k).2 ≠ .checkBuffer := by
    rw [again]
    split <;> simp
  cases r with
  | r0 =>
    cases ℓ with
    | repost | checkBuffer => exact hagain _
    | _ => simp [next, next0] at hℓ ⊢
  | r1 => cases ℓ <;> simp [next, next1] at hℓ ⊢

/-- Rank 1 fills its buffer once. -/
theorem next_filled {k : ℕ} {ℓ : Stmt} (hℓ : ℓ ≠ .writeBuffer) (hr : r = .r1) :
    filled (next env r k ℓ).2 = filled ℓ := by
  subst hr
  cases ℓ <;> first | rfl | exact absurd rfl hℓ

/-- Receives are posted. -/
theorem repost_safe (h : NodeInv env maxMsgSize r n) (hℓ : n.stmt = .postRecvs ∨ n.stmt = .repost) :
    Safe (n.st.repostStep (env.device r) (recvWr maxMsgSize env r)) (Stepped env maxMsgSize r n) := by
  have hd : n.stmt ≠ .done := by rcases hℓ with h | h <;> rw [h] <;> decide
  have M := next_moves h.occurs hd
  obtain ⟨nic', hnic, hq, hrecvCq, hsq, hunacked, hsendCq⟩ := h.queues.reposted M hℓ
  have hstep : n.st.repostStep (env.device r) (recvWr maxMsgSize env r)
      = .ok { n.st with host := { n.st.host with nic := nic' } } := by
    have hnic' : checkAndPostRecvs (env.device r) (recvWr maxMsgSize env r).addr
        (recvWr maxMsgSize env r).length (recvWr maxMsgSize env r).lkey
        (recvWr maxMsgSize env r).wrId n.st.host.nic = .ok nic' := hnic
    simp only [RankState.repostStep, hnic', ok_bind]
  rw [hstep]
  have hused := hq.used
  rw [M.waits, if_neg (by rcases hℓ with h | h <;> rw [h] <;> decide)] at hused
  have hne : n.stmt ≠ .writeBuffer ∧ n.stmt ≠ .postRead ∧ n.stmt ≠ .pollRead := by
    rcases hℓ with h | h <;> rw [h] <;> decide
  refine ⟨⟨M.occurs, hq, .idle hused ?_, h.buffer.outside (next_outside hne) (next_filled hne.1) rfl ?_⟩,
    ?_, ?_, hunacked, congrArg Cq.generated hsendCq⟩
  · rw [hrecvCq]
    exact h.contents.recvd
  · rw [hrecvCq]
  · simp only [hrecvCq]
  · rw [if_neg (by rcases hℓ with h | h <;> rw [h] <;> decide)]
    exact congrArg (List.countP SendWr.consumesRecv) hsq

/-- The signals are accepted. -/
theorem postSignal_safe (h : NodeInv env maxMsgSize r n) (hℓ : n.stmt = .postSignal) :
    Safe (exec env maxMsgSize r n.iter (env.size n.iter) .postSignal n.st)
      (Stepped env maxMsgSize r n) := by
  have hnext : next env r n.iter n.stmt = (n.iter, .pollSignal) := by
    rw [hℓ]
    cases r <;> rfl
  have M := next_moves h.occurs (by rw [hℓ]; decide)
  have hused : n.st.host.nic.sqUsed = 0 := by rw [h.queues.used, hℓ]; rfl
  obtain ⟨hsq, hunacked, hsend⟩ := PingpongNotified.sq_nil hused
  simp only [exec, postSend]
  rw [Host.post_eq r.peer_ne (env.room hused)]
  simp only [ok_bind]
  refine safe_ok.mpr ⟨⟨M.occurs, h.queues.requested M (.inr hℓ) _, ?_, h.buffer.outside
    (next_outside (by rw [hℓ]; decide)) (next_filled (by rw [hℓ]; decide)) rfl rfl⟩, rfl, ?_, rfl,
    rfl⟩
  · rw [hnext]
    refine ⟨fun w hw ↦ ?_, fun a ha ↦ ?_, fun c hc ↦ ?_, h.contents.recvd⟩
    · rw [hsq] at hw
      obtain rfl := List.mem_singleton.mp hw
      exact request_signal r _ _
    · rw [hunacked] at ha
      cases ha
    · rw [hsend] at hc
      cases hc
  · rw [if_pos hℓ, List.countP_append]
    rfl

/-- The completion that is polled is that of the signal. -/
theorem pollSignal_safe (h : NodeInv env maxMsgSize r n) (hℓ : n.stmt = .pollSignal) :
    Safe (exec env maxMsgSize r n.iter (env.size n.iter) .pollSignal n.st)
      (Stepped env maxMsgSize r n) := by
  have M := next_moves h.occurs (by rw [hℓ]; decide)
  have hsent := h.contents.sent
  rw [hℓ, if_neg (by decide)] at hsent
  refine ((RankState.pollSendStep_safe hsent).and (R := fun st ↦ _) fun st hst ↦
    RankState.pollSendStep_eq_ok hst).mono fun st hst ↦ ?_
  obtain ⟨-, wc, sendCq, hq, rfl⟩ := hst
  have hq' := h.queues.polledSend M (.inr hℓ) hq
  have hused := hq'.used
  rw [M.waits, if_neg (by rw [hℓ]; decide)] at hused
  refine ⟨⟨M.occurs, hq', .idle hused h.contents.recvd, h.buffer.outside
    (next_outside (by rw [hℓ]; decide)) (next_filled (by rw [hℓ]; decide)) rfl rfl⟩, rfl, ?_, rfl,
    (pollCQ_eq_ok hq).2.2⟩
  rw [if_neg (by rw [hℓ]; decide)]
  rfl

/-- The completion that is polled is that of the peer's signal. -/
theorem pollRecv_safe (h : NodeInv env maxMsgSize r n) (hℓ : n.stmt = .pollRecv) :
    Safe (exec env maxMsgSize r n.iter (env.size n.iter) .pollRecv n.st)
      (Stepped env maxMsgSize r n) := by
  have M := next_moves h.occurs (by rw [hℓ]; decide)
  have hok : ∀ wc ∈ n.st.host.nic.recvCq.entries.head?, recvOk wc = true := fun wc hwc ↦
    h.contents.recvd wc (List.mem_of_head? hwc)
  refine ((RankState.pollRecvStep_safe hok).and (R := fun st ↦ _) fun st hst ↦
    RankState.pollRecvStep_eq_ok hst).mono fun st hst ↦ ?_
  obtain ⟨-, wc, recvCq, hq, rfl⟩ := hst
  obtain ⟨hentries, -, hgen⟩ := pollCQ_eq_ok hq
  have hqueues := h.queues
  rw [hℓ] at hqueues
  have hq' := hqueues.polledRecv (by rw [← hℓ]; exact M) hq
  have hused := hq'.used
  rw [M.waits, if_neg (by rw [hℓ]; decide)] at hused
  refine ⟨⟨M.occurs, hq', .idle hused fun c hc ↦ ?_, h.buffer.outside
    (next_outside (by rw [hℓ]; decide)) (next_filled (by rw [hℓ]; decide)) rfl hgen⟩, hgen, ?_,
    rfl, rfl⟩
  · refine h.contents.recvd c ?_
    rw [hentries]
    exact List.mem_cons_of_mem _ hc
  · rw [if_neg (by rw [hℓ]; decide)]
    rfl

/-- `write_buffer`, of the message of a round or of everything that is offered. -/
theorem writeBuffer_safe (h : NodeInv env maxMsgSize r n) (hℓ : n.stmt = .writeBuffer) :
    Safe (exec env maxMsgSize r n.iter (env.size n.iter) .writeBuffer n.st)
      (Stepped env maxMsgSize r n) := by
  have M := next_moves h.occurs (by rw [hℓ]; decide)
  have hnic : (fill env.touchData r n.iter (fillSize maxMsgSize r (env.size n.iter)) n.st).host.nic
      = n.st.host.nic := by
    rw [fill]
    split <;> rfl
  have hused : n.st.host.nic.sqUsed = 0 := by rw [h.queues.used, hℓ]; rfl
  refine safe_ok.mpr ⟨⟨M.occurs, ?_, ?_, ?_⟩, by rw [hnic], ?_, by rw [hnic], by rw [hnic]⟩
  · rw [hnic]
    exact h.queues.same M (.inl hℓ)
  · rw [hnic]
    exact .idle hused h.contents.recvd
  · have hb := h.buffer
    rw [hℓ] at hb ⊢
    cases r with
    | r0 =>
      show Reader env n.iter .postRead _
      refine ⟨fun _ ht ↦ ?_, ?_⟩
      · refine List.ext_getElem (by simp [Mem.bytes]) fun i hi _ ↦ ?_
        have hlt : i < env.size n.iter := by simpa [Mem.bytes] using hi
        simp [Mem.bytes, fill, ht, RankState.setMem, writeBuffer, fillSize, hlt]
      · rintro (h | ⟨h, -⟩) <;> cases h
    | r1 =>
      have hzero : n.iter = 0 := h.occurs.before (by simp)
      intro hgen i hi
      rw [hnic] at hgen
      have hold := hb hgen i hi
      rw [offered]
      by_cases ht : env.touchData = true
      · simp [fill, ht, RankState.setMem, writeBuffer, fillSize, hi, next, next1, filled, hzero]
      · simpa [fill, ht, next, next1, filled] using hold
  · rw [hnic, if_neg (by rw [hℓ]; decide)]
    rfl

/-- The read is accepted. -/
theorem postRead_safe (h : NodeInv env maxMsgSize r n) (hℓ : n.stmt = .postRead) :
    Safe (exec env maxMsgSize r n.iter (env.size n.iter) .postRead n.st)
      (Stepped env maxMsgSize r n) := by
  have hr : r = .r0 := h.occurs.passive (.inl hℓ)
  subst hr
  have hnext : next env .r0 n.iter n.stmt = (n.iter, .pollRead) := by rw [hℓ]; rfl
  have M := next_moves h.occurs (by rw [hℓ]; decide)
  have hused : n.st.host.nic.sqUsed = 0 := by rw [h.queues.used, hℓ]; rfl
  obtain ⟨hsq, hunacked, hsend⟩ := PingpongNotified.sq_nil hused
  have hb : Reader env n.iter n.stmt n.st.host := h.buffer
  simp only [exec, IbvBench.postRead]
  rw [Host.post_eq Rank.r0.peer_ne (env.room hused)]
  simp only [ok_bind, beq_self_eq_true, mlogAssert_true]
  refine safe_ok.mpr ⟨⟨M.occurs, h.queues.requested M (.inl hℓ) _, ?_, ?_⟩, rfl, ?_, rfl,
    rfl⟩
  · rw [hnext]
    refine ⟨fun w hw ↦ ?_, fun a ha ↦ ?_, fun c hc ↦ ?_, h.contents.recvd⟩
    · rw [hsq] at hw
      obtain rfl := List.mem_singleton.mp hw
      exact request_read .r0 _
    · rw [hunacked] at ha
      cases ha
    · rw [hsend] at hc
      cases hc
  · rw [hnext]
    refine ⟨fun _ ht ↦ hb.own (.inl hℓ) ht, ?_⟩
    rintro (h | ⟨-, hne⟩)
    · cases h
    · exact absurd hsend hne
  · rw [if_neg (by rw [hℓ]; decide), List.countP_append]
    rfl

/-- The completion that is polled is that of the read. -/
theorem pollRead_safe (h : NodeInv env maxMsgSize r n) (hℓ : n.stmt = .pollRead) :
    Safe (exec env maxMsgSize r n.iter (env.size n.iter) .pollRead n.st)
      (Stepped env maxMsgSize r n) := by
  have hr : r = .r0 := h.occurs.passive (.inr (.inl hℓ))
  subst hr
  have hnext : next env .r0 n.iter n.stmt = (n.iter, .checkBuffer) := by rw [hℓ]; rfl
  have M := next_moves h.occurs (by rw [hℓ]; decide)
  have hb : Reader env n.iter n.stmt n.st.host := h.buffer
  have hsent := h.contents.sent
  rw [if_pos hℓ] at hsent
  refine ((RankState.pollSendStep_safe hsent).and (R := fun st ↦ _) fun st hst ↦
    RankState.pollSendStep_eq_ok hst).mono fun st hst ↦ ?_
  obtain ⟨-, wc, sendCq, hq, rfl⟩ := hst
  obtain ⟨hentries, -, hgen⟩ := pollCQ_eq_ok hq
  have hq' := h.queues.polledSend M (.inl hℓ) hq
  have hused := hq'.used
  rw [M.waits, if_neg (by rw [hℓ]; decide)] at hused
  refine ⟨⟨M.occurs, hq', .idle hused h.contents.recvd, ?_⟩, rfl, ?_, rfl, hgen⟩
  · rw [hnext]
    refine ⟨?_, fun _ ↦ hb.fetched (.inr ⟨hℓ, ?_⟩)⟩
    · rintro (h | ⟨h, -⟩) <;> cases h
    · rw [hentries]
      exact List.cons_ne_nil _ _
  · rw [if_neg (by rw [hℓ]; decide)]
    rfl

/-- `check_buffer` finds the bytes that were read. -/
theorem checkBuffer_safe (h : NodeInv env maxMsgSize r n) (hℓ : n.stmt = .checkBuffer) :
    Safe (exec env maxMsgSize r n.iter (env.size n.iter) .checkBuffer n.st)
      (Stepped env maxMsgSize r n) := by
  have hr : r = .r0 := h.occurs.passive (.inr (.inr hℓ))
  subst hr
  have M := next_moves h.occurs (by rw [hℓ]; decide)
  have hb : Reader env n.iter n.stmt n.st.host := h.buffer
  have hused : n.st.host.nic.sqUsed = 0 := by rw [h.queues.used, hℓ]; rfl
  have hcheck : Safe (n.st.checkRecvBuf env.touchData .r0 (env.size n.iter)) n.st.SameOwn :=
    RankState.checkRecvBuf_safe (k := 0) fun ht ↦ by
      rw [hb.fetched (.inl hℓ), PingpongRead.fetched, offered, if_pos ht]
      rfl
  refine (hcheck.and (R := fun st ↦ _) fun st hst ↦
    RankState.checkRecvBuf_eq_ok hst).mono fun st hst ↦ ?_
  obtain ⟨-, rfl⟩ := hst
  refine ⟨⟨M.occurs, h.queues.same M (.inr hℓ), .idle hused h.contents.recvd, ?_⟩, rfl, ?_, rfl,
    rfl⟩
  · exact Reader.outside (next_outside (by rw [hℓ]; decide))
  · rw [if_neg (by rw [hℓ]; decide)]
    rfl

/-- **A statement of a rank.** -/
theorem exec_safe (h : NodeInv env maxMsgSize r n) :
    Safe (exec env maxMsgSize r n.iter (env.size n.iter) n.stmt n.st)
      (Stepped env maxMsgSize r n) := by
  rcases hℓ : n.stmt
  case postRecvs => exact repost_safe h (.inl hℓ)
  case writeBuffer => exact writeBuffer_safe h hℓ
  case postRead => exact postRead_safe h hℓ
  case pollRead => exact pollRead_safe h hℓ
  case checkBuffer => exact checkBuffer_safe h hℓ
  case postSignal => exact postSignal_safe h hℓ
  case pollSignal => exact pollSignal_safe h hℓ
  case pollRecv => exact pollRecv_safe h hℓ
  case repost => exact repost_safe h (.inr hℓ)
  case done => exact safe_blocked

end

/-! ## The two ranks -/

section

variable {s : Sys}

/-- To know the invariant it is enough to know it at a rank and at its peer. -/
theorem Inv.of_peer (r : Rank) (h1 : NodeInv env maxMsgSize r (s r))
    (h2 : NodeInv env maxMsgSize r.peer (s r.peer))
    (h3 : (s r.peer).st.host.nic.recvCq.generated
      + (s r).st.host.nic.sq.countP SendWr.consumesRecv = signals r (s r).stmt)
    (h4 : (s r).st.host.nic.recvCq.generated
      + (s r.peer).st.host.nic.sq.countP SendWr.consumesRecv = signals r.peer (s r.peer).stmt) :
    Inv env maxMsgSize s := by
  constructor
  · intro x
    rcases r.eq_or_eq_peer x with rfl | rfl
    · exact h1
    · exact h2
  · intro x
    rcases r.eq_or_eq_peer x with rfl | rfl
    · exact h3
    · rw [Rank.peer_peer]
      exact h4

theorem Inv.link_peer (h : Inv env maxMsgSize s) (r : Rank) :
    (s r).st.host.nic.recvCq.generated
      + (s r.peer).st.host.nic.sq.countP SendWr.consumesRecv = signals r.peer (s r.peer).stmt := by
  have := h.link r.peer
  rwa [Rank.peer_peer] at this

/-- **While rank 0 is in a round, rank 1 keeps still**: it has sent the start signal and not received
the finish signal. -/
theorem Inv.target (h : Inv env maxMsgSize s) (hround : (s .r0).stmt.inRound = true) :
    (s .r1).st.host.nic.recvCq.generated = 0 ∧ filled (s .r1).stmt = true ∧
      (s .r1).st.host.nic.sq.countP SendWr.consumesRecv = 0 := by
  have hstart := h.link .r1
  have hfinish := h.link .r0
  have hpolled := (h.node .r0).queues.polled
  have hgen := (h.node .r0).queues.recvCq
  have htaken : taken .r0 (s .r0).stmt = 1 ∧ signals .r0 (s .r0).stmt = 0 := by
    cases hℓ : (s .r0).stmt <;> rw [hℓ] at hround <;> first | exact ⟨rfl, rfl⟩ | cases hround
  have hsignals : signals .r1 (s .r1).stmt ≤ 1 ∧
      (signals .r1 (s .r1).stmt = 1 → filled (s .r1).stmt = true) := by
    cases (s .r1).stmt <;> decide
  simp only [Rank.peer] at hstart hfinish
  refine ⟨by omega, hsignals.2 (by omega), by omega⟩

/-- While the start signal is on its way, rank 0 waits for it. -/
theorem Inv.reader (h : Inv env maxMsgSize s)
    (hsq : 0 < (s .r1).st.host.nic.sq.countP SendWr.consumesRecv) :
    (s .r0).stmt ≠ .postRead ∧ (s .r0).stmt ≠ .pollRead ∧ (s .r0).stmt ≠ .checkBuffer := by
  have hround : (s .r0).stmt.inRound ≠ true := fun hr ↦ by
    have hzero := (h.target hr).2.2
    omega
  refine ⟨?_, ?_, ?_⟩ <;> intro hℓ <;> rw [hℓ] at hround <;> exact hround rfl

/-- The bytes that rank 0 reads. -/
theorem Inv.read_eq (h : Inv env maxMsgSize s) (hround : (s .r0).stmt.inRound = true) {k : ℕ}
    (hk : env.size k ≤ maxMsgSize) :
    (s .r1).st.host.mem.bytes .recvBuf (env.size k) = fetched env k := by
  obtain ⟨hgen, hfilled, -⟩ := h.target hround
  have ht : Target env maxMsgSize (s .r1).stmt (s .r1).st.host := (h.node .r1).buffer
  refine List.ext_getElem (by simp [Mem.bytes, fetched]) fun i hi _ ↦ ?_
  have hlt : i < env.size k := by simpa [Mem.bytes] using hi
  have hcell := ht hgen i (by omega)
  rw [if_pos hfilled] at hcell
  simpa [Mem.bytes, fetched] using hcell

/-- **A step of a rank.** -/
theorem rankStep_safe {r : Rank} {n : Node} (h : NodeInv env maxMsgSize r n) :
    Safe (rankStep env maxMsgSize r n) fun n' ↦ NodeInv env maxMsgSize r n' ∧
      n'.st.host.nic.recvCq.generated = n.st.host.nic.recvCq.generated ∧
      n'.st.host.nic.sq.countP SendWr.consumesRecv + signals r n.stmt
        = n.st.host.nic.sq.countP SendWr.consumesRecv + signals r n'.stmt := by
  by_cases hd : n.stmt = .done
  · rw [rankStep, hd]
    exact safe_blocked
  · refine (exec_safe h).bind fun st hst ↦ safe_ok.mpr ⟨hst.node, hst.generated, ?_⟩
    have hsignals := (next_moves h.occurs hd).signals
    have hcount := hst.inFlight
    simp only
    omega

theorem inv_rank (h : Inv env maxMsgSize s) (r : Rank) :
    Safe (step env maxMsgSize s (.rank r)) (Inv env maxMsgSize) := by
  refine (rankStep_safe (h.node r)).bind fun n hn ↦ safe_ok.mpr ?_
  obtain ⟨hnode, hgen, hcount⟩ := hn
  have hlink := h.link r
  refine Inv.of_peer r ?_ ?_ ?_ ?_ <;> simp only [Function.update_self,
    Function.update_of_ne r.peer_ne]
  · exact hnode
  · exact h.node r.peer
  · omega
  · rw [hgen]
    exact h.link_peer r

/-- A request is outstanding exactly where it is waited for. -/
theorem NodeInv.waiting {r : Rank} {n : Node} (h : NodeInv env maxMsgSize r n)
    (hne : n.st.host.nic.sqUsed ≠ 0) :
    n.st.host.nic.sqUsed = 1 ∧ (n.stmt = .pollRead ∧ r = .r0 ∨ n.stmt = .pollSignal) := by
  have hused := h.queues.used
  have hpassive := h.occurs.passive
  rw [hused] at hne ⊢
  cases hℓ : n.stmt <;> rw [hℓ] at hne hpassive <;> simp [waits] at hne hpassive ⊢
  exact hpassive

/-- What is known of a buffer depends on its bytes, and on what the queues tell of them. -/
theorem Buffer.congr {r : Rank} {k : ℕ} {ℓ : Stmt} {host host' : Host Unit}
    (h : Buffer env maxMsgSize r k ℓ host) (hmem : host'.mem = host.mem)
    (hsend : host'.nic.sendCq = host.nic.sendCq)
    (hgen : host'.nic.recvCq.generated = host.nic.recvCq.generated) :
    Buffer env maxMsgSize r k ℓ host' := by
  cases r with
  | r0 =>
    have hb : Reader env k ℓ host := h
    refine ⟨?_, ?_⟩
    · rw [hmem, hsend]
      exact hb.own
    · rw [hmem, hsend]
      exact hb.fetched
  | r1 =>
    simp only [Buffer, Target] at h ⊢
    rw [hmem, hgen]
    exact h

/-- A request is executed: it is enough to know what that does at the peer. -/
theorem Inv.delivered (h : Inv env maxMsgSize s) {r : Rank} {w : SendWr Unit}
    {sq : List (SendWr Unit)} (data : Option (Data Unit)) (k' : Host Unit)
    (hsq : (s r).st.host.nic.sq = w :: sq)
    (haccess : accessOk (env.device r) (env.device r.peer) w = true)
    (hexec : execute (env.device r.peer) w (s r).st.host.mem (s r.peer).st.host = .ok (k', data))
    (hack : Executed env (s r).iter (s r).stmt { wr := w, data })
    (hpeer : NodeInv env maxMsgSize r.peer (setHost (s r.peer) k'))
    (hpeerSq : k'.nic.sq = (s r.peer).st.host.nic.sq)
    (hgen : k'.nic.recvCq.generated
      = (s r.peer).st.host.nic.recvCq.generated + if w.consumesRecv then 1 else 0) :
    Safe (step env maxMsgSize s (.deliver r)) (Inv env maxMsgSize) := by
  have hn := h.node r
  simp only [step, deliver, hsq, haccess, if_true, hexec, ok_bind]
  refine safe_ok.mpr (Inv.of_peer r ?_ ?_ ?_ ?_) <;> simp only [Function.update_self,
    Function.update_of_ne r.ne_peer]
  · refine ⟨hn.occurs, hn.queues.sent hsq _, ⟨fun x hx ↦ ?_, fun a ha ↦ ?_, hn.contents.sent,
      hn.contents.recvd⟩, hn.buffer.congr rfl rfl rfl⟩
    · exact hn.contents.sq x (by rw [hsq]; exact List.mem_cons_of_mem _ hx)
    · rcases List.mem_append.mp ha with ha | ha
      · exact hn.contents.unacked a ha
      · rw [List.mem_singleton.mp ha]
        exact hack
  · exact hpeer
  · have hlink := h.link r
    rw [hsq, List.countP_cons] at hlink
    simp only [setHost, hgen]
    omega
  · simp only [setHost, hpeerSq]
    exact h.link_peer r

/-- The keys of a request are those of the two regions. -/
theorem Request.accessOk {r : Rank} {k : ℕ} {ℓ : Stmt} {w : SendWr Unit}
    (hq : Request env r k ℓ w) : accessOk (env.device r) (env.device r.peer) w = true := by
  by_cases hℓ : ℓ = .pollRead
  · simp [IbvBench.accessOk, hq.lkey, hq.rkey hℓ, Env.device]
  · have hop := hq.opcode
    rw [if_neg hℓ] at hop
    simp [IbvBench.accessOk, SendWr.isRdma, hop, hq.lkey, Env.device]

/-- The read of a round is executed. -/
theorem inv_deliverRead (hsizes : ∀ k, env.size k ≤ maxMsgSize) (h : Inv env maxMsgSize s)
    (hℓ : (s .r0).stmt = .pollRead) {w : SendWr Unit} {sq : List (SendWr Unit)}
    (hsq : (s .r0).st.host.nic.sq = w :: sq) :
    Safe (step env maxMsgSize s (.deliver .r0)) (Inv env maxMsgSize) := by
  have hq : Request env .r0 (s .r0).iter .pollRead w := by
    rw [← hℓ]
    exact (h.node .r0).contents.sq w (by rw [hsq]; exact List.mem_cons_self)
  have hop : w.opcode = .rdmaRead := hq.opcode
  have hread := h.read_eq (k := (s .r0).iter) (by rw [hℓ]; rfl) (hsizes _)
  refine h.delivered (some (.bytes (fetched env (s .r0).iter))) (s .r1).st.host hsq hq.accessOk
    ?_ ?_ (h.node .r1) rfl ?_
  · simp only [execute, hop, hq.remoteAddr rfl, hq.length, if_true, Mem.dmaRead, Rank.peer, hread]
  · rw [hℓ]
    exact ⟨hop, hq.addr, rfl⟩
  · rw [SendWr.consumesRecv, hop]
    rfl

/-- A signal lands. -/
theorem inv_deliverSignal (hline : env.cacheLineSize ≤ maxMsgSize) (h : Inv env maxMsgSize s)
    {r : Rank} (hℓ : (s r).stmt = .pollSignal) {w : SendWr Unit} {sq : List (SendWr Unit)}
    (hsq : (s r).st.host.nic.sq = w :: sq) :
    Safe (step env maxMsgSize s (.deliver r)) (Inv env maxMsgSize) := by
  have hq : Request env r (s r).iter .pollSignal w := by
    rw [← hℓ]
    exact (h.node r).contents.sq w (by rw [hsq]; exact List.mem_cons_self)
  have hop : w.opcode = .send := hq.opcode
  have hconsumes : w.consumesRecv = true := by rw [SendWr.consumesRecv, hop]; rfl
  have hp := h.node r.peer
  rcases hsrq : (s r.peer).st.host.nic.srq with _ | ⟨rw, srq⟩
  · have hblocked : execute (env.device r.peer) w (s r).st.host.mem (s r.peer).st.host
        = .error .blocked := by
      simp only [execute, hop, landSend, hsrq, error_bind]
    simp only [step, deliver, hsq, hq.accessOk, if_true, hblocked, error_bind]
    exact safe_blocked
  · obtain rfl := hp.queues.srq rw (by rw [hsrq]; exact List.mem_cons_self)
    obtain ⟨cells, hpayload⟩ := hq.payload (s r).st.host.mem
    have hfits : ¬ ((recvWr maxMsgSize env r.peer).length < w.length ∨
        (recvWr maxMsgSize env r.peer).lkey ≠ (env.device r.peer).mr.lkey) := by
      rw [hq.length]
      rintro (hlt | hne)
      · exact absurd hlt (Nat.not_lt.mpr hline)
      · exact hne rfl
    have hroom : (s r.peer).st.host.nic.recvCq.entries.length
        < (env.device r.peer).config.maxCqeNum := by
      have hrecvs := hp.queues.recvs
      have hheld : held (s r.peer).stmt ≤ 8 := by cases (s r.peer).stmt <;> decide
      rw [Nic.recvs] at hrecvs
      show (s r.peer).st.host.nic.recvCq.entries.length < 9
      omega
    have hfound : (s r.peer).st.host.nic.srq ≠ [] := by
      rw [hsrq]
      exact List.cons_ne_nil _ _
    refine h.delivered none
      { nic := (s r.peer).st.host.nic.recvd
          { wrId := .reg (.buf .recvBuf), status := .success, opcode := .recv,
            qpNum := env.qpNum r.peer r.peer.peer, immData := w.immData,
            payload := some (.bytes cells) }
        mem := (s r.peer).st.host.mem.setBuf .recvBuf fun i ↦
          cells.getD i ((s r.peer).st.host.mem.buf .recvBuf i) } hsq hq.accessOk ?_ ?_ ?_ rfl ?_
    · have haddr : (recvWr maxMsgSize env r.peer).addr = .buf .recvBuf := rfl
      simp only [execute, hop, hpayload, landSend, hsrq, hfits, if_false, haddr, Mem.dmaWrite,
        consumeRecv, Cq.push_eq hroom, ok_bind, Nic.recvd, List.tail_cons]
      rfl
    · rw [hℓ]
      exact ⟨hop, hq.addr, rfl⟩
    · refine ⟨hp.occurs, hp.queues.recvd hfound _, ⟨hp.contents.sq, hp.contents.unacked,
        hp.contents.sent, fun c hc ↦ ?_⟩, ?_⟩
      · rcases List.mem_append.mp hc with hc | hc
        · exact hp.contents.recvd c hc
        · rw [List.mem_singleton.mp hc]
          rfl
      · cases r with
        | r0 => exact fun hgen ↦ absurd hgen (Nat.succ_ne_zero _)
        | r1 =>
          refine Reader.outside (h.reader ?_)
          rw [hsq, List.countP_cons, if_pos hconsumes]
          exact Nat.succ_pos _
    · rw [if_pos hconsumes]
      rfl

theorem inv_deliver (hsizes : ∀ k, env.size k ≤ maxMsgSize) (hline : env.cacheLineSize ≤ maxMsgSize)
    (h : Inv env maxMsgSize s) (r : Rank) :
    Safe (step env maxMsgSize s (.deliver r)) (Inv env maxMsgSize) := by
  rcases hsq : (s r).st.host.nic.sq with _ | ⟨w, sq⟩
  · simp only [step, deliver, hsq]
    exact safe_blocked
  · have hne : (s r).st.host.nic.sqUsed ≠ 0 := by
      rw [Nic.sqUsed, hsq, List.length_cons]
      omega
    rcases ((h.node r).waiting hne).2 with ⟨hℓ, rfl⟩ | hℓ
    · exact inv_deliverRead hsizes h hℓ hsq
    · exact inv_deliverSignal hline h hℓ hsq

/-- A request completes; the bytes of a read are placed. -/
theorem inv_complete (h : Inv env maxMsgSize s) (r : Rank) :
    Safe (step env maxMsgSize s (.complete r)) (Inv env maxMsgSize) := by
  have hn := h.node r
  rcases hu : (s r).st.host.nic.unacked with _ | ⟨a, unacked⟩
  · simp only [step, complete, hu]
    exact safe_blocked
  have hne : (s r).st.host.nic.sqUsed ≠ 0 := by
    rw [Nic.sqUsed, hu, List.length_cons]
    omega
  obtain ⟨hused, hwait⟩ := hn.waiting hne
  have ha := hn.contents.unacked a (by rw [hu]; exact List.mem_cons_self)
  have hsend : (s r).st.host.nic.sendCq.entries = [] := by
    rw [Nic.sqUsed, hu, List.length_cons] at hused
    exact List.eq_nil_of_length_eq_zero (by omega)
  have hroom : (s r).st.host.nic.sendCq.entries.length < (env.device r).config.maxCqeNum := by
    rw [hsend]
    exact Nat.succ_pos _
  -- what happens to the memory
  obtain ⟨mem, hmem, hb⟩ : ∃ mem, placeFetched a (s r).st.host.mem = .ok mem ∧
      ∀ wc, Buffer env maxMsgSize r (s r).iter (s r).stmt
        { nic := { (s r).st.host.nic with unacked, sendCq := (s r).st.host.nic.sendCq.pushed wc }
          mem } := by
    have hdata := ha.data
    rcases hwait with ⟨hℓ, rfl⟩ | hℓ
    · rw [if_pos hℓ] at hdata
      refine ⟨_, by simp only [placeFetched, hdata, ha.addr, Mem.dmaWrite]; rfl, fun wc ↦ ?_⟩
      refine ⟨?_, fun _ ↦ ?_⟩
      · rintro (h | ⟨-, h⟩)
        · rw [hℓ] at h
          cases h
        · simp [Cq.pushed] at h
      · have hbytes := Mem.bytes_setBuf_write (s .r0).st.host.mem .recvBuf (fetched env (s .r0).iter)
        rwa [fetched, List.length_replicate] at hbytes
    · rw [if_neg (by rw [hℓ]; decide)] at hdata
      refine ⟨(s r).st.host.mem, by simp only [placeFetched, hdata], fun wc ↦ ?_⟩
      cases r with
      | r0 => exact Reader.outside (by rw [hℓ]; decide)
      | r1 => exact hn.buffer
  simp only [step, complete, hu, hmem, Cq.push_eq hroom, ok_bind]
  refine safe_ok.mpr (Inv.of_peer r ?_ ?_ ?_ ?_) <;> simp only [Function.update_self,
    Function.update_of_ne r.peer_ne]
  · refine ⟨hn.occurs, hn.queues.completed hu _, ⟨hn.contents.sq, fun x hx ↦ ?_, fun c hc ↦ ?_,
      hn.contents.recvd⟩, hb _⟩
    · exact hn.contents.unacked x (by rw [hu]; exact List.mem_cons_of_mem _ hx)
    · rcases List.mem_append.mp hc with hc | hc
      · exact hn.contents.sent c hc
      · rw [List.mem_singleton.mp hc]
        simp only [sendOk, ha.opcode, setHost]
        split <;> rfl
  · exact h.node r.peer
  · exact h.link r
  · exact h.link_peer r

end

/-! ## Runs -/

theorem inv_start : Inv env maxMsgSize (start env maxMsgSize) := by
  refine ⟨fun r ↦ ⟨?_, ?_, .idle rfl fun c hc ↦ (by cases hc), ?_⟩, fun r ↦ by cases r <;> rfl⟩
  · refine ⟨?_, fun _ ↦ rfl, ?_, ?_⟩ <;> simp [start, Stmt.inRound]
  · refine ⟨rfl, rfl, fun x hx ↦ (by cases hx), rfl, ?_, rfl, ?_, rfl⟩ <;> cases r <;> rfl
  · cases r with
    | r0 => exact Reader.outside (by simp [start])
    | r1 =>
      intro _ i hi
      simp [start, memset, hi, filled]

/-- Everything as it should be, and no step that faults. -/
theorem reachable_inv (hsizes : ∀ n ∈ env.sizes, n ≤ maxMsgSize)
    (hline : env.cacheLineSize ≤ maxMsgSize) {s : Sys}
    (hs : (machine env maxMsgSize).Reachable s) :
    Inv env maxMsgSize s ∧ ∀ a f, step env maxMsgSize s a ≠ .error (.fault f) := by
  have hsize (k : ℕ) : env.size k ≤ maxMsgSize := by
    rw [Env.size, List.getD_eq_getElem?_getD]
    rcases hget : env.sizes[k]? with _ | n
    · exact Nat.zero_le _
    · exact hsizes n (List.mem_of_getElem? hget)
  refine Machine.reachable_safe (M := machine env maxMsgSize) (I := Inv env maxMsgSize)
    (fun s h ↦ ?_) (fun s a h ↦ ?_) hs
  · rw [show s = _ from h]
    exact inv_start
  · cases a with
    | rank r => exact inv_rank h r
    | deliver r => exact inv_deliver hsize hline h r
    | complete r => exact inv_complete h r

end PingpongRead

end IbvBench
