import IbvBench.Pingpong.ReadSafety
import IbvBench.Termination

/-!
# Runs of the RDMA-read ping-pong

What the benchmark guarantees (`pingpongRead_safe`), under which condition (`pingpongRead_safe_iff`),
and that it comes to an end (`pingpongRead_terminates`).
-/

set_option autoImplicit false

namespace IbvBench

open StepMachine

namespace PingpongRead

variable {env : Env Unit 0} {maxMsgSize : ℕ} {s : Sys}

/-! ## Safety -/

/-- **The RDMA-read ping-pong reads what rank 1 has written**, for every sequence of sizes that fit
in the buffer, a buffer that holds a signal, and every order of steps.

No assertion and no `check_buffer` fails.  Before `check_buffer` the buffer of rank 0 starts with the
bytes that rank 1 offers; and it was the read that brought them, for until it completes the bytes of
the message are those that rank 0 has written itself in this round.  (The transport places all bytes
of a read in the step that completes it.)  While rank 0 is in a round, every byte of rank 1's buffer is
the one that it offers. -/
theorem pingpongRead_safe (hsizes : ∀ n ∈ env.sizes, n ≤ maxMsgSize)
    (hline : env.cacheLineSize ≤ maxMsgSize) (hs : (machine env maxMsgSize).Reachable s) :
    (∀ a f, step env maxMsgSize s a ≠ .error (.fault f)) ∧
    ((s .r0).stmt = .checkBuffer →
      (s .r0).st.host.mem.bytes .recvBuf (env.size (s .r0).iter)
        = List.replicate (env.size (s .r0).iter) (offered env)) ∧
    ((s .r0).stmt = .pollRead → (s .r0).st.host.nic.sendCq.entries = [] → env.touchData = true →
      (s .r0).st.host.mem.bytes .recvBuf (env.size (s .r0).iter)
        = List.replicate (env.size (s .r0).iter)
          { val := Rank.r0.value, round := some (s .r0).iter }) ∧
    ((s .r0).stmt.inRound = true → ∀ i < maxMsgSize,
      (s .r1).st.host.mem.buf .recvBuf i = offered env) := by
  obtain ⟨hi, hfault⟩ := reachable_inv hsizes hline hs
  have hreader : Reader env (s .r0).iter (s .r0).stmt (s .r0).st.host := (hi.node .r0).buffer
  have htarget : Target env maxMsgSize (s .r1).stmt (s .r1).st.host := (hi.node .r1).buffer
  refine ⟨hfault, ?_, ?_, ?_⟩
  · intro hℓ
    exact hreader.fetched (.inl hℓ)
  · intro hℓ hcq
    exact hreader.own (.inr ⟨hℓ, hcq⟩)
  · intro hround i hlt
    obtain ⟨hgen, hfilled, -⟩ := hi.target hround
    have hcell := htarget hgen i hlt
    rwa [if_pos hfilled] at hcell

/-- The start signal, and a first read that has been executed and not completed. -/
def firstRead : List Action :=
  [.rank .r0, .rank .r1, .rank .r1, .rank .r1, .deliver .r1, .rank .r0, .rank .r0, .rank .r0,
   .rank .r0, .deliver .r0]

/-- Two rounds, and signals of three bytes. -/
def twoRounds : Env Unit 0 :=
  { (Env.small Unit [2, 4] : Env Unit 0) with cacheLineSize := 3, cacheLineSize_ge := Nat.zero_le 3 }

theorem pingpongRead_safe_firstRead :
    let env := twoRounds
    let s := (machine env 4).result (start env 4) firstRead
    (s .r0).stmt = .pollRead ∧ (s .r0).st.host.mem.bytes .recvBuf 2
        = List.replicate 2 { val := Rank.r0.value, round := some 0 } ∧
      (s .r1).st.host.mem.buf .recvBuf 3 = { val := Rank.r1.value, round := some 0 } := by
  intro env s
  have hsizes : ∀ n ∈ env.sizes, n ≤ 4 := by decide
  have hs : (machine env 4).Reachable s := Machine.reachable_result (.init rfl) firstRead
  have hline : env.cacheLineSize ≤ 4 := by decide
  obtain ⟨-, -, hown, htarget⟩ := pingpongRead_safe hsizes hline hs
  have hℓ : (s .r0).stmt = .pollRead := by decide +kernel
  have hiter : (s .r0).iter = 0 := by decide +kernel
  have hempty : (s .r0).st.host.nic.sendCq.entries.length = 0 := by decide +kernel
  have hbytes := hown hℓ (List.eq_nil_of_length_eq_zero hempty) rfl
  rw [hiter] at hbytes
  refine ⟨hℓ, hbytes, ?_⟩
  exact htarget (by rw [hℓ]; rfl) 3 (by decide)

/-! ## The condition -/

/-- The queues of a rank behind its first `checkAndPostRecvs`. -/
def posted (env : Env Unit 0) (maxMsgSize : ℕ) (r : Rank) : Nic Unit where
  postedRecvNum := 8
  srq := List.replicate 8 (recvWr maxMsgSize env r)

/-- A rank with its receives posted. -/
def ready (env : Env Unit 0) (maxMsgSize : ℕ) (r : Rank) : Node where
  iter := (next env r 0 .postRecvs).1
  stmt := (next env r 0 .postRecvs).2
  st := { host := { nic := posted env maxMsgSize r
                    mem := (start env maxMsgSize r).st.host.mem }, ext := () }

theorem rankStep_postRecvs (r : Rank) :
    rankStep env maxMsgSize r (start env maxMsgSize r) = .ok (ready env maxMsgSize r) := by
  have hpost : (pingpongSendrecv maxMsgSize).repost env r {} = .ok (posted env maxMsgSize r) :=
    Program.repost_eq (P := pingpongSendrecv maxMsgSize) env (k := 8) rfl rfl (by omega)
  have hexec : exec env maxMsgSize r 0 (env.size 0) .postRecvs (start env maxMsgSize r).st
      = .ok (ready env maxMsgSize r).st :=
    bind_eq_ok.mpr ⟨_, hpost, rfl⟩
  exact bind_eq_ok.mpr ⟨_, hexec, rfl⟩

/-- Rank 1 when it has filled its buffer. -/
def full (env : Env Unit 0) (maxMsgSize : ℕ) : Node where
  stmt := .postSignal
  st := fill env.touchData .r1 0 maxMsgSize (ready env maxMsgSize .r1).st

/-- A signal that is longer than the buffer does not fit in the receives. -/
theorem fault_of_short (hshort : maxMsgSize < env.cacheLineSize) :
    ∃ s, (machine env maxMsgSize).Reachable s ∧
      step env maxMsgSize s (.deliver .r1) = .error (.fault .badRecv) := by
  let s0 := start env maxMsgSize
  let s1 := Function.update s0 .r0 (ready env maxMsgSize .r0)
  let s2 := Function.update s1 .r1 (ready env maxMsgSize .r1)
  let s3 := Function.update s2 .r1 (full env maxMsgSize)
  have h1 : (machine env maxMsgSize).Reachable s1 :=
    (Machine.Reachable.init rfl).step (.rank .r0)
      (bind_eq_ok.mpr ⟨_, rankStep_postRecvs .r0, rfl⟩)
  have h2 : (machine env maxMsgSize).Reachable s2 :=
    h1.step (.rank .r1) (bind_eq_ok.mpr ⟨_, rankStep_postRecvs .r1, rfl⟩)
  have h3 : (machine env maxMsgSize).Reachable s3 := h2.step (.rank .r1) rfl
  have hnic : (s3 .r1).st.host.nic = posted env maxMsgSize .r1 := by
    show (fill env.touchData .r1 0 maxMsgSize (ready env maxMsgSize .r1).st).host.nic = _
    rw [fill]
    split <;> rfl
  have hused : (s3 .r1).st.host.nic.sqUsed = 0 := by rw [hnic]; rfl
  obtain ⟨w, hw, hstep⟩ : ∃ w, Request env .r1 0 .pollSignal w ∧
      step env maxMsgSize s3 (.rank .r1) = .ok (Function.update s3 .r1
        { stmt := .pollSignal
          st := { (s3 .r1).st with host := { (s3 .r1).st.host with
            nic := { (s3 .r1).st.host.nic with sq := (s3 .r1).st.host.nic.sq ++ [w] } } } }) := by
    refine ⟨_, request_signal .r1 0 (s3 .r1).st.host.mem, bind_eq_ok.mpr ⟨_, ?_, rfl⟩⟩
    refine bind_eq_ok.mpr ⟨_, bind_eq_ok.mpr ⟨_, Host.post_eq Rank.r1.peer_ne (env.room hused), rfl⟩, ?_⟩
    rfl
  refine ⟨_, h3.step (.rank .r1) hstep, ?_⟩
  have hop : w.opcode = .send := hw.opcode
  have hsq : (s3 .r1).st.host.nic.sq ++ [w] = [w] := by rw [hnic]; rfl
  have hlong : maxMsgSize < w.length := by
    rw [hw.length, if_neg (by decide)]
    exact hshort
  have hland (d : Data Unit) :
      landSend (env.device .r0) w d (s3 .r0).st.host = .error (.fault .badRecv) := by
    have hsrq : (s3 .r0).st.host.nic.srq
        = recvWr maxMsgSize env .r0 :: List.replicate 7 (recvWr maxMsgSize env .r0) := rfl
    have hno : (recvWr maxMsgSize env .r0).length < w.length ∨
        (recvWr maxMsgSize env .r0).lkey ≠ (env.device .r0).mr.lkey := .inl hlong
    simp only [landSend, hsrq, hno, if_true, error_bind]
  simp only [step, deliver, Function.update_self, Function.update_of_ne Rank.r1.peer_ne, hsq,
    hw.accessOk, if_true, execute, hop]
  rw [show env.device Rank.r1.peer = env.device .r0 from rfl,
    show s3 Rank.r1.peer = s3 .r0 from rfl, hland]
  rfl

/-- **The condition is exact**: a run can fault if and only if a cache line is longer than the largest
message. -/
theorem pingpongRead_safe_iff (hsizes : ∀ n ∈ env.sizes, n ≤ maxMsgSize) :
    (∀ s, (machine env maxMsgSize).Reachable s → ∀ a f, step env maxMsgSize s a ≠ .error (.fault f))
      ↔ env.cacheLineSize ≤ maxMsgSize := by
  constructor
  · intro hsafe
    by_contra hshort
    obtain ⟨s, hs, hfault⟩ := fault_of_short (Nat.lt_of_not_le hshort)
    exact hsafe s hs _ _ hfault
  · intro hline s hs
    exact (reachable_inv hsizes hline hs).2

/-- Messages of two bytes and signals of three. -/
def shortBuffer : Env Unit 0 :=
  { (Env.small Unit [2] : Env Unit 0) with cacheLineSize := 3, cacheLineSize_ge := Nat.zero_le 3 }

theorem pingpongRead_safe_iff_shortBuffer :
    ¬ ∀ s, (machine shortBuffer 2).Reachable s → ∀ a f, step shortBuffer 2 s a ≠ .error (.fault f) := by
  have hsizes : ∀ n ∈ shortBuffer.sizes, n ≤ 2 := by decide
  rw [pingpongRead_safe_iff hsizes]
  decide

/-! ## Termination -/

/-- The steps that have been taken at a rank and with its requests: its statements, and a delivery
and a completion for each request that has completed. -/
def nodeTaken (env : Env Unit 0) (r : Rank) (n : Node) : ℕ :=
  pos env r n.iter n.stmt + 2 * n.st.host.nic.sendCq.generated + n.st.host.nic.unacked.length

/-- The steps that have been taken. -/
def stepsTaken (env : Env Unit 0) (s : Sys) : ℕ :=
  nodeTaken env .r0 (s .r0) + nodeTaken env .r1 (s .r1)

theorem stepsTaken_peer (r : Rank) (s : Sys) :
    stepsTaken env s = nodeTaken env r (s r) + nodeTaken env r.peer (s r.peer) := by
  cases r with
  | r0 => rfl
  | r1 => exact Nat.add_comm _ _

/-- What a step of a rank is. -/
theorem rankStep_eq_ok {r : Rank} {n n' : Node} (h : rankStep env maxMsgSize r n = .ok n') :
    n.stmt ≠ .done ∧ ∃ st, exec env maxMsgSize r n.iter (env.size n.iter) n.stmt n.st = .ok st ∧
      n' = { iter := (next env r n.iter n.stmt).1, stmt := (next env r n.iter n.stmt).2, st } := by
  obtain ⟨st, hst, he⟩ := bind_eq_ok.mp h
  refine ⟨fun hd ↦ ?_, st, hst, (Except.ok.inj he).symm⟩
  rw [hd] at hst
  cases hst

/-- **Every step counts.** -/
theorem stepsTaken_step (h : Inv env maxMsgSize s) {s' : Sys} {a : Action}
    (hs : step env maxMsgSize s a = .ok s') : stepsTaken env s' = stepsTaken env s + 1 := by
  cases a with
  | rank r =>
    obtain ⟨n, hn, he⟩ := bind_eq_ok.mp hs
    cases he
    obtain ⟨hd, st, hst, rfl⟩ := rankStep_eq_ok hn
    have hstep := (exec_safe (h.node r)).of_ok hst
    have hpos := (next_moves (h.node r).occurs hd).pos
    rw [stepsTaken_peer r, stepsTaken_peer r, Function.update_self,
      Function.update_of_ne r.peer_ne]
    simp only [nodeTaken, hpos, hstep.unacked, hstep.completed]
    omega
  | deliver r =>
    obtain ⟨⟨k, k'⟩, hk, he⟩ := bind_eq_ok.mp hs
    cases he
    obtain ⟨w, sq, data, hsq, hex, rfl⟩ := deliver_eq_ok hk
    have hpeer : k'.nic.unacked = (s r.peer).st.host.nic.unacked ∧
        k'.nic.sendCq = (s r.peer).st.host.nic.sendCq := by
      have hnic := execute_nic hex
      split at hnic
      · obtain ⟨-, wc, hwc⟩ := hnic
        rw [hwc]
        exact ⟨rfl, rfl⟩
      · rw [hnic]
        exact ⟨rfl, rfl⟩
    rw [stepsTaken_peer r, stepsTaken_peer r, Function.update_of_ne r.ne_peer]
    simp only [Function.update_self, nodeTaken, setHost, hpeer, List.length_append,
      List.length_singleton]
    omega
  | complete r =>
    obtain ⟨k, hk, he⟩ := bind_eq_ok.mp hs
    cases he
    obtain ⟨a, unacked, wc, hu, hnic⟩ := complete_nic hk
    rw [stepsTaken_peer r, stepsTaken_peer r, Function.update_self,
      Function.update_of_ne r.peer_ne]
    simp only [nodeTaken, setHost, hnic, hu, Cq.pushed, List.length_cons]
    omega

/-- The steps that a rank and its requests take in all: rank 0 has five statements besides the four
of each round, and a request in each round besides its signal; rank 1 has six statements and one
request. -/
def nodeCost (env : Env Unit 0) : Rank → ℕ
  | .r0 => 7 + 6 * env.sizes.length
  | .r1 => 8

theorem nodeTaken_le {r : Rank} {n : Node} (h : NodeInv env maxMsgSize r n) :
    nodeTaken env r n ≤ nodeCost env r := by
  have hsends := h.queues.sends
  have hgen := h.queues.sendCq
  have hused := h.queues.used
  obtain ⟨hround, hbefore, hbehind, hpassive⟩ := h.occurs
  rw [Nic.sqUsed] at hused
  cases r with
  | r0 =>
    simp only [nodeTaken, nodeCost]
    cases hℓ : n.stmt <;> rw [hℓ] at hsends hused hround hbefore hbehind <;>
      simp [Stmt.inRound] at hround hbefore hbehind <;> simp only [pos, reads, signals] at hsends ⊢ <;>
      omega
  | r1 =>
    have hzero : n.iter = 0 := hbefore (by simp)
    simp only [nodeTaken, nodeCost]
    cases hℓ : n.stmt <;> rw [hℓ] at hsends hused <;> simp only [pos, reads, signals] at hsends ⊢ <;>
      omega

/-- A rank is done. -/
theorem done_spec {r : Rank} (h : Inv env maxMsgSize s) (hd : ∀ r, (s r).stmt = .done) :
    nodeTaken env r (s r) = nodeCost env r ∧ (s r).st.host.nic.outstanding = [] ∧
      (s r).st.host.nic.sendCq.entries = [] ∧ (s r).st.host.nic.recvCq.entries = [] := by
  have hn := h.node r
  have hused : (s r).st.host.nic.sqUsed = 0 := by rw [hn.queues.used, hd r]; rfl
  obtain ⟨hsq, hunacked, hsend⟩ := PingpongNotified.sq_nil hused
  have hsends := hn.queues.sends
  have hgen := hn.queues.sendCq
  rw [hd r, show waits .done = 0 from rfl, Nat.add_zero] at hsends
  rw [hsend, List.length_nil, Nat.add_zero] at hgen
  have hpolled := hn.queues.polled
  have hrecvCq := hn.queues.recvCq
  have hlink := h.link_peer r
  rw [hd r] at hpolled
  rw [hd r.peer] at hlink
  have htaken : taken r .done = 1 := by cases r <;> rfl
  have hsignals : signals r.peer .done = 1 := by cases r <;> rfl
  refine ⟨?_, by rw [Nic.outstanding, hsq, hunacked]; rfl, hsend,
    List.eq_nil_of_length_eq_zero (by omega)⟩
  rw [nodeTaken, hd r, hunacked, ← hgen, hsends]
  cases r with
  | r0 =>
    have hk : (s .r0).iter = env.sizes.length := hn.occurs.behind (by simp [hd .r0]) rfl
    simp only [pos, reads, signals, nodeCost, hk, List.length_nil]
    omega
  | r1 =>
    have hk : (s .r1).iter = 0 := hn.occurs.before (by simp)
    simp only [pos, reads, signals, nodeCost, hk, List.length_nil]

/-- A statement is only held up by an empty completion queue. -/
theorem exec_blocked {r : Rank} {k n : ℕ} {ℓ : Stmt} {st : State}
    (h : exec env maxMsgSize r k n ℓ st = .error .blocked) : ℓ = .done ∨
      (ℓ = .pollRead ∨ ℓ = .pollSignal) ∧ st.host.nic.sendCq.entries = [] ∨
      ℓ = .pollRecv ∧ st.host.nic.recvCq.entries = [] := by
  cases ℓ with
  | postRecvs | repost => exact absurd h (st.repostStep_proceeds _)
  | writeBuffer => exact absurd h (proceeds_ok _)
  | postRead =>
    refine absurd h (Proceeds.bind (Host.post_proceeds _ _ _) fun _ ↦ ?_)
    exact .bind (mlogAssert_proceeds _ _) fun _ ↦ proceeds_ok _
  | pollRead => exact .inr (.inl ⟨.inl rfl, RankState.pollSendStep_blocked h⟩)
  | checkBuffer => exact absurd h (st.checkRecvBuf_proceeds _ _ _)
  | postSignal => exact absurd h (Proceeds.bind (Host.post_proceeds _ _ _) fun _ ↦ proceeds_ok _)
  | pollSignal => exact .inr (.inl ⟨.inr rfl, RankState.pollSendStep_blocked h⟩)
  | pollRecv => exact .inr (.inr ⟨rfl, RankState.pollRecvStep_blocked h⟩)
  | done => exact .inl rfl

/-- A rank that is held up for good is done, or waits for a signal that was not posted. -/
theorem waits_of_stuck (h : Inv env maxMsgSize s)
    (hstuck : ∀ a, step env maxMsgSize s a = .error .blocked) (r : Rank) :
    (s r).stmt = .done ∨ (s r).stmt = .pollRecv ∧ signals r.peer (s r.peer).stmt = 0 := by
  have hexec (x : Rank) : exec env maxMsgSize x (s x).iter (env.size (s x).iter) (s x).stmt (s x).st
      = .error .blocked := by
    rcases bind_eq_blocked.mp (hstuck (.rank x)) with h | ⟨_, -, h⟩
    · rcases bind_eq_blocked.mp h with h | ⟨_, -, h⟩
      · exact h
      · cases h
    · cases h
  -- the peer has posted its receives, so that no request is held up
  have hsrq (x : Rank) : (s x).st.host.nic.srq ≠ [] := by
    intro hnil
    have hn := h.node x
    have hrecvs := hn.queues.recvs
    rw [Nic.recvs, hnil, List.length_nil, Nat.zero_add] at hrecvs
    have hrecvCq := hn.queues.recvCq
    have hlink := h.link_peer x
    have hsignals : signals x.peer (s x.peer).stmt ≤ 1 := by
      cases x <;> cases (s _).stmt <;> decide
    have hheld : held (s x).stmt = 0 ∨ 7 ≤ held (s x).stmt := by cases (s x).stmt <;> decide
    rcases hheld with hheld | hheld
    · have hℓ : (s x).stmt = .postRecvs := by
        cases hℓ : (s x).stmt <;> rw [hℓ] at hheld <;> first | rfl | cases hheld
      rcases exec_blocked (hexec x) with hb | ⟨hb | hb, -⟩ | ⟨hb, -⟩ <;> rw [hℓ] at hb <;> cases hb
    · omega
  have hqueues : (s r).st.host.nic.unacked = [] ∧ ∀ x, (s x).st.host.nic.sq = [] := by
    constructor
    · rcases bind_eq_blocked.mp (hstuck (.complete r)) with hd | ⟨_, -, hd⟩
      · exact complete_blocked hd
      · cases hd
    · intro x
      rcases bind_eq_blocked.mp (hstuck (.deliver x)) with hd | ⟨_, -, hd⟩
      · rcases deliver_blocked hd with hsq | hnone
        · exact hsq
        · exact absurd hnone (hsrq x.peer)
      · cases hd
  obtain ⟨hunacked, hsq⟩ := hqueues
  rcases exec_blocked (hexec r) with hℓ | ⟨hℓ, hcq⟩ | ⟨hℓ, hcq⟩
  · exact .inl hℓ
  · have hused := (h.node r).queues.used
    rw [Nic.sqUsed, hsq r, hunacked, hcq] at hused
    rcases hℓ with hℓ | hℓ <;> rw [hℓ] at hused <;> cases hused
  · refine .inr ⟨hℓ, ?_⟩
    have hpolled := (h.node r).queues.polled
    have hrecvCq := (h.node r).queues.recvCq
    have hlink := h.link_peer r
    have htaken : taken r (s r).stmt = 0 := by rw [hℓ]; cases r <;> rfl
    rw [hcq, List.length_nil] at hrecvCq
    rw [hsq r.peer, List.countP_nil] at hlink
    omega

/-- When no step can be taken, both ranks are done. -/
theorem done_of_stuck (h : Inv env maxMsgSize s)
    (hstuck : ∀ a, step env maxMsgSize s a = .error .blocked) (r : Rank) : (s r).stmt = .done := by
  rcases waits_of_stuck h hstuck r with hd | ⟨hℓ, hsignals⟩
  · exact hd
  · -- the peer has not posted its signal: it waits as well, and this rank is rank 0
    rcases waits_of_stuck h hstuck r.peer with hd' | ⟨hℓ', hsignals'⟩
    · rw [hd'] at hsignals
      cases r <;> cases hsignals
    · rw [Rank.peer_peer, hℓ] at hsignals'
      rw [hℓ'] at hsignals
      cases r with
      | r0 => exact absurd hsignals (by decide)
      | r1 => exact absurd hsignals' (by decide)

/-- **The RDMA-read ping-pong comes to an end**, for every sequence of sizes that fit in the buffer, a
buffer that holds a signal, and every order of steps: after the same number of steps both ranks are
done and no completion is left. -/
theorem pingpongRead_terminates (hsizes : ∀ n ∈ env.sizes, n ≤ maxMsgSize)
    (hline : env.cacheLineSize ≤ maxMsgSize) :
    (machine env maxMsgSize).EndsAfter (start env maxMsgSize) (15 + 6 * env.sizes.length)
      Drained := by
  have hreach {s : Sys} (hs : (machine env maxMsgSize).Reachable s) :=
    reachable_inv hsizes hline hs
  have hcost : 15 + 6 * env.sizes.length = nodeCost env .r0 + nodeCost env .r1 := by
    simp only [nodeCost]
    omega
  rw [hcost]
  refine .of_count (f := stepsTaken env) (D := fun s ↦ ∀ r, (s r).stmt = .done) (.init rfl)
    rfl ?_ ?_ ?_ ?_
  · intro s a s' hs h
    exact stepsTaken_step (hreach hs).1 h
  · intro s hs
    exact Nat.add_le_add (nodeTaken_le ((hreach hs).1.node .r0)) (nodeTaken_le ((hreach hs).1.node .r1))
  · intro s hs hno
    obtain ⟨hi, hfault⟩ := hreach hs
    by_contra hnone
    refine hno (done_of_stuck hi fun a ↦ ?_)
    rcases hstep : step env maxMsgSize s a with e | s'
    · rcases e with _ | f
      · rfl
      · exact absurd hstep (hfault a f)
    · exact absurd ⟨a, s', hstep⟩ hnone
  · intro s hs hd
    have hi := (hreach hs).1
    refine ⟨congrArg₂ (· + ·) (done_spec hi hd).1 (done_spec hi hd).1, fun r ↦ ?_⟩
    exact ⟨hd r, (done_spec hi hd).2⟩

/-- A whole run with two rounds: rank 1 takes the completion of the start signal at the very end. -/
def wholeRun : List Action :=
  [.rank .r0, .rank .r1, .rank .r1, .rank .r1, .deliver .r1, .rank .r0, .rank .r0, .rank .r0,
   .rank .r0, .deliver .r0, .complete .r0, .rank .r0, .rank .r0, .rank .r0, .rank .r0,
   .deliver .r0, .complete .r0, .rank .r0, .rank .r0, .rank .r0, .deliver .r0, .complete .r0,
   .rank .r0, .complete .r1, .rank .r1, .rank .r1, .rank .r1]

theorem pingpongRead_terminates_wholeRun :
    Drained ((machine twoRounds 4).result (start twoRounds 4) wholeRun) := by
  have hsizes : ∀ n ∈ twoRounds.sizes, n ≤ 4 := by decide
  have hline : twoRounds.cacheLineSize ≤ 4 := by decide
  exact (pingpongRead_terminates hsizes hline).final wholeRun _
    (Machine.run_eq_result (by decide +kernel)) rfl

end PingpongRead

end IbvBench
