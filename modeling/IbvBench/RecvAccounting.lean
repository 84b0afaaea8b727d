import IbvBench.Common

/-!
# Receive accounting

Every receiving loop of the benchmarks has the same shape: poll one receive completion, decrement
`posted_recv_num`, call `checkAndPostRecvs`.  Here that loop is run one statement at a time, the
refill loop one post at a time, with messages arriving at every point in between.

`RecvInv` says what the counter means: the receives in the shared receive queue plus the
completions not yet polled, give or take the one that has been polled and not yet subtracted.  Both
queues then stay within their bounds because the counter does, and the counter does because the
refill loop starts its index at the counter and the two move together (`RecvInv` at `post j` says
`j` *is* the counter).

`checkAndPostRecvs_run` connects the loop here to the function `checkAndPostRecvs`, which the models
of the benchmarks call as a whole.
-/

set_option autoImplicit false

namespace IbvBench

open StepMachine

variable {Msg : Type}

/-- Where the receiving rank is. -/
inductive RecvPc where
  /-- In `pollCQ(device->recv_cq)`. -/
  | poll
  /-- At `--device->posted_recv_num`. -/
  | decrement
  /-- At the `if` of `checkAndPostRecvs`. -/
  | check
  /-- At the head of its `for`, with the loop variable. -/
  | post (j : ℤ)
  deriving DecidableEq

structure RecvState (Msg : Type) where
  pc : RecvPc
  nic : Nic Msg

/-- Either a message arrives, or the rank makes a step. -/
inductive RecvAct (Msg : Type) where
  | arrive (opcode : WcOpcode) (immData : ℕ) (payload : Option (Data Msg))
  | rank

variable (dev : Device) (buf : RegPtr) (size lkey : ℕ) (userContext : WrId)

/-- One step of the receiving loop. -/
def recvStep (s : RecvState Msg) : RecvAct Msg → Exec (RecvState Msg)
  | .arrive opcode immData payload =>
    match s.nic.srq with
    | [] => .error .blocked
    | rw :: srq => do
      let nic ← consumeRecv dev opcode immData payload rw srq s.nic
      .ok { s with nic }
  | .rank =>
    match s.pc with
    | .poll => do
      let (_, recvCq) ← pollCQ s.nic.recvCq
      .ok { pc := .decrement, nic := { s.nic with recvCq } }
    | .decrement =>
      .ok { pc := .check, nic := { s.nic with postedRecvNum := s.nic.postedRecvNum - 1 } }
    | .check =>
      if s.nic.postedRecvNum < dev.config.minRecvNum then
        .ok { s with pc := .post s.nic.postedRecvNum }
      else .ok { s with pc := .poll }
    | .post j =>
      if j < dev.config.maxRecvNum then do
        let (ret, nic) := postRecv dev buf size lkey userContext s.nic
        mlogAssert (ret == 0) "Post Recv %d failed!\n"
        .ok { pc := .post (j + 1), nic }
      else .ok { s with pc := .poll }

/-- The receiving rank, started at its first `checkAndPostRecvs`. -/
def recvMachine : Machine (RecvState Msg) (RecvAct Msg) Fault where
  init s := s = { pc := .check, nic := {} }
  step := recvStep dev buf size lkey userContext

variable {dev buf size lkey userContext}

/-! ## What the operations do to the account -/

/-- An arrival moves a receive from one queue to the other. -/
theorem consumeRecv_safe {opcode : WcOpcode} {immData : ℕ} {payload : Option (Data Msg)}
    {rw : RecvWr} {srq : List RecvWr} {nic : Nic Msg} (hsrq : nic.srq = rw :: srq)
    (hroom : nic.recvs ≤ dev.config.maxRecvNum)
    (hcqe : dev.config.maxRecvNum < dev.config.maxCqeNum) :
    Safe (consumeRecv dev opcode immData payload rw srq nic) fun nic' ↦
      nic'.recvs = nic.recvs ∧ nic'.postedRecvNum = nic.postedRecvNum := by
  have hlen : nic.recvCq.entries.length < dev.config.maxCqeNum := by
    simp only [Nic.recvs] at hroom; omega
  simp only [consumeRecv, Cq.push, hlen, if_true, ok_bind, safe_ok, Nic.recvs, hsrq,
    List.length_append, List.length_cons, List.length_nil, and_true]
  omega

/-- A post adds one receive and one to the counter. -/
theorem postRecv_fst {nic : Nic Msg} (h : nic.srq.length < dev.config.maxRecvNum) :
    (postRecv dev buf size lkey userContext nic).1 = 0 := by
  simp [postRecv, ibvPostSrqRecv, h]

theorem postRecv_recvs {nic : Nic Msg} (h : nic.srq.length < dev.config.maxRecvNum) :
    (postRecv dev buf size lkey userContext nic).2.recvs = nic.recvs + 1 := by
  simp only [postRecv, ibvPostSrqRecv, h, if_true, Nic.recvs, List.length_append,
    List.length_singleton]
  omega

theorem postRecv_posted (nic : Nic Msg) :
    (postRecv dev buf size lkey userContext nic).2.postedRecvNum = nic.postedRecvNum + 1 := by
  rw [postRecv, ibvPostSrqRecv]
  split <;> rfl

/-! ## The invariant -/

/-- What `posted_recv_num` stands for, and how far it can be from its bounds, at every point. -/
def RecvInv (dev : Device) (s : RecvState Msg) : Prop :=
  s.nic.recvs ≤ dev.config.maxRecvNum ∧
    match s.pc with
    | .poll => s.nic.postedRecvNum = s.nic.recvs ∧ dev.config.minRecvNum ≤ s.nic.recvs
    | .decrement => s.nic.postedRecvNum = s.nic.recvs + 1
    | .check => s.nic.postedRecvNum = s.nic.recvs
    | .post j => s.nic.postedRecvNum = s.nic.recvs ∧ j = s.nic.postedRecvNum

theorem recvInv_init : RecvInv dev ({ pc := .check, nic := {} } : RecvState Msg) :=
  ⟨Nat.zero_le _, rfl⟩

theorem recvInv_arrive {s : RecvState Msg} (h : RecvInv dev s)
    (hcqe : dev.config.maxRecvNum < dev.config.maxCqeNum) (opcode : WcOpcode) (immData : ℕ)
    (payload : Option (Data Msg)) :
    Safe (recvStep dev buf size lkey userContext s (.arrive opcode immData payload))
      (RecvInv dev) := by
  obtain ⟨hmax, hpc⟩ := h
  rcases hsrq : s.nic.srq with _ | ⟨rw, srq⟩
  · simp [recvStep, hsrq]
  · simp only [recvStep, hsrq]
    refine (consumeRecv_safe hsrq hmax hcqe).bind fun nic ⟨hr, hp⟩ ↦ ?_
    simpa only [safe_ok, RecvInv, hr, hp] using ⟨hmax, hpc⟩

theorem recvInv_rank {s : RecvState Msg} (h : RecvInv dev s)
    (hmm : dev.config.minRecvNum ≤ dev.config.maxRecvNum) :
    Safe (recvStep dev buf size lkey userContext s .rank) (RecvInv dev) := by
  obtain ⟨hmax, hpc⟩ := h
  rcases s with ⟨pc, nic⟩
  cases pc with
  | poll =>
    rcases hq : pollCQ nic.recvCq with e | ⟨wc, cq⟩
    · rcases e with _ | f
      · simp [recvStep, hq]
      · simp only [pollCQ] at hq; split at hq <;> cases hq
    · obtain ⟨hentries, -, -⟩ := pollCQ_eq_ok hq
      simp only [recvStep, hq, ok_bind, safe_ok, RecvInv]
      simp only [Nic.recvs, hentries, List.length_cons] at hmax hpc ⊢
      omega
  | decrement =>
    simp only [recvStep, safe_ok, RecvInv]
    simp only [Nic.recvs] at hmax hpc ⊢
    omega
  | check =>
    simp only [recvStep]
    split
    · exact ⟨hmax, hpc, rfl⟩
    · rename_i hge
      refine ⟨hmax, hpc, ?_⟩
      simp only at hpc ⊢
      omega
  | post j =>
    obtain ⟨hposted, hj⟩ := hpc
    simp only [recvStep]
    simp only at hposted hj hmax
    split
    · rename_i hlt
      have hroom : nic.srq.length < dev.config.maxRecvNum := by
        simp only [Nic.recvs] at hposted; omega
      simp only [postRecv_fst hroom, beq_self_eq_true, mlogAssert_true, ok_bind, safe_ok, RecvInv,
        postRecv_recvs hroom, postRecv_posted]
      omega
    · exact ⟨hmax, hposted, by simp only; omega⟩

/-- **Receive accounting.**  In every state the receiving loop reaches, with messages arriving
between any two of its statements: outside the one point between the poll and the decrement the
counter is the number of receives in the shared receive queue plus the completions not yet polled;
there are at most `max_recv_num` of them together, so neither queue overflows and no post fails; and
when `checkAndPostRecvs` has run, at least `min_recv_num` receives are to the rank's account. -/
theorem recv_accounting (hmm : dev.config.minRecvNum ≤ dev.config.maxRecvNum)
    (hcqe : dev.config.maxRecvNum < dev.config.maxCqeNum) {s : RecvState Msg}
    (hs : (recvMachine dev buf size lkey userContext).Reachable s) :
    (s.pc ≠ .decrement →
        s.nic.postedRecvNum = s.nic.srq.length + s.nic.recvCq.entries.length) ∧
      s.nic.srq.length + s.nic.recvCq.entries.length ≤ dev.config.maxRecvNum ∧
      s.nic.recvCq.entries.length < dev.config.maxCqeNum ∧
      (s.pc = .poll →
        dev.config.minRecvNum ≤ s.nic.srq.length + s.nic.recvCq.entries.length) ∧
      ∀ a f, recvStep dev buf size lkey userContext s a ≠ .error (.fault f) := by
  have hsafe := Machine.reachable_safe (I := RecvInv dev)
    (by rintro s rfl; exact recvInv_init)
    (by
      intro s a h
      show Safe (recvStep dev buf size lkey userContext s a) (RecvInv dev)
      cases a with
      | arrive opcode immData payload => exact recvInv_arrive h hcqe opcode immData payload
      | rank => exact recvInv_rank h hmm) hs
  obtain ⟨⟨hmax, hpc⟩, hfault⟩ := hsafe
  simp only [Nic.recvs] at hmax hpc
  refine ⟨fun hne ↦ ?_, hmax, by omega, fun heq ↦ ?_, hfault⟩
  · split at hpc
    · exact_mod_cast hpc.1
    · rename_i hd; exact absurd hd hne
    · exact_mod_cast hpc
    · exact_mod_cast hpc.1
  · rw [heq] at hpc
    exact hpc.2

/-- A device with three receives, refilled when fewer than two are left. -/
def threeRecvs : Device where
  rank := .r0
  config := { minRecvNum := 2, maxRecvNum := 3 }
  mr := { lkey := 0, rkey := 0 }
  qpNum i := i.toNat
  qp2rank n := if n = 0 then .r0 else .r1
  qp2rankMod := 2
  qp2rank_qpNum i := by cases i <;> rfl

/-- It posts three receives, and two messages arrive before the first is polled. -/
def threeRecvsPolled : RecvState Unit :=
  (recvMachine threeRecvs (.msg .controlRecvBuf) 8 0 .null).result { pc := .check, nic := {} }
    (List.replicate 5 .rank ++ [.arrive .recv 0 none, .arrive .recv 0 none, .rank, .rank, .rank])

theorem recv_accounting_threeRecvs : threeRecvsPolled.pc = .poll ∧
    threeRecvsPolled.nic.srq.length + threeRecvsPolled.nic.recvCq.entries.length = 2 := by
  have hpc : threeRecvsPolled.pc = .poll := by decide
  have hposted : threeRecvsPolled.nic.postedRecvNum = 2 := by decide
  have hs : (recvMachine threeRecvs (.msg .controlRecvBuf) 8 0 .null).Reachable threeRecvsPolled :=
    Machine.reachable_result (.init rfl) _
  have hsum := (recv_accounting (by decide) (by decide) hs).1 (by rw [hpc]; decide)
  rw [hposted] at hsum
  exact ⟨hpc, by exact_mod_cast hsum.symm⟩

/-! ## The loop is the function -/

/-- The refill loop run by steps, without arrivals, is `postRecvs`. -/
theorem postRecvs_run {n : ℕ} {nic nic' : Nic Msg} {j : ℤ}
    (hj : j + n = dev.config.maxRecvNum)
    (h : postRecvs dev buf size lkey userContext n nic = .ok nic') :
    (recvMachine dev buf size lkey userContext).run { pc := .post j, nic }
      (List.replicate (n + 1) .rank) = .ok { pc := .poll, nic := nic' } := by
  induction n generalizing nic j with
  | zero =>
    cases h
    have hge : ¬ j < dev.config.maxRecvNum := by omega
    simp [Machine.run, recvMachine, recvStep, hge]
  | succ n ih =>
    have hlt : j < dev.config.maxRecvNum := by omega
    simp only [postRecvs] at h
    obtain ⟨⟨⟩, ha, hrest⟩ := bind_eq_ok.mp h
    have hrun := ih (j := j + 1) (by omega) hrest
    have hstep : recvStep dev buf size lkey userContext { pc := .post j, nic } .rank
        = .ok { pc := .post (j + 1), nic := (postRecv dev buf size lkey userContext nic).2 } := by
      simp only [recvStep, hlt, if_true, ha, ok_bind]
    rw [List.replicate_succ, Machine.run]
    exact bind_eq_ok.mpr ⟨_, hstep, hrun⟩

/-- **`checkAndPostRecvs` as a whole is a run of its statements.** -/
theorem checkAndPostRecvs_run {nic nic' : Nic Msg}
    (hmax : nic.postedRecvNum ≤ dev.config.maxRecvNum)
    (h : checkAndPostRecvs dev buf size lkey userContext nic = .ok nic') :
    ∃ n, (recvMachine dev buf size lkey userContext).run { pc := .check, nic }
      (List.replicate n .rank) = .ok { pc := .poll, nic := nic' } := by
  rw [checkAndPostRecvs] at h
  split at h
  · rename_i hlt
    have hrun := postRecvs_run (j := nic.postedRecvNum) (by omega) h
    refine ⟨((dev.config.maxRecvNum : ℤ) - nic.postedRecvNum).toNat + 1 + 1, ?_⟩
    have hstep : recvStep dev buf size lkey userContext { pc := .check, nic } .rank
        = .ok { pc := .post nic.postedRecvNum, nic } := by
      simp only [recvStep, hlt, if_true]
    rw [List.replicate_succ, Machine.run]
    exact bind_eq_ok.mpr ⟨_, hstep, hrun⟩
  · rename_i hge
    cases h
    exact ⟨1, by simp [Machine.run, recvMachine, recvStep, hge]⟩

end IbvBench
