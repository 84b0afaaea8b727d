import IbvBench.Pingpong.NotifiedSafety
import IbvBench.Termination

/-!
# The completion-notified ping-pongs come to an end

A rank that cannot go on waits for a message of the peer (`waits_of_stuck`), and the two ranks never
do so at once: rank 0 waits when it has sent one message more than it has received, rank 1 when it
has sent as many.
-/

set_option autoImplicit false

namespace IbvBench

open StepMachine

namespace PingpongNotified

variable {q : Kind} {maxMsgSize : ℕ} {env : Env Unit 0} {s : Sys}

/-- A statement is only held up by an empty completion queue. -/
theorem exec_blocked {r : Rank} {round msgSize : ℕ} {stmt : Stmt} {st : State}
    (h : exec q maxMsgSize env r round msgSize stmt st = .error .blocked) :
    stmt = .pollSent ∧ st.host.nic.sendCq.entries = [] ∨
      stmt = .pollRecv ∧ st.host.nic.recvCq.entries = [] := by
  cases stmt with
  | writeBuffer => exact absurd h (proceeds_ok _)
  | post =>
    simp only [exec, postMsg_eq_post] at h
    refine absurd h (Proceeds.bind (Host.post_proceeds _ _ _) fun _ ↦ ?_)
    exact .bind (mlogAssert_proceeds _ _) fun _ ↦ proceeds_ok _
  | pollSent => exact .inl ⟨rfl, RankState.pollSendStep_blocked h⟩
  | pollRecv => exact .inr ⟨rfl, RankState.pollRecvStep_blocked h⟩
  | repost => exact absurd h (st.repostStep_proceeds _)
  | checkBuffer => exact absurd h (st.checkRecvBuf_proceeds _ _ _)

/-- A rank without a step has finished, or waits for a completion that has not been generated. -/
theorem rank_blocked (hc : Ctl q maxMsgSize env s) {r : Rank}
    (h : (q.program maxMsgSize).step env s (.rank r) = .error .blocked) :
    (s r).booted = true ∧ ((s r).iter = env.sizes.length ∨
      ∃ hpc : (s r).pc < (lambda r).length,
        (lambda r)[(s r).pc] = .pollSent ∧ (s r).nic.sendCq.entries = [] ∨
        (lambda r)[(s r).pc] = .pollRecv ∧ (s r).nic.recvCq.entries = []) := by
  have hrank : (q.program maxMsgSize).rankStep env r (s r) = .error .blocked := by
    rcases bind_eq_blocked.mp h with h | ⟨_, -, h⟩
    · exact h
    · cases h
  by_cases hb : (s r).booted = true
  · refine ⟨hb, ?_⟩
    by_cases hiter : (s r).iter < env.sizes.length
    · have hpc : (s r).pc < (lambda r).length := (hc.node r).pc_lt
      simp only [Program.rankStep, hb, if_true, List.getElem?_eq_getElem hiter,
        List.getElem?_eq_getElem hpc] at hrank
      rcases bind_eq_blocked.mp hrank with hexec | ⟨_, -, h⟩
      · exact .inr ⟨hpc, exec_blocked hexec⟩
      · cases h
    · exact .inl (Nat.le_antisymm (hc.node r).iter_le (Nat.le_of_not_lt hiter))
  · simp only [Program.rankStep, hb, Bool.false_eq_true, if_false] at hrank
    refine absurd hrank (Proceeds.bind ?_ fun _ ↦ proceeds_ok _)
    refine .bind (checkAndPostRecvs_proceeds _) fun _ ↦ .bind (proceeds_ok _) fun _ ↦ ?_
    exact proceeds_ok _

/-- A booted rank always has a receive posted. -/
theorem srq_ne_nil (hc : Ctl q maxMsgSize env s) {r : Rank} (hb : (s r).booted = true) :
    (s r).nic.srq ≠ [] := by
  intro hnil
  have hq := (hc.node r).queues hb
  obtain ⟨-, hrepost⟩ := Program.cnt_repost_le (P := q.program maxMsgSize) scripted
    (hc.node r).pc_lt
  have hturn := (turns hc r).1
  have hpc : (s r).pc < (lambda r).length := (hc.node r).pc_lt
  have hchecked : checked r (s r)
      ≤ (q.program maxMsgSize).cnt (act q) Act.isPollRecv r (s r) := by
    have hle : ∀ r, ∀ pc < (lambda r).length,
        ((lambda r).take pc).countP (· == .checkBuffer) ≤ before q Act.isPollRecv r pc := by
      cases q <;> decide
    rw [checked_eq, cnt_isPollRecv]
    exact Nat.add_le_add_left (hle r _ hpc) _
  have hrecvs := hq.recvs
  rw [Nic.recvs, hnil, List.length_nil] at hrecvs
  have hrecvPolled := hq.recvPolled
  have hrecvCq := hq.recvCq
  omega

/-- What is left of the queues when no step can be taken. -/
theorem queues_of_stuck (hc : Ctl q maxMsgSize env s) (hb : ∀ r, (s r).booted = true)
    (h : ∀ a, (q.program maxMsgSize).step env s a = .error .blocked) (r : Rank) :
    (s r).nic.sq = [] ∧ (s r).nic.unacked = [] := by
  constructor
  · rcases bind_eq_blocked.mp (h (.deliver r)) with hd | ⟨_, -, hd⟩
    · rcases deliver_blocked hd with hsq | hsrq
      · exact hsq
      · exact absurd hsrq (srq_ne_nil hc (hb r.peer))
    · cases hd
  · rcases bind_eq_blocked.mp (h (.complete r)) with hd | ⟨_, -, hd⟩
    · exact complete_blocked hd
    · cases hd

/-- **A rank that is held up waits for a message, and has taken all those that were sent.** -/
theorem waits_of_stuck (hc : Ctl q maxMsgSize env s)
    (h : ∀ a, (q.program maxMsgSize).step env s a = .error .blocked) (r : Rank)
    (hiter : (s r).iter ≠ env.sizes.length) :
    ∃ hpc : (s r).pc < (lambda r).length, (lambda r)[(s r).pc] = .pollRecv ∧
      (s r).iter + before q Act.isPollRecv r (s r).pc
        = (s r.peer).iter + before q Act.isPost r.peer (s r.peer).pc := by
  have hb (x : Rank) : (s x).booted = true := (rank_blocked hc (h (.rank x))).1
  obtain ⟨hsq, hunacked⟩ := queues_of_stuck hc hb h r
  obtain ⟨hsq', -⟩ := queues_of_stuck hc hb h r.peer
  rcases (rank_blocked hc (h (.rank r))).2 with hfin | ⟨hpc, ⟨hℓ, hcq⟩ | ⟨hℓ, hcq⟩⟩
  · exact absurd hfin hiter
  · have hused := sqUsed_eq (hc.node r) (hb r) hpc
    rw [if_pos hℓ, Nic.sqUsed, hsq, hunacked, hcq] at hused
    cases hused
  · refine ⟨hpc, hℓ, ?_⟩
    have hq := (hc.node r).queues (hb r)
    have hpolled := hq.recvPolled
    have hgenerated := hq.recvCq
    have hlink := hc.link_peer r
    rw [cnt_isPollRecv] at hpolled
    rw [cnt_isPostRecv (hc.node r.peer).pc_lt, cnt_isPost, hsq', List.countP_nil] at hlink
    rw [hcq, List.length_nil] at hgenerated
    omega

/-- What the ranks have done of a round when they wait. -/
theorem before_waits (q : Kind) : ∀ r, ∀ pc (h : pc < (lambda r).length),
    (lambda r)[pc] = .pollRecv → before q Act.isPollRecv r pc = 0 ∧
      before q Act.isPost r pc = if r = .r0 then 1 else 0 := by
  cases q <;> decide

/-- A state without a step is one in which both ranks have finished. -/
theorem finished_of_stuck (hc : Ctl q maxMsgSize env s)
    (h : ∀ a, (q.program maxMsgSize).step env s a = .error .blocked) (r : Rank) :
    (q.program maxMsgSize).finished env (s r) := by
  refine ⟨(rank_blocked hc (h (.rank r))).1, ?_⟩
  by_contra hr
  obtain ⟨hpc, hℓ, heq⟩ := waits_of_stuck hc h r hr
  obtain ⟨hpolled, hposted⟩ := before_waits q r _ hpc hℓ
  have hle := (hc.node r).iter_le
  by_cases hp : (s r.peer).iter = env.sizes.length
  · -- the peer has sent the messages of all rounds
    omega
  · -- both wait
    obtain ⟨hpc', hℓ', heq'⟩ := waits_of_stuck hc h r.peer hp
    obtain ⟨hpolled', hposted'⟩ := before_waits q r.peer _ hpc' hℓ'
    rw [Rank.peer_peer] at heq'
    cases r with
    | r0 => simp only [Rank.peer, if_true, reduceCtorEq, if_false] at *; omega
    | r1 => simp only [Rank.peer, if_true, reduceCtorEq, if_false] at *; omega

/-- **They do not deadlock, and consume every completion.** -/
theorem progress (hsizes : ∀ n ∈ env.sizes, n ≤ maxMsgSize)
    (hs : ((q.program maxMsgSize).machine env).Reachable s) :
    (q.program maxMsgSize).Progress env s := by
  obtain ⟨⟨hc, -⟩, hfault⟩ := reachable_inv hsizes hs
  refine ⟨fun r hr ↦ ?_, fun hfin r ↦ ?_⟩
  · by_contra hno
    refine hr (finished_of_stuck hc (fun a ↦ ?_) r)
    rcases hstep : (q.program maxMsgSize).step env s a with e | s'
    · rcases e with _ | f
      · rfl
      · exact absurd hstep (hfault a f)
    · exact absurd ⟨a, s', hstep⟩ hno
  · have hpc (x : Rank) : (s x).pc = 0 := (hc.node x).pc_eq (hfin x).2
    have hq := (hc.node r).queues (hfin r).1
    have hused : (s r).nic.sqUsed = 0 := by
      have hfirst : ∀ x pc, pc = 0 → ∀ h : pc < (lambda x).length, (lambda x)[pc] ≠ .pollSent := by
        rintro x _ rfl
        cases x <;> decide
      rw [sqUsed_eq (hc.node r) (hfin r).1 (hc.node r).pc_lt, if_neg (hfirst r _ (hpc r) _)]
    obtain ⟨hsq, hunacked, hsend⟩ := sq_nil hused
    have hsendCq := hq.sendCq
    rw [hsend, List.length_nil] at hsendCq
    -- as many messages were polled as were posted, so none is left
    have hpolled := hq.recvPolled
    have hgenerated := hq.recvCq
    have hlink := hc.link_peer r
    have hzero (p : Act → Bool) (x : Rank) : before q p x 0 = 0 := by
      rw [before, List.take_zero, List.countP_nil]
    rw [cnt_isPollRecv, hpc, hzero, (hfin r).2] at hpolled
    rw [cnt_isPostRecv (hc.node r.peer).pc_lt, cnt_isPost, hpc, hzero, (hfin r.peer).2] at hlink
    refine ⟨by rw [Nic.outstanding, hsq, hunacked]; rfl, hsend, by omega,
      List.eq_nil_of_length_eq_zero (by omega), by omega⟩

/-- **The completion-notified ping-pongs come to an end**, for every sequence of sizes that the
receives are long enough for, and every order of steps: after six statements of each rank and the two
steps of its request in every round, both have finished and no completion is left. -/
theorem pingpongNotified_terminates (q : Kind) (hsizes : ∀ n ∈ env.sizes, n ≤ maxMsgSize) :
    ((q.program maxMsgSize).machine env).EndsAfter ((q.program maxMsgSize).start env)
      (2 + 16 * env.sizes.length) ((q.program maxMsgSize).Drained env) := by
  have hcost : (q.program maxMsgSize).cost (act q) env = 2 + 16 * env.sizes.length := by
    have hnode (r : Rank) : (lambda r).length + 2 * (lambda r).countP (Act.isPost ∘ act q) = 8 := by
      rw [(perRound q r).1]
      cases r <;> rfl
    rw [Program.cost, Program.nodeCost, Program.nodeCost, hnode, hnode]
    omega
  rw [← hcost]
  exact Program.endsAfter scripted fun _ ↦ progress hsizes

/-- One round of the first program, with messages of two bytes. -/
def oneRound : List Action :=
  [.rank .r0, .rank .r1, .rank .r0, .rank .r0, .deliver .r0, .rank .r1, .rank .r1, .rank .r1,
   .rank .r1, .rank .r1, .complete .r0, .deliver .r1, .complete .r1, .rank .r1, .rank .r0,
   .rank .r0, .rank .r0, .rank .r0]

theorem pingpongNotified_terminates_oneRound :
    let env : Env Unit 0 := .small Unit [2]
    let s := ((pingpongSendrecv 2).machine env).result ((pingpongSendrecv 2).start env) oneRound
    (pingpongSendrecv 2).Drained env s := by
  intro env s
  have hsizes : ∀ n ∈ env.sizes, n ≤ 2 := by decide
  have hrun : ((pingpongSendrecv 2).machine env).run ((pingpongSendrecv 2).start env) oneRound
      = .ok s := Machine.run_eq_result (by decide +kernel)
  exact (pingpongNotified_terminates .sendrecv hsizes).final oneRound s hrun rfl

end PingpongNotified

end IbvBench
