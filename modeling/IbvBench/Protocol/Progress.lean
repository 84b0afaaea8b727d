import IbvBench.Protocol.Safety

/-!
# Progress

A rank can only be held up by a `pollCQ` on an empty queue, a delivery by the lack of a posted
receive, and a completion by nothing.  So in a state without any step both ranks are finished, or
wait for a message that nobody has sent; and the places at which the two scripts receive do not fit
together that way (`Progressive.waits`).
-/

set_option autoImplicit false

namespace IbvBench

open StepMachine

/-! ## What cannot block -/

section

variable {Msg Obj Ext β : Type} {dev : Device}

theorem mlogAssert_proceeds (b : Bool) (msg : String) : Proceeds (mlogAssert b msg) :=
  .ite (proceeds_ok _) (proceeds_fault _)

theorem postRecvs_proceeds {buf : RegPtr} {size lkey : ℕ} {userContext : WrId} (n : ℕ)
    (nic : Nic Msg) : Proceeds (postRecvs dev buf size lkey userContext n nic) := by
  induction n generalizing nic with
  | zero => exact proceeds_ok _
  | succ n ih => exact .bind (mlogAssert_proceeds _ _) fun _ ↦ ih _

theorem checkAndPostRecvs_proceeds {buf : RegPtr} {size lkey : ℕ} {userContext : WrId}
    (nic : Nic Msg) : Proceeds (checkAndPostRecvs dev buf size lkey userContext nic) :=
  .ite (postRecvs_proceeds _ _) (proceeds_ok _)

theorem Host.post_proceeds (rank : Rank) (w : SendWr Msg) (h : Host Msg) :
    Proceeds (h.post dev rank w) :=
  .bind (.ite (proceeds_fault _) (.ite (proceeds_ok _) (proceeds_ok _))) fun _ ↦ proceeds_ok _

theorem Heap.deref_proceeds (sel : Obj → Option β) (addr : ℕ) (h : Heap Obj) :
    Proceeds (h.deref sel addr) := by
  rw [Heap.deref]
  split
  · exact proceeds_fault _
  · split
    · exact proceeds_fault _
    · exact proceeds_ok _

theorem Heap.store_proceeds (addr : ℕ) (obj : Obj) (h : Heap Obj) : Proceeds (h.store addr obj) :=
  .ite (proceeds_ok _) (proceeds_fault _)

theorem Heap.delete_proceeds (sel : Obj → Option β) (addr : ℕ) (h : Heap Obj) :
    Proceeds (h.delete sel addr) := by
  rw [Heap.delete]
  split
  · exact proceeds_fault _
  · split
    · exact proceeds_fault _
    · exact proceeds_ok _

theorem ctxOfWrId_proceeds (id : WrId) : Proceeds (ctxOfWrId id) := by
  cases id <;> first | exact proceeds_ok _ | exact proceeds_fault _

namespace RankState

variable (st : RankState Msg Obj Ext)

theorem getWc_proceeds : Proceeds st.getWc := by
  rw [getWc]
  split
  · exact proceeds_ok _
  · exact proceeds_fault _

theorem derefMsg_proceeds (sel : Msg → Option β) (id : WrId) : Proceeds (st.derefMsg sel id) := by
  unfold derefMsg
  split
  · split
    · exact proceeds_ok _
    · exact proceeds_fault _
  · exact proceeds_fault _

theorem checkRecvBuf_proceeds (t : Bool) (r : Rank) (n : ℕ) : Proceeds (st.checkRecvBuf t r n) :=
  .ite (.bind (.ite (proceeds_ok _) (proceeds_fault _)) fun _ ↦ proceeds_ok _) (proceeds_ok _)

theorem repostStep_proceeds (rw : RecvWr) : Proceeds (st.repostStep dev rw) :=
  .bind (checkAndPostRecvs_proceeds _) fun _ ↦ proceeds_ok _

end RankState

theorem Cq.push_proceeds (cfg : DeviceConfig) (cq : Cq Msg) (wc : Wc Msg) :
    Proceeds (cq.push cfg wc) :=
  .ite (proceeds_ok _) (proceeds_fault _)

theorem Mem.dmaWrite_proceeds (mem : Mem Msg) (p : RegPtr) (d : Data Msg) :
    Proceeds (mem.dmaWrite p d) := by
  cases p <;> cases d <;> first | exact proceeds_ok _ | exact proceeds_fault _

end

/-! ## What blocks -/

section

variable {Msg Obj Ext : Type}

theorem pollCQ_blocked {cq : Cq Msg} (h : pollCQ cq = .error .blocked) : cq.entries = [] := by
  rcases hq : cq.entries with _ | ⟨wc, rest⟩
  · rfl
  · simp [pollCQ, hq] at h

theorem RankState.pollSendStep_blocked {st : RankState Msg Obj Ext} {ok : Wc Msg → Bool}
    {msg : String} (h : st.pollSendStep ok msg = .error .blocked) :
    st.host.nic.sendCq.entries = [] := by
  rcases bind_eq_blocked.mp h with h | ⟨⟨wc, cq⟩, -, h⟩
  · exact pollCQ_blocked h
  · exact absurd h (Proceeds.bind (mlogAssert_proceeds _ _) fun _ ↦ proceeds_ok _)

theorem RankState.pollRecvStep_blocked {st : RankState Msg Obj Ext} {ok : Wc Msg → Bool}
    {msg : String} (h : st.pollRecvStep ok msg = .error .blocked) :
    st.host.nic.recvCq.entries = [] := by
  rcases bind_eq_blocked.mp h with h | ⟨⟨wc, cq⟩, -, h⟩
  · exact pollCQ_blocked h
  · exact absurd h (Proceeds.bind (mlogAssert_proceeds _ _) fun _ ↦ proceeds_ok _)

/-- A completion is held up by nothing. -/
theorem complete_blocked {dev : Device} {h : Host Msg} (he : complete dev h = .error .blocked) :
    h.nic.unacked = [] := by
  rcases hu : h.nic.unacked with _ | ⟨a, unacked⟩
  · rfl
  · simp only [complete, hu] at he
    refine absurd he (Proceeds.bind ?_ fun _ ↦ .bind (Cq.push_proceeds _ _ _) fun _ ↦ proceeds_ok _)
    rw [placeFetched]
    split
    · exact Mem.dmaWrite_proceeds _ _ _
    · exact proceeds_ok _

section

variable {dst : Device} {w : SendWr Msg} {rw : RecvWr} {srq : List RecvWr} {h : Host Msg}

theorem consumeRecv_proceeds (op : WcOpcode) (imm : ℕ) (d : Option (Data Msg)) (nic : Nic Msg) :
    Proceeds (consumeRecv dst op imm d rw srq nic) :=
  .bind (Cq.push_proceeds _ _ _) fun _ ↦ proceeds_ok _

theorem landSend_proceeds (d : Data Msg) (hsrq : h.nic.srq = rw :: srq) :
    Proceeds (landSend dst w d h) := by
  simp only [landSend, hsrq]
  split
  · exact proceeds_fault _
  · exact .bind (Mem.dmaWrite_proceeds _ _ _) fun _ ↦
      .bind (consumeRecv_proceeds _ _ _ _) fun _ ↦ proceeds_ok _

theorem landWriteImm_proceeds (d : Data Msg) (hsrq : h.nic.srq = rw :: srq) :
    Proceeds (landWriteImm dst w d h) := by
  simp only [landWriteImm, hsrq]
  exact .bind (Mem.dmaWrite_proceeds _ _ _) fun _ ↦
    .bind (consumeRecv_proceeds _ _ _ _) fun _ ↦ proceeds_ok _

theorem execute_proceeds (mem : Mem Msg) (hsrq : h.nic.srq = rw :: srq) :
    Proceeds (execute dst w mem h) := by
  rw [execute]
  split
  · exact .bind (landSend_proceeds _ hsrq) fun _ ↦ proceeds_ok _
  · exact .bind (landSend_proceeds _ hsrq) fun _ ↦ proceeds_ok _
  · exact .bind (Mem.dmaWrite_proceeds _ _ _) fun _ ↦ proceeds_ok _
  · exact .bind (landWriteImm_proceeds _ hsrq) fun _ ↦ proceeds_ok _
  · exact proceeds_ok _

end

/-- A delivery is only held up by the lack of a receive. -/
theorem deliver_blocked {src dst : Device} {h k : Host Msg}
    (he : deliver src dst h k = .error .blocked) : h.nic.sq = [] ∨ k.nic.srq = [] := by
  rcases hsq : h.nic.sq with _ | ⟨w, sq⟩
  · exact .inl rfl
  · simp only [deliver, hsq] at he
    split at he
    · rcases bind_eq_blocked.mp he with he | ⟨⟨k', data⟩, -, he⟩
      · rcases hsrq : k.nic.srq with _ | ⟨rw, srq⟩
        · exact .inr rfl
        · exact absurd he (execute_proceeds _ hsrq)
      · cases he
    · cases he

end

namespace Protocol

variable {P : Program} {pr : Protocol P} {act : P.Stmt → Act} {env : P.Env} {s : P.Sys}

variable (pr act) in
/-- What a program has to show besides to make progress. -/
structure Progressive : Prop where
  setup : Proceeds (P.setup P.ext0)
  blocked : ∀ {env : P.Env} {r : Rank} {k n : ℕ} {ℓ : P.Stmt} {st : P.State},
    P.exec env r k n ℓ st = .error .blocked →
      act ℓ = .pollSend ∧ st.host.nic.sendCq.entries = [] ∨
        act ℓ = .pollRecv ∧ st.host.nic.recvCq.entries = []
  /-- There are more receives than messages in flight. -/
  ahead : ∀ r, pr.ahead r + pr.ahead r.peer ≤ 6
  /-- The ranks do not wait for each other. -/
  waits : ∀ r pc (h : pc < (P.lambda r).length) pc' (h' : pc' < (P.lambda r.peer).length),
    act (P.lambda r)[pc] = .pollRecv → act (P.lambda r.peer)[pc'] = .pollRecv →
      passed act Act.isPollRecv r pc + passed act Act.isPollRecv r.peer pc'
        = passed act Act.isPostRecv r pc + passed act Act.isPostRecv r.peer pc' →
      passed act Act.isPollRecv r pc % pr.perRound
        ≠ passed act Act.isPostRecv r.peer pc' % pr.perRound
  /-- No script begins by waiting for a send. -/
  first : ∀ r, ∀ ℓ ∈ (P.lambda r)[0]?, act ℓ ≠ .pollSend

/-- A rank without a step has finished, or waits for a completion that has not been generated. -/
theorem rank_blocked (G : pr.Progressive act) (hc : P.Ctl act env s) (hi : pr.Inv env act s)
    {r : Rank} (h : P.step env s (.rank r) = .error .blocked) :
    (s r).booted = true ∧ ((s r).iter = env.sizes.length ∨
      ∃ hpc : (s r).pc < (P.lambda r).length,
        act (P.lambda r)[(s r).pc] = .pollSend ∧ (s r).nic.sendCq.entries = [] ∨
        act (P.lambda r)[(s r).pc] = .pollRecv ∧ (s r).nic.recvCq.entries = []) := by
  have hrank : P.rankStep env r (s r) = .error .blocked := by
    rcases bind_eq_blocked.mp h with h | ⟨_, -, h⟩
    · exact h
    · cases h
  by_cases hb : (s r).booted = true
  · refine ⟨hb, ?_⟩
    by_cases hiter : (s r).iter < env.sizes.length
    · have hpc := (hc.node r).pc_lt
      simp only [Program.rankStep, hb, if_true, List.getElem?_eq_getElem hiter,
        List.getElem?_eq_getElem hpc] at hrank
      rcases bind_eq_blocked.mp hrank with hexec | ⟨_, -, h⟩
      · exact .inr ⟨hpc, G.blocked hexec⟩
      · cases h
    · exact .inl (Nat.le_antisymm (hc.node r).iter_le (Nat.le_of_not_lt hiter))
  · have hb' : (s r).booted = false := by simpa using hb
    simp only [Program.rankStep, hb', Bool.false_eq_true, if_false] at hrank
    refine absurd hrank (Proceeds.bind ?_ fun _ ↦ proceeds_ok _)
    refine .bind (checkAndPostRecvs_proceeds _) fun _ ↦ .bind ?_ fun _ ↦ proceeds_ok _
    rw [(hi.unbooted r hb').2.1]
    exact G.setup

/-- A booted rank always has a receive posted. -/
theorem srq_ne_nil (L : pr.Lawful act) (G : pr.Progressive act) (hc : P.Ctl act env s) {r : Rank}
    (hb : (s r).booted = true) : (s r).nic.srq ≠ [] := by
  intro hnil
  have hq := (hc.node r).queues hb
  obtain ⟨-, hrepost⟩ := Program.cnt_repost_le L.scripted (hc.node r).pc_lt
  have hpeer := polled_le_posted L.placed hc r.peer
  rw [Rank.peer_peer] at hpeer
  have hown := L.placed.window r _ (hc.node r).pc_lt
  have hwindow := L.placed.window r.peer _ (hc.node r.peer).pc_lt
  have hlink := hc.link_peer r
  rw [cnt_eq, (L.placed.perRound r.peer).1] at hlink
  have hpolled : P.cnt act Act.isPollRecv r (s r) = _ := cnt_eq Act.isPollRecv r (s r)
  rw [(L.placed.perRound r).2] at hpolled
  have hrecvs := hq.recvs
  rw [Nic.recvs, hnil, List.length_nil] at hrecvs
  have hrecvPolled := hq.recvPolled
  have hrecvCq := hq.recvCq
  have hahead := G.ahead r
  omega

/-- What is left of the queues when no step can be taken. -/
theorem queues_of_stuck (L : pr.Lawful act) (G : pr.Progressive act) (hc : P.Ctl act env s)
    (hb : ∀ r, (s r).booted = true) (h : ∀ a, P.step env s a = .error .blocked) (r : Rank) :
    (s r).nic.sq = [] ∧ (s r).nic.unacked = [] := by
  constructor
  · rcases bind_eq_blocked.mp (h (.deliver r)) with hd | ⟨_, -, hd⟩
    · rcases deliver_blocked hd with hsq | hsrq
      · exact hsq
      · exact absurd hsrq (srq_ne_nil L G hc (hb r.peer))
    · cases hd
  · rcases bind_eq_blocked.mp (h (.complete r)) with hd | ⟨_, -, hd⟩
    · exact complete_blocked hd
    · cases hd

/-- **A rank that is held up waits for a message, and all the messages sent to it have been
polled.** -/
theorem waits_of_stuck (L : pr.Lawful act) (G : pr.Progressive act) (hc : P.Ctl act env s)
    (hi : pr.Inv env act s) (h : ∀ a, P.step env s a = .error .blocked) (r : Rank)
    (hiter : (s r).iter ≠ env.sizes.length) :
    ∃ hpc : (s r).pc < (P.lambda r).length, act (P.lambda r)[(s r).pc] = .pollRecv ∧
      (s r).iter * pr.perRound + passed act Act.isPollRecv r (s r).pc
        = (s r.peer).iter * pr.perRound + passed act Act.isPostRecv r.peer (s r.peer).pc := by
  have hb (x : Rank) : (s x).booted = true := (rank_blocked G hc hi (h (.rank x))).1
  obtain ⟨hsq, hunacked⟩ := queues_of_stuck L G hc hb h r
  obtain ⟨hsq', -⟩ := queues_of_stuck L G hc hb h r.peer
  rcases (rank_blocked G hc hi (h (.rank r))).2 with hfin | ⟨hpc, ⟨ha, hcq⟩ | ⟨ha, hcq⟩⟩
  · exact absurd hfin hiter
  · have hused := sqUsed_eq L hc (hb r) (List.getElem?_eq_getElem hpc)
    rw [if_pos ha, Nic.sqUsed, hsq, hunacked, hcq] at hused
    cases hused
  · refine ⟨hpc, ha, ?_⟩
    have hq := (hc.node r).queues (hb r)
    have hpolled := hq.recvPolled
    have hgenerated := hq.recvCq
    have hlink := hc.link_peer r
    rw [cnt_eq, (L.placed.perRound r).2] at hpolled
    rw [cnt_eq, (L.placed.perRound r.peer).1, hsq', List.countP_nil] at hlink
    rw [hcq, List.length_nil] at hgenerated
    omega

/-- A state without a step is one in which both ranks have finished. -/
theorem finished_of_stuck (L : pr.Lawful act) (G : pr.Progressive act) (hc : P.Ctl act env s)
    (hi : pr.Inv env act s) (h : ∀ a, P.step env s a = .error .blocked) (r : Rank) :
    P.finished env (s r) := by
  refine ⟨(rank_blocked G hc hi (h (.rank r))).1, ?_⟩
  by_contra hr
  obtain ⟨hpc, ha, heq⟩ := waits_of_stuck L G hc hi h r hr
  obtain ⟨hlt, -⟩ := L.placed.receives r _ hpc ha
  have hle := (hc.node r).iter_le
  by_cases hp : (s r.peer).iter = env.sizes.length
  · -- the peer has sent the messages of all rounds
    rw [(hc.node r.peer).pc_eq hp, hp] at heq
    have hmul : ((s r).iter + 1) * pr.perRound ≤ env.sizes.length * pr.perRound :=
      Nat.mul_le_mul_right _ (Nat.lt_of_le_of_ne hle hr)
    rw [Nat.succ_mul] at hmul
    omega
  · -- both wait
    obtain ⟨hpc', ha', heq'⟩ := waits_of_stuck L G hc hi h r.peer hp
    rw [Rank.peer_peer] at heq'
    refine G.waits r _ hpc _ hpc' ha ha' (by omega) ?_
    have hmod := congrArg (· % pr.perRound) heq
    simpa only [Nat.mul_comm _ pr.perRound, Nat.mul_add_mod] using hmod

/-- **A lawful program does not deadlock**: as long as a rank has not finished, there is a step. -/
theorem progress (L : pr.Lawful act) (G : pr.Progressive act) (hs : (P.machine env).Reachable s)
    {r : Rank} (hr : ¬ P.finished env (s r)) : ∃ a s', P.step env s a = .ok s' := by
  obtain ⟨⟨hc, hi⟩, hsafe⟩ := reachable_safe L hs
  by_contra hno
  refine hr (finished_of_stuck L G hc hi (fun a ↦ ?_) r)
  rcases hstep : P.step env s a with e | s'
  · rcases e with _ | f
    · rfl
    · exact absurd hstep (hsafe a f)
  · exact absurd ⟨a, s', hstep⟩ hno

/-- **Every completion is consumed**: a rank that has finished has polled all its send completions,
and when both have, no receive completion and no request is left either. -/
theorem consumed (L : pr.Lawful act) (G : pr.Progressive act) (hs : (P.machine env).Reachable s)
    (hfin : ∀ r, P.finished env (s r)) (r : Rank) :
    (s r).nic.outstanding = [] ∧
      (s r).nic.sendCq.entries = [] ∧ (s r).nic.sendCq.polled = (s r).nic.sendCq.generated ∧
      (s r).nic.recvCq.entries = [] ∧ (s r).nic.recvCq.polled = (s r).nic.recvCq.generated := by
  obtain ⟨⟨hc, hi⟩, -⟩ := reachable_safe L hs
  have hpc (x : Rank) : (s x).pc = 0 := (hc.node x).pc_eq (hfin x).2
  have hq := (hc.node r).queues (hfin r).1
  obtain ⟨ℓ, hℓ⟩ := exists_stmt hc r
  have hused := sqUsed_eq L hc (hfin r).1 hℓ
  rw [hpc r] at hℓ
  rw [if_neg (G.first r ℓ hℓ), Nic.sqUsed] at hused
  have hsend := hq.sendCq
  -- as many messages were polled as were posted, so none is left
  have hpolled := hq.recvPolled
  have hgenerated := hq.recvCq
  have hlink := hc.link_peer r
  rw [cnt_eq, (L.placed.perRound r).2, hpc, (hfin r).2] at hpolled
  rw [cnt_eq, (L.placed.perRound r.peer).1, hpc, (hfin r.peer).2] at hlink
  simp only [passed, List.take_zero, List.countP_nil, Nat.add_zero] at hpolled hlink
  have hsq : (s r).nic.sq = [] := List.eq_nil_of_length_eq_zero (by omega)
  have hunacked : (s r).nic.unacked = [] := List.eq_nil_of_length_eq_zero (by omega)
  refine ⟨by rw [Nic.outstanding, hsq, hunacked]; rfl, List.eq_nil_of_length_eq_zero (by omega),
    by omega, List.eq_nil_of_length_eq_zero (by omega), by omega⟩

end Protocol

end IbvBench
