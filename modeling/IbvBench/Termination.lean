import IbvBench.Rendezvous.Runs

/-!
# The benchmarks come to an end

A rank that finds a completion queue empty is held up, so every step of a run does something: it is
a statement, or it moves one request along.  How many steps a run has taken can therefore be read off
its last state (`Program.taken`), and it is never more than the two scripts have to offer
(`Program.cost`).  With the absence of deadlocks this makes every run come to an end, after the same
number of steps whatever their order.
-/

set_option autoImplicit false

namespace IbvBench

open StepMachine

namespace Program

variable (P : Program) (act : P.Stmt → Act)

/-- The steps that have been taken at a rank and with its requests: its start, its statements, its
deliveries and its completions. -/
def nodeTaken (r : Rank) (n : Node P.Msg P.Obj P.Ext) : ℕ :=
  n.booted.toNat + P.cnt act (fun _ ↦ true) r n + (P.cnt act Act.isPost r n - n.nic.sq.length)
    + n.nic.sendCq.generated

/-- The steps that have been taken. -/
def taken (s : P.Sys) : ℕ := P.nodeTaken act .r0 (s .r0) + P.nodeTaken act .r1 (s .r1)

/-- The steps that a rank and its requests take in all. -/
def nodeCost (env : P.Env) (r : Rank) : ℕ :=
  1 + env.sizes.length * ((P.lambda r).length + 2 * (P.lambda r).countP (Act.isPost ∘ act))

/-- The steps that a whole run takes. -/
def cost (env : P.Env) : ℕ := P.nodeCost act env .r0 + P.nodeCost act env .r1

variable {P act} {env : P.Env}

theorem taken_peer (r : Rank) (s : P.Sys) :
    P.taken act s = P.nodeTaken act r (s r) + P.nodeTaken act r.peer (s r.peer) := by
  cases r with
  | r0 => rfl
  | r1 => exact Nat.add_comm _ _

/-! ## Every step counts -/

section

variable {r : Rank} {n n' : Node P.Msg P.Obj P.Ext}

/-- The requests that have not been delivered have been posted. -/
theorem NodeCtl.sq_le (h : NodeCtl act env r n) :
    n.nic.sq.length ≤ P.cnt act Act.isPost r n := by
  cases hb : n.booted with
  | true =>
    have hsends := (h.queues hb).sends
    rw [Nic.sqUsed] at hsends
    omega
  | false =>
    rw [(h.unbooted hb).2.2]
    exact Nat.zero_le _

/-- What a statement does to the requests of its rank. -/
theorem nicSpec_sends {a : Act} {nic nic' : Nic P.Msg} (hs : P.NicSpec env r a nic nic')
    (hsq : nic.sqUsed ≤ 1) :
    nic'.sq.length = nic.sq.length + (if a.isPost then 1 else 0) ∧
      nic'.sendCq.generated = nic.sendCq.generated := by
  cases a with
  | internal | fill | check => rw [show nic' = nic from hs]; exact ⟨rfl, rfl⟩
  | post op =>
    obtain ⟨w, -, rfl⟩ := hs
    have hroom : nic.sqUsed < (env.device r).config.maxSendNum := by
      simp only [Env.device]; omega
    rw [Nic.posted, if_pos hroom]
    exact ⟨by rw [List.length_append]; rfl, rfl⟩
  | pollSend =>
    obtain ⟨wc, cq, hq, rfl⟩ := hs
    exact ⟨rfl, (pollCQ_eq_ok hq).2.2⟩
  | pollRecv => obtain ⟨wc, cq, -, rfl⟩ := hs; exact ⟨rfl, rfl⟩
  | repost =>
    obtain ⟨-, h1, h2, -⟩ := checkAndPostRecvs_frame hs
    exact ⟨by rw [h2]; rfl, by rw [h1]⟩

/-- **A step of a rank is one step.** -/
theorem nodeTaken_rank (W : WellScripted P act) (h : NodeCtl act env r n)
    (hs : P.rankStep env r n = .ok n') : P.nodeTaken act r n' = P.nodeTaken act r n + 1 := by
  have hle := h.sq_le
  rcases rankStep_eq_ok hs with ⟨hb, st, hst, rfl⟩ | ⟨_, hp, st, hb, hst, rfl⟩
  · obtain ⟨hiter, hpc, hnic⟩ := h.unbooted hb
    obtain ⟨-, h1, h2, -⟩ := checkAndPostRecvs_frame (boot_nic hst)
    rw [show n.st.host.nic = {} from hnic] at h1 h2
    have hafter (p : Act → Bool) : P.cnt act p r { n with booted := true, st } = 0 :=
      cnt_start p hiter hpc
    simp only [nodeTaken, Node.nic, hafter, cnt_start _ hiter hpc, h1, h2, hb,
      show n.st.host.nic = {} from hnic]
    rfl
  · have hspec : P.NicSpec env r (act (P.lambda r)[n.pc]) n.nic st.host.nic :=
      (W.exec_spec hst).nic
    obtain ⟨hsq, hgen⟩ := nicSpec_sends hspec (h.sqUsed_le W)
    have hone : P.cnt act (fun _ ↦ true) r (P.advance r n st)
        = P.cnt act (fun _ ↦ true) r n + 1 := cnt_advance _ hp st
    have hposts : P.cnt act Act.isPost r (P.advance r n st) = P.cnt act Act.isPost r n
        + if (act (P.lambda r)[n.pc]).isPost then 1 else 0 := cnt_advance _ hp st
    simp only [nodeTaken, Node.nic, advance_host, advance_booted] at hle hsq hgen ⊢
    omega

end

/-- **Every step counts.** -/
theorem taken_step (W : WellScripted P act) {s s' : P.Sys} {a : Action} (h : Ctl act env s)
    (hs : P.step env s a = .ok s') : P.taken act s' = P.taken act s + 1 := by
  cases a with
  | rank r =>
    obtain ⟨n, hn, he⟩ := bind_eq_ok.mp hs
    cases he
    have hone := nodeTaken_rank W (h.node r) hn
    rw [taken_peer r, taken_peer r, Function.update_self, Function.update_of_ne r.peer_ne, hone]
    omega
  | deliver r =>
    obtain ⟨⟨k, k'⟩, hk, he⟩ := bind_eq_ok.mp hs
    cases he
    obtain ⟨w, sq, data, hsq, hex, rfl⟩ := deliver_eq_ok hk
    have hle := (h.node r).sq_le
    have hpeer : k'.nic.sq = (s r.peer).nic.sq ∧ k'.nic.sendCq = (s r.peer).nic.sendCq := by
      have hnic := execute_nic hex
      split at hnic
      · obtain ⟨-, wc, hwc⟩ := hnic
        rw [hwc]
        exact ⟨rfl, rfl⟩
      · rw [hnic]
        exact ⟨rfl, rfl⟩
    rw [taken_peer r, taken_peer r, Function.update_of_ne r.ne_peer]
    simp only [Function.update_self, nodeTaken, Node.nic, setHost_host, cnt_setHost, hpeer, hsq,
      List.length_cons] at hle ⊢
    simp only [setHost]
    omega
  | complete r =>
    obtain ⟨k, hk, he⟩ := bind_eq_ok.mp hs
    cases he
    obtain ⟨a, unacked, wc, -, hnic⟩ := complete_nic hk
    rw [taken_peer r, taken_peer r, Function.update_self, Function.update_of_ne r.peer_ne]
    simp only [nodeTaken, Node.nic, setHost_host, cnt_setHost, hnic, Cq.pushed]
    simp only [setHost]
    omega

/-! ## There are only so many -/

section

variable {r : Rank} {n : Node P.Msg P.Obj P.Ext}

/-- A rank executes no more statements of a kind than its rounds hold. -/
theorem NodeCtl.cnt_le (h : NodeCtl act env r n) (p : Act → Bool) :
    P.cnt act p r n ≤ env.sizes.length * (P.lambda r).countP (p ∘ act) := by
  have hle := h.iter_le
  rcases Nat.lt_or_eq_of_le hle with hlt | heq
  · have hsub : ((P.lambda r).take n.pc).countP (p ∘ act) ≤ (P.lambda r).countP (p ∘ act) :=
      (List.take_sublist n.pc (P.lambda r)).countP_le
    have hmul := Nat.mul_le_mul_right ((P.lambda r).countP (p ∘ act)) (Nat.succ_le_of_lt hlt)
    rw [Nat.succ_mul] at hmul
    rw [cnt, Script.count]
    omega
  · rw [cnt, Script.count, h.pc_eq heq, heq, List.take_zero, List.countP_nil, Nat.add_zero]

theorem NodeCtl.generated_le (h : NodeCtl act env r n) :
    n.nic.sendCq.generated ≤ P.cnt act Act.isPost r n := by
  cases hb : n.booted with
  | true =>
    have hq := h.queues hb
    have hsends := hq.sends
    have hpolled := hq.sendPolled
    have hgen := hq.sendCq
    rw [Nic.sqUsed] at hsends
    omega
  | false =>
    rw [(h.unbooted hb).2.2]
    exact Nat.zero_le _

theorem countP_all (r : Rank) :
    (P.lambda r).countP ((fun _ ↦ true) ∘ act) = (P.lambda r).length :=
  List.countP_eq_length.mpr fun _ _ ↦ rfl

theorem NodeCtl.nodeTaken_le (h : NodeCtl act env r n) :
    P.nodeTaken act r n ≤ P.nodeCost act env r := by
  have hall := h.cnt_le fun _ ↦ true
  have hpost := h.cnt_le Act.isPost
  have hgen := h.generated_le
  have hboot : n.booted.toNat ≤ 1 := Bool.toNat_le _
  rw [countP_all] at hall
  rw [nodeTaken, nodeCost, Nat.mul_add, Nat.mul_left_comm]
  omega

/-- A rank that has finished and has no request left has taken them all. -/
theorem NodeCtl.nodeTaken_finished (h : NodeCtl act env r n) (hfin : P.finished env n)
    (hout : n.nic.outstanding = []) : P.nodeTaken act r n = P.nodeCost act env r := by
  obtain ⟨hb, hiter⟩ := hfin
  obtain ⟨hsq, hunacked⟩ := List.append_eq_nil_iff.mp hout
  have hcnt (p : Act → Bool) :
      P.cnt act p r n = env.sizes.length * (P.lambda r).countP (p ∘ act) := by
    rw [cnt, Script.count, h.pc_eq hiter, hiter, List.take_zero, List.countP_nil, Nat.add_zero]
  have hq := h.queues hb
  have hsends := hq.sends
  have hpolled := hq.sendPolled
  have hgen := hq.sendCq
  rw [Nic.sqUsed, hsq, List.map_eq_nil_iff.mp hunacked, List.length_nil, List.length_nil] at hsends
  have hposts := hcnt Act.isPost
  rw [nodeTaken, nodeCost, hcnt fun _ ↦ true, countP_all, hb, hsq, Nat.mul_add, Nat.mul_left_comm,
    Bool.toNat_true, List.length_nil]
  omega

end

/-! ## Runs -/

/-- Both ranks have finished, and every completion has been consumed. -/
def Drained (P : Program) (env : P.Env) (s : P.Sys) : Prop :=
  ∀ r, P.finished env (s r) ∧ (s r).nic.outstanding = [] ∧ (s r).nic.sendCq.entries = [] ∧
    (s r).nic.recvCq.entries = []

/-- **A balanced program without deadlocks comes to an end**, after a number of steps that does not
depend on their order. -/
theorem endsAfter (W : WellScripted P act)
    (hprogress : ∀ s, (P.machine env).Reachable s → P.Progress env s) :
    (P.machine env).EndsAfter (P.start env) (P.cost act env) (P.Drained env) := by
  have hctl {s : P.Sys} (hs : (P.machine env).Reachable s) : Ctl act env s :=
    hs.invariant (fun _ ↦ ctl_init W) fun _ _ _ ↦ ctl_step W
  refine .of_count (f := P.taken act) (D := fun s ↦ ∀ r, P.finished env (s r)) (.init rfl)
    ?_ ?_ ?_ ?_ ?_
  · simp only [taken, nodeTaken, start, cnt, Script.count]
    simp
  · intro s a s' hs h
    exact taken_step W (hctl hs) h
  · intro s hs
    exact Nat.add_le_add ((hctl hs).node .r0).nodeTaken_le ((hctl hs).node .r1).nodeTaken_le
  · intro s hs hno
    obtain ⟨r, hr⟩ := not_forall.mp hno
    exact (hprogress s hs).1 r hr
  · intro s hs hfin
    have hdone := (hprogress s hs).2 hfin
    refine ⟨congrArg₂ (· + ·) (((hctl hs).node .r0).nodeTaken_finished (hfin _) (hdone .r0).1)
      (((hctl hs).node .r1).nodeTaken_finished (hfin _) (hdone .r1).1), fun r ↦ ?_⟩
    obtain ⟨hout, hsend, -, hrecv, -⟩ := hdone r
    exact ⟨hfin r, hout, hsend, hrecv⟩

end Program

/-- A lawful program comes to an end. -/
theorem Protocol.endsAfter {P : Program} {pr : Protocol P} {act : P.Stmt → Act} {env : P.Env}
    (L : pr.Lawful act) (G : pr.Progressive act) :
    (P.machine env).EndsAfter (P.start env) (P.cost act env) (P.Drained env) :=
  Program.endsAfter L.scripted fun _ hs ↦ ⟨fun _ ↦ progress L G hs, consumed L G hs⟩

/-- Seventeen statements of each rank in a round, with four requests. -/
theorem RdvWrite.cost_eq (env : rdvWrite.Env) :
    rdvWrite.cost RdvWrite.act env = 2 + 50 * env.sizes.length := by
  have hnode (r : Rank) : (rdvWrite.lambda r).length
      + 2 * (rdvWrite.lambda r).countP (Act.isPost ∘ RdvWrite.act) = 25 := by
    cases r <;> rfl
  rw [Program.cost, Program.nodeCost, Program.nodeCost, hnode, hnode]
  omega

/-- Fifteen statements, with three requests. -/
theorem RdvWriteImm.cost_eq (env : rdvWriteImm.Env) :
    rdvWriteImm.cost RdvWriteImm.act env = 2 + 42 * env.sizes.length := by
  have hnode (r : Rank) : (rdvWriteImm.lambda r).length
      + 2 * (rdvWriteImm.lambda r).countP (Act.isPost ∘ RdvWriteImm.act) = 21 := by
    cases r <;> rfl
  rw [Program.cost, Program.nodeCost, Program.nodeCost, hnode, hnode]
  omega

/-- Thirteen statements, with three requests. -/
theorem RdvRead.cost_eq (env : rdvRead.Env) :
    rdvRead.cost RdvRead.act env = 2 + 38 * env.sizes.length := by
  have hnode (r : Rank) : (rdvRead.lambda r).length
      + 2 * (rdvRead.lambda r).countP (Act.isPost ∘ RdvRead.act) = 19 := by
    cases r <;> rfl
  rw [Program.cost, Program.nodeCost, Program.nodeCost, hnode, hnode]
  omega

/-- **The three rendezvous programs come to an end**, for any sequence of sizes and any order of
steps. -/
theorem rendezvous_terminates :
    (∀ env, (rdvWrite.machine env).EndsAfter (rdvWrite.start env) (2 + 50 * env.sizes.length)
      (rdvWrite.Drained env)) ∧
    (∀ env, (rdvWriteImm.machine env).EndsAfter (rdvWriteImm.start env)
      (2 + 42 * env.sizes.length) (rdvWriteImm.Drained env)) ∧
    (∀ env, (rdvRead.machine env).EndsAfter (rdvRead.start env) (2 + 38 * env.sizes.length)
      (rdvRead.Drained env)) := by
  refine ⟨?_, ?_, ?_⟩
  · intro env
    rw [← RdvWrite.cost_eq env]
    exact Protocol.endsAfter RdvWrite.lawful RdvWrite.progressive
  · intro env
    rw [← RdvWriteImm.cost_eq env]
    exact Protocol.endsAfter RdvWriteImm.lawful RdvWriteImm.progressive
  · intro env
    rw [← RdvRead.cost_eq env]
    exact Protocol.endsAfter RdvRead.lawful RdvRead.progressive

end IbvBench
