import IbvBench.Protocol.Transport

/-!
# Lawful programs do what they announce

A statement of a rank keeps everything as announced, and with the two network steps of
`IbvBench.Protocol.Transport` this gives the main result, `Protocol.reachable_safe`: in every
reachable state of a lawful program everything is as announced, and no step faults.

The one place where the two ranks have to be looked at together is `ready`: a statement that looks at
`control_recv_buf` finds the message there whose completion it polled.  The peer cannot have sent
another one, because it is at most `ahead` messages ahead of what it has received from this rank,
and this rank has not sent that much.
-/

set_option autoImplicit false

namespace IbvBench

open StepMachine

namespace Protocol

variable {P : Program} {pr : Protocol P} {act : P.Stmt → Act} {env : P.Env}

/-! ## What a statement leaves alone -/

section

variable {r : Rank} {round msgSize : ℕ} {a : Act} {st st' : P.State}

theorem writeSendBuf_frame (st : P.State) (t : Bool) (r : Rank) (round msgSize : ℕ) :
    (st.writeSendBuf t r round msgSize).host.nic = st.host.nic ∧
      (st.writeSendBuf t r round msgSize).wc = st.wc ∧
      (st.writeSendBuf t r round msgSize).host.mem.msg = st.host.mem.msg ∧
      (st.writeSendBuf t r round msgSize).host.mem.buf .recvBuf = st.host.mem.buf .recvBuf := by
  rw [RankState.writeSendBuf]
  split <;> exact ⟨rfl, rfl, rfl, rfl⟩

/-- No statement touches the memory that the peer writes to. -/
theorem actSpec_mem (h : P.ActSpec env r round msgSize a st st') :
    st'.host.mem.msg .controlRecvBuf = st.host.mem.msg .controlRecvBuf ∧
      st'.host.mem.buf .recvBuf = st.host.mem.buf .recvBuf := by
  cases a with
  | internal => rw [h.1]; exact ⟨rfl, rfl⟩
  | fill =>
    obtain ⟨-, -, hm, hb⟩ := writeSendBuf_frame st env.touchData r round msgSize
    rw [show st' = _ from h, hm]
    exact ⟨rfl, hb⟩
  | check => rw [show st' = st from h]; exact ⟨rfl, rfl⟩
  | post op => exact ⟨h.2.2.2, congrFun h.2.2.1 _⟩
  | pollSend => obtain ⟨wc, cq, -, rfl⟩ := h; exact ⟨rfl, rfl⟩
  | pollRecv => obtain ⟨wc, cq, -, rfl⟩ := h; exact ⟨rfl, rfl⟩
  | repost => obtain ⟨nic, -, rfl⟩ := h; exact ⟨rfl, rfl⟩

theorem actSpec_sendBuf (h : P.ActSpec env r round msgSize a st st') (ha : a ≠ .fill) :
    st'.host.mem.buf .sendBuf = st.host.mem.buf .sendBuf := by
  cases a with
  | internal => rw [h.1]
  | fill => exact absurd rfl ha
  | check => rw [show st' = st from h]
  | post op => exact congrFun h.2.2.1 _
  | pollSend => obtain ⟨wc, cq, -, rfl⟩ := h; rfl
  | pollRecv => obtain ⟨wc, cq, -, rfl⟩ := h; rfl
  | repost => obtain ⟨nic, -, rfl⟩ := h; rfl

theorem actSpec_wc (h : P.ActSpec env r round msgSize a st st') (ha : a.isPoll = false) :
    st'.wc = st.wc := by
  cases a with
  | internal => exact h.2
  | fill => rw [show st' = _ from h]; exact (writeSendBuf_frame st _ r round msgSize).2.1
  | check => rw [show st' = st from h]
  | post op => exact h.2.1
  | pollSend | pollRecv => cases ha
  | repost => obtain ⟨nic, -, rfl⟩ := h; rfl

/-- The receive completions change by being polled. -/
theorem nicSpec_recvCq {nic nic' : Nic P.Msg} (h : P.NicSpec env r a nic nic') :
    nic'.recvCq.generated = nic.recvCq.generated ∧
      (nic'.recvCq = nic.recvCq ∨ ∃ wc, nic.recvCq.entries = wc :: nic'.recvCq.entries ∧
        nic'.recvCq.polled = nic.recvCq.polled + 1) := by
  cases a with
  | internal | fill | check => rw [show nic' = nic from h]; exact ⟨rfl, .inl rfl⟩
  | post op =>
    obtain ⟨w, -, rfl⟩ := h
    rw [Nic.posted]
    split <;> exact ⟨rfl, .inl rfl⟩
  | pollSend => obtain ⟨wc, cq, -, rfl⟩ := h; exact ⟨rfl, .inl rfl⟩
  | pollRecv =>
    obtain ⟨wc, cq, hq, rfl⟩ := h
    obtain ⟨h1, h2, h3⟩ := pollCQ_eq_ok hq
    exact ⟨h3, .inr ⟨wc, h1, h2⟩⟩
  | repost =>
    obtain ⟨h1, -⟩ := checkAndPostRecvs_frame h
    rw [h1]
    exact ⟨rfl, .inl rfl⟩

/-- A statement posts one request or none. -/
theorem nicSpec_sq {nic nic' : Nic P.Msg} (h : P.NicSpec env r a nic nic')
    (hroom : nic.sqUsed ≤ 1) : nic'.unacked = nic.unacked ∧
      ((a.isPost = false ∧ nic'.sq = nic.sq) ∨ ∃ w, a = .post w.opcode ∧ nic'.sq = nic.sq ++ [w]) := by
  cases a with
  | internal | fill | check => rw [show nic' = nic from h]; exact ⟨rfl, .inl ⟨rfl, rfl⟩⟩
  | post op =>
    obtain ⟨w, rfl, rfl⟩ := h
    have hlt : nic.sqUsed < (env.device r).config.maxSendNum := by
      simp only [Env.device]; omega
    rw [Nic.posted, if_pos hlt]
    exact ⟨rfl, .inr ⟨w, rfl, rfl⟩⟩
  | pollSend => obtain ⟨wc, cq, -, rfl⟩ := h; exact ⟨rfl, .inl ⟨rfl, rfl⟩⟩
  | pollRecv => obtain ⟨wc, cq, -, rfl⟩ := h; exact ⟨rfl, .inl ⟨rfl, rfl⟩⟩
  | repost =>
    obtain ⟨-, -, h2, h3⟩ := checkAndPostRecvs_frame h
    exact ⟨h3, .inl ⟨rfl, h2⟩⟩

end

/-! ## What a statement may rely on -/

/-- The message of index `perRound * k + i` is the `i`th of round `k`. -/
theorem nthArrival_eq {r : Rank} {k i m : ℕ} (hi : i < pr.perRound) (hm : m = k * pr.perRound + i) :
    pr.nthArrival env r m = pr.arrival env r k (pr.sendAt r.peer i) := by
  have hm' : m = i + pr.perRound * k := by rw [hm, Nat.mul_comm]; omega
  rw [nthArrival, nth, hm', Nat.add_mul_div_left _ _ (by omega), Nat.add_mul_mod_self_left,
    Nat.div_eq_of_lt hi, Nat.mod_eq_of_lt hi, Nat.zero_add]

/-- Where a rank looks at the control buffer, every message that has arrived has been polled. -/
theorem generated_eq_polled (L : pr.Lawful act) {s : P.Sys} (hc : P.Ctl act env s) {r : Rank}
    (hb : (s r).booted = true) (hpc : (s r).pc < (P.lambda r).length)
    (hr : pr.reads (P.lambda r)[(s r).pc] = true) (hpos : 0 < passed act Act.isPollRecv r (s r).pc) :
    (s r).nic.recvCq.generated = (s r).nic.recvCq.polled := by
  obtain ⟨hwin, -⟩ := L.placed.reads r _ hpc hr
  have hq := (hc.node r).queues hb
  have hpolled := hq.recvPolled
  have hgen := hq.recvCq
  have hlink := hc.link r
  have hlinkp := hc.link_peer r
  rw [cnt_eq, (L.placed.perRound r).2] at hpolled
  rw [cnt_eq, (L.placed.perRound r).1] at hlink
  rw [cnt_eq, (L.placed.perRound r.peer).1] at hlinkp
  by_cases hbp : (s r.peer).booted = true
  · have hqp := (hc.node r.peer).queues hbp
    have hwinp := L.placed.window r.peer _ (hc.node r.peer).pc_lt
    have hpolledp := hqp.recvPolled
    have hgenp := hqp.recvCq
    rw [cnt_eq, (L.placed.perRound r.peer).2] at hpolledp
    omega
  · obtain ⟨hiter, hpc', -⟩ := (hc.node r.peer).unbooted (by simpa using hbp)
    rw [hiter, hpc', passed, List.take_zero, List.countP_nil] at hlinkp
    omega

theorem ready (L : pr.Lawful act) {s : P.Sys} (hc : P.Ctl act env s) (hi : pr.Inv env act s)
    {r : Rank} {ℓ : P.Stmt} (hb : (s r).booted = true) (hℓ : (P.lambda r)[(s r).pc]? = some ℓ) :
    pr.Ready env act r (s r).iter ℓ (s r).st := by
  have hn := hi.node r hb ℓ hℓ
  have hq := (hc.node r).queues hb
  have hused := sqUsed_eq L hc hb hℓ
  obtain ⟨hpc, hget⟩ := exists_getElem hℓ
  refine ⟨hn.heap, hn.own, hn.wc, ?_, ?_, ?_, ?_, fun _ ↦ hn.sendCq, ?_, ?_⟩
  · intro hr p hp
    subst hget
    obtain ⟨-, hreads⟩ := L.placed.reads r _ hpc hr
    obtain ⟨hact, hop, i, hlt, hpassed, hsend⟩ := hreads p hp
    have hgen := generated_eq_polled L hc hb hpc hr (by omega)
    have hpolled := hq.recvPolled
    rw [cnt_eq, (L.placed.perRound r).2, hpassed] at hpolled
    have harr : pr.nthArrival env r ((s r).iter * pr.perRound + i)
        = pr.arrival env r (s r).iter (pr.sendAt r.peer i) := nthArrival_eq hlt rfl
    have hctl := hn.control ((s r).iter * pr.perRound + i) (by omega)
    rw [harr, hsend] at hctl
    exact Option.some.inj (hctl (by rw [arrival, L.opcode env _ _ _ hact, hop]))
  · intro hf
    subst hget
    have hbuf := hn.sendBuf
    rw [cnt_eq, L.placed.fills, L.placed.filled r _ hpc hf, Nat.mul_one] at hbuf
    exact hbuf.bytes_eq
  · intro ha
    obtain ⟨htr, hpeer⟩ := L.checks hc hb hℓ ha
    refine hi.recvBuf r _ ?_
    rw [if_neg (by rw [ha]; decide)] at hused
    have hsq : (s r).nic.sq = [] ∧ (s r).nic.unacked = [] := by
      rw [Nic.sqUsed] at hused
      exact ⟨List.eq_nil_of_length_eq_zero (by omega), List.eq_nil_of_length_eq_zero (by omega)⟩
    have hwrites : (s r.peer).nic.sq.countP (·.opcode.isWrite) = 0 := by
      rw [List.countP_eq_zero]
      intro w hw hwrite
      obtain ⟨-, -, hpc', ha', hn'⟩ := waiting L hc hi (sqUsed_ne_zero_of_sq hw)
      have hopw := (hn'.sq w hw).opcode L ha'
      rw [hopw] at hwrite
      obtain ⟨hcons, hzero⟩ := hpeer _ (List.getElem?_eq_getElem hpc') ha' hwrite
      rw [List.countP_eq_zero] at hzero
      exact hzero w hw (by rw [SendWr.consumesRecv, hopw, hcons])
    rw [pending, hsq.1, hsq.2, hwrites, htr]
    rfl
  · intro ha
    rw [if_neg (by rintro h; rw [h] at ha; cases ha)] at hused
    exact hused
  · intro ha c hcm
    subst hget
    obtain ⟨hlt, hsend⟩ := L.placed.receives r _ hpc ha
    have hpolled := hq.recvPolled
    rw [cnt_eq, (L.placed.perRound r).2] at hpolled
    rcases hentries : (s r).nic.recvCq.entries with _ | ⟨wc, rest⟩
    · rw [show (s r).st.host.nic.recvCq.entries = [] from hentries] at hcm
      cases hcm
    · rw [show (s r).st.host.nic.recvCq.entries = wc :: rest from hentries] at hcm
      obtain rfl : wc = c := Option.some.inj hcm
      have hlist := hn.recvCq
      rw [hentries, List.length_cons, List.range'_succ, List.map_cons] at hlist
      rw [(List.cons.inj hlist).1, nthArrival_eq hlt hpolled, hsend]
  · intro ha
    subst hget
    have h1 := Program.cnt_repost_after L.scripted hpc ha
    have h2 := hq.recvs
    have h8 : (s r).nic.recvs + 1 = 8 := by omega
    exact ⟨_, Program.repost_eq _ hq.posted h8 (by omega)⟩

/-! ## What it establishes -/

section

variable {s : P.Sys} {r : Rank} {st : P.State}

/-- The position after a statement that is not the last one of the round. -/
theorem advance_of_not_ends (L : pr.Lawful act) {n : Node P.Msg P.Obj P.Ext}
    (hpc : n.pc < (P.lambda r).length) (he : pr.ends r (P.lambda r)[n.pc] = false) :
    (P.advance r n st).st = st ∧ (P.advance r n st).iter = n.iter := by
  have hne : ¬ n.pc + 1 = (P.lambda r).length := by
    have h := L.placed.ends r _ hpc
    rw [he] at h
    simpa using h.symm
  simp [Program.advance, Script.next, hne]

theorem advance_iter_eq (L : pr.Lawful act) {n : Node P.Msg P.Obj P.Ext}
    (hpc : n.pc < (P.lambda r).length) :
    (P.advance r n st).iter = pr.nextRound r n.iter (P.lambda r)[n.pc] := by
  have h := L.placed.ends r _ hpc
  rw [nextRound, h, Program.advance, Script.next]
  by_cases he : n.pc + 1 = (P.lambda r).length <;> simp [he]

theorem advance_stmt (L : pr.Lawful act) {n : Node P.Msg P.Obj P.Ext}
    (hpc : n.pc < (P.lambda r).length) :
    (P.lambda r)[(P.advance r n st).pc]? = some (pr.succ (P.lambda r)[n.pc]) := by
  have hsnd : (P.advance r n st).pc = (Script.next (P.lambda r) 0 n.pc).2 := by
    simp only [Program.advance, Script.next]
    split <;> rfl
  rw [hsnd]
  exact L.placed.next r _ hpc

/-- `wc` holds the completion that the next statement looks at. -/
theorem advance_wc (L : pr.Lawful act) (hpc : (s r).pc < (P.lambda r).length)
    (hready : pr.Ready env act r (s r).iter (P.lambda r)[(s r).pc] (s r).st)
    {round msgSize : ℕ}
    (hspec : P.ActSpec env r round msgSize (act (P.lambda r)[(s r).pc]) (s r).st st) {p : P.Stmt}
    (hp : pr.handles (pr.succ (P.lambda r)[(s r).pc]) = some p) :
    (P.advance r (s r) st).st.wc
      = some (pr.completion env act r (P.advance r (s r) st).iter p) := by
  obtain ⟨he, hcase⟩ := L.placed.handles r _ hpc p hp
  obtain ⟨hst, hiter⟩ : (P.advance r (s r) st).st = st ∧
      (P.advance r (s r) st).iter = (s r).iter := advance_of_not_ends L hpc he
  rw [hst, hiter]
  rcases hcase with ⟨rfl, hpoll⟩ | ⟨hh, hnot⟩
  · rcases Act.isPoll_iff.mp hpoll with ha | ha <;> rw [ha] at hspec
    · obtain ⟨wc, cq, hq, rfl⟩ := hspec
      have hmem : wc ∈ (s r).st.host.nic.sendCq.entries := by
        rw [(pollCQ_eq_ok hq).1]; exact List.mem_cons_self
      rw [completion, if_pos ha, ← hready.sendCq ha wc hmem]
    · obtain ⟨wc, cq, hq, rfl⟩ := hspec
      have hmem : wc ∈ (s r).st.host.nic.recvCq.entries.head? := by
        rw [(pollCQ_eq_ok hq).1]; rfl
      rw [completion, if_neg (by rw [ha]; decide), ← hready.recvCq ha wc hmem]
  · rw [actSpec_wc hspec hnot]
    exact hready.wc p hh

/-- `send_buf` has been written as often as the script says. -/
theorem advance_sendBuf (L : pr.Lawful act) (hpc : (s r).pc < (P.lambda r).length)
    (hn : pr.NodeInv env act r (P.lambda r)[(s r).pc] (s r))
    (hspec : P.ActSpec env r (s r).iter (env.size (s r).iter) (act (P.lambda r)[(s r).pc])
      (s r).st st) :
    env.SendBufAt r (P.cnt act Act.isFill r (P.advance r (s r) st)) (st.host.mem.buf .sendBuf) := by
  have hcnt : P.cnt act Act.isFill r (P.advance r (s r) st)
      = P.cnt act Act.isFill r (s r) + if (act (P.lambda r)[(s r).pc]).isFill then 1 else 0 :=
    Program.cnt_advance Act.isFill hpc st
  have hbuf := hn.sendBuf
  by_cases ha : act (P.lambda r)[(s r).pc] = .fill
  · have hk : P.cnt act Act.isFill r (s r) = (s r).iter := by
      rw [cnt_eq, L.placed.fills, L.placed.fill r _ hpc ha]
      omega
    rw [ha] at hcnt hspec
    rw [hk] at hcnt hbuf
    rw [hcnt, show st = _ from hspec]
    exact sendBufAt_fill hbuf
  · have hno : Act.isFill (act (P.lambda r)[(s r).pc]) = false := by
      rw [Act.isFill]; simpa using ha
    rw [hno] at hcnt
    rw [hcnt, actSpec_sendBuf hspec ha]
    exact hbuf

/-- Only a request that a statement has just posted is outstanding behind it. -/
theorem outstanding_statement (L : pr.Lawful act) {k pc : ℕ} (hpc : pc < (P.lambda r).length)
    (hdone : pr.Done env act r k (P.lambda r)[pc] st)
    (hused : st.host.nic.sqUsed = if act (pr.succ (P.lambda r)[pc]) = .pollSend then 1 else 0) :
    st.host.nic.unacked = [] ∧ st.host.nic.sendCq.entries = [] ∧ ∀ w ∈ st.host.nic.sq,
      pr.Carries env r (pr.nextRound r k (P.lambda r)[pc]) (pr.succ (P.lambda r)[pc])
        st.host.mem w := by
  by_cases ha : act (pr.succ (P.lambda r)[pc]) = .pollSend
  · obtain ⟨hpost, he⟩ := L.placed.waits r _ hpc ha
    obtain ⟨sq, w, hsq, hcar⟩ := hdone.posted (by rw [hpost]; rfl)
    rw [if_pos ha, Nic.sqUsed, hsq, List.length_append, List.length_singleton] at hused
    obtain rfl : sq = [] := List.eq_nil_of_length_eq_zero (by omega)
    refine ⟨List.eq_nil_of_length_eq_zero (by omega), List.eq_nil_of_length_eq_zero (by omega),
      fun w' hw' ↦ ?_⟩
    rw [hsq] at hw'
    rw [List.mem_singleton.mp hw', nextRound, he]
    exact hcar
  · rw [if_neg ha, Nic.sqUsed] at hused
    have hnil : st.host.nic.sq = [] := List.eq_nil_of_length_eq_zero (by omega)
    refine ⟨List.eq_nil_of_length_eq_zero (by omega), List.eq_nil_of_length_eq_zero (by omega),
      fun w hw ↦ ?_⟩
    rw [hnil] at hw
    cases hw

/-- The node after a statement. -/
theorem nodeInv_advance (L : pr.Lawful act) {s' : P.Sys} (hc : P.Ctl act env s)
    (hc' : P.Ctl act env s') (hi : pr.Inv env act s) (hb : (s r).booted = true)
    (hpc : (s r).pc < (P.lambda r).length)
    (hspec : P.ActSpec env r (s r).iter (env.size (s r).iter) (act (P.lambda r)[(s r).pc])
      (s r).st st)
    (hdone : pr.Done env act r (s r).iter (P.lambda r)[(s r).pc] st)
    (hs' : s' r = P.advance r (s r) st) :
    pr.NodeInv env act r (pr.succ (P.lambda r)[(s r).pc]) (s' r) := by
  have hℓ : (P.lambda r)[(s r).pc]? = some (P.lambda r)[(s r).pc] := List.getElem?_eq_getElem hpc
  have hn := hi.node r hb _ hℓ
  have hready := ready L hc hi hb hℓ
  have hiter : (s' r).iter = pr.nextRound r (s r).iter (P.lambda r)[(s r).pc] := by
    rw [hs']; exact advance_iter_eq L hpc
  have hhost : (s' r).st.host = st.host := by rw [hs', Program.advance_host]
  have hstmt : (P.lambda r)[(s' r).pc]? = some (pr.succ (P.lambda r)[(s r).pc]) := by
    rw [hs']; exact advance_stmt L hpc
  have hused := sqUsed_eq L hc' (r := r) (by rw [hs']; exact hb) hstmt
  rw [Node.nic, hhost] at hused
  obtain ⟨hunacked, hentries, hcarries⟩ := outstanding_statement L hpc hdone hused
  obtain ⟨hctl, -⟩ := actSpec_mem hspec
  obtain ⟨hgen, hrecv⟩ := nicSpec_recvCq hspec.nic
  refine ⟨?_, ?_, ?_, ?_, ?_, ?_, ?_, ?_, ?_⟩
  · rw [hiter, hs', Program.advance_heap]
    exact hdone.heap
  · rw [hiter, Node.mem, hhost, hs', Program.advance_ext]
    exact hdone.own
  · intro p hp
    rw [hs']
    exact advance_wc L hpc hready hspec hp
  · rw [Node.mem, hhost, hs']
    exact advance_sendBuf L hpc hn hspec
  · intro w hw
    rw [Node.nic, hhost] at hw
    rw [Node.mem, hhost, hiter]
    exact hcarries w hw
  · intro a hu
    rw [Node.nic, hhost, hunacked] at hu
    cases hu
  · intro c hcm
    rw [Node.nic, hhost, hentries] at hcm
    cases hcm
  · rw [Node.nic, hhost]
    rcases hrecv with heq | ⟨wc, hentries, hpolled⟩
    · rw [heq]
      exact hn.recvCq
    · have hlist := hn.recvCq
      rw [Node.nic, hentries, List.length_cons, List.range'_succ, List.map_cons] at hlist
      rw [hpolled]
      exact (List.cons.inj hlist).2
  · rw [Node.nic, Node.mem, hhost, hgen, hctl]
    exact hn.control

/-- The system after a statement. -/
theorem inv_statement (L : pr.Lawful act) {s' : P.Sys} (hc : P.Ctl act env s)
    (hc' : P.Ctl act env s') (hi : pr.Inv env act s) (hb : (s r).booted = true)
    (hpc : (s r).pc < (P.lambda r).length)
    (hspec : P.ActSpec env r (s r).iter (env.size (s r).iter) (act (P.lambda r)[(s r).pc])
      (s r).st st)
    (hdone : pr.Done env act r (s r).iter (P.lambda r)[(s r).pc] st)
    (hr : s' r = P.advance r (s r) st) (hp : s' r.peer = s r.peer) : pr.Inv env act s' := by
  have hhost : (s' r).st.host = st.host := by rw [hr, Program.advance_host]
  have hcnt (p : Act → Bool) : P.cnt act p r (s' r)
      = P.cnt act p r (s r) + if p (act (P.lambda r)[(s r).pc]) then 1 else 0 := by
    rw [hr]; exact Program.cnt_advance p hpc st
  obtain ⟨hunacked, hsq⟩ := nicSpec_sq hspec.nic ((hc.node r).sqUsed_le L.scripted)
  -- posting a transfer adds one to those posted and one to those pending
  have hwrites : (s' r).nic.sq.countP (·.opcode.isWrite) = (s r).nic.sq.countP (·.opcode.isWrite) +
      if Act.isPostWrite (act (P.lambda r)[(s r).pc]) then 1 else 0 := by
    rw [Node.nic, hhost]
    rcases hsq with ⟨ha, hsq⟩ | ⟨w, ha, hsq⟩ <;> rw [hsq]
    · rw [(Act.not_transfer ha).1]
      rfl
    · rw [List.countP_append, List.countP_singleton, ha]
      rfl
  have hreads : (s' r).nic.sq.countP (·.opcode == .rdmaRead)
      = (s r).nic.sq.countP (·.opcode == .rdmaRead) +
      if Act.isPostRead (act (P.lambda r)[(s r).pc]) then 1 else 0 := by
    rw [Node.nic, hhost]
    rcases hsq with ⟨ha, hsq⟩ | ⟨w, ha, hsq⟩ <;> rw [hsq]
    · rw [(Act.not_transfer ha).2]
      rfl
    · rw [List.countP_append, List.countP_singleton, ha]
      cases w.opcode <;> rfl
  refine Inv.of_peer r ?_ ?_ ?_ ?_ ?_
  · intro x hx
    rcases r.eq_or_eq_peer x with rfl | rfl
    · rw [hr, Program.advance_booted] at hx
      exact absurd (hb.symm.trans hx) (by decide)
    · rw [hp] at hx ⊢
      exact hi.unbooted r.peer hx
  · intro _ ℓ hℓ
    have hstmt : (P.lambda r)[(s' r).pc]? = some (pr.succ (P.lambda r)[(s r).pc]) := by
      rw [hr]; exact advance_stmt L hpc
    obtain rfl := Option.some.inj (hstmt.symm.trans hℓ)
    exact nodeInv_advance L hc hc' hi hb hpc hspec hdone hr
  · intro hbp ℓ hℓ
    rw [hp] at hbp hℓ ⊢
    exact hi.node r.peer hbp ℓ hℓ
  · intro j hj
    rw [transfers, pending, hcnt, hreads, hp] at hj
    simp only [Node.nic, hhost, hunacked] at hj
    have hbytes := hi.recvBuf r j (by rw [transfers, pending]; simp only [Node.nic]; omega)
    rw [← hbytes]
    simp only [Mem.bytes, Node.mem, hhost, (actSpec_mem hspec).2]
  · intro j hj
    rw [transfers, pending, Rank.peer_peer, hcnt, hwrites, hp] at hj
    have hbytes := hi.recvBuf r.peer j (by rw [transfers, pending, Rank.peer_peer]; omega)
    rw [Rank.peer_peer] at hbytes
    rw [hp]
    exact hbytes

end

/-! ## Start -/

/-- The system after a rank has posted its first receives. -/
theorem inv_boot {s s' : P.Sys} {r : Rank} (hc : P.Ctl act env s)
    (hi : pr.Inv env act s) (hb : (s r).booted = false) {nic : Nic P.Msg} {ext : P.Ext}
    (hnic : P.repost env r {} = .ok nic)
    (hext : ∀ (env : P.Env) r ℓ m, (P.lambda r)[0]? = some ℓ →
      pr.heapAt env r 0 ℓ = {} ∧ pr.handles ℓ = none ∧ pr.Local env r 0 ℓ ext m)
    (hr : s' r = { s r with booted := true, st := { (s r).st with
      host := { (s r).st.host with nic }, ext } })
    (hp : s' r.peer = s r.peer) : pr.Inv env act s' := by
  obtain ⟨hiter, hpc, hnil⟩ := (hc.node r).unbooted hb
  obtain ⟨hheap, -, hbuf⟩ := hi.unbooted r hb
  have hposted := Program.repost_eq_ok (k := 8) hnic rfl rfl (by omega)
  have hnic' : (s' r).nic = nic := by rw [hr]
  have hmem : (s' r).mem = (s r).mem := by rw [hr]
  have hcnt (p : Act → Bool) : P.cnt act p r (s' r) = P.cnt act p r (s r) := by
    rw [hr]; rfl
  refine Inv.of_peer r ?_ ?_ ?_ ?_ ?_
  · intro x hx
    rcases r.eq_or_eq_peer x with rfl | rfl
    · rw [hr] at hx
      cases hx
    · rw [hp] at hx ⊢
      exact hi.unbooted r.peer hx
  · intro _ ℓ hℓ
    have hiter' : (s' r).iter = 0 := by rw [hr]; exact hiter
    have hℓ0 : (P.lambda r)[0]? = some ℓ := by
      rw [hr] at hℓ
      simpa only [hpc] using hℓ
    have hstate : (s' r).st.heap = {} ∧ (s' r).st.ext = ext := by rw [hr]; exact ⟨hheap, rfl⟩
    obtain ⟨h1, h2, h3⟩ := hext env r ℓ ((s' r).mem.msg .rtsMsg) hℓ0
    refine ⟨?_, ?_, ?_, ?_, ?_, ?_, ?_, ?_, ?_⟩
    · rw [hstate.1, hiter', h1]
    · rw [hstate.2, hiter']
      exact h3
    · intro p hp'
      rw [h2] at hp'
      cases hp'
    · rw [hcnt, Program.cnt_start _ hiter hpc, hmem, Env.SendBufAt, hbuf]
      split
      · intro j hj
        omega
      · rfl
    · intro w hw
      rw [hnic', hposted] at hw
      cases hw
    · intro a ha
      rw [hnic', hposted] at ha
      cases ha
    · intro c hcm
      rw [hnic', hposted] at hcm
      cases hcm
    · rw [hnic', hposted]
      rfl
    · intro m hm
      rw [hnic', hposted] at hm
      cases hm
  · intro hbp ℓ hℓ
    rw [hp] at hbp hℓ ⊢
    exact hi.node r.peer hbp ℓ hℓ
  · intro j hj
    have hold := hi.recvBuf r j
    rw [pending, transfers, hnil] at hold
    rw [pending, transfers, hcnt, hnic', hposted, hp] at hj
    rw [hmem]
    exact hold hj
  · intro j hj
    have hold := hi.recvBuf r.peer j
    rw [pending, transfers, Rank.peer_peer, hnil] at hold
    rw [pending, transfers, Rank.peer_peer, hcnt, hnic', hposted, hp] at hj
    rw [hp]
    exact hold hj

/-! ## The main result -/

theorem inv_init {s : P.Sys} (h : (P.machine env).init s) :
    pr.Inv env act s := by
  subst h
  refine ⟨fun r _ ↦ ⟨rfl, rfl, rfl⟩, fun r hb ↦ by simp [Program.start] at hb, fun r j hj ↦ ?_⟩
  simp only [transfers, Program.start, Program.cnt_start] at hj
  omega

/-- **A step of a rank keeps everything as announced.** -/
theorem inv_rank (L : pr.Lawful act) {s : P.Sys} (hc : P.Ctl act env s) (hi : pr.Inv env act s)
    (r : Rank) : Safe (P.step env s (.rank r)) (pr.Inv env act) := by
  by_cases hb : (s r).booted = true
  · obtain ⟨ℓ, hℓ⟩ := exists_stmt hc r
    by_cases hiter : (s r).iter < env.sizes.length
    · have hready := ready L hc hi hb hℓ
      have hsafe := L.exec_safe hiter hℓ hready
      obtain ⟨hpc, rfl⟩ := exists_getElem hℓ
      have hstep : P.step env s (.rank r) =
          P.exec env r (s r).iter (env.size (s r).iter) (P.lambda r)[(s r).pc] (s r).st >>=
            fun st ↦ .ok (Function.update s r (P.advance r (s r) st)) := by
        simp only [Program.step, Program.rankStep, hb, if_true, List.getElem?_eq_getElem hiter, hℓ,
          env.size_eq hiter]
        cases P.exec env r (s r).iter env.sizes[(s r).iter] (P.lambda r)[(s r).pc] (s r).st <;> rfl
      rw [hstep]
      refine (hsafe.and (R := fun st ↦ P.exec env r (s r).iter (env.size (s r).iter)
        (P.lambda r)[(s r).pc] (s r).st = .ok st) fun st hst ↦ hst).bind ?_
      rintro st ⟨hdone, hst⟩
      have hc' : P.Ctl act env (Function.update s r (P.advance r (s r) st)) := by
        refine Program.ctl_step L.scripted (a := .rank r) hc ?_
        rw [hstep, hst]
        rfl
      exact safe_ok.mpr (inv_statement L hc hc' hi hb hpc (L.scripted.exec_spec hst) hdone
        (Function.update_self ..) (Function.update_of_ne r.peer_ne ..))
    · have hnone : env.sizes[(s r).iter]? = none := by simpa using hiter
      simp [Program.step, Program.rankStep, hb, hnone]
  · have hb' : (s r).booted = false := by simpa using hb
    obtain ⟨-, -, hnil⟩ := (hc.node r).unbooted hb'
    have hnil' : (s r).st.host.nic = {} := hnil
    have hext0 : (s r).st.ext = P.ext0 := (hi.unbooted r hb').2.1
    have hboot : P.repost env r {} = .ok { ({} : Nic P.Msg) with
        postedRecvNum := 8, srq := [] ++ List.replicate 8 (P.recvWr env r) } :=
      Program.repost_eq _ rfl rfl (by omega)
    have hstep : P.step env s (.rank r) = P.setup P.ext0 >>= fun ext ↦
        .ok (Function.update s r { s r with booted := true, st := { (s r).st with
          host := { (s r).st.host with nic := { ({} : Nic P.Msg) with
            postedRecvNum := 8, srq := [] ++ List.replicate 8 (P.recvWr env r) } }, ext } }) := by
      simp only [Program.step, Program.rankStep, hb', Bool.false_eq_true, if_false, Program.boot,
        hnil', hboot, hext0, ok_bind]
      cases P.setup P.ext0 <;> rfl
    rw [hstep]
    refine L.setup.bind fun ext hext ↦ safe_ok.mpr ?_
    exact inv_boot hc hi hb' hboot hext (Function.update_self ..)
      (Function.update_of_ne r.peer_ne ..)

/-- **In every reachable state of a lawful program everything is as announced, and no step
faults.** -/
theorem reachable_safe (L : pr.Lawful act) {s : P.Sys} (hs : (P.machine env).Reachable s) :
    (P.Ctl act env s ∧ pr.Inv env act s) ∧ ∀ a f, P.step env s a ≠ .error (.fault f) := by
  refine Machine.reachable_safe (M := P.machine env)
    (I := fun s ↦ P.Ctl act env s ∧ pr.Inv env act s)
    (fun s h ↦ ⟨Program.ctl_init L.scripted h, inv_init h⟩) ?_ hs
  rintro s a ⟨hc, hi⟩
  have hinv : Safe (P.step env s a) (pr.Inv env act) := by
    cases a with
    | rank r => exact inv_rank L hc hi r
    | deliver r => exact inv_deliver L hc hi r
    | complete r => exact inv_complete L hc hi r
  exact (hinv.and (R := P.Ctl act env) fun s' h ↦ Program.ctl_step L.scripted hc h).mono
    fun s' h ↦ ⟨h.2, h.1⟩

/-! ## Consequences for every lawful program -/

/-- An outstanding request, whether or not it has been executed, is the one announced. -/
theorem outstanding_eq (L : pr.Lawful act) {s : P.Sys} (hc : P.Ctl act env s)
    (hi : pr.Inv env act s) {r : Rank} {w : SendWr P.Msg} (hw : w ∈ (s r).nic.outstanding) :
    (s r).booted = true ∧ ∃ hpc : (s r).pc < (P.lambda r).length,
      act (P.lambda r)[(s r).pc] = .pollSend ∧
        { w with inlined := none } = pr.wr env r (s r).iter (P.lambda r)[(s r).pc] ∧
        w.opcode = pr.op (P.lambda r)[(s r).pc] := by
  rcases List.mem_append.mp hw with hw | hw
  · obtain ⟨hb, -, hpc, ha, hn⟩ := waiting L hc hi (sqUsed_ne_zero_of_sq hw)
    exact ⟨hb, hpc, ha, (hn.sq w hw).eq, (hn.sq w hw).opcode L ha⟩
  · obtain ⟨a, hau, rfl⟩ := List.mem_map.mp hw
    obtain ⟨hb, -, hpc, ha, hn⟩ := waiting L hc hi (sqUsed_ne_zero_of_unacked hau)
    exact ⟨hb, hpc, ha, (hn.unacked a hau).eq, (hn.unacked a hau).opcode L ha⟩

/-- While a request of a rank is outstanding, its message slots and its send buffer do not change. -/
theorem own_mem_stable (L : pr.Lawful act) {s s' : P.Sys} (hc : P.Ctl act env s)
    (hi : pr.Inv env act s) {a : Action} (hs : P.step env s a = .ok s') {r : Rank}
    (hpc : (s r).pc < (P.lambda r).length) (hb : (s r).booted = true)
    (ha : act (P.lambda r)[(s r).pc] = .pollSend) :
    (∀ x, x ≠ .controlRecvBuf → (s' r).mem.msg x = (s r).mem.msg x) ∧
      (s' r).mem.buf .sendBuf = (s r).mem.buf .sendBuf := by
  cases a with
  | rank x =>
    obtain ⟨n, hn, he⟩ := bind_eq_ok.mp hs
    cases he
    rcases x.eq_or_eq_peer r with rfl | rfl
    · rcases Program.rankStep_eq_ok hn with ⟨hb', -⟩ | ⟨_, _, st, -, hst, rfl⟩
      · exact absurd (hb.symm.trans hb') (by decide)
      · have hspec := L.scripted.exec_spec hst
        rw [ha] at hspec
        obtain ⟨wc, cq, -, rfl⟩ := hspec
        rw [Function.update_self, Node.mem, Program.advance_host]
        exact ⟨fun _ _ ↦ rfl, rfl⟩
    · rw [Function.update_of_ne x.peer_ne]
      exact ⟨fun _ _ ↦ rfl, rfl⟩
  | deliver x =>
    obtain ⟨_, _, _, _, -, -, -, hl, -, hr, hp⟩ := (deliver_safe L hc hi x).of_ok hs
    rcases x.eq_or_eq_peer r with rfl | rfl
    · rw [hr]
      exact ⟨fun _ _ ↦ rfl, rfl⟩
    · rw [hp]
      exact ⟨hl.msg, hl.sendBuf⟩
  | complete x =>
    obtain ⟨_, _, _, -, -, -, -, hl, hr, hp⟩ := (complete_safe L hc hi x).of_ok hs
    rcases x.eq_or_eq_peer r with rfl | rfl
    · rw [hr]
      exact ⟨fun y _ ↦ congrFun hl.msg y, hl.sendBuf⟩
    · rw [hp]
      exact ⟨fun _ _ ↦ rfl, rfl⟩

/-- **No step overwrites what an outstanding request is sent from.** -/
theorem outstanding_stable (L : pr.Lawful act) {s s' : P.Sys} (hc : P.Ctl act env s)
    (hi : pr.Inv env act s) {a : Action} (hs : P.step env s a = .ok s') {r : Rank}
    {w : SendWr P.Msg} (hw : w ∈ (s r).nic.outstanding) (hop : w.opcode ≠ .rdmaRead) :
    (s' r).mem.dmaRead w.addr w.length = (s r).mem.dmaRead w.addr w.length := by
  obtain ⟨hb, hpc, ha, heq, hopw⟩ := outstanding_eq L hc hi hw
  obtain ⟨hmsg, hbuf⟩ := own_mem_stable L hc hi hs hpc hb ha
  exact dmaRead_eq L ha (hopw ▸ hop) heq hmsg hbuf

/-- A rank that is about to execute `ℓ`. -/
theorem ready_of_stmt (L : pr.Lawful act) {s : P.Sys} (hc : P.Ctl act env s)
    (hi : pr.Inv env act s) {r : Rank} {ℓ : P.Stmt} (hℓ : P.stmt env r (s r) = some ℓ) :
    (s r).iter < env.sizes.length ∧ pr.Ready env act r (s r).iter ℓ (s r).st := by
  rw [Program.stmt] at hℓ
  split at hℓ
  · rename_i h
    exact ⟨h.2, ready L hc hi h.1 hℓ⟩
  · cases hℓ

/-- **A handler looks at the message whose completion it was given.** -/
theorem reads_polled (L : pr.Lawful act) {r : Rank} {k : ℕ} {ℓ p : P.Stmt} {st : P.State}
    (h : pr.Ready env act r k ℓ st) (hr : pr.reads ℓ = true) (hp : pr.handles ℓ = some p)
    (hrecv : act p = .pollRecv) :
    ∃ wc, st.wc = some wc ∧ wc.wrId = .reg (.msg .controlRecvBuf) ∧
      wc.payload = some (.msg (st.host.mem.msg .controlRecvBuf)) := by
  refine ⟨_, h.wc p hp, ?_, ?_⟩
  · rw [completion, if_neg (by rw [hrecv]; decide), arrival, L.recvWr]
  · rw [completion, if_neg (by rw [hrecv]; decide), arrival, ← h.control hr p hp]

end Protocol

end IbvBench
