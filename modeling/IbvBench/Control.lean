import IbvBench.Bench

/-!
# The control skeleton of a two-process program

What the queues look like depends only on how far each rank has come in its script, not on the
messages.  This file proves that part once for every `Program`.

Each statement is classified by its `Act`: it posts a send, polls one of the completion queues,
reposts receives, or does nothing to the queues.  A program is `WellScripted` when its statements
really behave as classified and its scripts are balanced: every send is followed by the poll of its
completion, and every polled receive by a repost.  Then `Ctl` holds in every reachable state, and it
expresses every queue length as a difference of two counts along the scripts:

* the sends outstanding at a rank are the posts minus the send polls, hence at most one;
* the receives to the account of a rank are `max_recv_num`, but for one between a poll and the
  repost;
* the receive completions generated at a rank are the peer's posts that consume a receive, but for
  the one still in flight.

The last line is the only one that couples the two ranks, and all of the reasoning about which
message can be where goes through it.
-/

set_option autoImplicit false

namespace IbvBench

open StepMachine

/-- What a statement does to the queues and the data buffers. -/
inductive Act where
  /-- Nothing. -/
  | internal
  /-- It writes the bytes of the round to `send_buf`. -/
  | fill
  /-- It compares `recv_buf` with the bytes of the round. -/
  | check
  /-- It posts one send. -/
  | post (op : WrOpcode)
  | pollSend
  /-- It polls a receive completion and decrements `posted_recv_num`. -/
  | pollRecv
  | repost
  deriving DecidableEq, Repr

namespace Act

def isPost : Act → Bool
  | post _ => true
  | _ => false

/-- It posts a send that consumes a receive of the peer. -/
def isPostRecv : Act → Bool
  | post op => op.consumesRecv
  | _ => false

/-- It posts a send that writes to the memory of the peer. -/
def isPostWrite : Act → Bool
  | post op => op.isWrite
  | _ => false

def isPostRead (a : Act) : Bool := a == post .rdmaRead

def isFill (a : Act) : Bool := a == fill

def isPollSend (a : Act) : Bool := a == pollSend

def isPollRecv (a : Act) : Bool := a == pollRecv

def isRepost (a : Act) : Bool := a == repost

/-- It polls one of the completion queues, and assigns `wc`. -/
def isPoll (a : Act) : Bool := a.isPollSend || a.isPollRecv

theorem isPoll_iff {a : Act} : a.isPoll = true ↔ a = .pollSend ∨ a = .pollRecv := by
  simp [isPoll, isPollSend, isPollRecv]

/-- What posts nothing posts no transfer. -/
theorem not_transfer {a : Act} (h : a.isPost = false) :
    a.isPostWrite = false ∧ a.isPostRead = false := by
  cases a with
  | post op => cases h
  | internal | fill | check | pollSend | pollRecv | repost => exact ⟨rfl, rfl⟩

end Act

/-- The queues of a node. -/
abbrev Node.nic {Msg Obj Ext : Type} (n : Node Msg Obj Ext) : Nic Msg := n.st.host.nic

/-- The registered memory of a node. -/
abbrev Node.mem {Msg Obj Ext : Type} (n : Node Msg Obj Ext) : Mem Msg := n.st.host.mem

namespace Program

variable (P : Program)

/-- The effect on the queues that an `Act` announces. -/
def NicSpec (env : P.Env) (r : Rank) (a : Act) (nic nic' : Nic P.Msg) : Prop :=
  match a with
  | .internal | .fill | .check => nic' = nic
  | .post op => ∃ w, w.opcode = op ∧ nic' = nic.posted (env.device r) w
  | .pollSend => ∃ wc cq, pollCQ nic.sendCq = .ok (wc, cq) ∧ nic' = { nic with sendCq := cq }
  | .pollRecv => ∃ wc cq, pollCQ nic.recvCq = .ok (wc, cq) ∧
      nic' = { nic with recvCq := cq, postedRecvNum := nic.postedRecvNum - 1 }
  | .repost => P.repost env r nic = .ok nic'

/-- The effect of a statement that an `Act` announces, in a round of the given number and message
size.  What is left open is the heap, the state of the program, and the outgoing messages. -/
def ActSpec (env : P.Env) (r : Rank) (round msgSize : ℕ) (a : Act) (st st' : P.State) : Prop :=
  match a with
  | .internal => st'.host = st.host ∧ st'.wc = st.wc
  | .fill => st' = st.writeSendBuf env.touchData r round msgSize
  | .check => st' = st
  | .post op => (∃ w, w.opcode = op ∧ st'.host.nic = st.host.nic.posted (env.device r) w) ∧
      st'.wc = st.wc ∧ st'.host.mem.buf = st.host.mem.buf ∧
      st'.host.mem.msg .controlRecvBuf = st.host.mem.msg .controlRecvBuf
  | .pollSend => ∃ wc sendCq, pollCQ st.host.nic.sendCq = .ok (wc, sendCq) ∧
      st' = { st with
        host := { st.host with nic := { st.host.nic with sendCq } }, wc := some wc }
  | .pollRecv => ∃ wc recvCq, pollCQ st.host.nic.recvCq = .ok (wc, recvCq) ∧
      st' = { st with
        host := { st.host with nic := { st.host.nic with
          recvCq, postedRecvNum := st.host.nic.postedRecvNum - 1 } }, wc := some wc }
  | .repost => ∃ nic, P.repost env r st.host.nic = .ok nic ∧
      st' = { st with host := { st.host with nic } }

/-- How many statements of a kind the rank has executed. -/
def cnt (act : P.Stmt → Act) (p : Act → Bool) (r : Rank) (n : Node P.Msg P.Obj P.Ext) : ℕ :=
  Script.count (p ∘ act) (P.lambda r) n.iter n.pc

/-- The statements do to the queues what `act` says, and the scripts are balanced. -/
structure WellScripted (act : P.Stmt → Act) : Prop where
  exec_spec : ∀ {env : P.Env} {r : Rank} {round msgSize : ℕ} {stmt : P.Stmt} {st st' : P.State},
    P.exec env r round msgSize stmt st = .ok st' →
      P.ActSpec env r round msgSize (act stmt) st st'
  length_pos : ∀ r, 0 < (P.lambda r).length
  /-- At most one send is outstanding at any point of a round, and none at its end. -/
  post_le : ∀ r, ∀ pc ≤ (P.lambda r).length,
    ((P.lambda r).take pc).countP (Act.isPost ∘ act)
      ≤ ((P.lambda r).take pc).countP (Act.isPollSend ∘ act) + 1
  post_eq : ∀ r, (P.lambda r).countP (Act.isPost ∘ act)
    = (P.lambda r).countP (Act.isPollSend ∘ act)
  /-- At most one receive is missing at any point of a round, and none at its end. -/
  repost_le : ∀ r, ∀ pc ≤ (P.lambda r).length,
    ((P.lambda r).take pc).countP (Act.isRepost ∘ act)
        ≤ ((P.lambda r).take pc).countP (Act.isPollRecv ∘ act) ∧
      ((P.lambda r).take pc).countP (Act.isPollRecv ∘ act)
        ≤ ((P.lambda r).take pc).countP (Act.isRepost ∘ act) + 1
  repost_eq : ∀ r, (P.lambda r).countP (Act.isPollRecv ∘ act)
    = (P.lambda r).countP (Act.isRepost ∘ act)
  /-- Receives are reposted only when one is missing. -/
  repost_after : ∀ r, ∀ pc (h : pc < (P.lambda r).length), act (P.lambda r)[pc] = .repost →
    ((P.lambda r).take pc).countP (Act.isPollRecv ∘ act)
      = ((P.lambda r).take pc).countP (Act.isRepost ∘ act) + 1

variable {P} {act : P.Stmt → Act} {env : P.Env}

/-- The queues of a rank that has executed `c p` statements of each kind `p`. -/
structure QueueCtl (P : Program) (env : P.Env) (r : Rank) (c : (Act → Bool) → ℕ)
    (nic : Nic P.Msg) : Prop where
  posted : nic.postedRecvNum = nic.recvs
  recvs : nic.recvs + c Act.isPollRecv = 8 + c Act.isRepost
  srq : ∀ x ∈ nic.srq, x = P.recvWr env r
  sends : nic.sqUsed + c Act.isPollSend = c Act.isPost
  recvPolled : nic.recvCq.polled = c Act.isPollRecv
  recvCq : nic.recvCq.polled + nic.recvCq.entries.length = nic.recvCq.generated
  sendPolled : nic.sendCq.polled = c Act.isPollSend
  sendCq : nic.sendCq.polled + nic.sendCq.entries.length = nic.sendCq.generated

/-- The part of the skeleton that concerns one rank. -/
structure NodeCtl (act : P.Stmt → Act) (env : P.Env) (r : Rank) (n : Node P.Msg P.Obj P.Ext) :
    Prop where
  pc_lt : n.pc < (P.lambda r).length
  iter_le : n.iter ≤ env.sizes.length
  pc_eq : n.iter = env.sizes.length → n.pc = 0
  unbooted : n.booted = false → n.iter = 0 ∧ n.pc = 0 ∧ n.nic = {}
  queues : n.booted = true → QueueCtl P env r (fun p ↦ P.cnt act p r n) n.nic

/-- **The control skeleton.** -/
structure Ctl (act : P.Stmt → Act) (env : P.Env) (s : P.Sys) : Prop where
  node : ∀ r, NodeCtl act env r (s r)
  /-- The receive completions at the peer are the rank's messages that have been delivered. -/
  link : ∀ r, (s r.peer).nic.recvCq.generated + (s r).nic.sq.countP SendWr.consumesRecv
    = P.cnt act Act.isPostRecv r (s r)

/-! ## Positions -/

@[simp] theorem advance_host (r : Rank) (n : Node P.Msg P.Obj P.Ext) (st : P.State) :
    (P.advance r n st).st.host = st.host := by
  simp only [advance]
  split <;> rfl

@[simp] theorem advance_heap (r : Rank) (n : Node P.Msg P.Obj P.Ext) (st : P.State) :
    (P.advance r n st).st.heap = st.heap := by
  simp only [advance]
  split <;> rfl

@[simp] theorem advance_ext (r : Rank) (n : Node P.Msg P.Obj P.Ext) (st : P.State) :
    (P.advance r n st).st.ext = st.ext := by
  simp only [advance]
  split <;> rfl

@[simp] theorem advance_booted (r : Rank) (n : Node P.Msg P.Obj P.Ext) (st : P.State) :
    (P.advance r n st).booted = n.booted := rfl

theorem advance_pc_lt {r : Rank} {n : Node P.Msg P.Obj P.Ext} (h : n.pc < (P.lambda r).length)
    (st : P.State) : (P.advance r n st).pc < (P.lambda r).length :=
  Script.next_pc_lt h

theorem advance_iter {r : Rank} {n : Node P.Msg P.Obj P.Ext} (st : P.State) :
    (P.advance r n st).iter = n.iter ∨
      (P.advance r n st).iter = n.iter + 1 ∧ (P.advance r n st).pc = 0 := by
  simp only [advance, Script.next]
  split <;> simp

/-- Executing a statement adds one to the counts it belongs to. -/
theorem cnt_advance (p : Act → Bool) {r : Rank} {n : Node P.Msg P.Obj P.Ext}
    (h : n.pc < (P.lambda r).length) (st : P.State) :
    P.cnt act p r (P.advance r n st)
      = P.cnt act p r n + if p (act (P.lambda r)[n.pc]) then 1 else 0 :=
  Script.count_next (p ∘ act) h

theorem cnt_start (p : Act → Bool) {r : Rank} {n : Node P.Msg P.Obj P.Ext} (hi : n.iter = 0)
    (hp : n.pc = 0) : P.cnt act p r n = 0 := by
  simp [cnt, hi, hp, Script.count]

@[simp] theorem setHost_host (n : Node P.Msg P.Obj P.Ext) (h : Host P.Msg) :
    (P.setHost n h).st.host = h := rfl

@[simp] theorem cnt_setHost (p : Act → Bool) (r : Rank) (n : Node P.Msg P.Obj P.Ext)
    (h : Host P.Msg) : P.cnt act p r (P.setHost n h) = P.cnt act p r n := rfl

theorem ActSpec.nic {r : Rank} {round msgSize : ℕ} {a : Act} {st st' : P.State}
    (h : P.ActSpec env r round msgSize a st st') :
    P.NicSpec env r a st.host.nic st'.host.nic := by
  cases a with
  | internal => exact congrArg Host.nic h.1
  | fill =>
    rw [show st' = _ from h]
    simp only [NicSpec, RankState.writeSendBuf]
    split <;> rfl
  | check => rw [show st' = st from h]; rfl
  | post op => exact h.1
  | pollSend =>
    obtain ⟨wc, cq, hq, rfl⟩ := h
    exact ⟨wc, cq, hq, rfl⟩
  | pollRecv =>
    obtain ⟨wc, cq, hq, rfl⟩ := h
    exact ⟨wc, cq, hq, rfl⟩
  | repost =>
    obtain ⟨nic, hn, rfl⟩ := h
    exact hn

/-- The shared statements have the effects that their `Act`s announce. -/
theorem actSpec_pollSendStep {r : Rank} {round msgSize : ℕ} {st st' : P.State}
    {ok : Wc P.Msg → Bool} {msg : String} (h : st.pollSendStep ok msg = .ok st') :
    P.ActSpec env r round msgSize .pollSend st st' :=
  RankState.pollSendStep_eq_ok h

theorem actSpec_pollRecvStep {r : Rank} {round msgSize : ℕ} {st st' : P.State}
    {ok : Wc P.Msg → Bool} {msg : String} (h : st.pollRecvStep ok msg = .ok st') :
    P.ActSpec env r round msgSize .pollRecv st st' :=
  RankState.pollRecvStep_eq_ok h

theorem actSpec_repostStep {r : Rank} {round msgSize : ℕ} {st st' : P.State}
    (h : st.repostStep (env.device r) (P.recvWr env r) = .ok st') :
    P.ActSpec env r round msgSize .repost st st' :=
  RankState.repostStep_eq_ok h

/-- So has a handler that ends by posting a control message or a transfer. -/
theorem actSpec_post {r rank : Rank} {round msgSize : ℕ} {st st' : P.State} {op : WrOpcode}
    {w : SendWr P.Msg} {h h' : Host P.Msg} {ret : ℤ}
    (hp : h.post (env.device r) rank w = .ok (ret, h')) (hop : w.opcode = op)
    (hst : st'.host = h') (hwc : st'.wc = st.wc) (hnic : h.nic = st.host.nic)
    (hbuf : h.mem.buf = st.host.mem.buf)
    (hmsg : h.mem.msg .controlRecvBuf = st.host.mem.msg .controlRecvBuf) :
    P.ActSpec env r round msgSize (.post op) st st' := by
  obtain ⟨hn, hm⟩ := Host.post_nic hp
  refine ⟨⟨w, hop, by rw [hst, hn, hnic]⟩, hwc, ?_, ?_⟩
  · rw [hst, hm, hbuf]
  · rw [hst, hm, hmsg]

theorem cnt_post_le (W : WellScripted P act) {r : Rank} {n : Node P.Msg P.Obj P.Ext}
    (h : n.pc < (P.lambda r).length) :
    P.cnt act Act.isPost r n ≤ P.cnt act Act.isPollSend r n + 1 := by
  have h1 := W.post_le r n.pc (Nat.le_of_lt h)
  have h2 := W.post_eq r
  simp only [cnt, Script.count, h2]
  omega

theorem cnt_repost_le (W : WellScripted P act) {r : Rank} {n : Node P.Msg P.Obj P.Ext}
    (h : n.pc < (P.lambda r).length) :
    P.cnt act Act.isRepost r n ≤ P.cnt act Act.isPollRecv r n ∧
      P.cnt act Act.isPollRecv r n ≤ P.cnt act Act.isRepost r n + 1 := by
  have h1 := W.repost_le r n.pc (Nat.le_of_lt h)
  have h2 := W.repost_eq r
  simp only [cnt, Script.count, h2]
  omega

theorem cnt_repost_after (W : WellScripted P act) {r : Rank} {n : Node P.Msg P.Obj P.Ext}
    (h : n.pc < (P.lambda r).length) (ha : act (P.lambda r)[n.pc] = .repost) :
    P.cnt act Act.isPollRecv r n = P.cnt act Act.isRepost r n + 1 := by
  have h1 := W.repost_after r n.pc h ha
  have h2 := W.repost_eq r
  simp only [cnt, Script.count, h2]
  omega

/-! ## Consequences -/

theorem NodeCtl.sqUsed_le (W : WellScripted P act) {r : Rank} {n : Node P.Msg P.Obj P.Ext}
    (h : NodeCtl act env r n) : n.nic.sqUsed ≤ 1 := by
  cases hb : n.booted with
  | true =>
    have h1 := cnt_post_le W h.pc_lt
    have h2 := (h.queues hb).sends
    omega
  | false =>
    rw [(h.unbooted hb).2.2]
    simp [Nic.sqUsed]

theorem NodeCtl.recvs_le (W : WellScripted P act) {r : Rank} {n : Node P.Msg P.Obj P.Ext}
    (h : NodeCtl act env r n) : n.nic.recvs ≤ 8 := by
  cases hb : n.booted with
  | true =>
    have h1 := cnt_repost_le W h.pc_lt
    have h2 := (h.queues hb).recvs
    omega
  | false =>
    rw [(h.unbooted hb).2.2]
    simp [Nic.recvs]

/-! ## What each operation does to the queues -/

variable (env) in
/-- A repost with some receives missing puts back exactly those. -/
theorem repost_eq {r : Rank} {nic : Nic P.Msg} {k : ℕ} (hp : nic.postedRecvNum = nic.recvs)
    (hk : nic.recvs + k = 8) (hpos : 0 < k) :
    P.repost env r nic = .ok { nic with
      postedRecvNum := 8, srq := nic.srq ++ List.replicate k (P.recvWr env r) } := by
  have hlt : nic.postedRecvNum < ((env.device r).config.minRecvNum : ℤ) := by
    simp only [Env.device]; omega
  have hn : (((env.device r).config.maxRecvNum : ℤ) - nic.postedRecvNum).toNat = k := by
    simp only [Env.device]; omega
  rw [repost, checkAndPostRecvs, if_pos hlt, hn, postRecvs_eq]
  · have h8 : nic.postedRecvNum + (k : ℤ) = 8 := by omega
    rw [h8]
  · simp only [Env.device, Nic.recvs] at hk ⊢
    omega

theorem repost_eq_ok {r : Rank} {nic nic' : Nic P.Msg} {k : ℕ}
    (h : P.repost env r nic = .ok nic') (hp : nic.postedRecvNum = nic.recvs)
    (hk : nic.recvs + k = 8) (hpos : 0 < k) :
    nic' = { nic with
      postedRecvNum := 8, srq := nic.srq ++ List.replicate k (P.recvWr env r) } := by
  rw [repost_eq env hp hk hpos] at h
  exact (Except.ok.inj h).symm

theorem mem_srq_append_replicate {l : List RecvWr} {x y : RecvWr} {k : ℕ}
    (h : ∀ z ∈ l, z = y) (hx : x ∈ l ++ List.replicate k y) : x = y := by
  rcases List.mem_append.mp hx with hx | hx
  · exact h x hx
  · exact List.eq_of_mem_replicate hx

/-- The first `checkAndPostRecvs` posts all the receives. -/
theorem queueCtl_boot {r : Rank} {nic : Nic P.Msg} {c : (Act → Bool) → ℕ}
    (h : P.repost env r {} = .ok nic) (hc : ∀ p, c p = 0) : QueueCtl P env r c nic := by
  obtain rfl := repost_eq_ok (k := 8) h rfl rfl (by omega)
  refine ⟨rfl, ?_, fun x hx ↦ mem_srq_append_replicate (by simp) hx, ?_, ?_, rfl, ?_, rfl⟩ <;>
    simp [hc, Nic.recvs, Nic.sqUsed]

section

variable {r : Rank} {c : (Act → Bool) → ℕ} {nic nic' : Nic P.Msg}

/-- A statement of kind `a` keeps the queues in step. -/
theorem QueueCtl.executed {c' : (Act → Bool) → ℕ} {a : Act} (h : QueueCtl P env r c nic)
    (hs : P.NicSpec env r a nic nic') (hc : ∀ p, c' p = c p + if p a then 1 else 0)
    (hsq : nic.sqUsed ≤ 1) (hre : a = .repost → nic.recvs + 1 = 8) :
    QueueCtl P env r c' nic' := by
  obtain ⟨h1, h2, h3, h4, h5, h6, h7, h8⟩ := h
  have hpost := hc Act.isPost
  have hpollSend := hc Act.isPollSend
  have hpollRecv := hc Act.isPollRecv
  have hrepost := hc Act.isRepost
  cases a <;> simp [Act.isPost, Act.isPollSend] at hpost hpollSend <;>
    simp [Act.isPollRecv, Act.isRepost] at hpollRecv hrepost
  case internal | fill | check =>
    cases hs
    exact ⟨h1, by rw [hpollRecv, hrepost, h2], h3, by rw [hpollSend, hpost, h4],
      by rw [hpollRecv, h5], h6, by rw [hpollSend, h7], h8⟩
  case post op =>
    obtain ⟨w, -, rfl⟩ := hs
    have hroom : nic.sqUsed < (env.device r).config.maxSendNum := by
      simp only [Env.device]; omega
    rw [Nic.posted, if_pos hroom]
    refine ⟨h1, by rw [hpollRecv, hrepost]; exact h2, h3, ?_, by rw [hpollRecv]; exact h5, h6,
      by rw [hpollSend]; exact h7, h8⟩
    simp only [Nic.sqUsed, List.length_append, List.length_singleton] at h4 ⊢
    omega
  case pollSend =>
    obtain ⟨wc, cq, hq, rfl⟩ := hs
    obtain ⟨he, hp, hg⟩ := pollCQ_eq_ok hq
    refine ⟨h1, by rw [hpollRecv, hrepost]; exact h2, h3, ?_, by rw [hpollRecv]; exact h5, h6,
      ?_, ?_⟩
    · simp only [Nic.sqUsed, he, List.length_cons] at h4 ⊢
      omega
    · simp only [hpollSend, hp, h7]
    · simp only [he, List.length_cons] at h8
      simp only [hp, hg]
      omega
  case pollRecv =>
    obtain ⟨wc, cq, hq, rfl⟩ := hs
    obtain ⟨he, hp, hg⟩ := pollCQ_eq_ok hq
    refine ⟨?_, ?_, h3, by rw [hpollSend, hpost]; exact h4, ?_, ?_, by rw [hpollSend]; exact h7,
      h8⟩
    · simp only [Nic.recvs, he, List.length_cons] at h1 ⊢
      omega
    · simp only [Nic.recvs, he, List.length_cons] at h2 ⊢
      omega
    · simp only [hpollRecv, hp, h5]
    · simp only [he, List.length_cons] at h6
      simp only [hp, hg]
      omega
  case repost =>
    have h9 := hre rfl
    obtain rfl := repost_eq_ok (k := 1) hs h1 h9 (by omega)
    refine ⟨?_, ?_, fun x hx ↦ mem_srq_append_replicate h3 hx, by rw [hpollSend, hpost]; exact h4,
      by rw [hpollRecv]; exact h5, h6, by rw [hpollSend]; exact h7, h8⟩
    · simp only [Nic.recvs, List.length_append, List.length_replicate] at h9 ⊢
      omega
    · simp only [Nic.recvs, List.length_append, List.length_replicate] at h2 ⊢
      omega

/-- A request leaves the send queue. -/
theorem QueueCtl.sent {w : SendWr P.Msg} {sq : List (SendWr P.Msg)} {a : Ack P.Msg}
    (h : QueueCtl P env r c nic) (hsq : nic.sq = w :: sq) :
    QueueCtl P env r c { nic with sq, unacked := nic.unacked ++ [a] } := by
  refine ⟨h.posted, h.recvs, h.srq, ?_, h.recvPolled, h.recvCq, h.sendPolled, h.sendCq⟩
  have h4 := h.sends
  simp only [Nic.sqUsed, hsq, List.length_cons, List.length_append, List.length_nil] at h4 ⊢
  omega

/-- A completion is generated. -/
theorem QueueCtl.completed {a : Ack P.Msg} {unacked : List (Ack P.Msg)} {wc : Wc P.Msg}
    (h : QueueCtl P env r c nic) (hu : nic.unacked = a :: unacked) :
    QueueCtl P env r c { nic with unacked, sendCq := nic.sendCq.pushed wc } := by
  refine ⟨h.posted, h.recvs, h.srq, ?_, h.recvPolled, h.recvCq, h.sendPolled, ?_⟩
  · have h4 := h.sends
    simp only [Nic.sqUsed, hu, Cq.pushed, List.length_cons, List.length_append,
      List.length_nil] at h4 ⊢
    omega
  · have h8 := h.sendCq
    simp only [Cq.pushed, List.length_append, List.length_singleton]
    omega

/-- A message arrives. -/
theorem QueueCtl.recvd {wc : Wc P.Msg} (h : QueueCtl P env r c nic) (hsrq : nic.srq ≠ []) :
    QueueCtl P env r c (nic.recvd wc) := by
  obtain ⟨x, srq, hx⟩ := List.exists_cons_of_ne_nil hsrq
  have hrecvs : (nic.recvd wc).recvs = nic.recvs := by
    simp only [Nic.recvs, Nic.recvd, Cq.pushed, hx, List.tail_cons, List.length_cons,
      List.length_append, List.length_nil]
    omega
  refine ⟨hrecvs ▸ h.posted, hrecvs ▸ h.recvs,
    fun y hy ↦ h.srq y (List.mem_of_mem_tail hy), h.sends, h.recvPolled, ?_, h.sendPolled,
    h.sendCq⟩
  have h6 := h.recvCq
  simp only [Nic.recvd, Cq.pushed, List.length_append, List.length_singleton]
  omega

end

/-! ## The skeleton is an invariant -/

theorem ctl_init (W : WellScripted P act) {s : P.Sys} (h : (P.machine env).init s) :
    Ctl act env s := by
  subst h
  refine ⟨fun r ↦ ⟨W.length_pos r, Nat.zero_le _, fun _ ↦ rfl, fun _ ↦ ⟨rfl, rfl, rfl⟩,
    fun h ↦ by simp [start] at h⟩, fun r ↦ ?_⟩
  simp [start, cnt_start]

/-- What a step of a rank is: its start, or one statement of its script. -/
theorem rankStep_eq_ok {r : Rank} {n n' : Node P.Msg P.Obj P.Ext}
    (h : P.rankStep env r n = .ok n') :
    (n.booted = false ∧ ∃ st, P.boot env r n.st = .ok st ∧ n' = { n with booted := true, st }) ∨
      ∃ (hi : n.iter < env.sizes.length) (hp : n.pc < (P.lambda r).length) (st : P.State),
        n.booted = true ∧
        P.exec env r n.iter env.sizes[n.iter] (P.lambda r)[n.pc] n.st = .ok st ∧
        n' = P.advance r n st := by
  rw [rankStep] at h
  split at h
  · rename_i hb
    split at h
    · rename_i msgSize stmt hi hp
      obtain ⟨st, hst, he⟩ := bind_eq_ok.mp h
      obtain ⟨hi', rfl⟩ := List.getElem?_eq_some_iff.mp hi
      obtain ⟨hp', rfl⟩ := List.getElem?_eq_some_iff.mp hp
      cases he
      exact .inr ⟨hi', hp', st, hb, hst, rfl⟩
    · cases h
  · rename_i hb
    obtain ⟨st, hst, he⟩ := bind_eq_ok.mp h
    cases he
    exact .inl ⟨by simpa using hb, st, hst, rfl⟩

theorem boot_nic {r : Rank} {st st' : P.State} (h : P.boot env r st = .ok st') :
    P.repost env r st.host.nic = .ok st'.host.nic := by
  obtain ⟨nic, hnic, h⟩ := bind_eq_ok.mp h
  obtain ⟨ext, -, h⟩ := bind_eq_ok.mp h
  cases h
  exact hnic

theorem nodeCtl_advance (W : WellScripted P act) {r : Rank} {n : Node P.Msg P.Obj P.Ext}
    {st : P.State} (h : NodeCtl act env r n) (hb : n.booted = true)
    (hi : n.iter < env.sizes.length)
    (hs : P.NicSpec env r (act ((P.lambda r).get ⟨n.pc, h.pc_lt⟩)) n.nic st.host.nic) :
    NodeCtl act env r (P.advance r n st) := by
  have hiter := advance_iter (r := r) (n := n) st
  refine ⟨advance_pc_lt h.pc_lt st, by omega, fun he ↦ ?_, fun hn ↦ by simp [hb] at hn,
    fun _ ↦ ?_⟩
  · rcases hiter with hiter | ⟨-, hpc⟩
    · omega
    · exact hpc
  · rw [Node.nic, advance_host]
    refine (h.queues hb).executed hs (fun p ↦ cnt_advance p h.pc_lt st) (h.sqUsed_le W) fun ha ↦ ?_
    have h1 := cnt_repost_after W h.pc_lt ha
    have h2 := (h.queues hb).recvs
    omega

/-- The messages a rank has in flight grow by the ones a statement posts. -/
theorem nicSpec_countP {r : Rank} {a : Act} {nic nic' : Nic P.Msg}
    (hs : P.NicSpec env r a nic nic') (hsq : nic.sqUsed ≤ 1) :
    nic'.sq.countP SendWr.consumesRecv
      = nic.sq.countP SendWr.consumesRecv + (if a.isPostRecv then 1 else 0) ∧
    nic'.recvCq.generated = nic.recvCq.generated := by
  cases a with
  | internal | fill | check => cases hs; exact ⟨rfl, rfl⟩
  | post op =>
    obtain ⟨w, hw, rfl⟩ := hs
    have hroom : nic.sqUsed < (env.device r).config.maxSendNum := by
      simp only [Env.device]; omega
    rw [Nic.posted, if_pos hroom]
    refine ⟨?_, rfl⟩
    subst hw
    rw [List.countP_append, List.countP_singleton]
    rfl
  | pollSend =>
    obtain ⟨wc, cq, -, rfl⟩ := hs
    exact ⟨rfl, rfl⟩
  | pollRecv =>
    obtain ⟨wc, cq, hq, rfl⟩ := hs
    exact ⟨rfl, (pollCQ_eq_ok hq).2.2⟩
  | repost =>
    obtain ⟨h1, -, h2, -⟩ := checkAndPostRecvs_frame hs
    exact ⟨by rw [h2]; rfl, by rw [h1]⟩

/-- To know the skeleton it is enough to know it at a rank and at its peer. -/
theorem Ctl.of_peer {s : P.Sys} (r : Rank) (h1 : NodeCtl act env r (s r))
    (h2 : NodeCtl act env r.peer (s r.peer))
    (h3 : (s r.peer).nic.recvCq.generated + (s r).nic.sq.countP SendWr.consumesRecv
      = P.cnt act Act.isPostRecv r (s r))
    (h4 : (s r).nic.recvCq.generated + (s r.peer).nic.sq.countP SendWr.consumesRecv
      = P.cnt act Act.isPostRecv r.peer (s r.peer)) : Ctl act env s := by
  constructor
  · intro x
    rcases r.eq_or_eq_peer x with rfl | rfl
    · exact h1
    · exact h2
  · intro x
    rcases r.eq_or_eq_peer x with rfl | rfl
    · exact h3
    · rw [Rank.peer_peer]; exact h4

theorem Ctl.link_peer {s : P.Sys} (h : Ctl act env s) (r : Rank) :
    (s r).nic.recvCq.generated + (s r.peer).nic.sq.countP SendWr.consumesRecv
      = P.cnt act Act.isPostRecv r.peer (s r.peer) := by
  have := h.link r.peer
  rwa [Rank.peer_peer] at this

/-- A message is polled after it was posted, and after it has left the send queue. -/
theorem Ctl.polled_add_pending_le {s : P.Sys} (h : Ctl act env s) (r : Rank) :
    P.cnt act Act.isPollRecv r (s r) + (s r.peer).nic.sq.countP SendWr.consumesRecv
      ≤ P.cnt act Act.isPostRecv r.peer (s r.peer) := by
  have h3 := h.link_peer r
  by_cases hb : (s r).booted = true
  · have hq := (h.node r).queues hb
    have h1 := hq.recvPolled
    have h2 := hq.recvCq
    omega
  · obtain ⟨hiter, hpc, -⟩ := (h.node r).unbooted (by simpa using hb)
    rw [cnt_start _ hiter hpc]
    omega

theorem Ctl.polled_le {s : P.Sys} (h : Ctl act env s) (r : Rank) :
    P.cnt act Act.isPollRecv r (s r) ≤ P.cnt act Act.isPostRecv r.peer (s r.peer) := by
  have := h.polled_add_pending_le r
  omega

theorem ctl_rank (W : WellScripted P act) {s s' : P.Sys} {r : Rank} (h : Ctl act env s)
    (hs : P.step env s (.rank r) = .ok s') : Ctl act env s' := by
  obtain ⟨n, hn, he⟩ := bind_eq_ok.mp hs
  cases he
  have hnode := h.node r
  rcases rankStep_eq_ok hn with ⟨hb, st, hst, rfl⟩ | ⟨hi, hp, st, hb, hst, rfl⟩
  · obtain ⟨hiter, hpc, hnic⟩ := hnode.unbooted hb
    have hre := boot_nic hst
    rw [show (s r).st.host.nic = {} from hnic] at hre
    have hcnt (p : Act → Bool) : P.cnt act p r { s r with booted := true, st } = 0 :=
      cnt_start p hiter hpc
    obtain ⟨h1, -, h2, -⟩ := checkAndPostRecvs_frame hre
    refine Ctl.of_peer r ?_ ?_ ?_ ?_ <;> simp only [Function.update_self,
      Function.update_of_ne r.peer_ne]
    · exact ⟨hnode.pc_lt, hnode.iter_le, hnode.pc_eq, fun h ↦ by simp at h,
        fun _ ↦ queueCtl_boot hre hcnt⟩
    · exact h.node r.peer
    · have hl := h.link r
      rw [cnt_start _ hiter hpc] at hl
      rw [hcnt, h2]
      simp only [List.countP_nil]
      omega
    · have hl := h.link_peer r
      rw [hnic] at hl
      rw [h1]
      exact hl
  · have hspec := (W.exec_spec hst).nic
    obtain ⟨hcount, hgen⟩ := nicSpec_countP hspec (hnode.sqUsed_le W)
    refine Ctl.of_peer r ?_ ?_ ?_ ?_ <;> simp only [Function.update_self,
      Function.update_of_ne r.peer_ne]
    · exact nodeCtl_advance W hnode hb hi hspec
    · exact h.node r.peer
    · have hl := h.link r
      rw [cnt_advance _ hp]
      simp only [Node.nic, advance_host, hcount] at hl ⊢
      omega
    · rw [Node.nic, advance_host, hgen]
      exact h.link_peer r

/-- Moving messages along does not change where a rank is. -/
theorem NodeCtl.setHost {r : Rank} {n : Node P.Msg P.Obj P.Ext} {k : Host P.Msg}
    (h : NodeCtl act env r n) (hne : n.nic ≠ {})
    (hq : QueueCtl P env r (fun p ↦ P.cnt act p r n) n.nic →
      QueueCtl P env r (fun p ↦ P.cnt act p r n) k.nic) :
    NodeCtl act env r (P.setHost n k) :=
  ⟨h.pc_lt, h.iter_le, h.pc_eq, fun hb ↦ absurd (h.unbooted hb).2.2 hne,
    fun hb ↦ hq (h.queues hb)⟩

theorem ctl_deliver {s s' : P.Sys} {r : Rank} (h : Ctl act env s)
    (hs : P.step env s (.deliver r) = .ok s') : Ctl act env s' := by
  obtain ⟨⟨k, k'⟩, hk, he⟩ := bind_eq_ok.mp hs
  cases he
  obtain ⟨w, sq, data, hsq, hex, rfl⟩ := deliver_eq_ok hk
  have hne : (s r).nic ≠ {} := fun hnil ↦ by rw [Node.nic] at hnil; rw [hnil] at hsq; cases hsq
  have hnic := execute_nic hex
  have hl := h.link r
  have hlp := h.link_peer r
  simp only [Node.nic, hsq, List.countP_cons] at hl
  refine Ctl.of_peer r ?_ ?_ ?_ ?_ <;> simp only [Function.update_self,
    Function.update_of_ne r.ne_peer]
  · exact (h.node r).setHost hne fun hq ↦ hq.sent hsq
  · split at hnic
    · obtain ⟨hsrq, wc, hwc⟩ := hnic
      refine (h.node r.peer).setHost (fun hnil ↦ hsrq ?_) ?_
      · rw [Node.nic] at hnil; rw [hnil]
      · intro hq
        rw [hwc]; exact hq.recvd hsrq
    · obtain ⟨h1, h2, h3, h4, h5⟩ := h.node r.peer
      refine ⟨h1, h2, h3, ?_, ?_⟩
      · intro hb
        rw [Node.nic, setHost_host, hnic]; exact h4 hb
      · intro hb
        rw [Node.nic, setHost_host, hnic]; exact h5 hb
  · simp only [Node.nic, setHost_host, cnt_setHost]
    split at hnic
    · rename_i hw
      obtain ⟨-, wc, hwc⟩ := hnic
      rw [hwc]
      simp only [Nic.recvd, Cq.pushed, hw, if_true] at hl ⊢
      omega
    · rename_i hw
      rw [hnic]
      simp only [hw] at hl
      simpa using hl
  · simp only [Node.nic, setHost_host, cnt_setHost]
    split at hnic
    · obtain ⟨-, wc, hwc⟩ := hnic
      rw [hwc]
      exact hlp
    · rw [hnic]
      exact hlp

theorem ctl_complete {s s' : P.Sys} {r : Rank} (h : Ctl act env s)
    (hs : P.step env s (.complete r) = .ok s') : Ctl act env s' := by
  obtain ⟨k, hk, he⟩ := bind_eq_ok.mp hs
  cases he
  obtain ⟨a, unacked, wc, hu, hnic⟩ := complete_nic hk
  have hne : (s r).nic ≠ {} := fun hnil ↦ by rw [Node.nic] at hnil; rw [hnil] at hu; cases hu
  refine Ctl.of_peer r ?_ ?_ ?_ ?_ <;> simp only [Function.update_self,
    Function.update_of_ne r.peer_ne]
  · exact (h.node r).setHost hne fun hq ↦ by rw [hnic]; exact hq.completed hu
  · exact h.node r.peer
  · simp only [Node.nic, setHost_host, hnic, cnt_setHost]
    exact h.link r
  · simp only [Node.nic, setHost_host, hnic]
    exact h.link_peer r

/-- **The control skeleton is preserved by every step.** -/
theorem ctl_step (W : WellScripted P act) {s s' : P.Sys} {a : Action} (h : Ctl act env s)
    (hs : P.step env s a = .ok s') : Ctl act env s' := by
  cases a with
  | rank r => exact ctl_rank W h hs
  | deliver r => exact ctl_deliver h hs
  | complete r => exact ctl_complete h hs

end Program

end IbvBench
