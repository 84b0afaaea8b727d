import IbvBench.Control

/-!
# What the messages of a program say

`IbvBench.Control` knows how many messages there are and where; this file says what is in them.

In every one of these programs at most one send of a rank is outstanding, and it is the one its
next statement waits for.  So the request in the send queue, its acknowledgement, and its completion
are all known from the place of the rank in its script: a `Protocol` announces, for each statement
that waits for a send, which request that is (`wr`) and which bytes it moves (`data`).  It also
announces which context is live before each statement, which message of the peer a receive takes,
and which statements look at the completion or at `control_recv_buf`.

`Protocol.Inv` is the resulting invariant of the system: everything is as announced.  Nothing in it
relates the two ranks except the receive buffer, which holds the bytes of as many rounds as
transfers into it have been executed.

`Protocol.Lawful` is what a program has to prove for this to be an invariant: a handful of facts
about its two scripts, which `decide` checks, and one fact about each statement (`exec_safe`): given
everything that was announced (`Ready`), it does not fault and leaves what is announced next
(`Done`).
-/

set_option autoImplicit false

namespace IbvBench

open StepMachine

/-! ## The bytes of a round -/

namespace Env

variable {Msg : Type} {msgLength : ℕ} (env : Env Msg msgLength)

/-- The bytes a rank has in `send_buf` when it sends in a round. -/
def sentBytes (r : Rank) (k : ℕ) : List Cell :=
  if env.touchData then List.replicate (env.size k) { val := r.value, round := some k }
  else (env.mem0 r).bytes .sendBuf (env.size k)

/-- The contents of `send_buf` after it has been written in `c` rounds. -/
def SendBufAt (r : Rank) (c : ℕ) (buf : ℕ → Cell) : Prop :=
  if env.touchData then
    ∀ j, c = j + 1 → (List.range (env.size j)).map buf = env.sentBytes r j
  else buf = (env.mem0 r).buf .sendBuf

variable {env}

@[simp] theorem length_sentBytes (r : Rank) (k : ℕ) : (env.sentBytes r k).length = env.size k := by
  rw [sentBytes]
  split <;> simp [Mem.bytes]

/-- When it is used for round `j`, the buffer holds the bytes of round `j`. -/
theorem SendBufAt.bytes_eq {r : Rank} {j : ℕ} {mem : Mem Msg}
    (h : env.SendBufAt r (j + 1) (mem.buf .sendBuf)) :
    mem.bytes .sendBuf (env.size j) = env.sentBytes r j := by
  rw [SendBufAt] at h
  split at h
  · exact h j rfl
  · rename_i ht
    simp only [sentBytes, ht, Mem.bytes, h, if_false, Bool.false_eq_true]

end Env

/-- Filling the buffer in round `j` fills it with the bytes of round `j`. -/
theorem sendBufAt_fill {Msg Obj Ext : Type} {msgLength : ℕ} {env : Env Msg msgLength} {r : Rank}
    {j : ℕ} {st : RankState Msg Obj Ext} (h : env.SendBufAt r j (st.host.mem.buf .sendBuf)) :
    env.SendBufAt r (j + 1)
      ((st.writeSendBuf env.touchData r j (env.size j)).host.mem.buf .sendBuf) := by
  rw [Env.SendBufAt] at h ⊢
  rw [RankState.writeSendBuf]
  split
  · rename_i ht
    intro i hi
    obtain rfl : j = i := by omega
    simp only [RankState.setMem, Mem.setBuf_buf, if_true, Env.sentBytes, ht]
    refine List.ext_getElem (by simp) fun n hn _ ↦ ?_
    have hlt : n < env.size j := by simpa using hn
    simp [writeBuffer, hlt]
  · rename_i ht
    simpa only [ht, if_false, Bool.false_eq_true] using h

/-! ## Announcements -/

/-- Sending and receiving alternate, one context each, and rank 0 sends first: this is how many
contexts a rank has allocated before it sends in a round. -/
def sendTurn (r : Rank) (k : ℕ) : ℕ := 2 * k + r.toNat

/-- How many contexts a rank has allocated before it receives in a round. -/
def recvTurn (r : Rank) (k : ℕ) : ℕ := 2 * k + r.peer.toNat

namespace Env

variable {Msg : Type} {msgLength : ℕ} (env : Env Msg msgLength)

/-- The address of the `SendCtx` of a round. -/
def sendCtx (r : Rank) (k : ℕ) : ℕ := env.alloc r (sendTurn r k)

/-- The address of the `RecvCtx` of a round. -/
def recvCtx (r : Rank) (k : ℕ) : ℕ := env.alloc r (recvTurn r k)

end Env

/-- Where the context of the current half of a round is in its life. -/
inductive Phase where
  | before
  | live
  | after
  deriving DecidableEq, Repr

/-- The opcode of the completion a request generates at the peer. -/
def WrOpcode.recvOpcode : WrOpcode → WcOpcode
  | .rdmaWriteWithImm => .recvRdmaWithImm
  | _ => .recv

/-- What a program announces about its messages and contexts. -/
structure Protocol (P : Program) where
  /-- The opcode of the request that is outstanding before a `pollSend` statement. -/
  op : P.Stmt → WrOpcode
  /-- That request, but for inlining. -/
  wr : P.Env → Rank → (round : ℕ) → P.Stmt → SendWr P.Msg
  /-- What it takes to the peer, or brings back. -/
  data : P.Env → Rank → (round : ℕ) → P.Stmt → Data P.Msg
  /-- How many messages a rank sends in a round. -/
  perRound : ℕ
  /-- The `pollSend` statement of each of them, in order. -/
  sendAt : Rank → ℕ → P.Stmt
  /-- The `pollSend` statement of the peer whose message a `pollRecv` statement takes. -/
  expects : P.Stmt → P.Stmt
  /-- The polling statement whose completion a statement looks at. -/
  handles : P.Stmt → Option P.Stmt
  /-- Does the statement look at `control_recv_buf`? -/
  reads : P.Stmt → Bool
  /-- Does it send from `send_buf`? -/
  filled : P.Stmt → Bool
  /-- How far a rank's posts can be ahead of its receive polls. -/
  ahead : Rank → ℕ
  /-- The next statement, in the cyclic order that both scripts follow. -/
  succ : P.Stmt → P.Stmt
  /-- Is this the last statement of the rank's script? -/
  ends : Rank → P.Stmt → Bool
  /-- Does the statement belong to the sending half of a round? -/
  sender : P.Stmt → Bool
  /-- The life of the context of this half, before the statement. -/
  phase : P.Stmt → Phase
  /-- The contents of that context while it is live. -/
  obj : P.Env → Rank → (round : ℕ) → P.Stmt → P.Obj
  /-- What else the program has at hand before a statement: its own state and its RTS message. -/
  Local : P.Env → Rank → (round : ℕ) → P.Stmt → P.Ext → Option P.Msg → Prop

namespace Protocol

variable {P : Program} (pr : Protocol P) (env : P.Env)

/-- How many contexts the rank has allocated before the current half-round. -/
def turn (r : Rank) (k : ℕ) (ℓ : P.Stmt) : ℕ :=
  if pr.sender ℓ then sendTurn r k else recvTurn r k

/-- The context of the current half-round. -/
def cell (r : Rank) (k : ℕ) (ℓ : P.Stmt) : HeapCell P.Obj :=
  { addr := env.alloc r (pr.turn r k ℓ), idx := pr.turn r k ℓ, round := k,
    obj := pr.obj env r k ℓ }

/-- The heap of a rank before a statement: one context per half-round, and each deleted before the
next one is allocated. -/
def heapAt (r : Rank) (k : ℕ) (ℓ : P.Stmt) : Heap P.Obj :=
  match pr.phase ℓ with
  | .before => .spent (pr.turn r k ℓ)
  | .live => .holding (pr.turn r k ℓ) (pr.cell env r k ℓ)
  | .after => .spent (pr.turn r k ℓ + 1)

/-- The round of the statement after `ℓ`. -/
def nextRound (r : Rank) (k : ℕ) (ℓ : P.Stmt) : ℕ := if pr.ends r ℓ then k + 1 else k

/-- What the request brings back to the rank that posted it. -/
def fetched (r : Rank) (k : ℕ) (ℓ : P.Stmt) : Option (Data P.Msg) :=
  if (pr.wr env r k ℓ).opcode = .rdmaRead then some (pr.data env r k ℓ) else none

/-- The completion of the rank's own request. -/
def sent (r : Rank) (k : ℕ) (ℓ : P.Stmt) : Wc P.Msg where
  wrId := (pr.wr env r k ℓ).wrId
  status := .success
  opcode := (pr.wr env r k ℓ).opcode.wcOpcode
  qpNum := env.qpNum r r.peer
  payload := pr.fetched env r k ℓ

/-- The completion that the peer's request generates. -/
def arrival (r : Rank) (k : ℕ) (ℓ : P.Stmt) : Wc P.Msg where
  wrId := (P.recvWr env r).wrId
  status := .success
  opcode := (pr.wr env r.peer k ℓ).opcode.recvOpcode
  qpNum := env.qpNum r r.peer
  immData := (pr.wr env r.peer k ℓ).immData
  payload := some (pr.data env r.peer k ℓ)

/-- The round and the statement of the `m`th message that the rank sends. -/
def nth (r : Rank) (m : ℕ) : ℕ × P.Stmt := (m / pr.perRound, pr.sendAt r (m % pr.perRound))

/-- The completion of the `m`th message that arrives at the rank. -/
def nthArrival (r : Rank) (m : ℕ) : Wc P.Msg :=
  pr.arrival env r (pr.nth r.peer m).1 (pr.nth r.peer m).2

/-- A posted request is the announced one and moves the announced bytes. -/
structure Carries (r : Rank) (k : ℕ) (ℓ : P.Stmt) (mem : Mem P.Msg) (w : SendWr P.Msg) : Prop where
  eq : { w with inlined := none } = pr.wr env r k ℓ
  payload : w.opcode ≠ .rdmaRead → w.payload mem = pr.data env r k ℓ

/-- The same after it has been executed. -/
structure Carried (r : Rank) (k : ℕ) (ℓ : P.Stmt) (a : Ack P.Msg) : Prop where
  eq : { a.wr with inlined := none } = pr.wr env r k ℓ
  data : a.data = pr.fetched env r k ℓ

variable (act : P.Stmt → Act)

/-- The completion that a polling statement takes. -/
def completion (r : Rank) (k : ℕ) (p : P.Stmt) : Wc P.Msg :=
  if act p = .pollSend then pr.sent env r k p else pr.arrival env r k (pr.expects p)

/-! ## The invariant -/

/-- A rank before the statement `ℓ`. -/
structure NodeInv (r : Rank) (ℓ : P.Stmt) (n : Node P.Msg P.Obj P.Ext) : Prop where
  heap : n.st.heap = pr.heapAt env r n.iter ℓ
  own : pr.Local env r n.iter ℓ n.st.ext (n.mem.msg .rtsMsg)
  wc : ∀ p, pr.handles ℓ = some p → n.st.wc = some (pr.completion env act r n.iter p)
  sendBuf : env.SendBufAt r (P.cnt act Act.isFill r n) (n.mem.buf .sendBuf)
  sq : ∀ w ∈ n.nic.sq, pr.Carries env r n.iter ℓ n.mem w
  unacked : ∀ a ∈ n.nic.unacked, pr.Carried env r n.iter ℓ a
  sendCq : ∀ c ∈ n.nic.sendCq.entries, c = pr.sent env r n.iter ℓ
  recvCq : n.nic.recvCq.entries =
    (List.range' n.nic.recvCq.polled n.nic.recvCq.entries.length).map (pr.nthArrival env r)
  /-- The control buffer holds the last message that was not a RDMA_WRITE_WITH_IMM. -/
  control : ∀ m, n.nic.recvCq.generated = m + 1 →
    (pr.nthArrival env r m).opcode = .recv →
      some (Data.msg (n.mem.msg .controlRecvBuf)) = (pr.nthArrival env r m).payload

/-- The transfers into the receive buffer of a rank that are still to come, of those posted. -/
def pending (r : Rank) (s : P.Sys) : ℕ :=
  (s r.peer).nic.sq.countP (·.opcode.isWrite) + (s r).nic.sq.countP (·.opcode == .rdmaRead) +
    (s r).nic.unacked.countP (·.wr.opcode == .rdmaRead)

/-- The transfers into the receive buffer of a rank that have been posted. -/
def transfers (r : Rank) (s : P.Sys) : ℕ :=
  P.cnt act Act.isPostWrite r.peer (s r.peer) + P.cnt act Act.isPostRead r (s r)

/-- **Everything is as announced.** -/
structure Inv (s : P.Sys) : Prop where
  unbooted : ∀ r, (s r).booted = false → (s r).st.heap = {} ∧ (s r).st.ext = P.ext0 ∧
    (s r).mem.buf .sendBuf = (env.mem0 r).buf .sendBuf
  node : ∀ r, (s r).booted = true → ∀ ℓ, (P.lambda r)[(s r).pc]? = some ℓ →
    pr.NodeInv env act r ℓ (s r)
  recvBuf : ∀ r j, j + 1 + pending r s = transfers act r s →
    (s r).mem.bytes .recvBuf (env.size j) = env.sentBytes r.peer j

/-! ## What a program has to show -/

/-- What a statement may rely on. -/
structure Ready (r : Rank) (k : ℕ) (ℓ : P.Stmt) (st : P.State) : Prop where
  heap : st.heap = pr.heapAt env r k ℓ
  own : pr.Local env r k ℓ st.ext (st.host.mem.msg .rtsMsg)
  wc : ∀ p, pr.handles ℓ = some p → st.wc = some (pr.completion env act r k p)
  control : pr.reads ℓ = true → ∀ p, pr.handles ℓ = some p →
    Data.msg (st.host.mem.msg .controlRecvBuf) = pr.data env r.peer k (pr.expects p)
  sendBuf : pr.filled ℓ = true → st.host.mem.bytes .sendBuf (env.size k) = env.sentBytes r k
  recvBuf : act ℓ = .check → st.host.mem.bytes .recvBuf (env.size k) = env.sentBytes r.peer k
  room : (act ℓ).isPost = true → st.host.nic.sqUsed = 0
  sendCq : act ℓ = .pollSend → ∀ c ∈ st.host.nic.sendCq.entries, c = pr.sent env r k ℓ
  recvCq : act ℓ = .pollRecv → ∀ c ∈ st.host.nic.recvCq.entries.head?,
    c = pr.arrival env r k (pr.expects ℓ)
  repost : act ℓ = .repost → ∃ nic, P.repost env r st.host.nic = .ok nic

variable {pr env act} in
/-- The message a handler is about to look at. -/
theorem Ready.msg {r : Rank} {k : ℕ} {ℓ p : P.Stmt} {st : P.State} {m : Option P.Msg}
    (h : pr.Ready env act r k ℓ st) (hr : pr.reads ℓ = true) (hp : pr.handles ℓ = some p)
    (hm : pr.data env r.peer k (pr.expects p) = .msg m) :
    st.host.mem.msg .controlRecvBuf = m := by
  have h' := h.control hr p hp
  rw [hm] at h'
  exact Data.msg.inj h'

/-- What a statement establishes. -/
structure Done (r : Rank) (k : ℕ) (ℓ : P.Stmt) (st : P.State) : Prop where
  heap : st.heap = pr.heapAt env r (pr.nextRound r k ℓ) (pr.succ ℓ)
  own : pr.Local env r (pr.nextRound r k ℓ) (pr.succ ℓ) st.ext (st.host.mem.msg .rtsMsg)
  posted : (act ℓ).isPost = true →
    ∃ sq w, st.host.nic.sq = sq ++ [w] ∧ pr.Carries env r k (pr.succ ℓ) st.host.mem w

/-- How many statements of a kind come before a place of a script. -/
def passed (p : Act → Bool) (r : Rank) (pc : ℕ) : ℕ := ((P.lambda r).take pc).countP (p ∘ act)

/-- What the two scripts have to do with the announcements, place by place. -/
structure Placed : Prop where
  next : ∀ r pc (h : pc < (P.lambda r).length),
    (P.lambda r)[(Script.next (P.lambda r) 0 pc).2]? = some (pr.succ (P.lambda r)[pc])
  ends : ∀ r pc (h : pc < (P.lambda r).length),
    pr.ends r (P.lambda r)[pc] = (pc + 1 == (P.lambda r).length)
  /-- A send is outstanding exactly when the statement waits for it. -/
  posts : ∀ r pc (h : pc < (P.lambda r).length), passed act Act.isPost r pc
    = passed act Act.isPollSend r pc + if act (P.lambda r)[pc] = .pollSend then 1 else 0
  /-- It waits for a send exactly after posting one. -/
  waits : ∀ r pc (h : pc < (P.lambda r).length), act (pr.succ (P.lambda r)[pc]) = .pollSend →
    act (P.lambda r)[pc] = .post (pr.op (pr.succ (P.lambda r)[pc])) ∧
      pr.ends r (P.lambda r)[pc] = false
  handles : ∀ r pc (h : pc < (P.lambda r).length), ∀ p ∈ pr.handles (pr.succ (P.lambda r)[pc]),
    pr.ends r (P.lambda r)[pc] = false ∧
      (p = (P.lambda r)[pc] ∧ (act p).isPoll = true ∨
        pr.handles (P.lambda r)[pc] = some p ∧ (act (P.lambda r)[pc]).isPoll = false)
  fill : ∀ r pc (h : pc < (P.lambda r).length), act (P.lambda r)[pc] = .fill →
    passed act Act.isFill r pc = 0
  filled : ∀ r pc (h : pc < (P.lambda r).length), pr.filled (P.lambda r)[pc] = true →
    passed act Act.isFill r pc = 1
  /-- The message in flight is the last one the rank has posted. -/
  message : ∀ r pc (h : pc < (P.lambda r).length), act (P.lambda r)[pc] = .pollSend →
    (pr.op (P.lambda r)[pc]).consumesRecv = true →
      ∃ i < pr.perRound, passed act Act.isPostRecv r pc = i + 1 ∧ pr.sendAt r i = (P.lambda r)[pc]
  write : ∀ r pc (h : pc < (P.lambda r).length), act (P.lambda r)[pc] = .pollSend →
    (pr.op (P.lambda r)[pc]).isWrite = true → passed act Act.isPostWrite r pc = 1
  read : ∀ r pc (h : pc < (P.lambda r).length), act (P.lambda r)[pc] = .pollSend →
    pr.op (P.lambda r)[pc] = .rdmaRead → passed act Act.isPostRead r pc = 1
  window : ∀ r pc (_ : pc < (P.lambda r).length),
    passed act Act.isPostRecv r pc ≤ passed act Act.isPollRecv r pc + pr.ahead r
  receives : ∀ r pc (h : pc < (P.lambda r).length), act (P.lambda r)[pc] = .pollRecv →
    passed act Act.isPollRecv r pc < pr.perRound ∧
      pr.sendAt r.peer (passed act Act.isPollRecv r pc) = pr.expects (P.lambda r)[pc]
  /-- Where the control buffer is looked at, the peer cannot have sent anything further. -/
  reads : ∀ r pc (h : pc < (P.lambda r).length), pr.reads (P.lambda r)[pc] = true →
    passed act Act.isPostRecv r pc + pr.ahead r.peer = passed act Act.isPollRecv r pc ∧
      ∀ p ∈ pr.handles (P.lambda r)[pc], act (pr.expects p) = .pollSend ∧
        (pr.op (pr.expects p)).recvOpcode = .recv ∧
        ∃ i < pr.perRound, passed act Act.isPollRecv r pc = i + 1 ∧
          pr.sendAt r.peer i = pr.expects p
  /-- Both ranks send and take the same number of messages in a round. -/
  perRound : ∀ r, (P.lambda r).countP (Act.isPostRecv ∘ act) = pr.perRound ∧
    (P.lambda r).countP (Act.isPollRecv ∘ act) = pr.perRound
  fills : ∀ r, (P.lambda r).countP (Act.isFill ∘ act) = 1
  /-- The bytes of each round are written, or else they are read. -/
  oneSided : (∀ r, (P.lambda r).countP (Act.isPostWrite ∘ act) = 1 ∧
      (P.lambda r).countP (Act.isPostRead ∘ act) = 0) ∨
    ∀ r, (P.lambda r).countP (Act.isPostWrite ∘ act) = 0 ∧
      (P.lambda r).countP (Act.isPostRead ∘ act) = 1

/-- How the announced request moves the announced bytes. -/
def Moves (r : Rank) (k : ℕ) (ℓ : P.Stmt) : Prop :=
  match pr.op ℓ with
  | .send | .sendWithImm => (pr.wr env r k ℓ).length ≤ env.cacheLineSize ∧
      (∃ s, s ≠ .controlRecvBuf ∧ (pr.wr env r k ℓ).addr = .msg s) ∧
      ∃ m, pr.data env r k ℓ = .msg m
  | .rdmaWrite | .rdmaWriteWithImm => (pr.wr env r k ℓ).addr = .buf .sendBuf ∧
      (pr.wr env r k ℓ).remoteAddr = .buf .recvBuf ∧
      pr.data env r k ℓ = .bytes (env.sentBytes r k)
  | .rdmaRead => (pr.wr env r k ℓ).addr = .buf .recvBuf ∧
      (pr.wr env r k ℓ).remoteAddr = .buf .sendBuf ∧ (pr.wr env r k ℓ).length = env.size k ∧
      pr.data env r k ℓ = .bytes (env.sentBytes r.peer k)

/-- **What a program has to show.** -/
structure Lawful : Prop where
  scripted : P.WellScripted act
  placed : pr.Placed act
  recvWr : ∀ (env : P.Env) (r : Rank), P.recvWr env r =
    { wrId := .reg (.msg .controlRecvBuf), addr := .msg .controlRecvBuf,
      length := env.cacheLineSize, lkey := (env.mr r).lkey }
  opcode : ∀ (env : P.Env) r k ℓ, act ℓ = .pollSend → (pr.wr env r k ℓ).opcode = pr.op ℓ
  keys : ∀ (env : P.Env) r k ℓ, act ℓ = .pollSend → (pr.wr env r k ℓ).lkey = (env.mr r).lkey ∧
    ((pr.wr env r k ℓ).isRdma = true → (pr.wr env r k ℓ).rkey = (env.mr r.peer).rkey)
  moves : ∀ (env : P.Env) r k ℓ, act ℓ = .pollSend → pr.Moves env r k ℓ
  /-- A RDMA_READ is only executed while the buffer it reads holds the bytes of the round. -/
  reads_filled : ∀ {env : P.Env} {s : P.Sys} {r : Rank} {ℓ : P.Stmt}, Program.Ctl act env s →
    (s r).booted = true → (P.lambda r)[(s r).pc]? = some ℓ → act ℓ = .pollSend →
    pr.op ℓ = .rdmaRead → P.cnt act Act.isFill r.peer (s r.peer) = (s r).iter + 1
  /-- The receive buffer is only checked after the transfer of the round, and before the next. -/
  checks : ∀ {env : P.Env} {s : P.Sys} {r : Rank} {ℓ : P.Stmt}, Program.Ctl act env s →
    (s r).booted = true → (P.lambda r)[(s r).pc]? = some ℓ → act ℓ = .check →
    transfers act r s = (s r).iter + 1 ∧
      ∀ ℓ', (P.lambda r.peer)[(s r.peer).pc]? = some ℓ' → act ℓ' = .pollSend →
        (pr.op ℓ').isWrite = true →
        (pr.op ℓ').consumesRecv = true ∧ (s r.peer).nic.sq.countP SendWr.consumesRecv = 0
  setup : Safe (P.setup P.ext0) fun ext ↦ ∀ (env : P.Env) r ℓ m, (P.lambda r)[0]? = some ℓ →
    pr.heapAt env r 0 ℓ = {} ∧ pr.handles ℓ = none ∧ pr.Local env r 0 ℓ ext m
  exec_safe : ∀ {env : P.Env} {r : Rank} {k pc : ℕ} {ℓ : P.Stmt} {st : P.State},
    k < env.sizes.length → (P.lambda r)[pc]? = some ℓ → pr.Ready env act r k ℓ st →
    Safe (P.exec env r k (env.size k) ℓ st) (pr.Done env act r k ℓ)

end Protocol

end IbvBench
