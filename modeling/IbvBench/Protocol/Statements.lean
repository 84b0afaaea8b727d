import IbvBench.Bench
import IbvBench.Protocol.Basic

/-!
# Statements that every program has

The polls, the reposts and the two buffer statements are the same in every program, and all they
have to show is that what comes next is announced to find the contexts where they left them
(`Protocol.Keeps`).  Only the posts and the handlers are left to the programs.
-/

set_option autoImplicit false

namespace IbvBench

open StepMachine

namespace Env

variable {Msg : Type} {msgLength : ℕ} (env : Env Msg msgLength) (r : Rank)

/-- A control message is sent from its slot, with its type as immediate data. -/
def controlWr (wrId : WrId) (slot : MsgSlot) (length immData : ℕ) : SendWr Msg where
  wrId
  opcode := .sendWithImm
  addr := .msg slot
  length
  lkey := (env.mr r).lkey
  immData

/-- The receive completion of a control message. -/
def controlWc (immData : ℕ) (m : Msg) : Wc Msg where
  wrId := .reg (.msg .controlRecvBuf)
  status := .success
  opcode := .recv
  qpNum := env.qpNum r r.peer
  immData
  payload := some (.msg (some m))

end Env

namespace Protocol

variable {P : Program} {pr : Protocol P} {env : P.Env} {act : P.Stmt → Act} {r : Rank} {k : ℕ}
  {ℓ : P.Stmt} {st st' : P.State}

variable (pr env act) in
/-- The statement does not post, and the next one finds the contexts as this one does. -/
structure Keeps (r : Rank) (k : ℕ) (ℓ : P.Stmt) : Prop where
  isPost : (act ℓ).isPost = false
  heapAt : pr.heapAt env r (pr.nextRound r k ℓ) (pr.succ ℓ) = pr.heapAt env r k ℓ
  own : ∀ ext m, pr.Local env r k ℓ ext m → pr.Local env r (pr.nextRound r k ℓ) (pr.succ ℓ) ext m

theorem Keeps.done (hk : pr.Keeps env act r k ℓ) (h : pr.Ready env act r k ℓ st)
    (hheap : st'.heap = st.heap) (hext : st'.ext = st.ext)
    (hmsg : st'.host.mem.msg = st.host.mem.msg) : pr.Done env act r k ℓ st' := by
  refine ⟨?_, ?_, ?_⟩
  · rw [hheap, h.heap, hk.heapAt]
  · rw [hext, hmsg]
    exact hk.own _ _ h.own
  · intro hp
    rw [hk.isPost] at hp
    cases hp

/-- A computation that leaves everything but the queues alone. -/
theorem Keeps.safe (hk : pr.Keeps env act r k ℓ) (h : pr.Ready env act r k ℓ st) {m : Exec P.State}
    (hm : Safe m st.SameOwn) : Safe m (pr.Done env act r k ℓ) :=
  hm.mono fun _ hown ↦ hk.done h hown.1 hown.2.1 (by rw [hown.2.2])

variable {ok : Wc P.Msg → Bool} {msg : String}

theorem Keeps.pollSend (hk : pr.Keeps env act r k ℓ) (h : pr.Ready env act r k ℓ st)
    (ha : act ℓ = .pollSend) (hok : ok (pr.sent env r k ℓ) = true) :
    Safe (st.pollSendStep ok msg) (pr.Done env act r k ℓ) := by
  refine hk.safe h (RankState.pollSendStep_safe fun wc hwc ↦ ?_)
  rw [h.sendCq ha wc hwc]
  exact hok

theorem Keeps.pollRecv (hk : pr.Keeps env act r k ℓ) (h : pr.Ready env act r k ℓ st)
    (ha : act ℓ = .pollRecv) (hok : ok (pr.arrival env r k (pr.expects ℓ)) = true) :
    Safe (st.pollRecvStep ok msg) (pr.Done env act r k ℓ) := by
  refine hk.safe h (RankState.pollRecvStep_safe fun wc hwc ↦ ?_)
  rw [h.recvCq ha wc hwc]
  exact hok

theorem Keeps.repost (hk : pr.Keeps env act r k ℓ) (h : pr.Ready env act r k ℓ st)
    (ha : act ℓ = .repost) :
    Safe (st.repostStep (env.device r) (P.recvWr env r)) (pr.Done env act r k ℓ) := by
  obtain ⟨nic, hnic⟩ := h.repost ha
  exact hk.safe h (RankState.repostStep_safe hnic)

/-- The comparison of `check_buffer` succeeds. -/
theorem Keeps.check (hk : pr.Keeps env act r k ℓ) (h : pr.Ready env act r k ℓ st)
    (ha : act ℓ = .check) :
    Safe (st.checkRecvBuf env.touchData r (env.size k)) (pr.Done env act r k ℓ) := by
  refine hk.safe h (RankState.checkRecvBuf_safe (k := k) fun ht ↦ ?_)
  rw [h.recvBuf ha, Env.sentBytes, if_pos ht]

theorem Keeps.fill (hk : pr.Keeps env act r k ℓ) (h : pr.Ready env act r k ℓ st) :
    Safe (.ok (st.writeSendBuf env.touchData r k (env.size k)) : Exec P.State)
      (pr.Done env act r k ℓ) := by
  obtain ⟨h1, h2, h3⟩ := st.writeSendBuf_sameOwn env.touchData r k (env.size k)
  exact safe_ok.mpr (hk.done h h1 h2 h3)

end Protocol

end IbvBench
