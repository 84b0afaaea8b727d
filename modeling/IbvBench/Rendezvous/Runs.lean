import IbvBench.Protocol.Contexts
import IbvBench.Protocol.Progress
import IbvBench.Rendezvous.ReadProtocol
import IbvBench.Rendezvous.WriteImmProtocol
import IbvBench.Rendezvous.WriteProtocol

/-!
# What the three rendezvous programs have in common

Whatever the order of their steps, none of them leaks a context or frees one twice
(`rendezvous_lifecycle`), and none of them deadlocks (`rendezvous_progress`).
-/

set_option autoImplicit false

namespace IbvBench

open StepMachine

/-! ## The four-step write rendezvous -/

namespace RdvWrite

variable {dev : Device} {wc : Wc Msg} {st : State}

theorem postRTS_proceeds {addr round size : ℕ} {rank : Rank} {buf : RegPtr} {mr : Mr}
    {userContext : WrId} : Proceeds (postRTS dev addr round rank buf size mr userContext st) :=
  .bind (Host.post_proceeds _ _ _) fun _ ↦ .bind (mlogAssert_proceeds _ _) fun _ ↦ proceeds_ok _

theorem handleRTS_proceeds {addr round size : ℕ} {buf : RegPtr} {mr : Mr} {userContext : WrId} :
    Proceeds (handleRTS dev addr round wc buf size mr userContext st) := by
  refine .bind (mlogAssert_proceeds _ _) fun _ ↦ .bind (st.derefMsg_proceeds _ _) fun _ ↦ ?_
  refine .bind (mlogAssert_proceeds _ _) fun _ ↦ .bind (Host.post_proceeds _ _ _) fun _ ↦ ?_
  exact .bind (mlogAssert_proceeds _ _) fun _ ↦ proceeds_ok _

theorem handleRTR_proceeds : Proceeds (handleRTR dev wc st) := by
  refine .bind (mlogAssert_proceeds _ _) fun _ ↦ .bind (st.derefMsg_proceeds _ _) fun _ ↦ ?_
  refine .bind (Heap.deref_proceeds _ _ _) fun _ ↦ .bind (Heap.store_proceeds _ _ _) fun _ ↦ ?_
  refine .bind (Host.post_proceeds _ _ _) fun _ ↦ ?_
  exact .bind (mlogAssert_proceeds _ _) fun _ ↦ proceeds_ok _

theorem handleWriteCompletion_proceeds : Proceeds (handleWriteCompletion dev wc st) := by
  refine .bind (mlogAssert_proceeds _ _) fun _ ↦ .bind (ctxOfWrId_proceeds _) fun _ ↦ ?_
  refine .bind (Heap.deref_proceeds _ _ _) fun ctx ↦ ?_
  rcases ctx.recvCtx with _ | recvCtx
  · exact proceeds_fault _
  · refine .bind (Heap.delete_proceeds _ _ _) fun _ ↦ .bind (Host.post_proceeds _ _ _) fun _ ↦ ?_
    exact .bind (mlogAssert_proceeds _ _) fun _ ↦ proceeds_ok _

theorem handleFIN_proceeds : Proceeds (handleFIN wc st) := by
  refine .bind (mlogAssert_proceeds _ _) fun _ ↦ .bind (st.derefMsg_proceeds _ _) fun _ ↦ ?_
  exact .bind (Heap.delete_proceeds _ _ _) fun _ ↦ proceeds_ok _

theorem progressive : protocol.Progressive act where
  setup := proceeds_ok _
  blocked {env r k n ℓ st} h := by
    cases ℓ with
    | pollSentRTS | pollSentFIN | pollSentRTR =>
      exact .inl ⟨rfl, RankState.pollSendStep_blocked h⟩
    | pollWritten =>
      have hpoll : st.pollSendStep (fun _ ↦ true) "" = .error .blocked := h
      exact .inl ⟨rfl, RankState.pollSendStep_blocked hpoll⟩
    | pollRecvRTR | pollRecvRTS | pollRecvFIN =>
      exact .inr ⟨rfl, RankState.pollRecvStep_blocked h⟩
    | repostRTR | repostRTS | repostFIN => exact absurd h (st.repostStep_proceeds _)
    | writeBuffer => exact absurd h (proceeds_ok _)
    | checkBuffer => exact absurd h (st.checkRecvBuf_proceeds _ _ _)
    | postRTS => exact absurd h postRTS_proceeds
    | handleRTS => exact absurd h (Proceeds.bind st.getWc_proceeds fun _ ↦ handleRTS_proceeds)
    | handleRTR => exact absurd h (Proceeds.bind st.getWc_proceeds fun _ ↦ handleRTR_proceeds)
    | handleWriteCompletion =>
      exact absurd h (Proceeds.bind st.getWc_proceeds fun _ ↦ handleWriteCompletion_proceeds)
    | handleFIN => exact absurd h (Proceeds.bind st.getWc_proceeds fun _ ↦ handleFIN_proceeds)
  ahead := by decide
  waits := by decide
  first := by decide

end RdvWrite

/-! ## The three-step write rendezvous -/

namespace LCMArchive

theorem load_proceeds (a : LCMArchive) (key : ℕ) : Proceeds (a.load key) :=
  .ite (proceeds_ok _) (proceeds_fault _)

theorem store_proceeds (a : LCMArchive) (key val : ℕ) : Proceeds (a.store key val) :=
  .ite (proceeds_ok _) (proceeds_fault _)

theorem cas_proceeds (a : LCMArchive) (key old new : ℕ) : Proceeds (a.cas key old new) :=
  .bind (a.load_proceeds _) fun _ ↦
    .ite (.bind (a.store_proceeds _ _) fun _ ↦ proceeds_ok _) (proceeds_ok _)

theorem putLoop_proceeds (a : LCMArchive) (value n i key : ℕ) :
    Proceeds (a.putLoop value n i key) := by
  induction n generalizing i key with
  | zero => exact proceeds_ok _
  | succ n ih =>
    refine .bind (a.load_proceeds _) fun _ ↦ .ite ?_ (ih _ _)
    exact .bind (a.cas_proceeds _ _ _) fun _ ↦ .ite (proceeds_ok _) (ih _ _)

theorem remove_proceeds (a : LCMArchive) (key : ℕ) : Proceeds (a.remove key) :=
  .bind (a.load_proceeds _) fun _ ↦ .bind (a.store_proceeds _ _) fun _ ↦ proceeds_ok _

end LCMArchive

namespace RdvWriteImm

variable {dev : Device} {wc : Wc Msg} {st : State}

theorem postRTS_proceeds {addr round size : ℕ} {rank : Rank} {buf : RegPtr} {mr : Mr}
    {userContext : WrId} : Proceeds (postRTS dev addr round rank buf size mr userContext st) :=
  .bind (Host.post_proceeds _ _ _) fun _ ↦ .bind (mlogAssert_proceeds _ _) fun _ ↦ proceeds_ok _

theorem handleRTS_proceeds {addr round size : ℕ} {buf : RegPtr} {mr : Mr} {userContext : WrId} :
    Proceeds (handleRTS dev addr round wc buf size mr userContext st) := by
  refine .bind (mlogAssert_proceeds _ _) fun _ ↦ .bind (st.derefMsg_proceeds _ _) fun _ ↦ ?_
  refine .bind (mlogAssert_proceeds _ _) fun _ ↦ .bind (st.ext.putLoop_proceeds _ _ _ _) ?_
  rintro ⟨_ | ctxKey, ext⟩
  · exact proceeds_fault _
  · refine .bind (Host.post_proceeds _ _ _) fun _ ↦ ?_
    exact .bind (mlogAssert_proceeds _ _) fun _ ↦ proceeds_ok _

theorem handleRTR_proceeds : Proceeds (handleRTR dev wc st) := by
  refine .bind (mlogAssert_proceeds _ _) fun _ ↦ .bind (st.derefMsg_proceeds _ _) fun _ ↦ ?_
  refine .bind (Heap.deref_proceeds _ _ _) fun _ ↦ .bind (Host.post_proceeds _ _ _) fun _ ↦ ?_
  refine .bind (mlogAssert_proceeds _ _) fun _ ↦ ?_
  exact .bind (Heap.delete_proceeds _ _ _) fun _ ↦ proceeds_ok _

theorem handleWriteImm_proceeds : Proceeds (handleWriteImm wc st) := by
  refine .bind (mlogAssert_proceeds _ _) fun _ ↦ .bind (st.ext.remove_proceeds _) fun _ ↦ ?_
  exact .bind (Heap.delete_proceeds _ _ _) fun _ ↦ proceeds_ok _

theorem progressive : protocol.Progressive act where
  setup := .bind (mlogAssert_proceeds _ _) fun _ ↦ proceeds_ok _
  blocked {env r k n ℓ st} h := by
    cases ℓ with
    | pollSentRTS | pollSentRTR | pollWritten =>
      exact .inl ⟨rfl, RankState.pollSendStep_blocked h⟩
    | pollRecvRTR | pollRecvRTS | pollRecvImm =>
      exact .inr ⟨rfl, RankState.pollRecvStep_blocked h⟩
    | repostRTR | repostRTS | repostImm => exact absurd h (st.repostStep_proceeds _)
    | writeBuffer => exact absurd h (proceeds_ok _)
    | checkBuffer => exact absurd h (st.checkRecvBuf_proceeds _ _ _)
    | postRTS => exact absurd h postRTS_proceeds
    | handleRTS => exact absurd h (Proceeds.bind st.getWc_proceeds fun _ ↦ handleRTS_proceeds)
    | handleRTR => exact absurd h (Proceeds.bind st.getWc_proceeds fun _ ↦ handleRTR_proceeds)
    | handleWriteImm =>
      exact absurd h (Proceeds.bind st.getWc_proceeds fun _ ↦ handleWriteImm_proceeds)
  ahead := by decide
  waits := by decide
  first := by decide

end RdvWriteImm

/-! ## The read rendezvous -/

namespace RdvRead

variable {dev : Device} {wc : Wc Msg} {st : State}

theorem postRTS_proceeds {addr round size : ℕ} {rank : Rank} {buf : RegPtr} {mr : Mr}
    {userContext : WrId} : Proceeds (postRTS dev addr round rank buf size mr userContext st) :=
  .bind (Host.post_proceeds _ _ _) fun _ ↦ .bind (mlogAssert_proceeds _ _) fun _ ↦ proceeds_ok _

theorem handleRTS_proceeds {addr round size : ℕ} {buf : RegPtr} {mr : Mr} {userContext : WrId} :
    Proceeds (handleRTS dev addr round wc buf size mr userContext st) := by
  refine .bind (mlogAssert_proceeds _ _) fun _ ↦ .bind (st.derefMsg_proceeds _ _) fun _ ↦ ?_
  refine .bind (mlogAssert_proceeds _ _) fun _ ↦ .bind (Host.post_proceeds _ _ _) fun _ ↦ ?_
  exact .bind (mlogAssert_proceeds _ _) fun _ ↦ proceeds_ok _

theorem handleReadCompletion_proceeds : Proceeds (handleReadCompletion dev wc st) := by
  refine .bind (mlogAssert_proceeds _ _) fun _ ↦ .bind (ctxOfWrId_proceeds _) fun _ ↦ ?_
  refine .bind (Heap.deref_proceeds _ _ _) fun _ ↦ .bind (Heap.delete_proceeds _ _ _) fun _ ↦ ?_
  exact .bind (Host.post_proceeds _ _ _) fun _ ↦ proceeds_ok _

theorem handleFIN_proceeds : Proceeds (handleFIN wc st) := by
  refine .bind (mlogAssert_proceeds _ _) fun _ ↦ .bind (st.derefMsg_proceeds _ _) fun _ ↦ ?_
  exact .bind (Heap.delete_proceeds _ _ _) fun _ ↦ proceeds_ok _

theorem progressive : protocol.Progressive act where
  setup := proceeds_ok _
  blocked {env r k n ℓ st} h := by
    cases ℓ with
    | pollSentRTS | pollSentFIN => exact .inl ⟨rfl, RankState.pollSendStep_blocked h⟩
    | pollRead =>
      have hpoll : st.pollSendStep (fun _ ↦ true) "" = .error .blocked := h
      exact .inl ⟨rfl, RankState.pollSendStep_blocked hpoll⟩
    | pollRecvRTS | pollRecvFIN => exact .inr ⟨rfl, RankState.pollRecvStep_blocked h⟩
    | repostRTS | repostFIN => exact absurd h (st.repostStep_proceeds _)
    | writeBuffer => exact absurd h (proceeds_ok _)
    | checkBuffer => exact absurd h (st.checkRecvBuf_proceeds _ _ _)
    | postRTS => exact absurd h postRTS_proceeds
    | handleRTS => exact absurd h (Proceeds.bind st.getWc_proceeds fun _ ↦ handleRTS_proceeds)
    | handleReadCompletion =>
      refine absurd h (Proceeds.bind st.getWc_proceeds fun _ ↦ ?_)
      exact .bind handleReadCompletion_proceeds fun _ ↦ proceeds_ok _
    | handleFIN => exact absurd h (Proceeds.bind st.getWc_proceeds fun _ ↦ handleFIN_proceeds)
  ahead := by decide
  waits := by decide
  first := by decide

end RdvRead

/-- A whole round of the three-step rendezvous, with messages of one byte. -/
def RdvWriteImm.round : List Action :=
  [.rank .r0, .rank .r0, .rank .r0, .rank .r1, .deliver .r0, .rank .r1, .rank .r1, .rank .r1,
   .deliver .r1, .complete .r0, .rank .r0, .rank .r0, .rank .r0, .rank .r0, .deliver .r0,
   .complete .r0, .rank .r0, .complete .r1, .rank .r1, .rank .r1, .rank .r1, .rank .r1, .rank .r1,
   .rank .r1, .rank .r1, .deliver .r1, .rank .r0, .rank .r0, .rank .r0, .deliver .r0, .complete .r0,
   .rank .r0, .complete .r1, .rank .r1, .rank .r1, .rank .r1, .rank .r1, .deliver .r1, .rank .r0,
   .rank .r0, .rank .r0, .rank .r0, .complete .r1, .rank .r1]

/-- The state it leads to, in which both ranks have finished. -/
def RdvWriteImm.afterRound : rdvWriteImm.Sys :=
  (rdvWriteImm.machine (.small RdvWriteImm.Msg [1])).result (rdvWriteImm.start (.small _ [1]))
    RdvWriteImm.round

theorem RdvWriteImm.reachable_afterRound :
    (rdvWriteImm.machine (.small RdvWriteImm.Msg [1])).Reachable RdvWriteImm.afterRound :=
  Machine.reachable_result (.init rfl) RdvWriteImm.round

theorem RdvWriteImm.finished_afterRound (r : Rank) :
    rdvWriteImm.finished (.small RdvWriteImm.Msg [1]) (RdvWriteImm.afterRound r) := by
  have h : ∀ r, (RdvWriteImm.afterRound r).booted = true ∧ (RdvWriteImm.afterRound r).iter = 1 := by
    decide
  exact h r

/-! ## The results -/

/-- **No context is leaked, freed twice or used after it was freed**, in any of the three programs,
for any sequence of sizes and any order of steps. -/
theorem rendezvous_lifecycle :
    (∀ env s, (rdvWrite.machine env).Reachable s → rdvWrite.Lifecycle env s) ∧
    (∀ env s, (rdvWriteImm.machine env).Reachable s → rdvWriteImm.Lifecycle env s) ∧
    (∀ env s, (rdvRead.machine env).Reachable s → rdvRead.Lifecycle env s) :=
  ⟨fun _ _ ↦ Protocol.lifecycle RdvWrite.lawful (by decide),
    fun _ _ ↦ Protocol.lifecycle RdvWriteImm.lawful (by decide),
    fun _ _ ↦ Protocol.lifecycle RdvRead.lawful (by decide)⟩

theorem rendezvous_lifecycle_afterRound :
    rdvWrite.Lifecycle (.small RdvWrite.Msg [2]) RdvWrite.firstCheck ∧
    ((RdvWriteImm.afterRound .r0).st.heap.live = [] ∧
      (RdvWriteImm.afterRound .r0).st.heap.allocs = 2) ∧
    rdvRead.Lifecycle (.small RdvRead.Msg [2]) RdvRead.firstRTS :=
  ⟨rendezvous_lifecycle.1 _ _ (Machine.reachable_result (.init rfl) RdvWrite.firstMessage),
    (rendezvous_lifecycle.2.1 _ _ RdvWriteImm.reachable_afterRound).finished .r0
      (RdvWriteImm.finished_afterRound .r0),
    rendezvous_lifecycle.2.2 _ _ (Machine.reachable_result (.init rfl) RdvRead.finAndRTS)⟩

/-- What it means for a program not to deadlock, in a state: there is a step as long as a rank has
not finished, and when both have, every completion has been consumed. -/
def Program.Progress (P : Program) (env : P.Env) (s : P.Sys) : Prop :=
  (∀ r, ¬ P.finished env (s r) → ∃ a s', P.step env s a = .ok s') ∧
    ((∀ r, P.finished env (s r)) → ∀ r, (s r).nic.outstanding = [] ∧
      (s r).nic.sendCq.entries = [] ∧ (s r).nic.sendCq.polled = (s r).nic.sendCq.generated ∧
      (s r).nic.recvCq.entries = [] ∧ (s r).nic.recvCq.polled = (s r).nic.recvCq.generated)

/-- **None of the three programs deadlocks**, for any sequence of sizes and any order of steps. -/
theorem rendezvous_progress :
    (∀ env s, (rdvWrite.machine env).Reachable s → rdvWrite.Progress env s) ∧
    (∀ env s, (rdvWriteImm.machine env).Reachable s → rdvWriteImm.Progress env s) ∧
    (∀ env s, (rdvRead.machine env).Reachable s → rdvRead.Progress env s) :=
  ⟨fun _ _ hs ↦ ⟨fun _ ↦ Protocol.progress RdvWrite.lawful RdvWrite.progressive hs,
      Protocol.consumed RdvWrite.lawful RdvWrite.progressive hs⟩,
    fun _ _ hs ↦ ⟨fun _ ↦ Protocol.progress RdvWriteImm.lawful RdvWriteImm.progressive hs,
      Protocol.consumed RdvWriteImm.lawful RdvWriteImm.progressive hs⟩,
    fun _ _ hs ↦ ⟨fun _ ↦ Protocol.progress RdvRead.lawful RdvRead.progressive hs,
      Protocol.consumed RdvRead.lawful RdvRead.progressive hs⟩⟩

theorem rendezvous_progress_afterRound :
    (∃ a s', rdvWrite.step (.small RdvWrite.Msg [2]) RdvWrite.firstCheck a = .ok s') ∧
    (RdvWriteImm.afterRound .r0).nic.recvCq.entries = [] ∧
    (∃ a s', rdvRead.step (.small RdvRead.Msg [2]) RdvRead.firstRTS a = .ok s') := by
  have hwrite : ¬ rdvWrite.finished (.small RdvWrite.Msg [2]) (RdvWrite.firstCheck .r1) := fun h ↦
    absurd h.2 (by decide)
  have hread : ¬ rdvRead.finished (.small RdvRead.Msg [2]) (RdvRead.firstRTS .r0) := fun h ↦
    absurd h.2 (by decide)
  refine ⟨?_, ?_, ?_⟩
  · exact (rendezvous_progress.1 _ _
      (Machine.reachable_result (.init rfl) RdvWrite.firstMessage)).1 .r1 hwrite
  · obtain ⟨-, -, -, hrecv, -⟩ := (rendezvous_progress.2.1 _ _
      RdvWriteImm.reachable_afterRound).2 RdvWriteImm.finished_afterRound .r0
    exact hrecv
  · exact (rendezvous_progress.2.2 _ _
      (Machine.reachable_result (.init rfl) RdvRead.finAndRTS)).1 .r0 hread

end IbvBench
