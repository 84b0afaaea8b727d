import IbvBench.Lib.StepMachine
import IbvBench.Setup.Text
import Mathlib.Algebra.BigOperators.Fin
import Mathlib.Algebra.Order.BigOperators.Group.Finset
import Mathlib.Logic.Function.Basic

/-!
# All-to-all connection set-up

The two loops of `init`.  In the first one each rank creates a queue pair for each rank and publishes
its end point; in the second one, behind a barrier, it asks for the end point that each rank has
published for it, and moves the queue pair for that rank to the state RTR with the number and the
local identifier it finds there.

The ranks take their steps in any order.  Of the key-value store it is assumed that a rank which asks
for a key behind the barrier is given a text that has been published under exactly this key; which
one, if there were two, is left open.  What has happened to a rank is then a function of how far it
has come (`SoFar`), and when all ranks have come to the end each queue pair is connected to the one
for its own rank on the other side (`init_connects`).
-/

set_option autoImplicit false

namespace IbvBench

open StepMachine

/-- What can go wrong. -/
inductive SetupFault where
  /-- A text did not fit into its buffer. -/
  | overflow
  /-- `sscanf` left a variable without a value. -/
  | uninitialised
  /-- `ibv_modify_qp` was called in the wrong state, or there was no queue pair. -/
  | modifyQp
  deriving DecidableEq, Repr

abbrev SetupExec (α : Type) := Comp SetupFault α

/-! ## Queue pairs -/

inductive QpState where
  | RESET
  | INIT
  | RTR
  | RTS
  deriving DecidableEq, Repr

/-- The attributes that a queue pair is given when it is moved to RTR. -/
structure RtrAttr where
  dest_qp_num : BitVec 32
  dlid : BitVec 16
  deriving DecidableEq

structure Qp where
  qp_num : BitVec 32
  qp_state : QpState
  rtr : Option RtrAttr
  deriving DecidableEq

namespace Qp

/-- `ibv_create_qp`, which chooses the number. -/
def create (qp_num : BitVec 32) : Qp where
  qp_num := qp_num
  qp_state := .RESET
  rtr := none

/-- `ibv_modify_qp` to INIT. -/
def modifyInit (qp : Qp) : SetupExec Qp :=
  if qp.qp_state = .RESET then .ok { qp with qp_state := .INIT } else .error (.fault .modifyQp)

/-- `ibv_modify_qp` to RTR. -/
def modifyRtr (attr : RtrAttr) (qp : Qp) : SetupExec Qp :=
  if qp.qp_state = .INIT then .ok { qp with qp_state := .RTR, rtr := some attr }
  else .error (.fault .modifyQp)

/-- `ibv_modify_qp` to RTS. -/
def modifyRts (qp : Qp) : SetupExec Qp :=
  if qp.qp_state = .RTR then .ok { qp with qp_state := .RTS } else .error (.fault .modifyQp)

end Qp

/-- `RemoteMemRegion` -/
structure RemoteMemRegion where
  addr : BitVec 64
  size : BitVec 32
  rkey : BitVec 32
  deriving DecidableEq

/-! ## The ranks -/

/-- What the ranks have when they come to the first loop, and the numbers that their queue pairs get:
`qp_num r i` is the one for rank `i` on rank `r`.  The number of ranks is an int. -/
structure Job (n : ℕ) where
  nranks_int : n < 2 ^ 31
  mr_addr : Fin n → BitVec 64
  mr_size : Fin n → BitVec 32
  rkey : Fin n → BitVec 32
  lid : Fin n → BitVec 16
  qp_num : Fin n → Fin n → BitVec 32

/-- How far a rank has come: to pass `i` of the first loop, or of the second one.  The first loop is
left at the barrier. -/
inductive Pc where
  | publish (i : ℕ)
  | connect (i : ℕ)
  deriving DecidableEq, Repr

/-- A rank: how far it has come, `device->qps` and `device->rmrs`. -/
structure SetupRank (n : ℕ) where
  pc : Pc
  qps : Fin n → Option Qp
  rmrs : Fin n → Option RemoteMemRegion

/-- All ranks, and the key-value store: what has been published. -/
structure World (n : ℕ) where
  rank : Fin n → SetupRank n
  published : List (List Char × List Char)

/-- The ranks come to the first loop. -/
def World.init (n : ℕ) : World n where
  rank := fun _ ↦ { pc := .publish 0, qps := fun _ ↦ none, rmrs := fun _ ↦ none }
  published := []

/-- `sprintf` into a buffer of 256 bytes. -/
def sprintf (text : List Char) : SetupExec (List Char) :=
  if text.length < 256 then .ok text else .error (.fault .overflow)

section

variable {n : ℕ} (job : Job n)

/-- The end point of rank `r` for rank `i`. -/
def Job.endpoint (r i : Fin n) : Endpoint where
  mr_addr := job.mr_addr r
  rkey := job.rkey r
  qp_num := job.qp_num r i
  lid := job.lid r

/-- A pass of the first loop on rank `r`. -/
def publishOne (r i : Fin n) (w : World n) : SetupExec (World n) := do
  let qp ← (Qp.create (job.qp_num r i)).modifyInit
  let key ← sprintf (keyText r i)
  let ep_name ← sprintf (job.endpoint r i).text
  let rank : SetupRank n :=
    { w.rank r with
      pc := .publish (i + 1)
      qps := Function.update (w.rank r).qps i (some qp) }
  .ok { rank := Function.update w.rank r rank, published := w.published ++ [(key, ep_name)] }

/-- `lcm_pm_barrier`, once all ranks have come to it. -/
def passBarrier (r : Fin n) (w : World n) : World n :=
  { w with rank := Function.update w.rank r { w.rank r with pc := .connect 0 } }

/-- The rank is at the barrier or behind it. -/
def Pc.arrived (n : ℕ) : Pc → Bool
  | .publish i => n ≤ i
  | .connect _ => true

/-- A pass of the second loop on rank `r`, where `ep_name` is what `lcm_pm_getname` returns. -/
def connectOne (r i : Fin n) (ep_name : List Char) (w : World n) : SetupExec (World n) := do
  let key ← sprintf (keyText i r)
  if (key, ep_name) ∈ w.published then
    match Endpoint.scan ep_name, (w.rank r).qps i with
    | none, _ => .error (.fault .uninitialised)
    | some _, none => .error (.fault .modifyQp)
    | some dest, some qp =>
      let qp ← qp.modifyRtr { dest_qp_num := dest.qp_num, dlid := dest.lid }
      let qp ← qp.modifyRts
      let rmr : RemoteMemRegion :=
        { addr := dest.mr_addr, size := job.mr_size r, rkey := dest.rkey }
      let rank : SetupRank n :=
        { pc := .connect (i + 1)
          qps := Function.update (w.rank r).qps i (some qp)
          rmrs := Function.update (w.rank r).rmrs i (some rmr) }
      .ok { w with rank := Function.update w.rank r rank }
  else .error .blocked

/-- A step of rank `r`. -/
def setupStep (w : World n) : Fin n × List Char → SetupExec (World n)
  | (r, ep_name) =>
    match (w.rank r).pc with
    | .publish i =>
      if h : i < n then publishOne job r ⟨i, h⟩ w
      else if ∀ q, (w.rank q).pc.arrived n then .ok (passBarrier r w) else .error .blocked
    | .connect i => if h : i < n then connectOne job r ⟨i, h⟩ ep_name w else .error .blocked

/-- The ranks of a job, in any order. -/
def setupMachine : Machine (World n) (Fin n × List Char) SetupFault where
  init w := w = .init n
  step := setupStep job

/-! ## What has happened so far -/

/-- The passes of the first loop. -/
def Pc.published (n : ℕ) : Pc → ℕ
  | .publish i => i
  | .connect _ => n

/-- The passes of the second loop. -/
def Pc.connected : Pc → ℕ
  | .publish _ => 0
  | .connect i => i

/-- A queue pair behind the first loop, -/
def Job.freshQp (r i : Fin n) : Qp where
  qp_num := job.qp_num r i
  qp_state := .INIT
  rtr := none

/-- and behind the second one. -/
def Job.connectedQp (r i : Fin n) : Qp where
  qp_num := job.qp_num r i
  qp_state := .RTS
  rtr := some { dest_qp_num := job.qp_num i r, dlid := job.lid i }

/-- What a rank keeps of the region of another one. -/
def Job.region (r i : Fin n) : RemoteMemRegion where
  addr := job.mr_addr i
  size := job.mr_size r
  rkey := job.rkey i

/-- What rank `r` has is what it has to have when it has come so far. -/
structure RankSoFar (r : Fin n) (k : SetupRank n) : Prop where
  published_le : k.pc.published n ≤ n
  connected_le : k.pc.connected ≤ n
  qps : ∀ i, k.qps i =
    if (i : ℕ) < k.pc.connected then some (job.connectedQp r i)
    else if (i : ℕ) < k.pc.published n then some (job.freshQp r i) else none
  rmrs : ∀ i, k.rmrs i = if (i : ℕ) < k.pc.connected then some (job.region r i) else none

/-- So is it on all ranks, the end points of the passes they have come through are published, and no
rank has passed the barrier before all have published all. -/
structure SoFar (w : World n) : Prop where
  rank : ∀ r, RankSoFar job r (w.rank r)
  published : ∀ text, text ∈ w.published ↔ ∃ r i : Fin n, (i : ℕ) < (w.rank r).pc.published n ∧
    text = (keyText r i, (job.endpoint r i).text)
  barrier : ∀ r i, (w.rank r).pc = .connect i → ∀ q, (w.rank q).pc.published n = n

section

variable {job} {w : World n} {r i : Fin n} {k : SetupRank n}

theorem soFar_init : SoFar job (World.init n) where
  rank r := { published_le := Nat.zero_le n, connected_le := Nat.zero_le n,
              qps := fun _ ↦ rfl, rmrs := fun _ ↦ rfl }
  published text := by
    constructor
    · exact fun h ↦ by cases h
    · rintro ⟨r, i, hlt, -⟩
      exact absurd hlt (Nat.not_lt_zero _)
  barrier r i h := by cases h

/-! ### The first loop -/

theorem sprintf_key (job : Job n) (r i : Fin n) : sprintf (keyText r i) = .ok (keyText r i) := by
  have hlength := length_keyText_le (Nat.lt_trans r.isLt job.nranks_int)
    (Nat.lt_trans i.isLt job.nranks_int)
  exact if_pos (Nat.lt_of_le_of_lt hlength (by decide))

theorem sprintf_endpoint (e : Endpoint) : sprintf e.text = .ok e.text :=
  if_pos (Nat.lt_of_le_of_lt e.length_text_le (by decide))

/-- A rank behind a pass of the first loop. -/
def afterPublish (job : Job n) (r i : Fin n) (k : SetupRank n) : SetupRank n :=
  { k with pc := .publish (i + 1), qps := Function.update k.qps i (some (job.freshQp r i)) }

theorem publishOne_eq (job : Job n) (r i : Fin n) (w : World n) :
    publishOne job r i w = .ok
      { rank := Function.update w.rank r (afterPublish job r i (w.rank r))
        published := w.published ++ [(keyText r i, (job.endpoint r i).text)] } := by
  rw [publishOne, sprintf_key job, sprintf_endpoint]
  rfl

theorem RankSoFar.publish (h : RankSoFar job r k) (hpc : k.pc = .publish i) :
    RankSoFar job r (afterPublish job r i k) := by
  obtain ⟨-, -, hqps, hrmrs⟩ := h
  rw [hpc] at hqps hrmrs
  refine ⟨i.isLt, Nat.zero_le n, fun j ↦ ?_, hrmrs⟩
  rcases eq_or_ne j i with rfl | hne
  · show Function.update k.qps j (some (job.freshQp r j)) j = _
    rw [Function.update_self]
    simp [afterPublish, Pc.connected, Pc.published]
  · have hne' : (j : ℕ) ≠ i := fun he ↦ hne (Fin.ext he)
    have hiff : (j : ℕ) < i + 1 ↔ (j : ℕ) < i := by omega
    show Function.update k.qps i (some (job.freshQp r i)) j = _
    rw [Function.update_of_ne hne, hqps j]
    simp [afterPublish, Pc.connected, Pc.published, hiff]

theorem SoFar.publish (h : SoFar job w) (hpc : (w.rank r).pc = .publish i) :
    SoFar job
      { rank := Function.update w.rank r (afterPublish job r i (w.rank r))
        published := w.published ++ [(keyText r i, (job.endpoint r i).text)] } where
  rank := (Function.forall_update_iff w.rank fun q k ↦ RankSoFar job q k).mpr
    ⟨(h.rank r).publish hpc, fun q _ ↦ h.rank q⟩
  published text := by
    have hpub : ∀ q, (Function.update w.rank r (afterPublish job r i (w.rank r)) q).pc.published n =
        if q = r then (i : ℕ) + 1 else (w.rank q).pc.published n := by
      intro q
      rcases eq_or_ne q r with rfl | hq
      · rw [Function.update_self, if_pos rfl]
        rfl
      · rw [Function.update_of_ne hq, if_neg hq]
    have hr : (w.rank r).pc.published n = i := by rw [hpc]; rfl
    simp only [hpub, List.mem_append, List.mem_singleton, h.published]
    constructor
    · rintro (⟨q, j, hlt, rfl⟩ | rfl)
      · refine ⟨q, j, ?_, rfl⟩
        split
        · rename_i hq
          rw [hq, hr] at hlt
          exact Nat.lt_succ_of_lt hlt
        · exact hlt
      · exact ⟨r, i, by rw [if_pos rfl]; exact Nat.lt_succ_self _, rfl⟩
    · rintro ⟨q, j, hlt, rfl⟩
      split at hlt
      · rename_i hq
        subst hq
        rcases Nat.lt_succ_iff_lt_or_eq.mp hlt with hlt | heq
        · exact .inl ⟨q, j, by rwa [hr], rfl⟩
        · obtain rfl := Fin.ext heq
          exact .inr rfl
      · exact .inl ⟨q, j, hlt, rfl⟩
  barrier q j hq := by
    dsimp only at hq
    rcases eq_or_ne q r with rfl | hne
    · rw [Function.update_self] at hq
      cases hq
    · rw [Function.update_of_ne hne] at hq
      have hall := h.barrier q j hq r
      rw [hpc] at hall
      exact absurd hall i.isLt.ne

/-! ### The barrier -/

/-- A rank at or behind the barrier has published all. -/
theorem RankSoFar.published_eq (h : RankSoFar job r k) (harrived : k.pc.arrived n = true) :
    k.pc.published n = n := by
  have hle := h.published_le
  cases hpc : k.pc with
  | publish j =>
    rw [hpc] at harrived hle
    exact Nat.le_antisymm hle (of_decide_eq_true harrived)
  | connect j => rfl

theorem SoFar.pass (h : SoFar job w) (harrived : ∀ q, (w.rank q).pc.arrived n = true)
    (hpc : ∀ j, (w.rank r).pc ≠ .connect j) : SoFar job (passBarrier r w) := by
  have hall : ∀ q, (w.rank q).pc.published n = n := fun q ↦ (h.rank q).published_eq (harrived q)
  have hpub : ∀ q, ((passBarrier r w).rank q).pc.published n = n := by
    intro q
    dsimp only [passBarrier]
    rcases eq_or_ne q r with rfl | hq
    · rw [Function.update_self]
      rfl
    · rw [Function.update_of_ne hq, hall]
  have hr : (w.rank r).pc.connected = 0 := by
    cases hpc' : (w.rank r).pc with
    | publish j => rfl
    | connect j => exact absurd hpc' (hpc j)
  refine ⟨?_, ?_, fun q j hq ↦ hpub⟩
  · refine (Function.forall_update_iff w.rank fun q k ↦ RankSoFar job q k).mpr
      ⟨⟨Nat.le_refl n, Nat.zero_le n, ?_, ?_⟩, fun q _ ↦ h.rank q⟩
    · intro j
      show (w.rank r).qps j = _
      rw [(h.rank r).qps j, hr, hall r]
      rfl
    · intro j
      show (w.rank r).rmrs j = _
      rw [(h.rank r).rmrs j, hr]
      rfl
  · intro text
    show text ∈ w.published ↔ _
    simp only [hpub, h.published, hall]

/-! ### The second loop -/

/-- The text under a key is the end point of the rank that the key names, for the one that asks. -/
theorem SoFar.text_eq (h : SoFar job w) {ep_name : List Char}
    (hmem : (keyText i r, ep_name) ∈ w.published) : ep_name = (job.endpoint i r).text := by
  obtain ⟨q, j, -, heq⟩ := (h.published _).mp hmem
  obtain ⟨hkey, htext⟩ := Prod.mk.inj heq
  obtain ⟨hi, hr⟩ := keyText_inj hkey
  obtain rfl := Fin.ext hi
  obtain rfl := Fin.ext hr
  exact htext

/-- A rank behind a pass of the second loop. -/
def afterConnect (job : Job n) (r i : Fin n) (k : SetupRank n) : SetupRank n where
  pc := .connect (i + 1)
  qps := Function.update k.qps i (some (job.connectedQp r i))
  rmrs := Function.update k.rmrs i (some (job.region r i))

/-- A pass waits for an answer of the store, and then connects the queue pair. -/
theorem SoFar.connectOne_eq (h : SoFar job w) (hpc : (w.rank r).pc = .connect i)
    (ep_name : List Char) :
    connectOne job r i ep_name w =
      if (keyText i r, ep_name) ∈ w.published then
        .ok { w with rank := Function.update w.rank r (afterConnect job r i (w.rank r)) }
      else .error .blocked := by
  rw [connectOne, sprintf_key job]
  show (if (keyText i r, ep_name) ∈ w.published then _ else _) = _
  split
  · rename_i hmem
    have hqp : (w.rank r).qps i = some (job.freshQp r i) := by
      rw [(h.rank r).qps i, hpc]
      exact (if_neg (Nat.lt_irrefl _)).trans (if_pos i.isLt)
    rw [h.text_eq hmem, Endpoint.scan_text, hqp]
    rfl
  · rfl

theorem RankSoFar.connect (h : RankSoFar job r k) (hpc : k.pc = .connect i) :
    RankSoFar job r (afterConnect job r i k) := by
  obtain ⟨-, -, hqps, hrmrs⟩ := h
  rw [hpc] at hqps hrmrs
  refine ⟨Nat.le_refl n, i.isLt, ?_, ?_⟩
  · intro j
    rcases eq_or_ne j i with rfl | hne
    · show Function.update k.qps j (some (job.connectedQp r j)) j = _
      rw [Function.update_self]
      simp [afterConnect, Pc.connected]
    · have hne' : (j : ℕ) ≠ i := fun he ↦ hne (Fin.ext he)
      have hiff : (j : ℕ) < i + 1 ↔ (j : ℕ) < i := by omega
      show Function.update k.qps i (some (job.connectedQp r i)) j = _
      rw [Function.update_of_ne hne, hqps j]
      simp [afterConnect, Pc.connected, Pc.published, hiff]
  · intro j
    rcases eq_or_ne j i with rfl | hne
    · show Function.update k.rmrs j (some (job.region r j)) j = _
      rw [Function.update_self]
      simp [afterConnect, Pc.connected]
    · have hne' : (j : ℕ) ≠ i := fun he ↦ hne (Fin.ext he)
      have hiff : (j : ℕ) < i + 1 ↔ (j : ℕ) < i := by omega
      show Function.update k.rmrs i (some (job.region r i)) j = _
      rw [Function.update_of_ne hne, hrmrs j]
      simp [afterConnect, Pc.connected, hiff]

theorem SoFar.connect (h : SoFar job w) (hpc : (w.rank r).pc = .connect i) :
    SoFar job { w with rank := Function.update w.rank r (afterConnect job r i (w.rank r)) } := by
  have hall := h.barrier r i hpc
  have hpub : ∀ q, (Function.update w.rank r (afterConnect job r i (w.rank r)) q).pc.published n
      = n := by
    intro q
    rcases eq_or_ne q r with rfl | hq
    · rw [Function.update_self]
      rfl
    · rw [Function.update_of_ne hq, hall]
  refine ⟨?_, ?_, fun q j hq ↦ hpub⟩
  · exact (Function.forall_update_iff w.rank fun q k ↦ RankSoFar job q k).mpr
      ⟨(h.rank r).connect hpc, fun q _ ↦ h.rank q⟩
  · intro text
    simp only [hpub, h.published, hall]

/-- **A step keeps all this**, and nothing goes wrong in it. -/
theorem SoFar.step (h : SoFar job w) (a : Fin n × List Char) :
    Safe (setupStep job w a) (SoFar job) := by
  obtain ⟨r, ep_name⟩ := a
  rw [setupStep]
  cases hpc : (w.rank r).pc with
  | publish i =>
    dsimp only
    split
    · rename_i hlt
      rw [publishOne_eq]
      exact h.publish hpc
    · split
      · rename_i harrived
        exact h.pass harrived fun j hj ↦ by rw [hpc] at hj; cases hj
      · trivial
  | connect i =>
    dsimp only
    split
    · rename_i hlt
      rw [h.connectOne_eq hpc]
      split
      · exact h.connect hpc
      · trivial
    · trivial

/-- In every run. -/
theorem soFar_of_reachable (hw : (setupMachine job).Reachable w) :
    SoFar job w ∧ ∀ a f, setupStep job w a ≠ .error (.fault f) :=
  Machine.reachable_safe (M := setupMachine job) (fun _ hinit ↦ hinit ▸ soFar_init) (fun _ a h ↦ h.step a) hw

/-- As long as a rank has not come to the end, one can take a step. -/
theorem SoFar.exists_step (h : SoFar job w) :
    (∀ r, (w.rank r).pc = .connect n) ∨ ∃ a w', setupStep job w a = .ok w' := by
  by_cases hpublish : ∃ r, ∃ i : Fin n, (w.rank r).pc = .publish i
  · obtain ⟨r, i, hpc⟩ := hpublish
    have hstep : setupStep job w (r, []) = publishOne job r i w := by
      rw [setupStep, hpc]
      exact dif_pos i.isLt
    exact .inr ⟨(r, []), _, hstep.trans (publishOne_eq job r i w)⟩
  have harrived : ∀ q, (w.rank q).pc.arrived n = true := by
    intro q
    cases hpc : (w.rank q).pc with
    | publish j =>
      refine decide_eq_true (Nat.le_of_not_lt fun hlt ↦ hpublish ⟨q, ⟨j, hlt⟩, hpc⟩)
    | connect j => rfl
  by_cases hbarrier : ∃ r j, (w.rank r).pc = .publish j
  · obtain ⟨r, j, hpc⟩ := hbarrier
    have hle : ¬ j < n := fun hlt ↦ hpublish ⟨r, ⟨j, hlt⟩, hpc⟩
    have hstep : setupStep job w (r, []) = .ok (passBarrier r w) := by
      rw [setupStep, hpc]
      exact (dif_neg hle).trans (if_pos harrived)
    exact .inr ⟨(r, []), _, hstep⟩
  by_cases hconnect : ∃ r, ∃ i : Fin n, (w.rank r).pc = .connect i
  · obtain ⟨r, i, hpc⟩ := hconnect
    have hmem : (keyText i r, (job.endpoint i r).text) ∈ w.published := by
      refine (h.published _).mpr ⟨i, r, ?_, rfl⟩
      rw [h.barrier r i hpc i]
      exact r.isLt
    have hstep : setupStep job w (r, (job.endpoint i r).text) =
        connectOne job r i (job.endpoint i r).text w := by
      rw [setupStep, hpc]
      exact dif_pos i.isLt
    exact .inr ⟨(r, (job.endpoint i r).text), _,
      hstep.trans ((h.connectOne_eq hpc _).trans (if_pos hmem))⟩
  · refine .inl fun r ↦ ?_
    cases hpc : (w.rank r).pc with
    | publish j => exact absurd ⟨r, j, hpc⟩ hbarrier
    | connect j =>
      have hle : j ≤ n := by
        have hconnected := (h.rank r).connected_le
        rwa [hpc] at hconnected
      have hge : ¬ j < n := fun hlt ↦ hconnect ⟨r, ⟨j, hlt⟩, hpc⟩
      rw [Nat.le_antisymm hle (Nat.le_of_not_lt hge)]

end

/-! ### The length of a run -/

/-- How far a rank has come, with the barrier as a pass of its own. -/
def Pc.position (n : ℕ) : Pc → ℕ
  | .publish i => i
  | .connect i => n + 1 + i

section

variable {job} {w w' : World n}

/-- A step takes one rank one pass further. -/
theorem SoFar.position_step (h : SoFar job w) {a : Fin n × List Char}
    (hstep : setupStep job w a = .ok w') :
    ∃ k : SetupRank n, w'.rank = Function.update w.rank a.1 k ∧
      k.pc.position n = (w.rank a.1).pc.position n + 1 := by
  obtain ⟨r, ep_name⟩ := a
  rw [setupStep] at hstep
  cases hpc : (w.rank r).pc with
  | publish i =>
    rw [hpc] at hstep
    dsimp only at hstep
    split at hstep
    · rw [publishOne_eq] at hstep
      obtain rfl := Except.ok.inj hstep
      exact ⟨_, rfl, rfl⟩
    · rename_i hge
      have hle : i ≤ n := by
        have hpublished := (h.rank r).published_le
        rwa [hpc] at hpublished
      split at hstep
      · obtain rfl := Except.ok.inj hstep
        refine ⟨_, rfl, ?_⟩
        show n + 1 + 0 = i + 1
        omega
      · cases hstep
  | connect i =>
    rw [hpc] at hstep
    dsimp only at hstep
    split at hstep
    · rename_i hlt
      rw [h.connectOne_eq hpc] at hstep
      split at hstep
      · obtain rfl := Except.ok.inj hstep
        exact ⟨_, rfl, rfl⟩
      · cases hstep
    · cases hstep

theorem sum_position_update (rank : Fin n → SetupRank n) (r : Fin n) {k : SetupRank n}
    (hk : k.pc.position n = (rank r).pc.position n + 1) :
    ∑ q, (Function.update rank r k q).pc.position n = (∑ q, (rank q).pc.position n) + 1 := by
  have hupdate : (fun q ↦ (Function.update rank r k q).pc.position n) =
      Function.update (fun q ↦ (rank q).pc.position n) r (k.pc.position n) :=
    Function.comp_update (fun k : SetupRank n ↦ k.pc.position n) rank r k
  rw [hupdate, Finset.sum_update_of_mem (Finset.mem_univ r), hk,
    Finset.sum_eq_add_sum_sdiff_singleton_of_mem (Finset.mem_univ r)]
  omega

/-- **No run is longer than two passes for each pair of ranks and the barriers.** -/
theorem length_run {as : List (Fin n × List Char)}
    (hrun : (setupMachine job).run (World.init n) as = .ok w) : as.length ≤ n * (2 * n + 1) := by
  have hsum : ∀ as w, (setupMachine job).run (World.init n) as = .ok w →
      as.length = ∑ q, (w.rank q).pc.position n := by
    intro as
    induction as using List.reverseRecOn with
    | nil =>
      intro w hrun
      obtain rfl := Except.ok.inj hrun
      simp [World.init, Pc.position]
    | append_singleton as a ih =>
      intro w hrun
      rw [Machine.run_append] at hrun
      obtain ⟨v, hv, hlast⟩ := bind_eq_ok.mp hrun
      obtain ⟨v', hstep, hnil⟩ := bind_eq_ok.mp hlast
      obtain rfl := Except.ok.inj hnil
      have hreach : (setupMachine job).Reachable v := Machine.Reachable.run (.init rfl) hv
      obtain ⟨k, hrank, hk⟩ := (soFar_of_reachable hreach).1.position_step hstep
      rw [List.length_append, List.length_singleton, ih v hv, hrank, sum_position_update _ _ hk]
  have hreach : (setupMachine job).Reachable w := Machine.Reachable.run (.init rfl) hrun
  have h := (soFar_of_reachable hreach).1
  have hle : ∀ q ∈ Finset.univ, (w.rank q).pc.position n ≤ 2 * n + 1 := by
    intro q _
    have hpublished := (h.rank q).published_le
    have hconnected := (h.rank q).connected_le
    cases hpc : (w.rank q).pc with
    | publish i =>
      rw [hpc] at hpublished
      have hi : i ≤ n := hpublished
      show i ≤ 2 * n + 1
      omega
    | connect i =>
      rw [hpc] at hconnected
      have hi : i ≤ n := hconnected
      show n + 1 + i ≤ 2 * n + 1
      omega
  calc as.length = ∑ q, (w.rank q).pc.position n := hsum as w hrun
    _ ≤ ∑ _q : Fin n, (2 * n + 1) := Finset.sum_le_sum hle
    _ = n * (2 * n + 1) := by simp

end

/-! ### The connections -/

/-- The queue pair of rank `r` for rank `i` is connected to that of rank `i` for rank `r`, and rank
`r` has the region of rank `i`. -/
def Connected (w : World n) (r i : Fin n) : Prop :=
  ∃ qp qp', (w.rank r).qps i = some qp ∧ (w.rank i).qps r = some qp' ∧
    qp.qp_num = job.qp_num r i ∧ qp.qp_state = .RTS ∧
    qp.rtr = some { dest_qp_num := qp'.qp_num, dlid := job.lid i } ∧
    (w.rank r).rmrs i = some { addr := job.mr_addr i, size := job.mr_size r, rkey := job.rkey i }

/-- **All-to-all connection.**  In every run nothing goes wrong, some rank can take a step until all
have come to the end, and then each queue pair is connected to the one on the other side. -/
theorem init_connects {w : World n} (hw : (setupMachine job).Reachable w) :
    (∀ a f, setupStep job w a ≠ .error (.fault f)) ∧
      ((∀ r, (w.rank r).pc = .connect n) ∨ ∃ a w', setupStep job w a = .ok w') ∧
      ((∀ r, (w.rank r).pc = .connect n) → ∀ r i, Connected job w r i) := by
  obtain ⟨h, hfault⟩ := soFar_of_reachable hw
  refine ⟨hfault, h.exists_step, fun hdone r i ↦ ?_⟩
  have hqps : ∀ r i, (w.rank r).qps i = some (job.connectedQp r i) := by
    intro r i
    rw [(h.rank r).qps i, hdone r]
    exact if_pos i.isLt
  have hrmrs : (w.rank r).rmrs i = some (job.region r i) := by
    rw [(h.rank r).rmrs i, hdone r]
    exact if_pos i.isLt
  exact ⟨_, _, hqps r i, hqps i r, rfl, rfl, rfl, hrmrs⟩

end

/-- Two ranks. -/
def twoRanks : Job 2 where
  nranks_int := by decide
  mr_addr r := if r.val = 0 then 0x7f0000001000 else 0x7f0000002000
  mr_size _ := 65536
  rkey r := if r.val = 0 then 0xa0 else 0xb0
  lid r := if r.val = 0 then 1 else 0xffff
  qp_num r i :=
    if r.val = 0 then (if i.val = 0 then 16 else 17) else (if i.val = 0 then 0x20 else 0xffffff)

/-- The ranks publish one after the other, and then they connect one after the other. -/
def twoRanksRun : List (Fin 2 × List Char) :=
  ((List.finRange 2).flatMap fun r ↦ [(r, []), (r, [])]) ++ (List.finRange 2).flatMap fun r ↦
    (r, []) :: (List.finRange 2).map fun i ↦ (r, (twoRanks.endpoint i r).text)

theorem init_connects_twoRanks :
    Connected twoRanks ((setupMachine twoRanks).result (World.init 2) twoRanksRun) 0 1 ∧
      Connected twoRanks ((setupMachine twoRanks).result (World.init 2) twoRanksRun) 1 0 ∧
      Connected twoRanks ((setupMachine twoRanks).result (World.init 2) twoRanksRun) 1 1 := by
  have hconnected :=
    (init_connects twoRanks (Machine.reachable_result (.init rfl) twoRanksRun)).2.2 (by decide)
  exact ⟨hconnected 0 1, hconnected 1 0, hconnected 1 1⟩

end IbvBench
