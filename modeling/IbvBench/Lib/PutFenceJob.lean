import IbvBench.Lib.Pieces
import IbvBench.Lib.PutFence
import IbvBench.Lib.StepMachine
import Mathlib.Algebra.BigOperators.Fin
import Mathlib.Algebra.Order.BigOperators.Group.Finset

/-!
# Processes that put and fence by messages to a server

`n` processes share a store of pairs that a server keeps.  Each of them goes through a list of
operations, and for each operation there is one exchange: a request to the server, and an answer that
arrives in pieces.  A fence is answered when all processes have asked for it.

* `Protocol` — what the messages look like.
* `Client` — how a process makes a request and takes an answer, and what is known of it.
* `Server` — what is known of the other side.  Its state is seen as a `State` of puts and fences.
* `Script` — the operations of all processes: they come to the same number of fences, no key is put
  twice, and what is asked for has been put before an earlier fence.

`Script.endsAfter` says that the processes of a script, in any order of their steps, come to an end
after as many steps as there are messages, each with the values that were put.
-/

set_option autoImplicit false

namespace PutFence

open StepMachine

/-- An operation: a put, a fence or a get, or an exchange that has nothing to do with the pairs. -/
inductive Op (X K V : Type) where
  | other (x : X)
  | put (key : K) (value : V)
  | fence
  | get (key : K)

namespace Op

variable {X K V : Type}

def isFence : Op X K V → Bool
  | .fence => true
  | _ => false

/-- The key that is asked for. -/
def asked : Op X K V → Option K
  | .get key => some key
  | _ => none

end Op

/-- The messages: the request for an operation, and what may be answered. -/
structure Protocol (X K V β : Type) where
  /-- The operations that there are requests for. -/
  Ok : Op X K V → Prop
  request : Op X K V → List β
  /-- The bytes answer the operation; a `get` is answered by a value. -/
  Answer : Op X K V → Option V → List β → Prop

/-- How a process makes its requests and takes the answers. -/
structure Client (X K V β φ : Type) where
  State : Type
  request : Op X K V → State → Comp φ (List β × State)
  response : Op X K V → State → Incoming β → Comp φ (State × Incoming β × Option V)

/-- A client that keeps to the protocol. -/
structure Client.Speaks {X K V β φ : Type} (C : Client X K V β φ) (P : Protocol X K V β) where
  /-- Between two operations, with these to go. -/
  Idle : List (Op X K V) → C.State → Prop
  /-- Waiting for the answer to an operation, with these to go. -/
  Busy : Op X K V → List (Op X K V) → C.State → Prop
  request_eq : ∀ {op ops st}, P.Ok op → Idle (op :: ops) st →
    ∃ st', C.request op st = .ok (P.request op, st') ∧ Busy op ops st'
  response_eq : ∀ {op ops st v} {s : Incoming β}, Busy op ops st → P.Answer op v s.bytes →
    s.ending = none → ∃ st' s', C.response op st s = .ok (st', s', v) ∧ Idle ops st' ∧
      s'.bytes = [] ∧ s'.ending = none
  response_wait : ∀ {op ops st} {s : Incoming β}, Busy op ops st → s.bytes = [] → s.ending = none →
    C.response op st s = .error .blocked

/-- The pair has been put before the last fence, and no other one with this key at all. -/
def State.Settled {n : ℕ} {K V : Type} (a : State n K V) (key : K) (value : V) : Prop :=
  (key, value) ∈ a.visible ∧ ∀ v, (key, v) ∈ a.visible ++ a.gathered → v = value

/-- The only answer is one to process `r`. -/
def Answered {n : ℕ} {β : Type} (r : Fin n) (A : List β → Prop) (out : Fin n → Pieces β) : Prop :=
  A (out r).bytes ∧ ∀ q, q ≠ r → (out q).bytes = []

/-- A server that keeps to the protocol. -/
structure Server {X K V β : Type} (n : ℕ) (P : Protocol X K V β) where
  State : Type
  init : State
  /-- What a request of a process does, and what is sent to each. -/
  serve : State → Fin n → List β → State × (Fin n → Pieces β)
  /-- What has been put. -/
  view : State → PutFence.State n K V
  /-- The processes that wait at the fence. -/
  arrived : State → Fin n → Bool
  view_init : view init = {}
  arrived_init : arrived init = fun _ ↦ false
  other : ∀ s r x, P.Ok (.other x) → view (serve s r (P.request (.other x))).1 = view s ∧
    arrived (serve s r (P.request (.other x))).1 = arrived s ∧
    Answered r (P.Answer (.other x) none) (serve s r (P.request (.other x))).2
  put : ∀ s r key value, P.Ok (.put key value) →
    view (serve s r (P.request (.put key value))).1 = (view s).apply (.put r key value) ∧
    arrived (serve s r (P.request (.put key value))).1 = arrived s ∧
    Answered r (P.Answer (.put key value) none) (serve s r (P.request (.put key value))).2
  get : ∀ s r key value, P.Ok (.get key) → P.Ok (.put key value) → (view s).Settled key value →
    view (serve s r (P.request (.get key))).1 = view s ∧
    arrived (serve s r (P.request (.get key))).1 = arrived s ∧
    Answered r (P.Answer (.get key) (some value)) (serve s r (P.request (.get key))).2
  fence_wait : ∀ s r, P.Ok .fence → (∃ q, q ≠ r ∧ arrived s q = false) →
    view (serve s r (P.request .fence)).1 = view s ∧
    arrived (serve s r (P.request .fence)).1 = Function.update (arrived s) r true ∧
    ∀ q, ((serve s r (P.request .fence)).2 q).bytes = []
  fence_done : ∀ s r, P.Ok .fence → (∀ q, q ≠ r → arrived s q = true) →
    view (serve s r (P.request .fence)).1 = (view s).apply .fence ∧
    arrived (serve s r (P.request .fence)).1 = (fun _ ↦ false) ∧
    ∀ q, P.Answer .fence none ((serve s r (P.request .fence)).2 q).bytes

variable {n : ℕ} {X K V β φ : Type}

/-! ## The processes and the server -/

/-- A process. -/
structure Rank (C : Client X K V β φ) where
  /-- The operations to go, with the one that is under way. -/
  ops : List (Op X K V)
  /-- Has the request been made? -/
  waiting : Bool := false
  state : C.State
  incoming : Incoming β := {}
  /-- The values that have been asked for. -/
  got : List V := []

/-- The processes and the server. -/
structure Job (C : Client X K V β φ) {P : Protocol X K V β} (S : Server n P) where
  rank : Fin n → Rank C
  server : S.State

section

variable {C : Client X K V β φ} {P : Protocol X K V β} {S : Server n P}

/-- What the server sends arrives. -/
def Rank.receive (k : Rank C) (p : Pieces β) : Rank C := { k with incoming := k.incoming.receive p }

/-- The process behind its request, -/
def Rank.ask (k : Rank C) (state : C.State) : Rank C := { k with waiting := true, state }

/-- and behind the answer. -/
def Rank.take (k : Rank C) (state : C.State) (incoming : Incoming β) (value : Option V) : Rank C where
  ops := k.ops.tail
  waiting := false
  state := state
  incoming := incoming
  got := k.got ++ value.toList

/-- A step of process `r`: it makes the request of its next operation, or takes the answer. -/
def Job.step (j : Job C S) (r : Fin n) : Comp φ (Job C S) :=
  match (j.rank r).ops with
  | [] => .error .blocked
  | op :: _ =>
    if (j.rank r).waiting then do
      let (state, incoming, value) ← C.response op (j.rank r).state (j.rank r).incoming
      .ok { j with rank := Function.update j.rank r ((j.rank r).take state incoming value) }
    else do
      let (message, state) ← C.request op (j.rank r).state
      let out := S.serve j.server r message
      .ok { rank := fun q ↦ (Function.update j.rank r ((j.rank r).ask state) q).receive (out.2 q)
            server := out.1 }

end

/-! ## Scripts -/

/-- The fences among the first `i` operations. -/
def fencesBefore (ops : List (Op X K V)) (i : ℕ) : ℕ := (ops.take i).countP Op.isFence

/-- Operation `i` of process `r`. -/
def IsAt (ops : Fin n → List (Op X K V)) (r : Fin n) (i : ℕ) (op : Op X K V) : Prop :=
  (ops r)[i]? = some op

/-- The operations of all processes. -/
structure Script (n : ℕ) (P : Protocol X K V β) where
  ops : Fin n → List (Op X K V)
  ok : ∀ r, ∀ op ∈ ops r, P.Ok op
  fences : ∀ r q, (ops r).countP Op.isFence = (ops q).countP Op.isFence
  /-- No key is put twice. -/
  once : ∀ {r i q j key v w}, IsAt ops r i (.put key v) → IsAt ops q j (.put key w) → r = q ∧ i = j
  /-- What is asked for has been put before an earlier fence. -/
  settled : ∀ {r i key}, IsAt ops r i (.get key) →
    ∃ q j v, IsAt ops q j (.put key v) ∧ fencesBefore (ops q) j < fencesBefore (ops r) i

section

variable {P : Protocol X K V β} (s : Script n P)

/-- Some process puts the pair. -/
def Script.Puts (key : K) (value : V) : Prop := ∃ r i, IsAt s.ops r i (.put key value)

/-- What is to be answered to an operation. -/
def Script.Expected : Op X K V → Option V → Prop
  | .get key, value => ∃ v, value = some v ∧ s.Puts key v
  | _, value => value = none

/-- The processes at the begin of a script. -/
def Script.start (C : Client X K V β φ) (S : Server n P) (state : Fin n → C.State) : Job C S where
  rank r := { ops := s.ops r, state := state r }
  server := S.init

/-- The processes of a script, in any order of their steps. -/
def Script.machine (C : Client X K V β φ) (S : Server n P) (state : Fin n → C.State) :
    Machine (Job C S) (Fin n) φ where
  init j := j = s.start C S state
  step := Job.step

/-- How many messages there are. -/
def Script.messages : ℕ := ∑ r, 2 * (s.ops r).length

/-- Each process has come to the end, with the values that were put for the keys it asked for.  What
is known of the client may depend on the process. -/
def Script.Done {C : Client X K V β φ} {S : Server n P} (W : Fin n → C.Speaks P) (j : Job C S) :
    Prop :=
  ∀ r, (j.rank r).ops = [] ∧ (W r).Idle [] (j.rank r).state ∧
    List.Forall₂ s.Puts ((s.ops r).filterMap Op.asked) (j.rank r).got

end

/-! ## Positions in a script -/

section

variable {ops : Fin n → List (Op X K V)} {r : Fin n} {op : Op X K V} {i i' : ℕ}

theorem fencesBefore_succ (h : IsAt ops r i op) :
    fencesBefore (ops r) (i + 1) = fencesBefore (ops r) i + if op.isFence then 1 else 0 := by
  rw [fencesBefore, List.take_add_one, show (ops r)[i]? = some op from h, List.countP_append,
    Option.toList_some, List.countP_singleton]
  rfl

theorem fencesBefore_mono (l : List (Op X K V)) (h : i ≤ i') :
    fencesBefore l i ≤ fencesBefore l i' :=
  (List.take_sublist_take_left h).countP_le

theorem fencesBefore_le (l : List (Op X K V)) (i : ℕ) : fencesBefore l i ≤ l.countP Op.isFence :=
  (List.take_sublist i l).countP_le

theorem fencesBefore_length (l : List (Op X K V)) :
    fencesBefore l l.length = l.countP Op.isFence := by
  rw [fencesBefore, List.take_length]

/-- Where a process is when these operations are left. -/
theorem isAt_of_suffix {rest : List (Op X K V)} (h : op :: rest <:+ ops r) :
    IsAt ops r ((ops r).length - (op :: rest).length) op := by
  obtain ⟨before, hbefore⟩ := h
  rw [IsAt, ← hbefore, List.length_append, Nat.add_sub_cancel, List.getElem?_append_right le_rfl,
    Nat.sub_self]
  rfl

end

/-! ## The invariant -/

section

variable {C : Client X K V β φ} {P : Protocol X K V β} {S : Server n P} (s : Script n P)

/-- How many operations a process has finished. -/
def Script.finished (r : Fin n) (k : Rank C) : ℕ := (s.ops r).length - k.ops.length

/-- How many requests it has made. -/
def Script.sent (r : Fin n) (k : Rank C) : ℕ := s.finished r k + if k.waiting then 1 else 0

/-- A process, which has or has not `arrived` at a fence where it has to wait for others. -/
structure Script.RankInv (W : Fin n → C.Speaks P) (r : Fin n) (k : Rank C) (arrived : Bool) :
    Prop where
  suffix : k.ops <:+ s.ops r
  isOpen : k.incoming.ending = none
  got : List.Forall₂ s.Puts (((s.ops r).take (s.finished r k)).filterMap Op.asked) k.got
  idle : k.waiting = false → (W r).Idle k.ops k.state ∧ k.incoming.bytes = [] ∧ arrived = false
  busy : k.waiting = true → ∃ op ops, k.ops = op :: ops ∧ (W r).Busy op ops k.state ∧
    if arrived then op = .fence ∧ k.incoming.bytes = []
    else ∃ v, s.Expected op v ∧ P.Answer op v k.incoming.bytes

/-- Some process has put the pair in an epoch for which `A` holds. -/
def Script.PutIn (rank : Fin n → Rank C) (A : ℕ → Prop) (key : K) (value : V) : Prop :=
  ∃ q i, IsAt s.ops q i (.put key value) ∧ i < s.sent q (rank q) ∧ A (fencesBefore (s.ops q) i)

/-- All of them.  The server sees what has been put, by the epoch in which it was put; the number of
epochs is how many fences each process has asked for, without the one where it waits for others. -/
structure Script.Inv (W : Fin n → C.Speaks P) (j : Job C S) : Prop where
  rank : ∀ r, s.RankInv W r (j.rank r) (S.arrived j.server r)
  fences : ∀ r, fencesBefore (s.ops r) (s.sent r (j.rank r)) =
    (S.view j.server).epochs.length + if S.arrived j.server r then 1 else 0
  awaited : ∀ _ : Fin n, ∃ q, S.arrived j.server q = false
  visible : ∀ key value, (key, value) ∈ (S.view j.server).visible ↔
    s.PutIn j.rank (· < (S.view j.server).epochs.length) key value
  gathered : ∀ key value, (key, value) ∈ (S.view j.server).gathered ↔
    s.PutIn j.rank (· = (S.view j.server).epochs.length) key value

section

variable {s} {W : Fin n → C.Speaks P} {j : Job C S} {r : Fin n} {k : Rank C} {arrived : Bool}
  {op : Op X K V} {ops : List (Op X K V)}

theorem Script.RankInv.finished_le (h : s.RankInv W r k arrived) :
    s.finished r k + k.ops.length = (s.ops r).length :=
  Nat.sub_add_cancel h.suffix.length_le

/-- The operation to be done next, or that is under way. -/
theorem Script.RankInv.isAt (h : s.RankInv W r k arrived) (hops : k.ops = op :: ops) :
    IsAt s.ops r (s.finished r k) op := by
  have hsuffix := h.suffix
  rw [hops] at hsuffix
  have hat := isAt_of_suffix hsuffix
  rwa [← hops] at hat

/-- It is one that there is a request for. -/
theorem Script.RankInv.ok (h : s.RankInv W r k arrived) (hops : k.ops = op :: ops) : P.Ok op := by
  refine s.ok r op (h.suffix.subset ?_)
  rw [hops]
  exact List.mem_cons_self

/-! ### Requests -/

/-- Nothing was sent to this process. -/
theorem Script.RankInv.receive (h : s.RankInv W r k arrived) {p : Pieces β} (hp : p.bytes = []) :
    s.RankInv W r (k.receive p) arrived := by
  have hbytes : (k.receive p).incoming.bytes = k.incoming.bytes := by
    show (k.incoming.receive p).bytes = _
    rw [Incoming.bytes_receive, hp, List.append_nil]
  refine ⟨h.suffix, h.isOpen, h.got, ?_, ?_⟩
  · rw [hbytes]
    exact h.idle
  · rw [hbytes]
    exact h.busy

/-- The fence where the process waits is answered. -/
theorem Script.RankInv.release (h : s.RankInv W r k true) {p : Pieces β}
    (hp : P.Answer .fence none p.bytes) : s.RankInv W r (k.receive p) false := by
  have hwaiting : k.waiting = true := by
    by_contra hnot
    have hidle := h.idle (Bool.eq_false_iff.mpr hnot)
    exact absurd hidle.2.2 (by decide)
  refine ⟨h.suffix, h.isOpen, h.got, ?_, ?_⟩
  · intro hnot
    rw [show (k.receive p).waiting = k.waiting from rfl, hwaiting] at hnot
    cases hnot
  · intro _
    obtain ⟨op, ops, hops, hbusy, hfence, hbytes⟩ := h.busy hwaiting
    subst hfence
    refine ⟨.fence, ops, hops, hbusy, none, rfl, ?_⟩
    show P.Answer .fence none (k.incoming.receive p).bytes
    rwa [Incoming.bytes_receive, hbytes]

/-- The process makes its request, and gets an answer or has to wait for others. -/
theorem Script.RankInv.ask (h : s.RankInv W r k arrived) (hops : k.ops = op :: ops)
    (hidle : k.waiting = false) {state : C.State} (hbusy : (W r).Busy op ops state) {p : Pieces β}
    {arrived' : Bool} (hp : if arrived' then op = .fence ∧ p.bytes = []
      else ∃ v, s.Expected op v ∧ P.Answer op v p.bytes) :
    s.RankInv W r ((k.ask state).receive p) arrived' := by
  have hbytes : ((k.ask state).receive p).incoming.bytes = p.bytes := by
    show (k.incoming.receive p).bytes = _
    rw [Incoming.bytes_receive, (h.idle hidle).2.1, List.nil_append]
  refine ⟨h.suffix, h.isOpen, h.got, ?_, ?_⟩
  · intro hnot
    cases hnot
  · intro _
    rw [hbytes]
    exact ⟨op, ops, hops, hbusy, hp⟩

/-- The process takes the answer. -/
theorem Script.RankInv.take (h : s.RankInv W r k arrived) (hops : k.ops = op :: ops)
    {state : C.State} {incoming : Incoming β} {value : Option V} (hidle : (W r).Idle ops state)
    (hbytes : incoming.bytes = []) (hopen : incoming.ending = none) (hvalue : s.Expected op value) :
    s.RankInv W r (k.take state incoming value) false ∧
      s.finished r (k.take state incoming value) = s.finished r k + 1 := by
  have hle := h.finished_le
  have htail : (k.take state incoming value).ops = ops := by
    show k.ops.tail = ops
    rw [hops]
    rfl
  have hfinished : s.finished r (k.take state incoming value) = s.finished r k + 1 := by
    rw [hops, List.length_cons] at hle
    rw [Script.finished, htail]
    omega
  refine ⟨⟨?_, hopen, ?_, fun _ ↦ ⟨?_, hbytes, rfl⟩, fun hnot ↦ by cases hnot⟩, hfinished⟩
  · have hsuffix := h.suffix
    rw [hops] at hsuffix
    rw [htail]
    exact (List.suffix_cons op ops).trans hsuffix
  · have hat : (s.ops r)[s.finished r k]? = some op := h.isAt hops
    rw [hfinished, List.take_add_one, hat, Option.toList_some, List.filterMap_append]
    refine List.rel_append h.got ?_
    cases op with
    | get key =>
      obtain ⟨v, rfl, hputs⟩ := hvalue
      exact .cons hputs .nil
    | other x =>
      obtain rfl : value = none := hvalue
      exact .nil
    | put key v =>
      obtain rfl : value = none := hvalue
      exact .nil
    | fence =>
      obtain rfl : value = none := hvalue
      exact .nil
  · rw [htail]
    exact hidle

/-! ### What has been put -/

/-- A process has made one more request. -/
theorem Script.putIn_succ {rank rank' : Fin n → Rank C} {A : ℕ → Prop} {key : K} {value : V}
    (hsent : ∀ q, s.sent q (rank' q) = s.sent q (rank q) + if q = r then 1 else 0)
    (hat : IsAt s.ops r (s.sent r (rank r)) op) :
    s.PutIn rank' A key value ↔ s.PutIn rank A key value ∨
      (op = .put key value ∧ A (fencesBefore (s.ops r) (s.sent r (rank r)))) := by
  constructor
  · rintro ⟨q, i, hput, hlt, hA⟩
    rw [hsent] at hlt
    by_cases hold : i < s.sent q (rank q)
    · exact .inl ⟨q, i, hput, hold, hA⟩
    · by_cases hq : q = r
      · subst hq
        rw [if_pos rfl] at hlt
        obtain rfl : i = s.sent q (rank q) := by omega
        exact .inr ⟨Option.some.inj (hat.symm.trans hput), hA⟩
      · rw [if_neg hq] at hlt
        exact absurd hlt hold
  · rintro (⟨q, i, hput, hlt, hA⟩ | ⟨rfl, hA⟩)
    · exact ⟨q, i, hput, by rw [hsent]; omega, hA⟩
    · exact ⟨r, _, hat, by rw [hsent, if_pos rfl]; omega, hA⟩

/-- The processes behind a request of one of them. -/
def Job.asked (j : Job C S) (r : Fin n) (state : C.State) (out : Fin n → Pieces β) : Fin n → Rank C :=
  fun q ↦ (Function.update j.rank r ((j.rank r).ask state) q).receive (out q)

theorem Script.sent_asked (hwaiting : (j.rank r).waiting = false) (state : C.State)
    (out : Fin n → Pieces β) (q : Fin n) :
    s.sent q (j.asked r state out q) = s.sent q (j.rank q) + if q = r then 1 else 0 := by
  rcases eq_or_ne q r with rfl | hne
  · rw [Script.sent, Job.asked, Function.update_self, Script.sent, hwaiting, if_pos rfl]
    rfl
  · rw [Script.sent, Job.asked, Function.update_of_ne hne, if_neg hne]
    rfl

/-- All requests of a process that is not waiting for an answer are behind it. -/
theorem Script.sent_of_idle (hwaiting : k.waiting = false) : s.sent r k = s.finished r k := by
  rw [Script.sent, hwaiting]
  rfl

/-- The server has answered a request that is no fence. -/
theorem Script.Inv.answered (h : s.Inv W j) (hops : (j.rank r).ops = op :: ops)
    (hwaiting : (j.rank r).waiting = false) (hop : op.isFence = false) {state : C.State}
    (hbusy : (W r).Busy op ops state) {server : S.State} {out : Fin n → Pieces β} {v : Option V}
    (hepochs : (S.view server).epochs = (S.view j.server).epochs)
    (hgathered : ∀ key value, (key, value) ∈ (S.view server).gathered ↔
      (key, value) ∈ (S.view j.server).gathered ∨ op = .put key value)
    (harrived : S.arrived server = S.arrived j.server) (hv : s.Expected op v)
    (hout : Answered r (P.Answer op v) out) :
    s.Inv W { rank := j.asked r state out, server } := by
  have hr := h.rank r
  have hidle := (hr.idle hwaiting).2.2
  have hat := hr.isAt hops
  rw [← Script.sent_of_idle hwaiting] at hat
  have hsent := Script.sent_asked (s := s) hwaiting state out
  have hepoch : fencesBefore (s.ops r) (s.sent r (j.rank r)) = (S.view j.server).epochs.length := by
    have hfences := h.fences r
    rwa [hidle, if_neg (by decide), Nat.add_zero] at hfences
  refine ⟨?_, ?_, ?_, ?_, ?_⟩
  · intro q
    dsimp only
    rw [harrived]
    rcases eq_or_ne q r with rfl | hne
    · rw [Job.asked, Function.update_self]
      refine hr.ask hops hwaiting hbusy ?_
      rw [hidle]
      exact ⟨v, hv, hout.1⟩
    · rw [Job.asked, Function.update_of_ne hne]
      exact (h.rank q).receive (hout.2 q hne)
  · intro q
    dsimp only
    rw [hsent, harrived, hepochs, ← h.fences q]
    rcases eq_or_ne q r with rfl | hne
    · rw [if_pos rfl, fencesBefore_succ hat, hop]
      rfl
    · rw [if_neg hne, Nat.add_zero]
  · intro q
    dsimp only
    rw [harrived]
    exact h.awaited q
  · intro key value
    dsimp only
    rw [Script.putIn_succ hsent hat, hepochs, hepoch, State.visible, hepochs, ← State.visible,
      h.visible]
    refine ⟨.inl, fun hmem ↦ hmem.resolve_right fun hlt ↦ ?_⟩
    exact Nat.lt_irrefl _ hlt.2
  · intro key value
    dsimp only
    rw [Script.putIn_succ hsent hat, hgathered, hepochs, hepoch, h.gathered]
    exact or_congr_right (by simp)

/-- The process is not the last one at the fence. -/
theorem Script.Inv.waits (h : s.Inv W j) (hops : (j.rank r).ops = .fence :: ops)
    (hwaiting : (j.rank r).waiting = false) {state : C.State} (hbusy : (W r).Busy .fence ops state)
    {server : S.State} {out : Fin n → Pieces β} (hview : S.view server = S.view j.server)
    (harrived : S.arrived server = Function.update (S.arrived j.server) r true)
    (hother : ∃ q, q ≠ r ∧ S.arrived j.server q = false) (hout : ∀ q, (out q).bytes = []) :
    s.Inv W { rank := j.asked r state out, server } := by
  have hr := h.rank r
  have hidle := (hr.idle hwaiting).2.2
  have hat := hr.isAt hops
  rw [← Script.sent_of_idle hwaiting] at hat
  have hsent := Script.sent_asked (s := s) hwaiting state out
  have hput (A : ℕ → Prop) (key : K) (value : V) :
      s.PutIn (j.asked r state out) A key value ↔ s.PutIn j.rank A key value := by
    rw [Script.putIn_succ hsent hat]
    exact or_iff_left fun hmem ↦ by cases hmem.1
  refine ⟨?_, ?_, ?_, ?_, ?_⟩
  · intro q
    dsimp only
    rw [harrived]
    rcases eq_or_ne q r with rfl | hne
    · rw [Job.asked, Function.update_self, Function.update_self]
      exact hr.ask hops hwaiting hbusy ⟨rfl, hout q⟩
    · rw [Job.asked, Function.update_of_ne hne, Function.update_of_ne hne]
      exact (h.rank q).receive (hout q)
  · intro q
    dsimp only
    rw [hsent, harrived, hview]
    rcases eq_or_ne q r with rfl | hne
    · rw [if_pos rfl, fencesBefore_succ hat, h.fences q, hidle, Function.update_self]
      rfl
    · rw [if_neg hne, Nat.add_zero, Function.update_of_ne hne]
      exact h.fences q
  · obtain ⟨q, hne, hq⟩ := hother
    refine fun _ ↦ ⟨q, ?_⟩
    dsimp only
    rw [harrived, Function.update_of_ne hne, hq]
  · intro key value
    dsimp only
    rw [hput, hview]
    exact h.visible key value
  · intro key value
    dsimp only
    rw [hput, hview]
    exact h.gathered key value

/-- The process is the last one, and all are let go. -/
theorem Script.Inv.passes (h : s.Inv W j) (hops : (j.rank r).ops = .fence :: ops)
    (hwaiting : (j.rank r).waiting = false) {state : C.State} (hbusy : (W r).Busy .fence ops state)
    {server : S.State} {out : Fin n → Pieces β}
    (hview : S.view server = (S.view j.server).apply .fence)
    (harrived : S.arrived server = fun _ ↦ false)
    (hothers : ∀ q, q ≠ r → S.arrived j.server q = true)
    (hout : ∀ q, P.Answer .fence none (out q).bytes) :
    s.Inv W { rank := j.asked r state out, server } := by
  have hr := h.rank r
  have hidle := (hr.idle hwaiting).2.2
  have hat := hr.isAt hops
  rw [← Script.sent_of_idle hwaiting] at hat
  have hsent := Script.sent_asked (s := s) hwaiting state out
  have hput (A : ℕ → Prop) (key : K) (value : V) :
      s.PutIn (j.asked r state out) A key value ↔ s.PutIn j.rank A key value := by
    rw [Script.putIn_succ hsent hat]
    exact or_iff_left fun hmem ↦ by cases hmem.1
  have hepochs : (S.view server).epochs.length = (S.view j.server).epochs.length + 1 := by
    rw [hview]
    exact List.length_append
  -- the fence is the last request of each process
  have hlast (q : Fin n) {i : ℕ} (hlt : i < s.sent q (j.rank q)) :
      fencesBefore (s.ops q) i ≤ (S.view j.server).epochs.length := by
    rcases eq_or_ne q r with rfl | hne
    · have hfences := h.fences q
      rw [hidle, if_neg (by decide), Nat.add_zero] at hfences
      rw [← hfences]
      exact fencesBefore_mono _ (Nat.le_of_lt hlt)
    · have hrank := h.rank q
      have hfences := h.fences q
      rw [hothers q hne] at hrank hfences
      have hbusy' : (j.rank q).waiting = true := by
        by_contra hnot
        exact absurd (hrank.idle (Bool.eq_false_iff.mpr hnot)).2.2 (by decide)
      obtain ⟨op, rest, hops', -, hfence, -⟩ := hrank.busy hbusy'
      subst hfence
      have hsucc := fencesBefore_succ (hrank.isAt hops')
      have hone : s.sent q (j.rank q) = s.finished q (j.rank q) + 1 := by
        rw [Script.sent, hbusy']
        rfl
      rw [hone] at hlt
      have hmono := fencesBefore_mono (s.ops q) (Nat.le_of_lt_succ hlt)
      rw [hone, hsucc] at hfences
      simp only [Op.isFence, if_true] at hfences
      omega
  refine ⟨?_, ?_, ?_, ?_, ?_⟩
  · intro q
    dsimp only
    rw [harrived]
    rcases eq_or_ne q r with rfl | hne
    · rw [Job.asked, Function.update_self]
      exact hr.ask hops hwaiting hbusy ⟨none, rfl, hout q⟩
    · have hrank := h.rank q
      rw [hothers q hne] at hrank
      rw [Job.asked, Function.update_of_ne hne]
      exact hrank.release (hout q)
  · intro q
    dsimp only
    rw [hsent, harrived, hepochs]
    rcases eq_or_ne q r with rfl | hne
    · rw [if_pos rfl, fencesBefore_succ hat, h.fences q, hidle]
      rfl
    · rw [if_neg hne, Nat.add_zero, h.fences q, hothers q hne]
      rfl
  · refine fun q ↦ ⟨q, ?_⟩
    dsimp only
    rw [harrived]
  · intro key value
    dsimp only
    rw [hput, hepochs, hview, State.visible_fence, List.mem_append, h.visible, h.gathered]
    constructor
    · rintro (⟨q, i, hat', hlt, hA⟩ | ⟨q, i, hat', hlt, hA⟩)
      · exact ⟨q, i, hat', hlt, Nat.lt_succ_of_lt hA⟩
      · exact ⟨q, i, hat', hlt, Nat.lt_succ_of_le (Nat.le_of_eq hA)⟩
    · rintro ⟨q, i, hat', hlt, hA⟩
      rcases Nat.lt_succ_iff_lt_or_eq.mp hA with hA | hA
      · exact .inl ⟨q, i, hat', hlt, hA⟩
      · exact .inr ⟨q, i, hat', hlt, hA⟩
  · intro key value
    dsimp only
    rw [hput, hepochs, hview, State.gathered_fence]
    constructor
    · intro hmem
      cases hmem
    · rintro ⟨q, i, -, hlt, hA⟩
      have hle := hlast q hlt
      omega

/-- What a process asks for has been put, and only once. -/
theorem Script.Inv.exists_settled (h : s.Inv W j) {key : K} (hops : (j.rank r).ops = .get key :: ops)
    (hwaiting : (j.rank r).waiting = false) :
    ∃ value, (S.view j.server).Settled key value ∧ s.Puts key value ∧ P.Ok (.put key value) := by
  have hr := h.rank r
  have hat := hr.isAt hops
  obtain ⟨q, i, value, hput, hlt⟩ := s.settled hat
  have hfences := h.fences r
  rw [(hr.idle hwaiting).2.2, if_neg (by decide), Nat.add_zero,
    Script.sent_of_idle hwaiting] at hfences
  rw [hfences] at hlt
  refine ⟨value, ⟨(h.visible key value).mpr ⟨q, i, hput, ?_, hlt⟩, ?_⟩, ⟨q, i, hput⟩,
    s.ok q _ (List.mem_of_getElem? hput)⟩
  · -- the process that puts it has come to a later fence
    by_contra hge
    have hmono := fencesBefore_mono (s.ops q) (Nat.le_of_not_lt hge)
    have hfences' := h.fences q
    omega
  · intro v hv
    have hput' : ∃ q' i', IsAt s.ops q' i' (.put key v) := by
      rcases List.mem_append.mp hv with hv | hv
      · obtain ⟨q', i', hat', -⟩ := (h.visible key v).mp hv
        exact ⟨q', i', hat'⟩
      · obtain ⟨q', i', hat', -⟩ := (h.gathered key v).mp hv
        exact ⟨q', i', hat'⟩
    obtain ⟨q', i', hat'⟩ := hput'
    obtain ⟨rfl, rfl⟩ := s.once hat' hput
    have heq : some (Op.put (X := X) key v) = some (.put key value) := hat'.symm.trans hput
    injection heq with heq
    injection heq

/-- A request that is made is served. -/
theorem Script.Inv.asked (h : s.Inv W j) (hops : (j.rank r).ops = op :: ops)
    (hwaiting : (j.rank r).waiting = false) {state : C.State} (hbusy : (W r).Busy op ops state) :
    s.Inv W { rank := j.asked r state (S.serve j.server r (P.request op)).2,
              server := (S.serve j.server r (P.request op)).1 } := by
  have hok := (h.rank r).ok hops
  cases op with
  | other x =>
    obtain ⟨hview, harrived, hout⟩ := S.other j.server r x hok
    refine h.answered hops hwaiting rfl hbusy (by rw [hview]) ?_ harrived rfl hout
    intro key value
    rw [hview]
    exact (or_iff_left fun hmem ↦ by cases hmem).symm
  | put key value =>
    obtain ⟨hview, harrived, hout⟩ := S.put j.server r key value hok
    refine h.answered hops hwaiting rfl hbusy (by rw [hview]; rfl) ?_ harrived rfl hout
    intro key' value'
    rw [hview, State.mem_gathered_put, Prod.mk.injEq, Op.put.injEq, eq_comm (a := key),
      eq_comm (a := value)]
  | fence =>
    by_cases hother : ∃ q, q ≠ r ∧ S.arrived j.server q = false
    · obtain ⟨hview, harrived, hout⟩ := S.fence_wait j.server r hok hother
      exact h.waits hops hwaiting hbusy hview harrived hother hout
    · have hothers : ∀ q, q ≠ r → S.arrived j.server q = true := by
        intro q hne
        by_contra hq
        exact hother ⟨q, hne, Bool.eq_false_iff.mpr hq⟩
      obtain ⟨hview, harrived, hout⟩ := S.fence_done j.server r hok hothers
      exact h.passes hops hwaiting hbusy hview harrived hothers hout
  | get key =>
    obtain ⟨value, hsettled, hputs, hokput⟩ := h.exists_settled hops hwaiting
    obtain ⟨hview, harrived, hout⟩ := S.get j.server r key value hok hokput hsettled
    refine h.answered hops hwaiting rfl hbusy (by rw [hview]) ?_ harrived ⟨value, rfl, hputs⟩ hout
    intro key' value'
    rw [hview]
    exact (or_iff_left fun hmem ↦ by cases hmem).symm

/-! ### Answers -/

/-- An answer that has arrived is taken. -/
theorem Script.Inv.taken (h : s.Inv W j) {k : Rank C} (hr : s.RankInv W r k false)
    (hsent : s.sent r k = s.sent r (j.rank r)) (harrived : S.arrived j.server r = false) :
    s.Inv W { j with rank := Function.update j.rank r k } := by
  have hsents (q : Fin n) : s.sent q (Function.update j.rank r k q) = s.sent q (j.rank q) := by
    rcases eq_or_ne q r with rfl | hne
    · rw [Function.update_self, hsent]
    · rw [Function.update_of_ne hne]
  have hput (A : ℕ → Prop) (key : K) (value : V) :
      s.PutIn (Function.update j.rank r k) A key value ↔ s.PutIn j.rank A key value := by
    simp only [Script.PutIn, hsents]
  refine ⟨?_, ?_, h.awaited, ?_, ?_⟩
  · intro q
    dsimp only
    rcases eq_or_ne q r with rfl | hne
    · rw [Function.update_self, harrived]
      exact hr
    · rw [Function.update_of_ne hne]
      exact h.rank q
  · intro q
    dsimp only
    rw [hsents]
    exact h.fences q
  · intro key value
    dsimp only
    rw [hput]
    exact h.visible key value
  · intro key value
    dsimp only
    rw [hput]
    exact h.gathered key value

/-! ### Steps -/

variable (s) in
/-- How many messages have been sent or taken. -/
def Script.count (j : Job C S) : ℕ := ∑ r, (s.finished r (j.rank r) + s.sent r (j.rank r))

theorem Script.count_eq {j' : Job C S} (h : ∀ q, s.finished q (j'.rank q) + s.sent q (j'.rank q) =
    s.finished q (j.rank q) + s.sent q (j.rank q) + if q = r then 1 else 0) :
    s.count j' = s.count j + 1 := by
  simp only [Script.count, h]
  rw [Finset.sum_add_distrib, Finset.sum_ite_eq', if_pos (Finset.mem_univ r)]

/-- **A process that has something to do, and need not wait for others, takes a step.** -/
theorem Script.Inv.step_eq (h : s.Inv W j) (hops : (j.rank r).ops = op :: ops)
    (harrived : S.arrived j.server r = false) :
    ∃ j', j.step r = .ok j' ∧ s.Inv W j' ∧ s.count j' = s.count j + 1 := by
  have hr := h.rank r
  rw [Job.step, hops]
  dsimp only
  by_cases hwaiting : (j.rank r).waiting = true
  · obtain ⟨op', ops', hops', hbusy, hanswer⟩ := hr.busy hwaiting
    obtain ⟨rfl, rfl⟩ := List.cons.inj (hops.symm.trans hops')
    rw [harrived] at hanswer hr
    obtain ⟨value, hvalue, hanswer⟩ := hanswer
    obtain ⟨state, incoming, hresponse, hidle, hbytes, hopen⟩ :=
      (W r).response_eq hbusy hanswer hr.isOpen
    obtain ⟨hk, hfinished⟩ := hr.take hops hidle hbytes hopen hvalue
    have hsent : s.sent r ((j.rank r).take state incoming value) = s.sent r (j.rank r) := by
      rw [Script.sent, Script.sent, hfinished, hwaiting]
      rfl
    rw [if_pos hwaiting, hresponse]
    refine ⟨_, rfl, h.taken hk hsent harrived, Script.count_eq (r := r) fun q ↦ ?_⟩
    dsimp only
    rcases eq_or_ne q r with rfl | hne
    · rw [Function.update_self, hsent, hfinished, if_pos rfl]
      omega
    · rw [Function.update_of_ne hne, if_neg hne, Nat.add_zero]
  · have hwaiting := Bool.eq_false_iff.mpr hwaiting
    have hidle := (hr.idle hwaiting).1
    rw [hops] at hidle
    obtain ⟨state, hrequest, hbusy⟩ := (W r).request_eq (hr.ok hops) hidle
    rw [hwaiting, if_neg (by decide), hrequest]
    refine ⟨_, rfl, h.asked hops hwaiting hbusy, Script.count_eq (r := r) fun q ↦ ?_⟩
    dsimp only
    have hsent := Script.sent_asked (s := s) hwaiting state (S.serve j.server r (P.request op)).2 q
    rw [Job.asked] at hsent
    rw [hsent, ← Nat.add_assoc]
    congr 2
    rcases eq_or_ne q r with rfl | hne
    · rw [Function.update_self]
      rfl
    · rw [Function.update_of_ne hne]
      rfl

/-- Any other process is blocked. -/
theorem Script.Inv.step_blocked (h : s.Inv W j)
    (hstuck : (j.rank r).ops = [] ∨ S.arrived j.server r = true) : j.step r = .error .blocked := by
  have hr := h.rank r
  rcases hstuck with hops | harrived
  · rw [Job.step, hops]
  · rw [harrived] at hr
    have hwaiting : (j.rank r).waiting = true := by
      by_contra hnot
      exact absurd (hr.idle (Bool.eq_false_iff.mpr hnot)).2.2 (by decide)
    obtain ⟨op, ops, hops, hbusy, -, hbytes⟩ := hr.busy hwaiting
    rw [Job.step, hops]
    dsimp only
    rw [if_pos hwaiting, (W r).response_wait hbusy hbytes hr.isOpen]
    rfl

/-- Not all processes wait for each other. -/
theorem Script.Inv.exists_step (h : s.Inv W j) (hmore : ¬ ∀ r, (j.rank r).ops = []) :
    ∃ r j', j.step r = .ok j' := by
  obtain ⟨r, hr⟩ := not_forall.mp hmore
  by_contra hnone
  -- otherwise those that have more to do wait at a fence
  have harrived (q : Fin n) (hq : (j.rank q).ops ≠ []) : S.arrived j.server q = true := by
    by_contra hnot
    obtain ⟨op, ops, hops⟩ := List.exists_cons_of_ne_nil hq
    obtain ⟨j', hstep, -⟩ := h.step_eq hops (Bool.eq_false_iff.mpr hnot)
    exact hnone ⟨q, j', hstep⟩
  -- and one that does not wait has passed all fences
  obtain ⟨q, hq⟩ := h.awaited r
  have hdone : (j.rank q).ops = [] := by
    by_contra hne
    rw [harrived q hne] at hq
    cases hq
  have hall : (s.ops q).countP Op.isFence = (S.view j.server).epochs.length := by
    have hfences := h.fences q
    rw [hq, if_neg (by decide), Nat.add_zero, Script.sent, Script.finished, hdone, List.length_nil,
      Nat.sub_zero] at hfences
    rw [← hfences, ← fencesBefore_length]
    exact Nat.le_antisymm (fencesBefore_mono _ (Nat.le_add_right _ _))
      ((fencesBefore_le _ _).trans_eq (fencesBefore_length _).symm)
  have hfences := h.fences r
  have hle := fencesBefore_le (s.ops r) (s.sent r (j.rank r))
  rw [harrived r hr, if_pos rfl] at hfences
  rw [s.fences r q, hall] at hle
  omega

end

/-! ## Runs -/

variable {s}

/-- The processes at the begin. -/
theorem Script.inv_start (W : Fin n → C.Speaks P) {state : Fin n → C.State}
    (hstate : ∀ r, (W r).Idle (s.ops r) (state r)) : s.Inv W (s.start C S state) := by
  have hfinished (r : Fin n) : s.finished r ((s.start C S state).rank r) = 0 := Nat.sub_self _
  have hsent (r : Fin n) : s.sent r ((s.start C S state).rank r) = 0 := by
    rw [Script.sent, hfinished]
    rfl
  have hview : S.view (s.start C S state).server = {} := S.view_init
  have harrived : S.arrived (s.start C S state).server = fun _ ↦ false := S.arrived_init
  refine ⟨?_, ?_, ?_, ?_, ?_⟩
  · intro r
    rw [harrived]
    refine ⟨List.suffix_rfl, rfl, ?_, fun _ ↦ ⟨hstate r, rfl, rfl⟩, fun h ↦ by cases h⟩
    rw [hfinished, List.take_zero]
    exact .nil
  · intro r
    rw [hsent, hview, harrived]
    rfl
  · refine fun q ↦ ⟨q, ?_⟩
    rw [harrived]
  · intro key value
    rw [hview]
    constructor
    · intro h
      cases h
    · rintro ⟨q, i, -, hlt, -⟩
      rw [hsent] at hlt
      exact absurd hlt (Nat.not_lt_zero i)
  · intro key value
    rw [hview]
    constructor
    · intro h
      obtain ⟨q, -, hmem⟩ := List.mem_flatMap.mp h
      cases hmem
    · rintro ⟨q, i, -, hlt, -⟩
      rw [hsent] at hlt
      exact absurd hlt (Nat.not_lt_zero i)

/-- **In every run no step faults.** -/
theorem Script.reachable_inv (W : Fin n → C.Speaks P) {state : Fin n → C.State}
    (hstate : ∀ r, (W r).Idle (s.ops r) (state r)) {j : Job C S}
    (hj : (s.machine C S state).Reachable j) :
    s.Inv W j ∧ ∀ r f, j.step r ≠ .error (.fault f) := by
  refine Machine.reachable_safe (M := s.machine C S state) (I := s.Inv W) ?_ ?_ hj
  · intro j hinit
    obtain rfl : j = s.start C S state := hinit
    exact Script.inv_start W hstate
  · intro j r h
    show Safe (j.step r) (s.Inv W)
    by_cases hstuck : (j.rank r).ops = [] ∨ S.arrived j.server r = true
    · rw [h.step_blocked hstuck]
      exact safe_blocked
    · rw [not_or] at hstuck
      obtain ⟨op, ops, hops⟩ := List.exists_cons_of_ne_nil hstuck.1
      obtain ⟨j', hstep, hinv, -⟩ := h.step_eq hops (Bool.eq_false_iff.mpr hstuck.2)
      rw [hstep]
      exact hinv

/-- **The processes of a script come to an end**, in any order of their steps, each with the values
that were put. -/
theorem Script.endsAfter (W : Fin n → C.Speaks P) {state : Fin n → C.State}
    (hstate : ∀ r, (W r).Idle (s.ops r) (state r)) :
    (s.machine C S state).EndsAfter (s.start C S state) s.messages (s.Done W) := by
  have hinv {j : Job C S} (hj : (s.machine C S state).Reachable j) : s.Inv W j :=
    (Script.reachable_inv W hstate hj).1
  refine Machine.EndsAfter.of_count (f := s.count) (D := fun j ↦ ∀ r, (j.rank r).ops = [])
    (.init rfl) ?_ ?_ ?_ ?_ ?_
  · refine Finset.sum_eq_zero fun r _ ↦ ?_
    have hfinished : s.finished r ((s.start C S state).rank r) = 0 := Nat.sub_self _
    rw [Script.sent, hfinished]
    rfl
  · intro j r j' hj hstep
    have h := hinv hj
    by_cases hstuck : (j.rank r).ops = [] ∨ S.arrived j.server r = true
    · have hblocked : j.step r = .ok j' := hstep
      rw [h.step_blocked hstuck] at hblocked
      cases hblocked
    · rw [not_or] at hstuck
      obtain ⟨op, ops, hops⟩ := List.exists_cons_of_ne_nil hstuck.1
      obtain ⟨j'', hstep', -, hcount⟩ := h.step_eq hops (Bool.eq_false_iff.mpr hstuck.2)
      obtain rfl := Except.ok.inj (hstep'.symm.trans hstep)
      exact hcount
  · intro j hj
    refine Finset.sum_le_sum fun r _ ↦ ?_
    have hr := (hinv hj).rank r
    have hle := hr.finished_le
    rw [Script.sent]
    split
    · rename_i hwaiting
      obtain ⟨op, ops, hops, -⟩ := hr.busy hwaiting
      rw [hops, List.length_cons] at hle
      omega
    · omega
  · intro j hj hmore
    exact (hinv hj).exists_step hmore
  · intro j hj hdone
    have hr (r : Fin n) := (hinv hj).rank r
    have hfinished (r : Fin n) : s.finished r (j.rank r) = (s.ops r).length := by
      rw [Script.finished, hdone r, List.length_nil, Nat.sub_zero]
    have hwaiting (r : Fin n) : (j.rank r).waiting = false := by
      by_contra hnot
      obtain ⟨op, ops, hops, -⟩ := (hr r).busy (Bool.eq_true_of_not_eq_false hnot)
      rw [hdone r] at hops
      cases hops
    refine ⟨Finset.sum_congr rfl fun r _ ↦ ?_, fun r ↦ ⟨hdone r, ?_, ?_⟩⟩
    · rw [Script.sent_of_idle (hwaiting r), hfinished]
      omega
    · have hidle := ((hr r).idle (hwaiting r)).1
      rwa [hdone r] at hidle
    · have hgot := (hr r).got
      rwa [hfinished, List.take_length] at hgot

end

end PutFence
