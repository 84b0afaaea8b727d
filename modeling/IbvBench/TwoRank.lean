import IbvBench.Common
import IbvBench.Heap
import IbvBench.Lib.Script

/-!
# Two ranks and the network between them

The shape all the two-process benchmarks share.  Each rank posts its receives, sets up what it needs
and then calls its lambda once per round, for the same sequence of message sizes on both ranks.  A
`Program` is what one of the `.cpp` files adds to that: the statements of the two lambdas, and what
each of them does.

A step of the system (`Action`) is one statement of one rank, one delivery, or one completion, in
any order.  A statement is one call or one assignment of the source, with the assertion that follows
it; in particular polling a completion, reposting receives and handling the message are three
statements, and messages may land between them.

The environment `Env` fixes what the programs do not choose: the sizes, what `malloc` returns, the
devices set up by `init`, and what uninitialised memory holds.
-/

set_option autoImplicit false

namespace IbvBench

open StepMachine

/-- What a run of two ranks takes from outside, for a program whose longest control message has
`msgLength` bytes. -/
structure Env (Msg : Type) (msgLength : ℕ) where
  /-- The message size of every round. -/
  sizes : List ℕ
  /-- `config.touch_data`. -/
  touchData : Bool
  /-- `deviceConfig.inline_size`. -/
  inlineSize : ℕ := 0
  /-- The registered memory before the programs write to it. -/
  mem0 : Rank → Mem Msg
  /-- What the `n`th call of `malloc` on a rank returns. -/
  alloc : Rank → ℕ → ℕ
  alloc_ne_zero : ∀ r n, alloc r n ≠ 0
  /-- `CACHE_LINE_SIZE`; `run` asserts that every message fits in a cache line. -/
  cacheLineSize : ℕ
  cacheLineSize_ge : msgLength ≤ cacheLineSize
  mr : Rank → Mr
  qpNum : Rank → Rank → ℕ
  qp2rank : Rank → ℕ → Rank
  qp2rankMod : Rank → ℕ
  qp2rank_qpNum : ∀ r i, qp2rank r (qpNum r i % qp2rankMod r) = i

namespace Env

variable {Msg : Type} {msgLength : ℕ} (env : Env Msg msgLength)

/-- The message size of a round. -/
def size (k : ℕ) : ℕ := env.sizes.getD k 0

theorem size_eq {k : ℕ} (h : k < env.sizes.length) : env.size k = env.sizes[k] := by
  simp [size, h]

/-- The device of a rank: a default `DeviceConfig` but for the inline size. -/
def device (r : Rank) : Device where
  rank := r
  config := { inlineSize := env.inlineSize }
  mr := env.mr r
  qpNum := env.qpNum r
  qp2rank := env.qp2rank r
  qp2rankMod := env.qp2rankMod r
  qp2rank_qpNum := env.qp2rank_qpNum r

/-- The source of a completion is always the peer. -/
theorem qp2rank_peer (r : Rank) :
    (env.device r).qp2rank (env.qpNum r r.peer % (env.device r).qp2rankMod) = r.peer :=
  env.qp2rank_qpNum r r.peer

/-- There is room for a request when none is outstanding. -/
theorem room {r : Rank} {nic : Nic Msg} (h : nic.sqUsed = 0) :
    nic.sqUsed < (env.device r).config.maxSendNum := by
  rw [h]
  exact Nat.zero_lt_succ _

end Env

/-- A small environment to run the programs in: consecutive addresses, and memory filled with
zeros. -/
def Env.small (Msg : Type) {msgLength : ℕ} (sizes : List ℕ) : Env Msg msgLength where
  sizes
  touchData := true
  mem0 _ := { msg := fun _ ↦ none, buf := fun _ _ ↦ { val := 0, round := none } }
  alloc _ n := n + 1
  alloc_ne_zero _ n := Nat.succ_ne_zero n
  cacheLineSize := msgLength
  cacheLineSize_ge := Nat.le_refl _
  mr r := { lkey := r.toNat, rkey := r.toNat + 2 }
  qpNum _ i := i.toNat
  qp2rank _ n := if n = 0 then .r0 else .r1
  qp2rankMod _ := 2
  qp2rank_qpNum _ i := by cases i <;> rfl

/-- What one statement of a rank acts on. -/
structure RankState (Msg Obj Ext : Type) where
  host : Host Msg
  heap : Heap Obj := {}
  /-- The `wc` of the lambda, once it has been assigned. -/
  wc : Option (Wc Msg) := none
  /-- What the program holds besides. -/
  ext : Ext

/-- A rank: its state and its place in the program. -/
structure Node (Msg Obj Ext : Type) where
  /-- Has it posted its first receives? -/
  booted : Bool := false
  /-- How many calls of the lambda have returned. -/
  iter : ℕ := 0
  /-- The next statement of the current call. -/
  pc : ℕ := 0
  st : RankState Msg Obj Ext

/-- A two-process benchmark. -/
structure Program where
  /-- The control messages. -/
  Msg : Type
  /-- The `sizeof` of the longest one. -/
  msgLength : ℕ
  /-- The contexts it allocates. -/
  Obj : Type
  /-- The rest of its state. -/
  Ext : Type
  /-- The statements of its lambdas. -/
  Stmt : Type
  lambda : Rank → List Stmt
  /-- What a statement does, in a round of the given number and message size. -/
  exec : Env Msg msgLength → Rank → (round msgSize : ℕ) → Stmt → RankState Msg Obj Ext →
    Exec (RankState Msg Obj Ext)
  /-- The receive every `checkAndPostRecvs` posts. -/
  recvWr : Env Msg msgLength → Rank → RecvWr
  /-- What `run` sets up between its first `checkAndPostRecvs` and its rounds. -/
  setup : Ext → Exec Ext
  ext0 : Ext

inductive Action where
  /-- The rank executes its next statement. -/
  | rank (r : Rank)
  /-- The oldest request of the rank is executed at its peer. -/
  | deliver (r : Rank)
  /-- The oldest executed request of the rank completes. -/
  | complete (r : Rank)
  deriving DecidableEq, Repr

namespace Program

variable (P : Program)

abbrev Env := IbvBench.Env P.Msg P.msgLength

abbrev State := RankState P.Msg P.Obj P.Ext

abbrev Sys := Rank → Node P.Msg P.Obj P.Ext

/-- `checkAndPostRecvs` with the arguments the program gives it. -/
def repost (env : P.Env) (r : Rank) (nic : Nic P.Msg) : Exec (Nic P.Msg) :=
  checkAndPostRecvs (env.device r) (P.recvWr env r).addr (P.recvWr env r).length
    (P.recvWr env r).lkey (P.recvWr env r).wrId nic

/-- The part of `run` before the rounds, from its first `checkAndPostRecvs` on. -/
def boot (env : P.Env) (r : Rank) (st : P.State) : Exec P.State := do
  let nic ← P.repost env r st.host.nic
  let ext ← P.setup st.ext
  .ok { st with host := { st.host with nic }, ext }

/-- The node after a statement.  The next call of the lambda has a `wc` of its own. -/
def advance (r : Rank) (n : Node P.Msg P.Obj P.Ext) (st : P.State) : Node P.Msg P.Obj P.Ext :=
  let pos := Script.next (P.lambda r) n.iter n.pc
  { n with iter := pos.1, pc := pos.2, st := if pos.2 = 0 then { st with wc := none } else st }

/-- One statement of a rank. -/
def rankStep (env : P.Env) (r : Rank) (n : Node P.Msg P.Obj P.Ext) :
    Exec (Node P.Msg P.Obj P.Ext) :=
  if n.booted then
    match env.sizes[n.iter]?, (P.lambda r)[n.pc]? with
    | some msgSize, some stmt => do
      let st ← P.exec env r n.iter msgSize stmt n.st
      .ok (P.advance r n st)
    | _, _ => .error .blocked
  else do
    let st ← P.boot env r n.st
    .ok { n with booted := true, st }

def setHost (n : Node P.Msg P.Obj P.Ext) (host : Host P.Msg) : Node P.Msg P.Obj P.Ext :=
  { n with st := { n.st with host } }

/-- One step of the system. -/
def step (env : P.Env) (s : P.Sys) : Action → Exec P.Sys
  | .rank r => do
    let n ← P.rankStep env r (s r)
    .ok (Function.update s r n)
  | .deliver r => do
    let (h, k) ← IbvBench.deliver (env.device r) (env.device r.peer) (s r).st.host
      (s r.peer).st.host
    .ok (Function.update (Function.update s r (P.setHost (s r) h)) r.peer
      (P.setHost (s r.peer) k))
  | .complete r => do
    let h ← IbvBench.complete (env.device r) (s r).st.host
    .ok (Function.update s r (P.setHost (s r) h))

/-- Both ranks before their first statement. -/
def start (env : P.Env) : P.Sys := fun r ↦ { st := { host := { mem := env.mem0 r }, ext := P.ext0 } }

/-- The system of the two ranks. -/
def machine (env : P.Env) : Machine P.Sys Action Fault where
  init s := s = P.start env
  step := P.step env

/-- The next statement of a rank, if it is in a round. -/
def stmt (env : P.Env) (r : Rank) (n : Node P.Msg P.Obj P.Ext) : Option P.Stmt :=
  if n.booted ∧ n.iter < env.sizes.length then (P.lambda r)[n.pc]? else none

/-- The rank has returned from its last round. -/
def finished (env : P.Env) (n : Node P.Msg P.Obj P.Ext) : Prop :=
  n.booted = true ∧ n.iter = env.sizes.length

end Program

end IbvBench
