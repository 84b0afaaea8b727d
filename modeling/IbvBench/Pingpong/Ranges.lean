import IbvBench.Pingpong.VaryMsg
import IbvBench.Setup.Layout

/-!
# The ranges the simple ping-pongs hand to the hardware

`run` of `ibv_pingpong_sendrecv.cpp`, `ibv_pingpong_write.cpp`, `ibv_pingpong_write_imm.cpp` and
`ibv_pingpong_read.cpp`, seen as the list of the work requests that a rank posts.  What a rank posts
does not depend on what arrives: a run in which a poll never returns or an assertion fails posts an
initial part of the list.

The first three programs register twice the longest message, for a send and a receive buffer.  The
last one registers the longest message once, and tells its peer to start and to finish with a
message of a whole cache line from the same place, which fits only if the longest message is not
shorter than a cache line (`pingpong_inside`).
-/

set_option autoImplicit false

namespace IbvBench

/-- A work request, as far as its ranges go. -/
structure Request where
  /-- The scatter/gather entry. -/
  buf : Range
  /-- The range at the peer, for the one-sided operations. -/
  remote : Option Range := none
  deriving DecidableEq, Repr

/-- Both ranges lie in the region they should lie in. -/
def Request.Inside (own peer : Region) (q : Request) : Prop :=
  q.buf.Inside own.mrAddr own.mrSize ∧ ∀ a ∈ q.remote, a.Inside peer.mrAddr peer.mrSize

/-- What a rank has posted so far. -/
structure Posts where
  postedRecvNum : ℤ := 0
  requests : List Request := []

namespace Posts

/-! ## The functions of `ibv_common.hpp` -/

def post (q : Request) (p : Posts) : Posts := { p with requests := p.requests ++ [q] }

/-- The request of `postRecv` and of `postSend`. -/
def twoSided (buf size : ℤ) : Request where
  buf := { addr := buf, length := uint32 size }

/-- The request of `postWrite`, `postWriteImm` and `postRead`. -/
def oneSided (buf size remoteAddr : ℤ) : Request where
  buf := { addr := buf, length := uint32 size }
  remote := some { addr := remoteAddr, length := uint32 size }

def postRecv (buf size : ℤ) (p : Posts) : Posts :=
  { p with postedRecvNum := p.postedRecvNum + 1 }.post (twoSided buf size)

/-- The refill loop of `checkAndPostRecvs`, with `n` rounds to go. -/
def postRecvs (buf size : ℤ) : ℕ → Posts → Posts
  | 0, p => p
  | n + 1, p => postRecvs buf size n (p.postRecv buf size)

def checkAndPostRecvs (config : DeviceConfig) (buf size : ℤ) (p : Posts) : Posts :=
  if p.postedRecvNum < config.minRecvNum then
    postRecvs buf size ((config.maxRecvNum : ℤ) - p.postedRecvNum).toNat p
  else p

/-- A receive was polled, `--device->posted_recv_num`, and the receives are filled up. -/
def repost (config : DeviceConfig) (buf size : ℤ) (p : Posts) : Posts :=
  { p with postedRecvNum := p.postedRecvNum - 1 }.checkAndPostRecvs config buf size

def postSend (buf size : ℤ) (p : Posts) : Posts := p.post (twoSided buf size)

def postWrite (buf size remoteAddr : ℤ) (p : Posts) : Posts := p.post (oneSided buf size remoteAddr)

def postWriteImm (buf size remoteAddr : ℤ) (p : Posts) : Posts :=
  p.post (oneSided buf size remoteAddr)

def postRead (buf size remoteAddr : ℤ) (p : Posts) : Posts := p.post (oneSided buf size remoteAddr)

end Posts

/-! ## The programs -/

/-- The ping-pong programs without a rendezvous. -/
inductive Pingpong where
  | sendrecv
  | write
  | writeImm
  | read
  deriving DecidableEq, Repr

namespace Pingpong

/-- `deviceConfig.mr_size`. -/
def mrSize (maxMsgSize : ℤ) : Pingpong → ℤ
  | sendrecv | write | writeImm => int32 (maxMsgSize * 2)
  | read => maxMsgSize

/-- What `run` computes with on a rank. -/
structure Ctx where
  config : DeviceConfig := {}
  region : Region
  /-- `device.rmrs[1-rank].addr`. -/
  rmrAddr : ℤ
  cacheLineSize : ℤ
  minMsgSize : ℤ
  maxMsgSize : ℤ

namespace Ctx

variable (c : Ctx)

def sendBuf : ℤ := c.region.mrAddr

def recvBuf : ℤ := c.region.mrAddr + c.maxMsgSize

def remoteRecvBuf : ℤ := c.rmrAddr + c.maxMsgSize

/-- `RUN_VARY_MSG({config.min_msg_size, config.max_msg_size}, …, f)`. -/
def runVaryMsg (f : (msgSize : ℤ) → Posts → Posts) (p : Posts) : Posts :=
  (IbvBench.runVaryMsg ((sizeT c.minMsgSize).toNat, (sizeT c.maxMsgSize).toNat)).foldl
    (fun p (msgSize : ℕ) ↦ f (int32 msgSize) p) p

/-- The lambda of a rank, given how it sends and how it receives: rank 0 sends first. -/
def lambda (rank : Rank) (send recv : Posts → Posts) (p : Posts) : Posts :=
  match rank with
  | .r0 => recv (send p)
  | .r1 => send (recv p)

def runSendrecv (rank : Rank) : Posts :=
  let recv := Posts.repost c.config c.recvBuf c.maxMsgSize
  Posts.checkAndPostRecvs c.config c.recvBuf c.maxMsgSize {} |>
    c.runVaryMsg fun msgSize ↦ lambda rank (Posts.postSend c.sendBuf msgSize) recv

/-- The receives of this program are never consumed: it waits for the bytes to change. -/
def runWrite (_ : Rank) : Posts :=
  Posts.checkAndPostRecvs c.config c.recvBuf c.maxMsgSize {} |>
    c.runVaryMsg fun msgSize ↦ Posts.postWrite c.sendBuf msgSize c.remoteRecvBuf

def runWriteImm (rank : Rank) : Posts :=
  let recv := Posts.repost c.config c.recvBuf c.maxMsgSize
  Posts.checkAndPostRecvs c.config c.recvBuf c.maxMsgSize {} |>
    c.runVaryMsg fun msgSize ↦
      lambda rank (Posts.postWriteImm c.sendBuf msgSize c.remoteRecvBuf) recv

/-- Rank 0 waits for the start signal, reads, and sends the finish signal; rank 1 sends the one and
waits for the other. -/
def runRead (rank : Rank) : Posts :=
  let addr := c.region.mrAddr
  let recv := Posts.repost c.config addr c.region.mrSize
  let signal := Posts.postSend addr c.cacheLineSize
  let p := Posts.checkAndPostRecvs c.config addr c.region.mrSize {}
  match rank with
  | .r0 => signal (c.runVaryMsg (fun msgSize ↦ Posts.postRead addr msgSize c.rmrAddr) (recv p))
  | .r1 => recv (signal p)

end Ctx

/-- Everything a rank posts. -/
def run (c : Ctx) (rank : Rank) : Pingpong → Posts
  | sendrecv => c.runSendrecv rank
  | write => c.runWrite rank
  | writeImm => c.runWriteImm rank
  | read => c.runRead rank

end Pingpong

/-! ## What is posted satisfies what each call satisfies -/

namespace Posts

variable {P : Request → Prop} {p : Posts} {config : DeviceConfig} {buf size : ℤ} {q : Request}

/-- All requests satisfy `P`. -/
def All (P : Request → Prop) (p : Posts) : Prop := ∀ q ∈ p.requests, P q

theorem All.empty : All P {} := fun _ h ↦ (by cases h)

theorem All.post (h : p.All P) (hq : P q) : (p.post q).All P := by
  intro q' hmem
  rcases List.mem_append.mp hmem with hmem | hmem
  · exact h q' hmem
  · rwa [List.mem_singleton.mp hmem]

theorem All.postRecvs (hq : P (twoSided buf size)) {n : ℕ} (h : p.All P) :
    (Posts.postRecvs buf size n p).All P := by
  induction n generalizing p with
  | zero => exact h
  | succ n ih =>
    have hcount : { p with postedRecvNum := p.postedRecvNum + 1 }.All P := h
    exact ih (hcount.post hq)

theorem All.checkAndPostRecvs (hq : P (twoSided buf size)) (h : p.All P) :
    (p.checkAndPostRecvs config buf size).All P := by
  rw [Posts.checkAndPostRecvs]
  split
  · exact h.postRecvs hq
  · exact h

theorem All.repost (hq : P (twoSided buf size)) (h : p.All P) : (p.repost config buf size).All P := by
  have hcount : { p with postedRecvNum := p.postedRecvNum - 1 }.All P := h
  exact hcount.checkAndPostRecvs hq

end Posts

namespace Pingpong.Ctx

variable {c : Ctx} {P : Request → Prop} {p : Posts}

/-- The rounds of a run post what the lambda posts for the sizes in the range. -/
theorem all_runVaryMsg {f : ℤ → Posts → Posts} (hmin : 0 ≤ c.minMsgSize)
    (hmax : 0 ≤ c.maxMsgSize ∧ c.maxMsgSize < 2 ^ 31) (hle : c.minMsgSize ≤ c.maxMsgSize)
    (h : p.All P)
    (hf : ∀ n p, c.minMsgSize ≤ n → n ≤ c.maxMsgSize → p.All P → (f n p).All P) :
    (c.runVaryMsg f p).All P := by
  refine List.foldlRecOn _ _ h fun p hp n hn ↦ ?_
  obtain ⟨h1, h2⟩ := mem_runVaryMsg hn
  rw [sizeT_of_range hmin (by omega)] at h1
  rw [sizeT_of_range hmax.1 (by omega)] at h2
  rw [int32_of_range (by omega) (by omega)]
  exact hf n p (by omega) (by omega) hp

theorem all_lambda {rank : Rank} {send recv : Posts → Posts}
    (hsend : ∀ p, p.All P → (send p).All P) (hrecv : ∀ p, p.All P → (recv p).All P)
    (h : p.All P) : (lambda rank send recv p).All P := by
  cases rank
  · exact hrecv _ (hsend _ h)
  · exact hsend _ (hrecv _ h)

end Pingpong.Ctx

/-! ## The ranges -/

section

variable {own peer : Region} {buf size remoteAddr : ℤ}

theorem inside_twoSided (hsize : 0 ≤ size ∧ size < 2 ^ 32) :
    (Posts.twoSided buf size).Inside own peer ↔
      own.mrAddr ≤ buf ∧ buf + size ≤ own.mrAddr + own.mrSize := by
  simp [Request.Inside, Posts.twoSided, Range.Inside, uint32_of_range hsize.1 hsize.2]

theorem inside_oneSided (hsize : 0 ≤ size ∧ size < 2 ^ 32) :
    (Posts.oneSided buf size remoteAddr).Inside own peer ↔
      (own.mrAddr ≤ buf ∧ buf + size ≤ own.mrAddr + own.mrSize) ∧
        peer.mrAddr ≤ remoteAddr ∧ remoteAddr + size ≤ peer.mrAddr + peer.mrSize := by
  simp [Request.Inside, Posts.oneSided, Range.Inside, uint32_of_range hsize.1 hsize.2]

end

/-- The memory of a device has the size it was configured with. -/
theorem initMemory_mrSize {sys : System} {pageSize mrSize : ℤ} {region : Region}
    (h : initMemory sys pageSize mrSize = some region) : region.mrSize = uint32 mrSize := by
  obtain ⟨mrAddr, -, h⟩ := Option.bind_eq_some_iff.mp h
  obtain ⟨addr, -, h⟩ := Option.bind_eq_some_iff.mp h
  split at h
  · exact congrArg Region.mrSize (Option.some.inj h).symm
  · cases h

/-- What `run` of one of the programs computes with on the rank whose own region and whose peer's
region are given. -/
def Pingpong.ctx (own peer : Region) (cacheLineSize minMsgSize maxMsgSize : ℤ) : Pingpong.Ctx where
  region := own
  rmrAddr := peer.mrAddr
  cacheLineSize
  minMsgSize
  maxMsgSize

namespace Pingpong

variable {own peer : Region} {cacheLineSize minMsgSize maxMsgSize : ℤ} {rank : Rank}
  (hmin : 1 ≤ minMsgSize) (hle : minMsgSize ≤ maxMsgSize) (hmax : maxMsgSize < 2 ^ 30)

include hmin hle hmax

/-- The three programs with two buffers stay inside their regions. -/
theorem inside_twoBuffers (hown : own.mrSize = 2 * maxMsgSize) (hpeer : peer.mrSize = 2 * maxMsgSize)
    {p : Pingpong} (hp : p ≠ .read) :
    (p.run (ctx own peer cacheLineSize minMsgSize maxMsgSize) rank).All (·.Inside own peer) := by
  have hsend : ∀ n : ℤ, minMsgSize ≤ n → n ≤ maxMsgSize →
      (Posts.twoSided own.mrAddr n).Inside own peer := by
    intro n h1 h2
    exact (inside_twoSided (by omega)).mpr (by omega)
  have hwrite : ∀ n : ℤ, minMsgSize ≤ n → n ≤ maxMsgSize →
      (Posts.oneSided own.mrAddr n (peer.mrAddr + maxMsgSize)).Inside own peer := by
    intro n h1 h2
    exact (inside_oneSided (by omega)).mpr (by omega)
  have hrecv : (Posts.twoSided (own.mrAddr + maxMsgSize) maxMsgSize).Inside own peer :=
    (inside_twoSided (by omega)).mpr (by omega)
  have hposted : ∀ config, (Posts.checkAndPostRecvs config (own.mrAddr + maxMsgSize) maxMsgSize
      {}).All (·.Inside own peer) := fun _ ↦ Posts.All.empty.checkAndPostRecvs hrecv
  have hmin' : 0 ≤ minMsgSize := by omega
  have hmax' : 0 ≤ maxMsgSize ∧ maxMsgSize < 2 ^ 31 := by omega
  cases p with
  | sendrecv =>
    rw [run, Ctx.runSendrecv]
    refine Ctx.all_runVaryMsg hmin' hmax' hle (hposted _) fun n p h1 h2 h ↦ ?_
    exact Ctx.all_lambda (fun _ h ↦ h.post (hsend n h1 h2)) (fun _ h ↦ h.repost hrecv) h
  | write =>
    rw [run, Ctx.runWrite]
    exact Ctx.all_runVaryMsg hmin' hmax' hle (hposted _) fun n p h1 h2 h ↦ h.post (hwrite n h1 h2)
  | writeImm =>
    rw [run, Ctx.runWriteImm]
    refine Ctx.all_runVaryMsg hmin' hmax' hle (hposted _) fun n p h1 h2 h ↦ ?_
    exact Ctx.all_lambda (fun _ h ↦ h.post (hwrite n h1 h2)) (fun _ h ↦ h.repost hrecv) h
  | read => exact absurd rfl hp

/-- The program with one buffer does when a cache line fits into it. -/
theorem inside_read (hC : 0 < cacheLineSize) (hfit : cacheLineSize ≤ maxMsgSize)
    (hown : own.mrSize = maxMsgSize) (hpeer : peer.mrSize = maxMsgSize) :
    (run (ctx own peer cacheLineSize minMsgSize maxMsgSize) rank .read).All (·.Inside own peer) := by
  have hread : ∀ n : ℤ, minMsgSize ≤ n → n ≤ maxMsgSize →
      (Posts.oneSided own.mrAddr n peer.mrAddr).Inside own peer := by
    intro n h1 h2
    exact (inside_oneSided (by omega)).mpr (by omega)
  have hsignal : (Posts.twoSided own.mrAddr cacheLineSize).Inside own peer :=
    (inside_twoSided (by omega)).mpr (by omega)
  have hrecv : (Posts.twoSided own.mrAddr own.mrSize).Inside own peer :=
    (inside_twoSided (by omega)).mpr (by omega)
  have hposted : ∀ config, (Posts.checkAndPostRecvs config own.mrAddr own.mrSize {}).All
      (·.Inside own peer) := fun _ ↦ Posts.All.empty.checkAndPostRecvs hrecv
  have hmin' : 0 ≤ minMsgSize := by omega
  have hmax' : 0 ≤ maxMsgSize ∧ maxMsgSize < 2 ^ 31 := by omega
  cases rank with
  | r0 =>
    rw [run, Ctx.runRead]
    refine Posts.All.post (Ctx.all_runVaryMsg hmin' hmax' hle ((hposted _).repost hrecv)
      fun n p h1 h2 h ↦ ?_) hsignal
    exact h.post (hread n h1 h2)
  | r1 => exact ((hposted _).post hsignal).repost hrecv

end Pingpong

namespace Posts

variable {p : Posts} {config : DeviceConfig} {buf size : ℤ} {q : Request}

theorem mem_postRecvs {n : ℕ} (h : q ∈ p.requests) : q ∈ (postRecvs buf size n p).requests := by
  induction n generalizing p with
  | zero => exact h
  | succ n ih => exact ih (List.mem_append_left _ h)

/-- Nothing that was posted is forgotten. -/
theorem mem_repost (h : q ∈ p.requests) : q ∈ (p.repost config buf size).requests := by
  rw [repost, checkAndPostRecvs]
  split
  · exact mem_postRecvs h
  · exact h

end Posts

/-- Rank 1 posts the start signal. -/
theorem Pingpong.Ctx.startSignal_mem (c : Pingpong.Ctx) :
    Posts.twoSided c.region.mrAddr c.cacheLineSize ∈ (c.runRead .r1).requests :=
  Posts.mem_repost (List.mem_append_right _ List.mem_cons_self)

/-- **When the ping-pong programs hand out ranges of registered memory only.**  Whatever memory the
two ranks were given, every local range is inside the own and every remote range inside the peer's
region, except that the signals of `ibv_pingpong_read` are too long when the longest message is
shorter than a cache line. -/
theorem pingpong_inside (p : Pingpong) (sys : Rank → System) (pageSize : ℤ) (region : Rank → Region)
    {cacheLineSize minMsgSize maxMsgSize : ℤ} (hC : 0 < cacheLineSize ∧ cacheLineSize < 2 ^ 31)
    (hmin : 1 ≤ minMsgSize) (hle : minMsgSize ≤ maxMsgSize) (hmax : maxMsgSize < 2 ^ 30)
    (hinit : ∀ r, initMemory (sys r) pageSize (p.mrSize maxMsgSize) = some (region r)) :
    (∀ r, ∀ q ∈ (p.run (Pingpong.ctx (region r) (region r.peer) cacheLineSize minMsgSize maxMsgSize)
        r).requests, q.Inside (region r) (region r.peer)) ↔
      (p = .read → cacheLineSize ≤ maxMsgSize) := by
  by_cases hp : p = .read
  · subst hp
    have hsize : ∀ r, (region r).mrSize = maxMsgSize := fun r ↦ by
      rw [initMemory_mrSize (hinit r), Pingpong.mrSize, uint32_of_range (by omega) (by omega)]
    constructor
    · intro h _
      have hC' : 0 ≤ cacheLineSize ∧ cacheLineSize < 2 ^ 32 := by omega
      have hsignal := (inside_twoSided hC').mp (h .r1 _ (Pingpong.Ctx.startSignal_mem _))
      simp only [Pingpong.ctx, hsize] at hsignal
      omega
    · intro h r
      exact Pingpong.inside_read hmin hle hmax hC.1 (h rfl) (hsize r) (hsize r.peer)
  · have hsize : ∀ r, (region r).mrSize = 2 * maxMsgSize := fun r ↦ by
      have hexpr : p.mrSize maxMsgSize = int32 (maxMsgSize * 2) := by
        cases p <;> first | rfl | exact absurd rfl hp
      rw [initMemory_mrSize (hinit r), hexpr, int32_of_range (by omega) (by omega),
        uint32_of_range (by omega) (by omega), Int.mul_comm]
    refine ⟨fun _ h ↦ absurd h hp, fun _ r ↦ ?_⟩
    exact Pingpong.inside_twoBuffers hmin hle hmax (hsize r) (hsize r.peer) hp

/-- A region of the default size. -/
def defaultRegion : Region where
  mrAddr := 4096
  mrSize := 65536

/-- The default sizes, with cache lines of 64 bytes. -/
theorem pingpong_inside_default :
    (Pingpong.run (Pingpong.ctx defaultRegion defaultRegion 64 8 65536) .r0 .read).All
        (·.Inside defaultRegion defaultRegion) ∧
      (Pingpong.run (Pingpong.ctx defaultRegion defaultRegion 64 8 65536) .r1 .read).All
        (·.Inside defaultRegion defaultRegion) := by
  have hinside : ∀ r, (Pingpong.run (Pingpong.ctx defaultRegion defaultRegion 64 8 65536) r
      .read).All (·.Inside defaultRegion defaultRegion) :=
    (pingpong_inside .read (fun _ ↦ .ample) 4096 (fun _ ↦ defaultRegion)
      (by decide) (by decide) (by decide) (by decide) (fun _ ↦ rfl)).mpr fun _ ↦ by decide
  exact ⟨hinside .r0, hinside .r1⟩

/-- Messages of 8 bytes and cache lines of 64 bytes: the start signal of `ibv_pingpong_read` is 64
bytes from a region of 8. -/
theorem pingpong_read_outside :
    ¬ ∀ (p : Pingpong) (sys : Rank → System) (pageSize : ℤ) (region : Rank → Region)
      (cacheLineSize minMsgSize maxMsgSize : ℤ), cacheLineSize ∈ [32, 64, 128, 256] →
      1 ≤ minMsgSize → minMsgSize ≤ maxMsgSize → maxMsgSize < 2 ^ 30 →
      (∀ r, initMemory (sys r) pageSize (p.mrSize maxMsgSize) = some (region r)) →
      ∀ r, ∀ q ∈ (p.run (Pingpong.ctx (region r) (region r.peer) cacheLineSize minMsgSize
        maxMsgSize) r).requests, q.Inside (region r) (region r.peer) := by
  intro h
  have hall := h .read (fun _ ↦ .ample) 4096 (fun _ ↦ { mrAddr := 4096, mrSize := 8 }) 64 8 8
    (by decide) (by decide) (by decide) (by decide) (fun _ ↦ rfl) .r1
  have hsignal := hall _ (Pingpong.Ctx.startSignal_mem _)
  exact absurd hsignal.1.2 (by decide)

end IbvBench
