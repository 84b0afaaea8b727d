import IbvBench.Pingpong.Write

/-!
# The RDMA-write ping-pong neither reads early nor loses a message

The ranks take turns: neither starts a write before it has seen all of the peer's last one, so at
most one write is on its way to a rank, and none while the rank resets the two bytes it looks at
(`Inv.quiet`).  From the resets until the loop is left, the two bytes therefore say how far the write
has come (`Landing`): whatever the order in which it lands, its last byte is one of them.

Rank 0 resets the two bytes of the size it is about to wait for, but rank 1 those of the size it has
just received.  The sizes never decrease, so when the size grows, the last byte of the new size is
one that nothing has been written to yet.
-/

set_option autoImplicit false

namespace IbvBench

open StepMachine

namespace PingpongWrite

variable {env : Env Unit 0} {maxMsgSize : ℕ}

/-! ## Turns -/

/-- How many writes a rank has posted in the current round before a statement. -/
def posts : Rank → Stmt → ℕ
  | .r0, .pollSent | .r0, .spinLast | .r0, .spinFirst | .r0, .checkBuffer | .r1, .pollSent => 1
  | _, _ => 0

/-- How many times it has left the spin loop in the current round. -/
def waits : Rank → Stmt → ℕ
  | .r0, .checkBuffer => 1
  | .r0, _ | .r1, .spinLast | .r1, .spinFirst => 0
  | .r1, _ => 1

/-- The statement after each, in the cyclic order that both scripts follow. -/
def succ : Stmt → Stmt
  | .resetFirst => .resetLast
  | .resetLast => .writeBuffer
  | .writeBuffer => .postWrite
  | .postWrite => .pollSent
  | .pollSent => .spinLast
  | .spinLast => .spinFirst
  | .spinFirst => .checkBuffer
  | .checkBuffer => .resetFirst

/-- Is this the last statement of the rank's script? -/
def ends (r : Rank) (ℓ : Stmt) : Bool :=
  match r, ℓ with
  | .r0, .checkBuffer | .r1, .pollSent => true
  | _, _ => false

/-- The round of the statement after `ℓ`. -/
def nextRound (r : Rank) (k : ℕ) (ℓ : Stmt) : ℕ := if ends r ℓ then k + 1 else k

/-- Can the peer's next write be on its way before this statement? -/
def quiet : Stmt → Bool
  | .pollSent | .spinLast | .spinFirst => false
  | _ => true

/-- Have the two bytes been reset, and the spin loop not been left yet? -/
def armed : Stmt → Bool
  | .checkBuffer | .resetFirst | .resetLast => false
  | _ => true

theorem next_eq : ∀ r pc (h : pc < (lambda r).length),
    (lambda r)[(Script.next (lambda r) 0 pc).2]? = some (succ (lambda r)[pc]) ∧
      ends r (lambda r)[pc] = (pc + 1 == (lambda r).length) := by
  decide

/-- A rank moves on to the next statement, in the next round after the last one. -/
theorem next_stmt {r : Rank} {k pc : ℕ} {ℓ : Stmt} (h : (lambda r)[pc]? = some ℓ) :
    (lambda r)[(Script.next (lambda r) k pc).2]? = some (succ ℓ) ∧
      (Script.next (lambda r) k pc).1 = nextRound r k ℓ := by
  obtain ⟨hpc, rfl⟩ := List.getElem?_eq_some_iff.mp h
  obtain ⟨h1, h2⟩ := next_eq r pc hpc
  have hpos : (Script.next (lambda r) k pc).2 = (Script.next (lambda r) 0 pc).2 := by
    rw [Script.next, Script.next]
    split <;> rfl
  refine ⟨hpos ▸ h1, ?_⟩
  rw [nextRound, h2, Script.next]
  by_cases hlast : pc + 1 = (lambda r).length <;> simp [hlast]

/-- A statement adds to the counts what it does. -/
theorem posts_succ (r : Rank) (k : ℕ) (ℓ : Stmt) :
    nextRound r k ℓ + posts r (succ ℓ) = k + posts r ℓ + if ℓ = .postWrite then 1 else 0 := by
  cases r <;> cases ℓ <;> rfl

theorem waits_succ (r : Rank) (k : ℕ) (ℓ : Stmt) :
    nextRound r k ℓ + waits r (succ ℓ) = k + waits r ℓ + if ℓ = .spinFirst then 1 else 0 := by
  cases r <;> cases ℓ <;> rfl

/-! ## How far a write has come -/

theorem Order.index_lt {n m : ℕ} (o : Order) (h : m < n) : o.index n m < n := by
  cases o <;> simp only [index] <;> omega

theorem Order.index_inj {n m m' : ℕ} (o : Order) (h : m < n) (h' : m' < n)
    (he : o.index n m = o.index n m') : m = m' := by
  cases o <;> simp only [index] at he <;> omega

theorem Order.exists_index {n i : ℕ} (o : Order) (h : i < n) : ∃ m < n, o.index n m = i := by
  cases o with
  | increasing => exact ⟨i, h, rfl⟩
  | decreasing => exact ⟨n - 1 - i, by omega, by simp only [index]; omega⟩

/-- The last byte to land is the last or the first one of the message. -/
theorem Order.index_last {n : ℕ} (o : Order) :
    o.index n (n - 1) = n - 1 ∨ o.index n (n - 1) = 0 := by
  cases o with
  | increasing => exact .inl rfl
  | decreasing => exact .inr (by simp only [index]; omega)

/-- What the receive buffer of a rank says about the peer's write of round `k`, when so many writes
have landed and these are on their way. -/
inductive Landing (env : Env Unit 0) (r : Rank) (k : ℕ) (buf : ℕ → Cell) :
    (landed : ℕ) → List Flight → Prop
  /-- It has not started to land. -/
  | waiting : (buf 0).val ≠ r.peer.value → (buf (env.size k - 1)).val ≠ r.peer.value →
      Landing env r k buf k []
  /-- Some of its bytes have landed, and the last one has not. -/
  | landing {f : Flight} :
      (buf (f.order.index (env.size k) (env.size k - 1))).val ≠ r.peer.value →
      (∀ m < f.landed, buf (f.order.index (env.size k) m) = { val := r.peer.value, round := k }) →
      Landing env r k buf k [f]
  /-- It has landed as a whole. -/
  | delivered : (∀ i < env.size k, buf i = { val := r.peer.value, round := k }) →
      Landing env r k buf (k + 1) []

section

variable {r : Rank} {k landed : ℕ} {buf : ℕ → Cell} {flights : List Flight}

/-- Whoever sees the peer's value in both bytes has the whole message. -/
theorem Landing.of_seen (h : Landing env r k buf landed flights) (h0 : (buf 0).val = r.peer.value)
    (hlast : (buf (env.size k - 1)).val = r.peer.value) :
    landed = k + 1 ∧ flights = [] ∧
      ∀ i < env.size k, buf i = { val := r.peer.value, round := k } := by
  cases h with
  | waiting hne => exact absurd h0 hne
  | @landing f hne =>
    rcases f.order.index_last (n := env.size k) with he | he <;> rw [he] at hne
    · exact absurd hlast hne
    · exact absurd h0 hne
  | delivered hall => exact ⟨rfl, rfl, hall⟩

end

/-! ## The invariant -/

/-- The message sizes: at least one byte, at most the size of the buffers, never decreasing. -/
structure Sizes (env : Env Unit 0) (maxMsgSize : ℕ) : Prop where
  pos : ∀ k < env.sizes.length, 1 ≤ env.size k
  le : ∀ k < env.sizes.length, env.size k ≤ maxMsgSize
  mono : ∀ j k, j ≤ k → k < env.sizes.length → env.size j ≤ env.size k

/-- A request of a rank writes the bytes of a round, all with the rank's value. -/
structure Request (env : Env Unit 0) (r : Rank) (k : ℕ) (mem : Mem Unit) (w : SendWr Unit) : Prop
    where
  opcode : w.opcode = .rdmaWrite
  lkey : w.lkey = (env.mr r).lkey
  rkey : w.rkey = (env.mr r.peer).rkey
  remoteAddr : w.remoteAddr = .buf .recvBuf
  addr : w.addr = .buf .sendBuf
  payload : ∃ cells, w.payload mem = .bytes cells ∧ cells.length = env.size k ∧
    ∀ c ∈ cells, c.val = r.value

/-- A rank before the statement `ℓ`, and the writes it has posted. -/
structure NodeInv (env : Env Unit 0) (maxMsgSize : ℕ) (r : Rank) (ℓ : Stmt) (n : Node) : Prop where
  stmt : (lambda r)[n.pc]? = some ℓ
  iter_le : n.iter ≤ env.sizes.length
  pc_eq : n.iter = env.sizes.length → n.pc = 0
  posted : n.iter + posts r ℓ = n.landed + n.flights.length + n.st.host.nic.sq.length
  used : n.st.host.nic.sqUsed = if ℓ = .pollSent then 1 else 0
  sq : ∀ w ∈ n.st.host.nic.sq, Request env r n.iter n.st.host.mem w
  flights : ∀ f ∈ n.flights, f.num = n.landed ∧ f.cells.length = env.size f.num ∧
    f.landed < f.cells.length ∧ ∀ c ∈ f.cells, c.val = r.value
  unacked : ∀ a ∈ n.st.host.nic.unacked, a.wr.opcode = .rdmaWrite ∧ a.data = none
  sendCq : ∀ c ∈ n.st.host.nic.sendCq.entries, sendOk .rdmaWrite c = true
  sendBuf : ∀ i < maxMsgSize, (n.st.host.mem.buf .sendBuf i).val = r.value

/-- What a rank finds in its receive buffer before the statement `ℓ` of round `k`, when so many
writes of the peer have landed and these are on their way. -/
structure RecvInv (env : Env Unit 0) (maxMsgSize : ℕ) (r : Rank) (ℓ : Stmt) (k : ℕ)
    (buf : ℕ → Cell) (landed : ℕ) (flights : List Flight) : Prop where
  le : k + waits r ℓ ≤ landed
  landing : armed ℓ = true → k + waits r ℓ < env.sizes.length →
    Landing env r (k + waits r ℓ) buf landed flights
  first : ℓ = .resetLast → (buf 0).val ≠ r.peer.value
  last : ℓ = .spinFirst → (buf (env.size k - 1)).val = r.peer.value
  full : ℓ = .checkBuffer → landed = k + 1 ∧
    ∀ i < env.size k, buf i = { val := r.peer.value, round := k }
  tags : ∀ i < maxMsgSize, ∀ j, buf i = { val := r.peer.value, round := some j } →
    j < landed + flights.length
  /-- Rank 1 has only written to bytes of the sizes it has received. -/
  beyond : r = .r1 → ∀ i < maxMsgSize, (∀ j < landed + flights.length, env.size j ≤ i) →
    (buf i).val = 0

/-- **The invariant.** -/
def Inv (env : Env Unit 0) (maxMsgSize : ℕ) (s : Sys) : Prop := ∀ r, ∃ ℓ,
  NodeInv env maxMsgSize r ℓ (s r) ∧
    RecvInv env maxMsgSize r ℓ (s r).iter ((s r).st.host.mem.buf .recvBuf) (s r.peer).landed
      (s r.peer).flights

/-! ## Consequences -/

theorem value_ne (r : Rank) : r.value ≠ r.peer.value := by
  cases r <;> decide

theorem value_ne_zero (r : Rank) : r.value ≠ 0 := by
  cases r <;> decide

theorem size_pos_iff (hsz : Sizes env maxMsgSize) {k : ℕ} :
    0 < env.size k ↔ k < env.sizes.length := by
  refine ⟨fun h ↦ ?_, fun h ↦ hsz.pos k h⟩
  by_contra hk
  rw [Env.size, List.getD_eq_getElem?_getD, List.getElem?_eq_none (Nat.le_of_not_lt hk)] at h
  cases h

/-- The ranks take turns. -/
theorem turns (ℓ : Stmt) :
    (waits .r0 ℓ ≤ posts .r0 ℓ ∧ posts .r0 ℓ ≤ waits .r0 ℓ + 1) ∧
    (posts .r1 ℓ ≤ waits .r1 ℓ ∧ waits .r1 ℓ ≤ posts .r1 ℓ + 1) ∧
    (quiet ℓ = true → posts .r0 ℓ = waits .r0 ℓ ∧ waits .r1 ℓ = posts .r1 ℓ + 1) := by
  cases ℓ <;> decide

/-- The peer has posted at most one write that the rank has not waited for. -/
theorem posted_le {r : Rank} {n n' : Node} {ℓ ℓ' : Stmt} {buf buf' : ℕ → Cell}
    (hn : NodeInv env maxMsgSize r ℓ n)
    (hv : RecvInv env maxMsgSize r ℓ n.iter buf n'.landed n'.flights)
    (hn' : NodeInv env maxMsgSize r.peer ℓ' n')
    (hv' : RecvInv env maxMsgSize r.peer ℓ' n'.iter buf' n.landed n.flights) :
    n'.landed + n'.flights.length + n'.st.host.nic.sq.length ≤ n.iter + waits r ℓ + 1 ∧
    (quiet ℓ = true →
      n'.landed + n'.flights.length + n'.st.host.nic.sq.length ≤ n.iter + waits r ℓ) := by
  have h1 := hn.posted
  have h2 := hv.le
  have h3 := hn'.posted
  have h4 := hv'.le
  obtain ⟨h5, h6, h7⟩ := turns ℓ
  obtain ⟨h8, h9, -⟩ := turns ℓ'
  cases r with
  | r0 =>
    constructor
    · simp only [Rank.peer] at *
      omega
    · intro hq
      obtain ⟨h10, -⟩ := h7 hq
      simp only [Rank.peer] at *
      omega
  | r1 =>
    constructor
    · simp only [Rank.peer] at *
      omega
    · intro hq
      obtain ⟨-, h10⟩ := h7 hq
      simp only [Rank.peer] at *
      omega

/-! ## What a rank finds in its receive buffer, step by step -/

section

variable {r : Rank} {ℓ : Stmt} {k landed : ℕ} {buf : ℕ → Cell} {flights : List Flight}

/-- A statement that does not write to the receive buffer, nor leaves the spin loop. -/
theorem RecvInv.next_same (h : RecvInv env maxMsgSize r ℓ k buf landed flights)
    (h1 : ℓ ≠ .resetFirst) (h2 : ℓ ≠ .resetLast) (h3 : ℓ ≠ .spinFirst)
    (hlast : ℓ = .spinLast → (buf (env.size k - 1)).val = r.peer.value) :
    RecvInv env maxMsgSize r (succ ℓ) (nextRound r k ℓ) buf landed flights := by
  have hw : nextRound r k ℓ + waits r (succ ℓ) = k + waits r ℓ := by
    rw [waits_succ, if_neg h3]
    rfl
  refine ⟨hw ▸ h.le, ?_, ?_, ?_, ?_, h.tags, h.beyond⟩
  · intro ha hlt
    rw [hw] at hlt ⊢
    refine h.landing ?_ hlt
    cases ℓ <;> first | rfl | exact absurd ha (by decide) | exact absurd rfl h2
  · intro hs
    cases ℓ <;> first | exact absurd rfl h1 | cases hs
  · intro hs
    cases ℓ <;> first | cases hs
    have hk : nextRound r k .spinLast = k := by cases r <;> rfl
    rw [hk]
    exact hlast rfl
  · intro hs
    cases ℓ <;> first | exact absurd rfl h3 | cases hs

/-- The second half of the condition failed, and the loop starts over. -/
theorem RecvInv.again (h : RecvInv env maxMsgSize r .spinFirst k buf landed flights) :
    RecvInv env maxMsgSize r .spinLast k buf landed flights := by
  have hw : waits r .spinLast = waits r .spinFirst := by cases r <;> rfl
  refine ⟨hw ▸ h.le, fun _ ↦ hw ▸ h.landing rfl, fun hs ↦ ?_, fun hs ↦ ?_, fun hs ↦ ?_, h.tags,
    h.beyond⟩ <;> cases hs

/-- **Leaving the spin loop**: the whole message is there. -/
theorem RecvInv.next_spinFirst (h : RecvInv env maxMsgSize r .spinFirst k buf landed flights)
    (hk : k < env.sizes.length) (h0 : (buf 0).val = r.peer.value) :
    RecvInv env maxMsgSize r .checkBuffer k buf landed flights := by
  have hw : k + waits r .spinFirst = k := by cases r <;> rfl
  have hw' : k + waits r .checkBuffer = k + 1 := by cases r <;> rfl
  have hlanding := h.landing rfl
  rw [hw] at hlanding
  obtain ⟨hlanded, -, hall⟩ := (hlanding hk).of_seen h0 (h.last rfl)
  refine ⟨by omega, fun ha ↦ ?_, fun hs ↦ ?_, fun hs ↦ ?_, fun _ ↦ ⟨hlanded, hall⟩, h.tags,
    h.beyond⟩
  · cases ha
  · cases hs
  · cases hs

/-- A byte the rank writes itself is not one of the peer's. -/
theorem tags_update {i k : ℕ} (h : ∀ i < maxMsgSize, ∀ j,
    buf i = { val := r.peer.value, round := some j } → j < landed + flights.length) (i' : ℕ)
    (hi' : i' < maxMsgSize) (j : ℕ)
    (hj : Function.update buf i { val := r.value, round := some k } i'
      = { val := r.peer.value, round := some j }) : j < landed + flights.length := by
  by_cases hi : i' = i
  · subst hi
    rw [Function.update_self] at hj
    exact absurd (Cell.mk.inj hj).1 (value_ne r)
  · rw [Function.update_of_ne hi] at hj
    exact h i' hi' j hj

theorem RecvInv.next_resetFirst (hsz : Sizes env maxMsgSize)
    (h : RecvInv env maxMsgSize r .resetFirst k buf landed flights) (hk : k < env.sizes.length) :
    RecvInv env maxMsgSize r .resetLast k
      (Function.update buf 0 { val := r.value, round := some k }) landed flights := by
  have hw : waits r .resetLast = waits r .resetFirst := by cases r <;> rfl
  refine ⟨hw ▸ h.le, ?_, ?_, ?_, ?_, tags_update h.tags, ?_⟩
  · intro ha
    cases ha
  · intro _
    rw [Function.update_self]
    exact value_ne r
  · intro hs
    cases hs
  · intro hs
    cases hs
  · intro hr i hi hbeyond
    subst hr
    have hle : k + 1 ≤ landed := h.le
    have hpos : 1 ≤ env.size 0 := hsz.pos 0 (by omega)
    have hsize := hbeyond 0 (by omega)
    rw [Function.update_of_ne (by omega)]
    exact h.beyond rfl i hi hbeyond

theorem RecvInv.next_resetLast (hsz : Sizes env maxMsgSize)
    (h : RecvInv env maxMsgSize r .resetLast k buf landed []) (hk : k < env.sizes.length)
    (hq : landed = k + waits r .resetLast) :
    RecvInv env maxMsgSize r .writeBuffer k
      (Function.update buf (env.size k - 1) { val := r.value, round := some k }) landed [] := by
  have hw : waits r .writeBuffer = waits r .resetLast := by cases r <;> rfl
  have hpos := hsz.pos k hk
  have hfirst : (Function.update buf (env.size k - 1) { val := r.value, round := some k } 0).val
      ≠ r.peer.value := by
    by_cases hi : 0 = env.size k - 1
    · rw [← hi, Function.update_self]
      exact value_ne r
    · rw [Function.update_of_ne hi]
      exact h.first rfl
  refine ⟨hw ▸ h.le, ?_, ?_, ?_, ?_, tags_update h.tags, ?_⟩
  · intro _ hlt
    rw [hw, ← hq] at hlt ⊢
    refine .waiting hfirst ?_
    by_cases hi : env.size landed - 1 = env.size k - 1
    · rw [hi, Function.update_self]
      exact value_ne r
    · -- the size has grown, so this is rank 1, and the byte is beyond all it has received
      rw [Function.update_of_ne hi]
      have hlanded : landed = k + 1 := by
        have hle : landed ≤ k + 1 := by cases r <;> simp only [hq, waits] <;> omega
        have hne : landed ≠ k := fun he ↦ hi (by rw [he])
        have hge := h.le
        omega
      have hr : r = .r1 := by
        cases r with
        | r0 => rw [hlanded] at hq; simp [waits] at hq
        | r1 => rfl
      have hgrow := hsz.mono k landed (by omega) hlt
      have hposw := hsz.pos landed hlt
      have hlew := hsz.le landed hlt
      have hzero := h.beyond hr (env.size landed - 1) (by omega) fun j hj ↦ by
        have hjk : j ≤ k := by simpa [hlanded, Nat.lt_succ_iff] using hj
        have hsize := hsz.mono j k hjk hk
        omega
      rw [hzero]
      exact (value_ne_zero r.peer).symm
  · intro hs
    cases hs
  · intro hs
    cases hs
  · intro hs
    cases hs
  · intro hr i hi hbeyond
    subst hr
    have hle : k + 1 ≤ landed := h.le
    have hsize := hbeyond k (Nat.lt_of_lt_of_le hle (Nat.le_add_right _ _))
    rw [Function.update_of_ne (by omega)]
    exact h.beyond rfl i hi hbeyond

/-- The peer's next write goes on its way. -/
theorem RecvInv.launch (h : RecvInv env maxMsgSize r ℓ k buf landed []) (ha : quiet ℓ = false)
    (hw : landed = k + waits r ℓ) (hlt : landed < env.sizes.length) {f : Flight}
    (hf : f.landed = 0) : RecvInv env maxMsgSize r ℓ k buf landed [f] := by
  have harmed : armed ℓ = true := by cases ℓ <;> first | rfl | cases ha
  have hlanding := h.landing harmed (hw ▸ hlt)
  refine ⟨h.le, ?_, h.first, h.last, h.full, ?_, ?_⟩
  · intro _ _
    rw [← hw] at hlanding ⊢
    cases hlanding with
    | waiting h0 hlast =>
      refine .landing ?_ ?_
      · rcases f.order.index_last (n := env.size landed) with he | he <;> rw [he]
        · exact hlast
        · exact h0
      · intro m hm
        rw [hf] at hm
        exact absurd hm (Nat.not_lt_zero _)
  · intro i hi j hj
    exact Nat.lt_of_lt_of_le (h.tags i hi j hj) (Nat.le_succ _)
  · intro hr i hi hb
    exact h.beyond hr i hi fun j hj ↦ hb j (Nat.lt_of_lt_of_le hj (Nat.le_succ _))

/-- A byte of the peer's write lands. -/
theorem RecvInv.land {f : Flight} (h : RecvInv env maxMsgSize r ℓ k buf landed [f])
    (ha : quiet ℓ = false) (hw : landed = k + waits r ℓ) (hlt : landed < env.sizes.length)
    (hnum : f.num = landed) (hlanded : f.landed < env.size landed) :
    let buf' := Function.update buf (f.order.index (env.size landed) f.landed)
      { val := r.peer.value, round := some f.num }
    (f.landed + 1 < env.size landed →
      RecvInv env maxMsgSize r ℓ k buf' landed [{ f with landed := f.landed + 1 }]) ∧
    (¬ f.landed + 1 < env.size landed → RecvInv env maxMsgSize r ℓ k buf' (landed + 1) []) := by
  intro buf'
  have hnew : buf' (f.order.index (env.size landed) f.landed)
      = { val := r.peer.value, round := some landed } := by
    simp only [buf', Function.update_self, hnum]
  have hold {i : ℕ} (hi : i ≠ f.order.index (env.size landed) f.landed) : buf' i = buf i :=
    Function.update_of_ne hi ..
  have harmed : armed ℓ = true := by cases ℓ <;> first | rfl | cases ha
  have hlanding := h.landing harmed (hw ▸ hlt)
  rw [← hw] at hlanding
  cases hlanding with
  | landing hne hall =>
  -- the bytes that have landed by now
  have hall' (m : ℕ) (hm : m < f.landed + 1) : buf' (f.order.index (env.size landed) m)
      = { val := r.peer.value, round := some landed } := by
    by_cases he : m = f.landed
    · rw [he, hnew]
    · rw [hold fun hi ↦ he (f.order.index_inj (by omega) hlanded hi)]
      exact hall m (by omega)
  have hfirst (hs : ℓ = .resetLast) : (buf' 0).val ≠ r.peer.value := by rw [hs] at ha; cases ha
  have hlast (hs : ℓ = .spinFirst) : (buf' (env.size k - 1)).val = r.peer.value := by
    by_cases hi : env.size k - 1 = f.order.index (env.size landed) f.landed
    · rw [hi, hnew]
    · rw [hold hi]
      exact h.last hs
  have htags (i : ℕ) (hmax : i < maxMsgSize) (j : ℕ)
      (hj : buf' i = { val := r.peer.value, round := some j }) : j < landed + 1 := by
    by_cases hi : i = f.order.index (env.size landed) f.landed
    · rw [hi, hnew] at hj
      have hround : landed = j := Option.some.inj (Cell.mk.inj hj).2
      omega
    · rw [hold hi] at hj
      exact h.tags i hmax j hj
  have hbeyond (hr : r = .r1) (i : ℕ) (hi : i < maxMsgSize)
      (hb : ∀ j < landed + 1, env.size j ≤ i) : (buf' i).val = 0 := by
    have hsize := hb landed (by omega)
    have hindex := f.order.index_lt hlanded
    rw [hold (by omega)]
    exact h.beyond hr i hi hb
  constructor
  · intro hmore
    refine ⟨h.le, ?_, hfirst, hlast, ?_, htags, hbeyond⟩
    · intro _ _
      rw [← hw]
      refine .landing ?_ hall'
      rw [hold fun hi ↦ ?_]
      · exact hne
      · have := f.order.index_inj (by omega) hlanded hi
        omega
    · intro hs
      rw [hs] at ha
      cases ha
  · intro hdone
    refine ⟨Nat.le_succ_of_le h.le, ?_, hfirst, hlast, ?_, htags, hbeyond⟩
    · intro _ _
      rw [← hw]
      refine .delivered fun i hi ↦ ?_
      obtain ⟨m, hm, rfl⟩ := f.order.exists_index hi
      exact hall' m (by omega)
    · intro hs
      rw [hs] at ha
      cases ha

end

/-! ## What a rank has posted, step by step -/

section

variable {r : Rank} {ℓ : Stmt} {n : Node} {st : State}

theorem advance_iter (h : NodeInv env maxMsgSize r ℓ n) (st : State) :
    (advance r n st).iter = nextRound r n.iter ℓ :=
  (next_stmt h.stmt).2

/-- The node after a statement. -/
theorem NodeInv.next (h : NodeInv env maxMsgSize r ℓ n) (hiter : n.iter < env.sizes.length)
    (hused : st.host.nic.sqUsed = if ℓ = .postWrite then 1 else 0)
    (hsq : st.host.nic.sq.length = n.st.host.nic.sq.length + if ℓ = .postWrite then 1 else 0)
    (hreq : ∀ w ∈ st.host.nic.sq, Request env r n.iter st.host.mem w)
    (hunacked : ∀ a ∈ st.host.nic.unacked, a.wr.opcode = .rdmaWrite ∧ a.data = none)
    (hcq : ∀ c ∈ st.host.nic.sendCq.entries, sendOk .rdmaWrite c = true)
    (hbuf : ∀ i < maxMsgSize, (st.host.mem.buf .sendBuf i).val = r.value) :
    NodeInv env maxMsgSize r (succ ℓ) (advance r n st) := by
  obtain ⟨hstmt, -⟩ := next_stmt (k := n.iter) h.stmt
  have hit := advance_iter h st
  refine ⟨hstmt, ?_, ?_, ?_, ?_, ?_, h.flights, hunacked, hcq, hbuf⟩
  · rw [hit, nextRound]
    split <;> omega
  · intro he
    have hne : (Script.next (lambda r) n.iter n.pc).1 ≠ n.iter := by
      have heq : (Script.next (lambda r) n.iter n.pc).1 = env.sizes.length := he
      omega
    show (Script.next (lambda r) n.iter n.pc).2 = 0
    rw [Script.next] at hne ⊢
    split <;> simp_all
  · rw [hit, posts_succ, h.posted]
    simp only [advance, hsq]
    omega
  · simp only [advance, hused]
    cases ℓ <;> rfl
  · intro w hw
    have hpost : ℓ = .postWrite := by
      by_contra hne
      rw [if_neg hne, Nic.sqUsed] at hused
      have hpos := List.length_pos_of_mem hw
      simp only [advance] at hpos
      omega
    have hround : nextRound r n.iter ℓ = n.iter := by rw [hpost]; cases r <;> rfl
    rw [hit, hround]
    exact hreq w hw

variable (st) in
/-- A statement that neither posts nor polls. -/
theorem NodeInv.next_of_nic (h : NodeInv env maxMsgSize r ℓ n) (hiter : n.iter < env.sizes.length)
    (hpost : ℓ ≠ .postWrite) (hpoll : ℓ ≠ .pollSent) (hnic : st.host.nic = n.st.host.nic)
    (hbuf : ∀ i < maxMsgSize, (st.host.mem.buf .sendBuf i).val = r.value) :
    NodeInv env maxMsgSize r (succ ℓ) (advance r n st) := by
  have hused := h.used
  rw [if_neg hpoll, Nic.sqUsed] at hused
  refine h.next hiter ?_ ?_ ?_ ?_ ?_ hbuf
  · rw [hnic, h.used, if_neg hpoll, if_neg hpost]
  · rw [hnic, if_neg hpost]
    rfl
  · intro w hw
    rw [hnic] at hw
    have := List.length_pos_of_mem hw
    omega
  · rw [hnic]
    exact h.unacked
  · rw [hnic]
    exact h.sendCq

/-- What a rank has posted depends on its queues and on its send buffer. -/
theorem NodeInv.congr {n' : Node} (h : NodeInv env maxMsgSize r ℓ n) (hiter : n'.iter = n.iter)
    (hpc : n'.pc = n.pc) (hflights : n'.flights = n.flights) (hlanded : n'.landed = n.landed)
    (hnic : n'.st.host.nic = n.st.host.nic)
    (hbuf : n'.st.host.mem.buf .sendBuf = n.st.host.mem.buf .sendBuf) :
    NodeInv env maxMsgSize r ℓ n' := by
  refine ⟨hpc ▸ h.stmt, hiter ▸ h.iter_le, hiter ▸ hpc ▸ h.pc_eq, ?_, hnic ▸ h.used, ?_,
    ?_, hnic ▸ h.unacked, hnic ▸ h.sendCq, hbuf ▸ h.sendBuf⟩
  · rw [hiter, hlanded, hflights, hnic]
    exact h.posted
  · intro w hw
    rw [hnic] at hw
    obtain ⟨h1, h2, h3, h4, h5, h6⟩ := h.sq w hw
    refine ⟨h1, h2, h3, h4, h5, ?_⟩
    have hpayload : w.payload n'.st.host.mem = w.payload n.st.host.mem := by
      simp only [SendWr.payload, h5, Mem.dmaRead, Mem.bytes, hbuf]
    rw [hpayload, hiter]
    exact h6
  · rw [hflights, hlanded]
    exact h.flights

/-- `write_buffer` writes to the send buffer what is there already. -/
theorem writeBuffer_safe (h : NodeInv env maxMsgSize r .writeBuffer n)
    (hiter : n.iter < env.sizes.length) :
    Safe (exec env r n.iter (env.size n.iter) .writeBuffer n.st) fun st ↦
      NodeInv env maxMsgSize r .postWrite (advance r n st) ∧
        st.host.mem.buf .recvBuf = n.st.host.mem.buf .recvBuf := by
  rw [exec, RankState.writeSendBuf]
  split
  · refine safe_ok.mpr ⟨h.next_of_nic _ hiter (by decide) (by decide) rfl fun i hi ↦ ?_, rfl⟩
    simp only [RankState.setMem, Mem.setBuf_buf, if_true, writeBuffer]
    split
    · rfl
    · exact h.sendBuf i hi
  · exact safe_ok.mpr ⟨h.next_of_nic _ hiter (by decide) (by decide) rfl h.sendBuf, rfl⟩

/-- `postWrite` accepts the request. -/
theorem postWrite_safe (h : NodeInv env maxMsgSize r .postWrite n) (hsz : Sizes env maxMsgSize)
    (hiter : n.iter < env.sizes.length) :
    Safe (exec env r n.iter (env.size n.iter) .postWrite n.st) fun st ↦
      NodeInv env maxMsgSize r .pollSent (advance r n st) ∧
        st.host.mem.buf .recvBuf = n.st.host.mem.buf .recvBuf := by
  have hused : n.st.host.nic.sqUsed = 0 := h.used
  have hroom : n.st.host.nic.sqUsed < (env.device r).config.maxSendNum := env.room hused
  simp only [exec]
  rw [postWrite_eq r.peer_ne hroom]
  simp only [ok_bind, beq_self_eq_true, mlogAssert_true]
  refine safe_ok.mpr ⟨?_, rfl⟩
  have hzero := hused
  rw [Nic.sqUsed] at hzero
  refine h.next hiter ?_ ?_ ?_ h.unacked h.sendCq h.sendBuf
  · simp only [Nic.sqUsed, List.length_append, List.length_singleton, if_true]
    omega
  · simp
  · intro w hw
    have hnil : n.st.host.nic.sq = [] := List.eq_nil_of_length_eq_zero (by omega)
    rw [hnil] at hw
    obtain rfl := List.mem_singleton.mp hw
    refine ⟨rfl, rfl, rfl, rfl, rfl, n.st.host.mem.bytes .sendBuf (env.size n.iter),
      inlineData_getD .., by simp [Mem.bytes], fun c hc ↦ ?_⟩
    obtain ⟨i, hi, rfl⟩ := List.mem_map.mp hc
    exact h.sendBuf i (Nat.lt_of_lt_of_le (List.mem_range.mp hi) (hsz.le _ hiter))

/-- The completion that is polled is the one of the write. -/
theorem pollSent_safe (h : NodeInv env maxMsgSize r .pollSent n)
    (hiter : n.iter < env.sizes.length) :
    Safe (exec env r n.iter (env.size n.iter) .pollSent n.st) fun st ↦
      NodeInv env maxMsgSize r .spinLast (advance r n st) ∧
        st.host.mem.buf .recvBuf = n.st.host.mem.buf .recvBuf := by
  have hused : n.st.host.nic.sqUsed = 1 := h.used
  rw [Nic.sqUsed] at hused
  rcases hq : n.st.host.nic.sendCq.entries with _ | ⟨wc, rest⟩
  · simp [exec, RankState.pollSendStep, pollCQ, hq]
  · have hok := h.sendCq wc (by rw [hq]; exact List.mem_cons_self)
    simp only [exec, RankState.pollSendStep, pollCQ, hq, ok_bind, hok, mlogAssert_true]
    rw [hq, List.length_cons] at hused
    have hsq : n.st.host.nic.sq = [] := List.eq_nil_of_length_eq_zero (by omega)
    refine safe_ok.mpr ⟨h.next hiter ?_ ?_ ?_ h.unacked ?_ h.sendBuf, rfl⟩
    · simp only [Nic.sqUsed, reduceCtorEq, if_false]
      omega
    · rfl
    · intro w hw
      rw [hsq] at hw
      cases hw
    · intro c hc
      exact h.sendCq c (by rw [hq]; exact List.mem_cons_of_mem _ hc)

end

/-! ## Steps -/

/-- What a step of a rank establishes. -/
def Stepped (env : Env Unit 0) (maxMsgSize : ℕ) (r : Rank) (n : Node) (landed : ℕ)
    (flights : List Flight) (n' : Node) : Prop :=
  n'.landed = n.landed ∧ n'.flights = n.flights ∧ ∃ ℓ, NodeInv env maxMsgSize r ℓ n' ∧
    RecvInv env maxMsgSize r ℓ n'.iter (n'.st.host.mem.buf .recvBuf) landed flights

section

variable {r : Rank} {ℓ : Stmt} {n : Node} {landed : ℕ} {flights : List Flight}

theorem stepped_advance {st : State} {buf : ℕ → Cell}
    (h : NodeInv env maxMsgSize r ℓ n) (hn : NodeInv env maxMsgSize r (succ ℓ) (advance r n st))
    (hbuf : st.host.mem.buf .recvBuf = buf)
    (hv : RecvInv env maxMsgSize r (succ ℓ) (nextRound r n.iter ℓ) buf landed flights) :
    Stepped env maxMsgSize r n landed flights (advance r n st) := by
  refine ⟨rfl, rfl, succ ℓ, hn, ?_⟩
  rw [advance_iter h st]
  exact hbuf.symm ▸ hv

/-- Statements other than those of the spin loop. -/
theorem rankStep_eq (h : NodeInv env maxMsgSize r ℓ n) (hiter : n.iter < env.sizes.length)
    (h1 : ℓ ≠ .spinLast) (h2 : ℓ ≠ .spinFirst) :
    rankStep env r n = exec env r n.iter (env.size n.iter) ℓ n.st >>= fun st ↦
      .ok (advance r n st) := by
  rw [rankStep, List.getElem?_eq_getElem hiter, h.stmt, env.size_eq hiter]
  cases ℓ <;> first | rfl | exact absurd rfl h1 | exact absurd rfl h2

theorem spinFirst_back : ∀ r pc (h : pc < (lambda r).length), (lambda r)[pc] = .spinFirst →
    (lambda r)[pc - 1]? = some .spinLast := by
  decide

/-- The loop starts over. -/
theorem NodeInv.again (h : NodeInv env maxMsgSize r .spinFirst n) :
    NodeInv env maxMsgSize r .spinLast { n with pc := n.pc - 1 } := by
  obtain ⟨hpc, hℓ⟩ := List.getElem?_eq_some_iff.mp h.stmt
  have hposts : posts r .spinLast = posts r .spinFirst := by cases r <;> rfl
  refine ⟨spinFirst_back r n.pc hpc hℓ, h.iter_le, fun he ↦ ?_, hposts ▸ h.posted, h.used, h.sq,
    h.flights, h.unacked, h.sendCq, h.sendBuf⟩
  show n.pc - 1 = 0
  rw [h.pc_eq he]

/-- `check_buffer` finds the bytes of the round, and changes nothing. -/
theorem checkBuffer_safe (hv : RecvInv env maxMsgSize r .checkBuffer n.iter
    (n.st.host.mem.buf .recvBuf) landed flights) :
    Safe (exec env r n.iter (env.size n.iter) .checkBuffer n.st) (· = n.st) := by
  have hsafe : Safe (n.st.checkRecvBuf env.touchData r (env.size n.iter)) n.st.SameOwn := by
    refine RankState.checkRecvBuf_safe (k := n.iter) fun _ ↦ ?_
    refine List.eq_replicate_iff.mpr ⟨by simp [Mem.bytes], fun c hc ↦ ?_⟩
    obtain ⟨i, hi, rfl⟩ := List.mem_map.mp hc
    exact (hv.full rfl).2 i (List.mem_range.mp hi)
  exact (hsafe.and fun _ hst ↦ RankState.checkRecvBuf_eq_ok hst).mono fun _ hst ↦ hst.2

/-- **A statement of a rank.** -/
theorem rankStep_safe (hsz : Sizes env maxMsgSize) (h : NodeInv env maxMsgSize r ℓ n)
    (hv : RecvInv env maxMsgSize r ℓ n.iter (n.st.host.mem.buf .recvBuf) landed flights)
    (hq : quiet ℓ = true → landed = n.iter + waits r ℓ ∧ flights = []) :
    Safe (rankStep env r n) (Stepped env maxMsgSize r n landed flights) := by
  by_cases hiter : n.iter < env.sizes.length
  · cases ℓ with
    | resetFirst =>
      rw [rankStep_eq h hiter (by decide) (by decide)]
      have hround : nextRound r n.iter .resetFirst = n.iter := by cases r <;> rfl
      have hn := h.next_of_nic (setByte r n.iter 0 n.st) hiter (by decide) (by decide) rfl
        h.sendBuf
      refine safe_ok.mpr (stepped_advance h hn rfl ?_)
      rw [hround]
      exact hv.next_resetFirst hsz hiter
    | resetLast =>
      rw [rankStep_eq h hiter (by decide) (by decide)]
      have hround : nextRound r n.iter .resetLast = n.iter := by cases r <;> rfl
      have hn := h.next_of_nic (setByte r n.iter (env.size n.iter - 1) n.st) hiter (by decide)
        (by decide) rfl h.sendBuf
      obtain ⟨hlanded, rfl⟩ := hq rfl
      refine safe_ok.mpr (stepped_advance h hn rfl ?_)
      rw [hround]
      exact hv.next_resetLast hsz hiter hlanded
    | writeBuffer =>
      rw [rankStep_eq h hiter (by decide) (by decide)]
      refine (writeBuffer_safe h hiter).bind fun st hst ↦ safe_ok.mpr ?_
      exact stepped_advance h hst.1 hst.2
        (hv.next_same (by decide) (by decide) (by decide) fun hs ↦ by cases hs)
    | postWrite =>
      rw [rankStep_eq h hiter (by decide) (by decide)]
      refine (postWrite_safe h hsz hiter).bind fun st hst ↦ safe_ok.mpr ?_
      exact stepped_advance h hst.1 hst.2
        (hv.next_same (by decide) (by decide) (by decide) fun hs ↦ by cases hs)
    | pollSent =>
      rw [rankStep_eq h hiter (by decide) (by decide)]
      refine (pollSent_safe h hiter).bind fun st hst ↦ safe_ok.mpr ?_
      exact stepped_advance h hst.1 hst.2
        (hv.next_same (by decide) (by decide) (by decide) fun hs ↦ by cases hs)
    | spinLast =>
      rw [rankStep, List.getElem?_eq_getElem hiter, h.stmt, ← env.size_eq hiter]
      simp only
      split
      · rename_i hseen
        have hn := h.next_of_nic n.st hiter (by decide) (by decide) rfl h.sendBuf
        exact safe_ok.mpr (stepped_advance h hn rfl
          (hv.next_same (by decide) (by decide) (by decide) fun _ ↦ beq_iff_eq.mp hseen))
      · exact safe_blocked
    | spinFirst =>
      rw [rankStep, List.getElem?_eq_getElem hiter, h.stmt]
      simp only
      split
      · rename_i hseen
        have hround : nextRound r n.iter .spinFirst = n.iter := by cases r <;> rfl
        have hn := h.next_of_nic n.st hiter (by decide) (by decide) rfl h.sendBuf
        refine safe_ok.mpr (stepped_advance h hn rfl ?_)
        rw [hround]
        exact hv.next_spinFirst hiter (beq_iff_eq.mp hseen)
      · exact safe_ok.mpr ⟨rfl, rfl, .spinLast, h.again, hv.again⟩
    | checkBuffer =>
      rw [rankStep_eq h hiter (by decide) (by decide)]
      refine (checkBuffer_safe hv).bind fun st hst ↦ safe_ok.mpr ?_
      have hn := h.next_of_nic st hiter (by decide) (by decide) (by rw [hst])
        (by rw [hst]; exact h.sendBuf)
      exact stepped_advance h hn (by rw [hst])
        (hv.next_same (by decide) (by decide) (by decide) fun hs ↦ by cases hs)
  · rw [rankStep, List.getElem?_eq_none (Nat.le_of_not_lt hiter)]
    exact safe_blocked

end

/-- To know the invariant it is enough to know it at a rank and at its peer. -/
theorem Inv.of_peer {s : Sys} (r : Rank) (ℓ ℓ' : Stmt)
    (h1 : NodeInv env maxMsgSize r ℓ (s r))
    (h2 : RecvInv env maxMsgSize r ℓ (s r).iter ((s r).st.host.mem.buf .recvBuf)
      (s r.peer).landed (s r.peer).flights)
    (h3 : NodeInv env maxMsgSize r.peer ℓ' (s r.peer))
    (h4 : RecvInv env maxMsgSize r.peer ℓ' (s r.peer).iter ((s r.peer).st.host.mem.buf .recvBuf)
      (s r).landed (s r).flights) : Inv env maxMsgSize s := by
  intro x
  rcases r.eq_or_eq_peer x with rfl | rfl
  · exact ⟨ℓ, h1, h2⟩
  · refine ⟨ℓ', h3, ?_⟩
    rw [Rank.peer_peer]
    exact h4

theorem Inv.peer {s : Sys} (h : Inv env maxMsgSize s) (r : Rank) : ∃ ℓ,
    NodeInv env maxMsgSize r.peer ℓ (s r.peer) ∧
      RecvInv env maxMsgSize r.peer ℓ (s r.peer).iter ((s r.peer).st.host.mem.buf .recvBuf)
        (s r).landed (s r).flights := by
  have := h r.peer
  rwa [Rank.peer_peer] at this

/-- While the rank is not between posting its write and leaving the spin loop, no write is on its way
to it. -/
theorem Inv.quiet {s : Sys} (h : Inv env maxMsgSize s) {r : Rank} {ℓ : Stmt}
    (hn : NodeInv env maxMsgSize r ℓ (s r))
    (hv : RecvInv env maxMsgSize r ℓ (s r).iter ((s r).st.host.mem.buf .recvBuf)
      (s r.peer).landed (s r.peer).flights) (hq : PingpongWrite.quiet ℓ = true) :
    (s r.peer).landed = (s r).iter + waits r ℓ ∧ (s r.peer).flights = [] ∧
      (s r.peer).st.host.nic.sq = [] := by
  obtain ⟨ℓ', hn', hv'⟩ := h.peer r
  have hle := (posted_le hn hv hn' hv').2 hq
  have hge := hv.le
  exact ⟨by omega, List.eq_nil_of_length_eq_zero (by omega),
    List.eq_nil_of_length_eq_zero (by omega)⟩

theorem inv_rank (hsz : Sizes env maxMsgSize) {s : Sys} (h : Inv env maxMsgSize s) (r : Rank) :
    Safe (step env s (.rank r)) (Inv env maxMsgSize) := by
  obtain ⟨ℓ, hn, hv⟩ := h r
  obtain ⟨ℓ', hn', hv'⟩ := h.peer r
  refine (rankStep_safe hsz hn hv ?_).bind fun n hstepped ↦ safe_ok.mpr ?_
  · intro hq
    obtain ⟨h1, h2, -⟩ := h.quiet hn hv hq
    exact ⟨h1, h2⟩
  · obtain ⟨hlanded, hflights, ℓ'', h1, h2⟩ := hstepped
    refine Inv.of_peer r ℓ'' ℓ' ?_ ?_ ?_ ?_
    · rwa [Function.update_self]
    · rwa [Function.update_self, Function.update_of_ne r.peer_ne]
    · rwa [Function.update_of_ne r.peer_ne]
    · rwa [Function.update_self, Function.update_of_ne r.peer_ne, hlanded, hflights]

/-- A rank with a request in its queue waits for it, in a round. -/
theorem NodeInv.of_sq {r : Rank} {ℓ : Stmt} {n : Node} {w : SendWr Unit} {sq : List (SendWr Unit)}
    (h : NodeInv env maxMsgSize r ℓ n) (hsq : n.st.host.nic.sq = w :: sq) :
    sq = [] ∧ n.landed + n.flights.length = n.iter ∧ n.iter < env.sizes.length := by
  have hused := h.used
  rw [Nic.sqUsed, hsq, List.length_cons] at hused
  have hℓ : ℓ = .pollSent := by
    by_contra hne
    rw [if_neg hne] at hused
    omega
  subst hℓ
  have hnil : sq = [] := List.eq_nil_of_length_eq_zero (by simp at hused; omega)
  have hposts : posts r .pollSent = 1 := by cases r <;> rfl
  have hposted := h.posted
  rw [hposts, hsq, hnil, List.length_singleton] at hposted
  refine ⟨hnil, by omega, ?_⟩
  by_contra hlen
  have hstmt := h.stmt
  rw [h.pc_eq (Nat.le_antisymm h.iter_le (Nat.le_of_not_lt hlen))] at hstmt
  cases r <;> cases hstmt

theorem inv_launch (hsz : Sizes env maxMsgSize) {s : Sys} (h : Inv env maxMsgSize s) (r : Rank)
    (order : Order) : Safe (step env s (.launch r order)) (Inv env maxMsgSize) := by
  obtain ⟨ℓ, hn, hv⟩ := h r
  obtain ⟨ℓ', hn', hv'⟩ := h.peer r
  simp only [step, launch]
  rcases hsq : (s r).st.host.nic.sq with _ | ⟨w, sq⟩
  · exact safe_blocked
  · obtain ⟨rfl, hnum, hiter⟩ := hn.of_sq hsq
    obtain ⟨hop, hlkey, hrkey, hremote, -, cells, hpayload, hlen, hvals⟩ :=
      hn.sq w (by rw [hsq]; exact List.mem_cons_self)
    have hok : accessOk (env.device r) (env.device r.peer) w = true := by
      simp [accessOk, hlkey, hrkey, Env.device]
    have hle := (posted_le hn' hv' (by rw [Rank.peer_peer]; exact hn)
      (by rw [Rank.peer_peer]; exact hv)).1
    rw [hsq, List.length_singleton] at hle
    have hge := hv'.le
    have hflights : (s r).flights = [] := List.eq_nil_of_length_eq_zero (by omega)
    rw [hflights, List.length_nil] at hnum hle
    -- the peer has posted its own last write
    have hquiet : quiet ℓ' = false := by
      by_contra hq
      have hq' : quiet ℓ' = true := by simpa using hq
      have hnone := (h.quiet hn' (by rw [Rank.peer_peer]; exact hv') hq').2.2
      rw [Rank.peer_peer, hsq] at hnone
      cases hnone
    simp only [hok, if_true, hop, hremote, hpayload, hflights, List.nil_append, List.length_nil,
      ok_bind]
    refine safe_ok.mpr (Inv.of_peer r ℓ ℓ' ?_ ?_ ?_ ?_)
    · rw [Function.update_self]
      refine ⟨hn.stmt, hn.iter_le, hn.pc_eq, ?_, ?_, fun x hx ↦ (by cases hx), fun f hf ↦ ?_,
        fun a ha ↦ ?_, hn.sendCq, hn.sendBuf⟩
      · have hposted := hn.posted
        rw [hflights, hsq] at hposted
        exact hposted
      · rw [← hn.used]
        simp only [Nic.sqUsed, hsq, List.length_append, List.length_singleton, List.length_nil]
        omega
      · obtain rfl := List.mem_singleton.mp hf
        have hsize : cells.length = env.size (s r).landed := by rw [hlen, ← hnum]; rfl
        have hpos := hsz.pos _ hiter
        exact ⟨rfl, hsize, by show 0 < cells.length; omega, hvals⟩
      · rcases List.mem_append.mp ha with ha | ha
        · exact hn.unacked a ha
        · obtain rfl := List.mem_singleton.mp ha
          exact ⟨hop, rfl⟩
    · rwa [Function.update_self, Function.update_of_ne r.peer_ne]
    · rwa [Function.update_of_ne r.peer_ne]
    · rw [Function.update_self, Function.update_of_ne r.peer_ne]
      rw [hflights] at hv'
      exact hv'.launch hquiet (by omega) (by omega) rfl

theorem inv_land (hsz : Sizes env maxMsgSize) {s : Sys} (h : Inv env maxMsgSize s) (r : Rank) :
    Safe (step env s (.land r)) (Inv env maxMsgSize) := by
  obtain ⟨ℓ, hn, hv⟩ := h r
  obtain ⟨ℓ', hn', hv'⟩ := h.peer r
  simp only [step, land]
  rcases hf : (s r).flights with _ | ⟨f, rest⟩
  · exact safe_blocked
  · obtain ⟨hnum, hlen, hlt, hvals⟩ := hn.flights f (by rw [hf]; exact List.mem_cons_self)
    have hle := (posted_le hn' hv' (by rw [Rank.peer_peer]; exact hn)
      (by rw [Rank.peer_peer]; exact hv)).1
    rw [hf, List.length_cons] at hle
    have hge := hv'.le
    obtain rfl : rest = [] := List.eq_nil_of_length_eq_zero (by omega)
    have hsq : (s r).st.host.nic.sq = [] := List.eq_nil_of_length_eq_zero (by omega)
    have hquiet : quiet ℓ' = false := by
      by_contra hq
      have hq' : quiet ℓ' = true := by simpa using hq
      have hnone := (h.quiet hn' (by rw [Rank.peer_peer]; exact hv') hq').2.1
      rw [Rank.peer_peer, hf] at hnone
      cases hnone
    rw [hnum] at hlen
    have hindex := f.order.index_lt hlt
    have hround : (s r).landed < env.sizes.length := (size_pos_iff hsz).mp (by omega)
    simp only [List.getElem?_eq_getElem hindex, hvals _ (List.getElem_mem hindex)]
    simp only [hlen]
    rw [hf] at hv'
    obtain ⟨hmore, hdone⟩ := hv'.land hquiet (by omega) hround hnum (by omega)
    rw [Rank.peer_peer] at hmore hdone
    have hnode' {n : Node} (he : n = s r.peer) {buf : ℕ → Cell} :
        NodeInv env maxMsgSize r.peer ℓ' { n with
          st := n.st.setMem (n.st.host.mem.setBuf .recvBuf buf) } := by
      subst he
      exact hn'.congr rfl rfl rfl rfl rfl rfl
    have hposted := hn.posted
    rw [hf, hsq] at hposted
    split
    · rename_i hlast
      simp only [ok_bind]
      refine safe_ok.mpr (Inv.of_peer r ℓ ℓ' ?_ ?_ ?_ ?_)
      · rw [Function.update_of_ne r.ne_peer, Function.update_self]
        refine ⟨hn.stmt, hn.iter_le, hn.pc_eq, ?_, hn.used, hn.sq, ?_, hn.unacked,
          hn.sendCq, hn.sendBuf⟩
        · rw [hsq]
          exact hposted
        · intro g hg
          obtain rfl := List.mem_singleton.mp hg
          exact ⟨hnum, by rw [hnum]; exact hlen, by rw [hlen]; exact hlast, hvals⟩
      · rwa [Function.update_of_ne r.ne_peer, Function.update_self, Function.update_self]
      · rw [Function.update_self]
        exact hnode' rfl
      · rw [Function.update_self, Function.update_of_ne r.ne_peer, Function.update_self]
        exact hmore hlast
    · rename_i hlast
      simp only [ok_bind]
      refine safe_ok.mpr (Inv.of_peer r ℓ ℓ' ?_ ?_ ?_ ?_)
      · rw [Function.update_of_ne r.ne_peer, Function.update_self]
        refine ⟨hn.stmt, hn.iter_le, hn.pc_eq, ?_, hn.used, hn.sq, fun g hg ↦ (by cases hg),
          hn.unacked, hn.sendCq, hn.sendBuf⟩
        rw [hsq]
        exact hposted
      · rwa [Function.update_of_ne r.ne_peer, Function.update_self, Function.update_self]
      · rw [Function.update_self]
        exact hnode' rfl
      · rw [Function.update_self, Function.update_of_ne r.ne_peer, Function.update_self]
        exact hdone hlast

theorem inv_complete {s : Sys} (h : Inv env maxMsgSize s) (r : Rank) :
    Safe (step env s (.complete r)) (Inv env maxMsgSize) := by
  obtain ⟨ℓ, hn, hv⟩ := h r
  obtain ⟨ℓ', hn', hv'⟩ := h.peer r
  simp only [step, complete]
  rcases hu : (s r).st.host.nic.unacked with _ | ⟨a, unacked⟩
  · exact safe_blocked
  · obtain ⟨hop, hdata⟩ := hn.unacked a (by rw [hu]; exact List.mem_cons_self)
    have hused := hn.used
    rw [Nic.sqUsed, hu, List.length_cons] at hused
    have hroom : (s r).st.host.nic.sendCq.entries.length < (env.device r).config.maxCqeNum := by
      have hle : (if ℓ = .pollSent then 1 else 0) ≤ 1 := by split <;> omega
      simp only [Env.device]
      omega
    simp only [placeFetched, hdata, ok_bind, Cq.push_eq hroom]
    refine safe_ok.mpr (Inv.of_peer r ℓ ℓ' ?_ ?_ ?_ ?_)
    · rw [Function.update_self]
      refine ⟨hn.stmt, hn.iter_le, hn.pc_eq, hn.posted, ?_, hn.sq, hn.flights, ?_, ?_, hn.sendBuf⟩
      · rw [← hused]
        simp only [Nic.sqUsed, Cq.pushed, List.length_append, List.length_singleton]
        omega
      · intro x hx
        exact hn.unacked x (by rw [hu]; exact List.mem_cons_of_mem _ hx)
      · intro c hc
        rcases List.mem_append.mp hc with hc | hc
        · exact hn.sendCq c hc
        · obtain rfl := List.mem_singleton.mp hc
          simp [sendOk, hop, WrOpcode.wcOpcode]
    · rwa [Function.update_self, Function.update_of_ne r.peer_ne]
    · rwa [Function.update_of_ne r.peer_ne]
    · rwa [Function.update_self, Function.update_of_ne r.peer_ne]

/-! ## Runs -/

theorem memset_buf {r : Rank} {mem : Mem Unit} {b : BufSlot} {i : ℕ} (hi : i < maxMsgSize) :
    (memset maxMsgSize r mem).buf b i
      = { val := if b = .sendBuf then r.value else 0, round := none } := by
  simp only [memset, if_pos hi]

/-- The statement that the lambda of each rank begins with. -/
def first : Rank → Stmt
  | .r0 => .resetFirst
  | .r1 => .spinLast

theorem inv_start (hsz : Sizes env maxMsgSize) : Inv env maxMsgSize (start env maxMsgSize) := by
  intro r
  have hposts : posts r (first r) = 0 := by cases r <;> rfl
  have hwaits : waits r (first r) = 0 := by cases r <;> rfl
  have hzero {i : ℕ} (hi : i < maxMsgSize) :
      ((start env maxMsgSize r).st.host.mem.buf .recvBuf i) = { val := 0, round := none } :=
    memset_buf hi
  refine ⟨first r, ⟨by cases r <;> rfl, Nat.zero_le _, fun _ ↦ rfl,
    (Nat.zero_add _).trans hposts, by cases r <;> rfl,
    fun w hw ↦ (by cases hw), fun f hf ↦ (by cases hf), fun a ha ↦ (by cases ha),
    fun c hc ↦ (by cases hc), fun i hi ↦ ?_⟩, ⟨?_, fun _ hlt ↦ ?_, fun hs ↦ ?_, fun hs ↦ ?_,
    fun hs ↦ ?_, fun i hi j hj ↦ ?_, fun _ i hi _ ↦ ?_⟩⟩
  · show ((memset maxMsgSize r (env.mem0 r)).buf .sendBuf i).val = r.value
    rw [memset_buf hi]
    rfl
  · exact Nat.le_of_eq (by rw [hwaits]; rfl)
  · -- nothing has been sent yet, and both bytes are zero
    rw [hwaits] at hlt ⊢
    have hpos := hsz.pos _ hlt
    have hle := hsz.le _ hlt
    have hne := (value_ne_zero r.peer).symm
    refine .waiting ?_ ?_
    · rw [hzero (by omega)]
      exact hne
    · rw [hzero (by omega)]
      exact hne
  · cases r <;> cases hs
  · cases r <;> cases hs
  · cases r <;> cases hs
  · rw [hzero hi] at hj
    cases (Cell.mk.inj hj).2
  · rw [hzero hi]

theorem reachable_inv (hsz : Sizes env maxMsgSize) {s : Sys}
    (hs : (machine env maxMsgSize).Reachable s) :
    Inv env maxMsgSize s ∧ ∀ a f, step env s a ≠ .error (.fault f) := by
  refine Machine.reachable_safe ?_ ?_ hs
  · intro s h
    rw [h]
    exact inv_start hsz
  · intro s a h
    cases a with
    | rank r => exact inv_rank hsz h r
    | launch r order => exact inv_launch hsz h r order
    | land r => exact inv_land hsz h r
    | complete r => exact inv_complete h r

/-- The sizes of `RUN_VARY_MSG`. -/
theorem sizes_runVaryMsg {minMsgSize : ℕ} (hmin : 1 ≤ minMsgSize)
    (hsizes : env.sizes = runVaryMsg (minMsgSize, maxMsgSize)) : Sizes env maxMsgSize := by
  have hmem {k : ℕ} (hk : k < env.sizes.length) : minMsgSize ≤ env.size k ∧
      env.size k ≤ maxMsgSize := by
    have hget : env.size k ∈ env.sizes := by
      rw [env.size_eq hk]
      exact List.getElem_mem hk
    rw [hsizes] at hget
    exact mem_runVaryMsg hget
  refine ⟨fun k hk ↦ Nat.le_trans hmin (hmem hk).1, fun k hk ↦ (hmem hk).2, fun j k hjk hk ↦ ?_⟩
  have hpair := runVaryMsg_pairwise (minMsgSize, maxMsgSize)
  rw [← hsizes] at hpair
  rcases Nat.lt_or_eq_of_le hjk with hlt | rfl
  · rw [env.size_eq hk, env.size_eq (Nat.lt_trans hlt hk)]
    exact List.pairwise_iff_getElem.mp hpair j k _ hk hlt
  · exact Nat.le_refl _

/-- The index of its receive buffer that a rank is about to reset, if it is about to. -/
def resets (msgSize : ℕ) : Stmt → Option ℕ
  | .resetFirst => some 0
  | .resetLast => some (msgSize - 1)
  | _ => none

theorem NodeInv.of_stmt {r : Rank} {ℓ ℓ' : Stmt} {n : Node} (h : NodeInv env maxMsgSize r ℓ' n)
    (hs : PingpongWrite.stmt env r n = some ℓ) : ℓ' = ℓ ∧ n.iter < env.sizes.length := by
  rw [PingpongWrite.stmt] at hs
  split at hs
  · rename_i hiter
    rw [h.stmt] at hs
    exact ⟨Option.some.inj hs, hiter⟩
  · cases hs

/-- A message that has been delivered as a whole is in the two bytes the spin loop looks at. -/
theorem RecvInv.seen {r : Rank} {ℓ : Stmt} {k landed : ℕ} {st : State} {flights : List Flight}
    (h : RecvInv env maxMsgSize r ℓ k (st.host.mem.buf .recvBuf) landed flights)
    (hsz : Sizes env maxMsgSize) (hk : k < env.sizes.length) (hlt : k < landed)
    (hℓ : ℓ = .spinLast ∨ ℓ = .spinFirst) :
    seen r (env.size k - 1) st = true ∧ seen r 0 st = true := by
  have hw : k + waits r ℓ = k := by rcases hℓ with rfl | rfl <;> cases r <;> rfl
  have ha : armed ℓ = true := by rcases hℓ with rfl | rfl <;> rfl
  have hlanding := h.landing ha
  rw [hw] at hlanding
  have hpos := hsz.pos k hk
  have hall : ∀ i < env.size k, st.host.mem.buf .recvBuf i
      = { val := r.peer.value, round := some k } := by
    cases hlanding hk with
    | waiting => exact absurd hlt (Nat.lt_irrefl _)
    | landing => exact absurd hlt (Nat.lt_irrefl _)
    | delivered hall => exact hall
  simp only [PingpongWrite.seen, hall _ (show env.size k - 1 < env.size k by omega),
    hall 0 (by omega), beq_self_eq_true, and_self]

/-- **The RDMA-write ping-pong neither reads early nor loses a message**, for the whole sequence of
sizes of `RUN_VARY_MSG`, any order of steps and any order in which the bytes of a write land.

No assertion and no `check_buffer` fails.  The writes of a rank are numbered by its rounds.  Once a
rank has left the spin loop of a round, the peer's write of that round has landed as a whole and
`check_buffer` finds the bytes of that write.  While a rank resets its two bytes nothing is on its
way to it, and what it overwrites belongs to a write that it has waited for.  And a rank that is in
the spin loop leaves it when the write has landed. -/
theorem pingpongWrite_safe {minMsgSize : ℕ} (hmin : 1 ≤ minMsgSize)
    (hsizes : env.sizes = runVaryMsg (minMsgSize, maxMsgSize)) {s : Sys}
    (hs : (machine env maxMsgSize).Reachable s) :
    (∀ a f, step env s a ≠ .error (.fault f)) ∧ ∀ r,
      ((s r).st.host.nic.sq ≠ [] → (s r).landed + (s r).flights.length = (s r).iter) ∧
      (stmt env r (s r) = some .checkBuffer → (s r).iter < (s r.peer).landed ∧
        ∀ i < env.size (s r).iter, (s r).st.host.mem.buf .recvBuf i
          = { val := r.peer.value, round := some (s r).iter }) ∧
      (∀ ℓ i, stmt env r (s r) = some ℓ → resets (env.size (s r).iter) ℓ = some i →
        (s r.peer).st.host.nic.sq = [] ∧ (s r.peer).flights = [] ∧
        ∀ j, (s r).st.host.mem.buf .recvBuf i = { val := r.peer.value, round := some j } →
          j < (s r).iter + waits r ℓ) ∧
      (stmt env r (s r) = some .spinLast ∨ stmt env r (s r) = some .spinFirst →
        (s r).iter < (s r.peer).landed →
          seen r (env.size (s r).iter - 1) (s r).st = true ∧ seen r 0 (s r).st = true) := by
  have hsz := sizes_runVaryMsg hmin hsizes
  obtain ⟨hinv, hfault⟩ := reachable_inv hsz hs
  refine ⟨hfault, fun r ↦ ?_⟩
  obtain ⟨ℓ', hn, hv⟩ := hinv r
  refine ⟨?_, ?_, ?_, ?_⟩
  · intro hsq
    obtain ⟨w, sq, hcons⟩ := List.exists_cons_of_ne_nil hsq
    exact (hn.of_sq hcons).2.1
  · intro hstmt
    obtain ⟨rfl, -⟩ := hn.of_stmt hstmt
    obtain ⟨hlanded, hall⟩ := hv.full rfl
    exact ⟨by omega, hall⟩
  · intro ℓ i hstmt hi
    obtain ⟨rfl, hiter⟩ := hn.of_stmt hstmt
    have hpos := hsz.pos _ hiter
    have hle := hsz.le _ hiter
    have hlt : i < maxMsgSize := by
      cases ℓ' <;> simp only [resets, reduceCtorEq, Option.some.injEq] at hi <;> omega
    have hquiet : quiet ℓ' = true := by
      cases ℓ' <;> first | rfl | cases hi
    obtain ⟨hlanded, hflights, hsq⟩ := hinv.quiet hn hv hquiet
    refine ⟨hsq, hflights, fun j hj ↦ ?_⟩
    have htag := hv.tags i hlt j hj
    rw [hflights, List.length_nil] at htag
    omega
  · intro hstmt hlt
    rcases hstmt with hstmt | hstmt
    · obtain ⟨rfl, hiter⟩ := hn.of_stmt hstmt
      exact hv.seen hsz hiter hlt (.inl rfl)
    · obtain ⟨rfl, hiter⟩ := hn.of_stmt hstmt
      exact hv.seen hsz hiter hlt (.inr rfl)

/-- A small environment for messages of two bytes. -/
abbrev twoBytes : Env Unit 0 := .small Unit (runVaryMsg (2, 2))

/-- Rank 0 writes, the last byte lands first, and rank 1 leaves its spin loop. -/
def firstMessage : List Action :=
  [.rank .r0, .rank .r0, .rank .r0, .rank .r0, .launch .r0 .decreasing, .land .r0, .rank .r1,
   .rank .r1, .land .r0, .rank .r1, .rank .r1]

theorem pingpongWrite_safe_firstMessage :
    let s := (machine twoBytes 2).result (start twoBytes 2) firstMessage
    stmt twoBytes .r1 (s .r1) = some .checkBuffer ∧ ∀ i < twoBytes.size 0,
      (s .r1).st.host.mem.buf .recvBuf i = { val := Rank.r0.value, round := some 0 } := by
  have hs := Machine.reachable_result (M := machine twoBytes 2) (.init rfl) firstMessage
  have hstmt : stmt twoBytes .r1 ((machine twoBytes 2).result (start twoBytes 2) firstMessage .r1)
      = some .checkBuffer := by decide +kernel
  obtain ⟨-, hcheck, -⟩ := (pingpongWrite_safe (Nat.le_succ 1) rfl hs).2 .r1
  exact ⟨hstmt, (hcheck hstmt).2⟩

end PingpongWrite

end IbvBench
