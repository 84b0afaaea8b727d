import IbvBench.Lib.CInt
import IbvBench.Rendezvous.Read
import IbvBench.Rendezvous.Write
import IbvBench.Rendezvous.WriteImm
import Mathlib.Tactic.Positivity
import Mathlib.Tactic.Ring

/-!
# Where the rendezvous programs put their buffers

`init` allocates and registers `config.mr_size` bytes, and `run` divides them: a cache line for each
kind of message, one for `control_recv_buf`, then `send_buf` and `recv_buf`.  `run` computes the size
as an `int` and later asserts that the region is at least as large as the same expression, with the
conversions of C on the way: the size is an `int` in the configuration, a `size_t` for the allocator
and a `uint32_t` in the device.

The assertion compares the size with itself, so it passes when the `int` has wrapped around, too.
What decides whether the buffers fit is whether their sizes add up to less than `2 ^ 32`
(`setUp_sound`).  The size of a cache line is whatever `sysconf` says, but it is also the alignment of
two tables that `init` allocates, so `init` does not come to its end unless it is a power of two.
-/

set_option autoImplicit false

namespace IbvBench

/-- A run of bytes. -/
structure Range where
  addr : ℤ
  length : ℤ
  deriving DecidableEq, Repr

namespace Range

/-- The first ends before the second begins. -/
def Before (a b : Range) : Prop := a.addr + a.length ≤ b.addr

def Disjoint (a b : Range) : Prop := a.Before b ∨ b.Before a

/-- The range lies inside `[addr, addr + size)`. -/
def Inside (a : Range) (addr size : ℤ) : Prop := addr ≤ a.addr ∧ a.addr + a.length ≤ addr + size

end Range

/-- What `posix_memalign` takes as an alignment: a power of two that `sizeof(void *)` divides. -/
def ValidAlignment (alignment : ℤ) : Prop := 8 ∣ alignment ∧ alignment.toNat.isPowerOfTwo

instance (alignment : ℤ) : Decidable (ValidAlignment alignment) :=
  inferInstanceAs (Decidable (_ ∧ _))

/-- What `init` asks the system for. -/
structure System where
  /-- The address that `posix_memalign(…, alignment, size)` stores, if it succeeds. -/
  posixMemalign : (alignment size : ℤ) → Option ℤ
  /-- Any other alignment is `EINVAL`. -/
  posixMemalign_valid : ∀ {alignment size addr : ℤ},
    posixMemalign alignment size = some addr → ValidAlignment alignment
  /-- The `addr` of the region that `ibv_reg_mr(…, addr, length, …)` returns, if it does. -/
  ibvRegMr : (addr length : ℤ) → Option ℤ

/-- `device->mr_addr` and `device->mr_size`. -/
structure Region where
  mrAddr : ℤ
  mrSize : ℤ
  deriving DecidableEq, Repr

/-- The part of `init` that creates the RDMA memory, for a `config.mr_size`. -/
def initMemory (sys : System) (pageSize mrSize : ℤ) : Option Region := do
  let mrAddr ← sys.posixMemalign (sizeT pageSize) (sizeT mrSize)
  let addr ← sys.ibvRegMr mrAddr (sizeT mrSize)
  if mrAddr = addr then some { mrAddr, mrSize := uint32 mrSize } else none

/-- `sizeof(struct ibv_qp *)`. -/
def sizeofPtr : ℤ := 8

/-- `sizeof(struct RemoteMemRegion)`. -/
def sizeofRemoteMemRegion : ℤ := 16

/-- The part of `init` that allocates `device->qps` and `device->rmrs`.  It does not look at what
`posix_memalign` returns.  `none` is an allocation that failed: its pointer is not set, and the loop
over the ranks that follows goes through it. -/
def initTables (sys : System) (cacheLineSize nranks : ℤ) : Option (ℤ × ℤ) := do
  let qps ← sys.posixMemalign (sizeT cacheLineSize) (sizeT (sizeT nranks * sizeofPtr))
  let rmrs ← sys.posixMemalign (sizeT cacheLineSize) (sizeT (sizeT nranks * sizeofRemoteMemRegion))
  some (qps, rmrs)

/-- The message pointers, one cache line after the other, and the pointer behind them. -/
def placeSlots (cacheLineSize : ℤ) : (ptr : ℤ) → (sizes : List ℕ) → List Range × ℤ
  | ptr, [] => ([], ptr)
  | ptr, size :: sizes =>
    let (ranges, ptr') := placeSlots cacheLineSize (ptr + cacheLineSize) sizes
    ({ addr := ptr, length := size } :: ranges, ptr')

/-- The buffers of a rank, in its region. -/
structure Layout where
  region : Region
  ranges : List Range
  deriving DecidableEq, Repr

/-- The buffers do not overlap, and lie in the region. -/
def Layout.Sound (layout : Layout) : Prop :=
  layout.ranges.Pairwise Range.Disjoint ∧
    ∀ a ∈ layout.ranges, a.Inside layout.region.mrAddr layout.region.mrSize

/-- `CACHE_LINE_SIZE * lines + config.max_msg_size * 2`. -/
def mrSizeExpr (lines cacheLineSize maxMsgSize : ℤ) : ℤ :=
  int32 (int32 (cacheLineSize * lines) + int32 (maxMsgSize * 2))

/-- `run` up to the assignment of `recv_buf`, for messages of the given sizes.  `none` is a call of
`exit` or a crash in `init`, or an assertion that fails. -/
def setUp (sizes : List ℕ) (lines : ℤ) (sys : System)
    (nranks pageSize cacheLineSize maxMsgSize : ℤ) : Option Layout := do
  let region ← initMemory sys pageSize (mrSizeExpr lines cacheLineSize maxMsgSize)
  let _tables ← initTables sys cacheLineSize nranks
  if nranks = 2 then
    if sizes.all fun size ↦ (size : ℤ) ≤ sizeT cacheLineSize then
      if uint32 (mrSizeExpr lines cacheLineSize maxMsgSize) ≤ region.mrSize then
        let (slots, ptr) := placeSlots cacheLineSize region.mrAddr sizes
        let sendBuf := ptr + cacheLineSize
        let recvBuf := sendBuf + maxMsgSize
        some { region, ranges := slots ++ [{ addr := ptr, length := cacheLineSize },
          { addr := sendBuf, length := maxMsgSize }, { addr := recvBuf, length := maxMsgSize }] }
      else none
    else none
  else none

/-- The layout of `ibv_pingpong_rdv_write`. -/
def RdvWrite.setUp : System → (nranks pageSize cacheLineSize maxMsgSize : ℤ) → Option Layout :=
  IbvBench.setUp [RdvWrite.sizeofRTSMsg, RdvWrite.sizeofRTRMsg, RdvWrite.sizeofFINMsg] 4

/-- The layout of `ibv_pingpong_rdv_write_imm`. -/
def RdvWriteImm.setUp : System → (nranks pageSize cacheLineSize maxMsgSize : ℤ) → Option Layout :=
  IbvBench.setUp [RdvWriteImm.sizeofRTSMsg, RdvWriteImm.sizeofRTRMsg] 3

/-- The layout of `ibv_pingpong_rdv_read`. -/
def RdvRead.setUp : System → (nranks pageSize cacheLineSize maxMsgSize : ℤ) → Option Layout :=
  IbvBench.setUp [RdvRead.sizeofRTSMsg, RdvRead.sizeofFINMsg] 3

/-! ## Slots of one cache line each -/

section

variable {cacheLineSize ptr : ℤ} {sizes : List ℕ}

theorem placeSlots_snd :
    (placeSlots cacheLineSize ptr sizes).2 = ptr + sizes.length * cacheLineSize := by
  induction sizes generalizing ptr with
  | nil => simp [placeSlots]
  | cons size sizes ih =>
    rw [placeSlots]
    simp only [ih, List.length_cons]
    push_cast
    ring

theorem mem_placeSlots (hline : 0 < cacheLineSize) (hsizes : ∀ size ∈ sizes, (size : ℤ) ≤ cacheLineSize)
    {a : Range} (ha : a ∈ (placeSlots cacheLineSize ptr sizes).1) :
    ptr ≤ a.addr ∧ a.addr + a.length ≤ ptr + sizes.length * cacheLineSize := by
  induction sizes generalizing ptr with
  | nil => cases ha
  | cons size sizes ih =>
    have hle : 0 ≤ (sizes.length : ℤ) * cacheLineSize := by positivity
    have hlen : ((size :: sizes).length : ℤ) * cacheLineSize
        = cacheLineSize + sizes.length * cacheLineSize := by
      rw [List.length_cons]
      push_cast
      ring
    rw [hlen]
    rcases List.mem_cons.mp ha with rfl | ha
    · have hsize := hsizes size List.mem_cons_self
      exact ⟨Int.le_refl _, by simp only; omega⟩
    · obtain ⟨h1, h2⟩ := ih (fun s hs ↦ hsizes s (List.mem_cons_of_mem _ hs)) ha
      omega

theorem placeSlots_pairwise (hline : 0 < cacheLineSize)
    (hsizes : ∀ size ∈ sizes, (size : ℤ) ≤ cacheLineSize) :
    (placeSlots cacheLineSize ptr sizes).1.Pairwise Range.Before := by
  induction sizes generalizing ptr with
  | nil => exact .nil
  | cons size sizes ih =>
    have hrest : ∀ s ∈ sizes, (s : ℤ) ≤ cacheLineSize := fun s hs ↦
      hsizes s (List.mem_cons_of_mem _ hs)
    refine List.pairwise_cons.mpr ⟨fun a ha ↦ ?_, ih hrest⟩
    have hsize := hsizes size List.mem_cons_self
    have hstart := (mem_placeSlots hline hrest ha).1
    show ptr + size ≤ a.addr
    omega

end

/-! ## The layout -/

section

variable {sizes : List ℕ} {lines : ℤ} {sys : System}
  {nranks pageSize cacheLineSize maxMsgSize : ℤ} {layout : Layout}

/-- A negative `int` is no alignment: as a `size_t` it lies strictly between `2 ^ 63` and `2 ^ 64`. -/
theorem pos_of_validAlignment (hC : -2 ^ 31 ≤ cacheLineSize ∧ cacheLineSize < 2 ^ 31)
    (h : ValidAlignment (sizeT cacheLineSize)) : 0 < cacheLineSize := by
  obtain ⟨-, k, hk⟩ := h
  have hsize : sizeT cacheLineSize = 2 ^ k := by
    have hnonneg : 0 ≤ sizeT cacheLineSize := by
      rw [sizeT]
      omega
    rw [← Int.toNat_of_nonneg hnonneg, hk]
    push_cast
    rfl
  have hone : (0 : ℤ) < 2 ^ k := by positivity
  by_contra hneg
  rw [sizeT] at hsize
  rcases Nat.lt_or_ge k 64 with hlt | hge
  · have hle : (2 : ℤ) ^ k ≤ 2 ^ 63 := pow_le_pow_right₀ (by decide) (by omega)
    omega
  · have hle : (2 : ℤ) ^ 64 ≤ 2 ^ k := pow_le_pow_right₀ (by decide) hge
    omega

/-- `init` allocates its tables for a cache line of some bytes only. -/
theorem initTables_pos (hC : -2 ^ 31 ≤ cacheLineSize ∧ cacheLineSize < 2 ^ 31) {tables : ℤ × ℤ}
    (h : initTables sys cacheLineSize nranks = some tables) : 0 < cacheLineSize := by
  rw [initTables] at h
  obtain ⟨qps, hqps, -⟩ := Option.bind_eq_some_iff.mp h
  exact pos_of_validAlignment hC (sys.posixMemalign_valid hqps)

/-- What a set-up that succeeds has computed. -/
theorem setUp_eq_some (hC : -2 ^ 31 ≤ cacheLineSize ∧ cacheLineSize < 2 ^ 31)
    (h : setUp sizes lines sys nranks pageSize cacheLineSize maxMsgSize = some layout) :
    0 < cacheLineSize ∧ (∀ size ∈ sizes, (size : ℤ) ≤ cacheLineSize) ∧
    layout.region.mrSize = uint32 (cacheLineSize * lines + maxMsgSize * 2) ∧
    layout.ranges = (placeSlots cacheLineSize layout.region.mrAddr sizes).1 ++
      [{ addr := layout.region.mrAddr + sizes.length * cacheLineSize, length := cacheLineSize },
        { addr := layout.region.mrAddr + sizes.length * cacheLineSize + cacheLineSize
          length := maxMsgSize },
        { addr := layout.region.mrAddr + sizes.length * cacheLineSize + cacheLineSize + maxMsgSize
          length := maxMsgSize }] := by
  rw [setUp] at h
  obtain ⟨region, hregion, h⟩ := Option.bind_eq_some_iff.mp h
  obtain ⟨tables, htables, h⟩ := Option.bind_eq_some_iff.mp h
  have hline := initTables_pos hC htables
  split at h
  · split at h
    · rename_i hsizes
      rw [sizeT_of_range (by omega) (by omega)] at hsizes
      split at h
      · simp only [placeSlots_snd] at h
        have hlayout := Option.some.inj h
        subst hlayout
        refine ⟨hline, by simpa using hsizes, ?_, rfl⟩
        obtain ⟨mrAddr, -, hregion⟩ := Option.bind_eq_some_iff.mp hregion
        obtain ⟨addr, -, hregion⟩ := Option.bind_eq_some_iff.mp hregion
        split at hregion
        · obtain rfl := Option.some.inj hregion
          exact uint32_int32_add
        · cases hregion
      · cases h
    · cases h
  · cases h

/-- **The buffers fit exactly when their sizes do.** -/
theorem setUp_sound (hC : -2 ^ 31 ≤ cacheLineSize ∧ cacheLineSize < 2 ^ 31)
    (hM : 0 < maxMsgSize ∧ maxMsgSize < 2 ^ 31) (hcount : lines = sizes.length + 1)
    (h : setUp sizes lines sys nranks pageSize cacheLineSize maxMsgSize = some layout) :
    layout.Sound ↔ lines * cacheLineSize + 2 * maxMsgSize < 2 ^ 32 := by
  subst hcount
  obtain ⟨hline, hslots, hsize, hranges⟩ := setUp_eq_some hC h
  have hlines : (sizes.length + 1 : ℤ) * cacheLineSize
      = sizes.length * cacheLineSize + cacheLineSize := by ring
  have hexpr : cacheLineSize * (sizes.length + 1 : ℤ) + maxMsgSize * 2
      = sizes.length * cacheLineSize + cacheLineSize + 2 * maxMsgSize := by ring
  rw [hexpr] at hsize
  rw [Layout.Sound, hranges, hsize, hlines]
  have hnonneg : 0 ≤ (sizes.length : ℤ) * cacheLineSize := by positivity
  constructor
  · rintro ⟨_, hinside⟩
    -- `recv_buf` does not end behind the region
    obtain ⟨-, hrecv⟩ := hinside { addr := _ + maxMsgSize, length := maxMsgSize }
      (List.mem_append_right _ (List.mem_cons_of_mem _ (List.mem_cons_of_mem _ List.mem_cons_self)))
    simp only at hrecv
    rw [uint32] at hrecv
    omega
  · intro hfit
    rw [uint32_of_range (by omega) hfit]
    refine ⟨List.pairwise_append.mpr ⟨(placeSlots_pairwise hline hslots).imp .inl, ?_,
      fun a ha b hb ↦ .inl ?_⟩, ?_⟩
    · simp only [List.pairwise_cons, List.mem_cons, forall_eq_or_imp, List.not_mem_nil, false_implies,
        implies_true, List.Pairwise.nil, and_true, Range.Disjoint, Range.Before]
      omega
    · have hend := (mem_placeSlots hline hslots ha).2
      simp only [List.mem_cons, List.not_mem_nil, or_false] at hb
      rw [Range.Before]
      rcases hb with rfl | rfl | rfl <;> simp only <;> omega
    · intro a ha
      rcases List.mem_append.mp ha with ha | ha
      · obtain ⟨hstart, hend⟩ := mem_placeSlots hline hslots ha
        exact ⟨hstart, by omega⟩
      · simp only [List.mem_cons, List.not_mem_nil, or_false] at ha
        rw [Range.Inside]
        rcases ha with rfl | rfl | rfl <;> simp only <;> omega

end

/-- **When the layout of the rendezvous programs is sound.**  Whenever the memory is allocated and
registered and the assertions of `run` pass, the message slots, `control_recv_buf`, `send_buf` and
`recv_buf` are disjoint and inside the region if and only if the sum of the sizes has not wrapped
around. -/
theorem rdv_layout (sys : System) {nranks pageSize cacheLineSize maxMsgSize : ℤ}
    (hC : -2 ^ 31 ≤ cacheLineSize ∧ cacheLineSize < 2 ^ 31)
    (hM : 0 < maxMsgSize ∧ maxMsgSize < 2 ^ 31) :
    (∀ layout, RdvWrite.setUp sys nranks pageSize cacheLineSize maxMsgSize = some layout →
      (layout.Sound ↔ 4 * cacheLineSize + 2 * maxMsgSize < 2 ^ 32)) ∧
    (∀ layout, RdvWriteImm.setUp sys nranks pageSize cacheLineSize maxMsgSize = some layout →
      (layout.Sound ↔ 3 * cacheLineSize + 2 * maxMsgSize < 2 ^ 32)) ∧
    (∀ layout, RdvRead.setUp sys nranks pageSize cacheLineSize maxMsgSize = some layout →
      (layout.Sound ↔ 3 * cacheLineSize + 2 * maxMsgSize < 2 ^ 32)) :=
  ⟨fun _ h ↦ setUp_sound hC hM rfl h, fun _ h ↦ setUp_sound hC hM rfl h,
    fun _ h ↦ setUp_sound hC hM rfl h⟩

/-- A system that has memory for every object a process can have. -/
def System.ample : System where
  posixMemalign alignment size :=
    if ValidAlignment alignment ∧ size < 2 ^ 63 then some 4096 else none
  posixMemalign_valid h := by
    split at h
    · rename_i hvalid
      exact hvalid.1
    · cases h
  ibvRegMr addr _ := some addr

/-- The defaults: messages of at most 64 KiB and cache lines of 64 bytes. -/
theorem rdv_layout_default : ∃ layout, RdvWrite.setUp .ample 2 4096 64 65536 = some layout ∧
    layout.Sound := by
  have hC : -2 ^ 31 ≤ (64 : ℤ) ∧ (64 : ℤ) < 2 ^ 31 := by decide
  have hM : 0 < (65536 : ℤ) ∧ (65536 : ℤ) < 2 ^ 31 := by decide
  have hlayout : ∃ layout, RdvWrite.setUp .ample 2 4096 64 65536 = some layout := ⟨_, rfl⟩
  obtain ⟨layout, h⟩ := hlayout
  exact ⟨layout, h, ((rdv_layout .ample hC hM).1 layout h).mpr (by decide)⟩

/-- With the largest `int` as the size of a message, 190 bytes are allocated and every assertion
passes. -/
theorem rdv_layout_wraps : ∃ layout, RdvRead.setUp .ample 2 4096 64 (2 ^ 31 - 1) = some layout ∧
    layout.region.mrSize = 190 ∧ ¬ layout.Sound := by
  refine ⟨_, rfl, by decide, fun ⟨_, hinside⟩ ↦ ?_⟩
  have hcontrol := hinside { addr := 4096 + 64 + 64, length := 64 } (by decide)
  exact absurd hcontrol.2 (by decide)

end IbvBench
