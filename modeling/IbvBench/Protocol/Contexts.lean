import IbvBench.Protocol.Safety

/-!
# The life of the contexts

A lawful program holds at most one context per rank at a time, and deletes each before it allocates
the next.  `Program.Lifecycle` says so of a state without mentioning what the program announces.
-/

set_option autoImplicit false

namespace IbvBench

open StepMachine

/-- What holds of the contexts of both ranks. -/
structure Program.Lifecycle (P : Program) (env : P.Env) (s : P.Sys) : Prop where
  /-- No handler goes wrong: one that dereferences or deletes a context finds it live on its own rank,
  and of the kind it expects. -/
  handled : ∀ a f, P.step env s a ≠ .error (.fault f)
  /-- At most one context of a rank is live, so at most one of each kind. -/
  live_le : ∀ r, (s r).st.heap.live.length ≤ 1
  /-- A live context is used in the round it was allocated in. -/
  round : ∀ r, ∀ c ∈ (s r).st.heap.live, c.round = (s r).iter
  /-- Each allocated context is either live or has been deleted, once. -/
  once : ∀ r, ((s r).st.heap.freed ++ (s r).st.heap.live.map (·.idx)).Perm
    (List.range (s r).st.heap.allocs)
  /-- A rank that has finished has allocated one context of each kind in each round, and none of them
  is live. -/
  finished : ∀ r, P.finished env (s r) → (s r).st.heap.live = [] ∧
    (s r).st.heap.allocs = 2 * env.sizes.length

namespace Protocol

variable {P : Program} {pr : Protocol P} {act : P.Stmt → Act} {env : P.Env} {s : P.Sys}

/-- The contexts of a rank, wherever it is. -/
theorem heap_cases (hc : P.Ctl act env s) (hi : pr.Inv env act s) (r : Rank) :
    (∃ t, (s r).st.heap = .spent t) ∨
      ∃ t c, c.idx = t ∧ c.round = (s r).iter ∧ (s r).st.heap = .holding t c := by
  by_cases hb : (s r).booted = true
  · obtain ⟨ℓ, hℓ⟩ := exists_stmt hc r
    have hheap := (hi.node r hb ℓ hℓ).heap
    rw [heapAt] at hheap
    split at hheap
    · exact .inl ⟨_, hheap⟩
    · exact .inr ⟨_, _, rfl, rfl, hheap⟩
    · exact .inl ⟨_, hheap⟩
  · exact .inl ⟨0, (hi.unbooted r (by simpa using hb)).1⟩

/-- **A lawful program deletes every context once.** -/
theorem lifecycle (L : pr.Lawful act) (hfirst : ∀ r, ∀ ℓ ∈ (P.lambda r)[0]?,
      pr.phase ℓ = .before ∧ pr.sender ℓ = (r == .r0))
    (hs : (P.machine env).Reachable s) : P.Lifecycle env s := by
  obtain ⟨⟨hc, hi⟩, hsafe⟩ := reachable_safe L hs
  refine ⟨hsafe, ?_, ?_, ?_, ?_⟩
  · intro r
    rcases heap_cases hc hi r with ⟨t, ht⟩ | ⟨t, c, -, -, ht⟩ <;> rw [ht]
    · exact Nat.zero_le _
    · exact Nat.le_refl _
  · intro r c hcm
    rcases heap_cases hc hi r with ⟨t, ht⟩ | ⟨t, c', -, hround, ht⟩ <;> rw [ht] at hcm
    · cases hcm
    · rw [List.mem_singleton.mp hcm]
      exact hround
  · intro r
    rcases heap_cases hc hi r with ⟨t, ht⟩ | ⟨t, c, hidx, -, ht⟩ <;> rw [ht]
    · simp [Heap.spent]
    · simp [Heap.holding, hidx, List.range_succ]
  · intro r hfin
    obtain ⟨hb, hiter⟩ := hfin
    obtain ⟨ℓ, hℓ⟩ := exists_stmt hc r
    have hheap := (hi.node r hb ℓ hℓ).heap
    rw [(hc.node r).pc_eq hiter] at hℓ
    obtain ⟨hphase, hsender⟩ := hfirst r ℓ hℓ
    have hturn : pr.turn r env.sizes.length ℓ = 2 * env.sizes.length := by
      rw [turn, hsender]
      cases r <;> rfl
    rw [heapAt, hphase, hiter, hturn] at hheap
    rw [hheap]
    exact ⟨rfl, rfl⟩

end Protocol

end IbvBench
