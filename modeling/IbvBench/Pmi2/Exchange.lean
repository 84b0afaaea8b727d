import IbvBench.Pmi.InitScript
import IbvBench.Pmi2.Manager

/-!
# The exchange that `init` makes over PMI-2

As over PMI-1 (`IbvBench.Pmi.SimpleExchange`), from the line of `PMI2_Init` to `PMI2_Finalize`.  The
store has no name here that would have to be asked for, nor is the number of ranks asked for again.

The rank that `fullinit-response` gives a process is not the one that `lcm_pm_get_rank` returns: that
is `PMI2_rank`, which `PMI2_Init` only sets when there is a `PMI_RANK` and no `PMI_ID`.
-/

set_option autoImplicit false

namespace IbvBench

open StepMachine PutFence Numerals

namespace Pmi2

/-- What the program exchanges over PMI-2 besides the pairs. -/
def pmi2Dialogue {n : ℕ} (env : Fin n → Env) : Dialogue n Query where
  rank r := rankOf (env r) 0
  opening r := [.init, .fullinit (env r)]
  naming := []
  sizing := []
  closing := [.finalize]

/-- What the environments of a job are taken to be like: the texts fit into a command, and each
process gets its rank from its own. -/
structure Environs {n : ℕ} (env : Fin n → Env) : Prop where
  texts : ∀ r, ∀ text ∈ (env r).texts, text.length ≤ PMI2_MAX_VALLEN
  rank : ∀ r : Fin n, rankOf (env r) 0 = .ofNat 32 r

section

variable {n : ℕ} {job : Job n} {barriers : ℕ} {env : Fin n → Env} {ops : List Exchange} {r : Fin n}

theorem nul_notMem_printFields (l : List ℕ) : nul ∉ printFields ':' l := by
  induction l with
  | nil => exact List.not_mem_nil
  | cons n l ih =>
    have hn : nul ∉ Nat.toDigits 16 n := fun hm ↦ by
      have hhex := isHex_of_mem_toDigits hm
      revert hhex
      decide
    rcases l with _ | ⟨m, l⟩
    · exact hn
    · rw [printFields]
      · intro hm
        rcases List.mem_append.mp hm with hm | hm
        · exact hn hm
        · rcases List.mem_cons.mp hm with he | hm
          · exact absurd he (by decide)
          · exact ih hm
      · exact List.cons_ne_nil m l

theorem pmi2Dialogue_speakable (job : Job n) (henv : Environs env) :
    (pmi2Dialogue env).Speakable job (pmi2Protocol n) where
  ranked := Dialogue.ranked_of_ofNat henv.rank job
  other r x hx := by
    have hmem : x = .init ∨ x = .fullinit (env r) ∨ x = .finalize := by
      simpa [pmi2Dialogue] using hx
    rcases hmem with rfl | rfl | rfl
    · trivial
    · exact henv.texts r
    · trivial
  put r i := by
    have hkey := length_keyText_le (Nat.lt_trans r.isLt job.nranks_int)
      (Nat.lt_trans i.isLt job.nranks_int)
    have hvalue := (job.endpoint r i).length_text_le
    have hkey' : (keyText r i).length ≤ 1024 := by omega
    exact ⟨hkey', nul_notMem_printFields _, by omega⟩
  fence := trivial
  get r i := by
    have hkey := length_keyText_le (Nat.lt_trans i.isLt job.nranks_int)
      (Nat.lt_trans r.isLt job.nranks_int)
    have hkey' : (keyText i r).length ≤ 1024 := by omega
    exact hkey'

/-- Behind one of the first everything is in order. -/
theorem ordered_true (first later : Exchange → Bool) (ops : List Exchange) :
    Ordered first later true ops := by
  induction ops with
  | nil => trivial
  | cons op ops ih => exact ⟨fun _ ↦ rfl, ih⟩

/-- Only `fullinit` changes the rank. -/
theorem rankAfter_eq {rank : BitVec 32} (h : ∀ op ∈ ops, isFullinit op = false) :
    rankAfter ops rank = rank := by
  induction ops with
  | nil => rfl
  | cons op ops ih =>
    have hop : rankBehind op rank = rank := by
      have hnot := h op List.mem_cons_self
      rcases op with (_ | env | _) | ⟨key, value⟩ | _ | key
      · rfl
      · cases hnot
      all_goals rfl
    rw [rankAfter, List.foldl_cons, hop]
    exact ih fun op' hmem ↦ h op' (List.mem_cons_of_mem _ hmem)

/-- Behind the whole exchange a process has the rank that its keys are made of. -/
theorem rankAfter_ops (henv : Environs env) (r : Fin n) :
    rankAfter ((pmi2Dialogue env).ops job barriers r) 0 = .ofNat 32 r := by
  have hbehind : ∀ op ∈ (pmi2Dialogue env).putOps job r ++
      .fence :: (pmi2Dialogue env).connectOps barriers r, isFullinit op = false := by
    intro op hop
    rcases Dialogue.mem_ops_behind (Dialogue.ranked_of_ofNat henv.rank job) hop with
      ⟨x, hx, rfl⟩ | hne
    · obtain rfl : x = .finalize := by simpa [pmi2Dialogue] using hx
      rfl
    · rcases op with x | ⟨key, value⟩ | _ | key
      · exact absurd rfl (hne x)
      all_goals rfl
  rw [Dialogue.ops_eq, ← henv.rank r]
  exact rankAfter_eq hbehind

variable (job barriers) in
/-- What all ranks do. -/
def pmi2Phases (henv : Environs env) : Phases n (pmi2Protocol n) :=
  (pmi2Dialogue env).phases job barriers (pmi2Dialogue_speakable job henv)

theorem init_idle (henv : Environs env) (r : Fin n) :
    IdleWith n (.ofNat 32 r) ((pmi2Phases job barriers henv).script.ops r) {} where
  wf := Pmi1.KeyvalTab.init_wf
  unread := rfl
  ranked := rankAfter_ops henv r
  sized := .inl ⟨.other (.fullinit (env r)), Dialogue.mem_ops_of_opening (.tail _ (.head _)), rfl⟩
  acknowledged := ⟨fun h ↦ (by cases h), ordered_true _ _ _⟩
  initialized := ⟨fun h ↦ (by cases h), fun h ↦ (by cases h), ordered_true _ _ _⟩

/-! ## The job -/

variable (job barriers) in
/-- The ranks and a manager. -/
def pmi2Machine (henv : Environs env) (junk : ℕ → Char) (S : Server n (pmi2Protocol n)) :
    Machine (PutFence.Job (client junk) S) (Fin n) WireFault :=
  (pmi2Phases job barriers henv).script.machine (client junk) S fun _ ↦ {}

variable (job barriers) in
/-- The ranks before they have sent anything. -/
def pmi2Start (henv : Environs env) (junk : ℕ → Char) (S : Server n (pmi2Protocol n)) :
    PutFence.Job (client junk) S :=
  (pmi2Phases job barriers henv).script.start (client junk) S fun _ ↦ {}

variable (job) in
/-- The rank has come to the end: it knows which one it is and how many there are, and has been
given the end point that each of them has published for it. -/
def ExchangeDone {junk : ℕ → Char} {S : Server n (pmi2Protocol n)}
    (j : PutFence.Job (client junk) S) : Prop :=
  ∀ r : Fin n, (j.rank r).ops = [] ∧ (j.rank r).state.PMI2_rank = .ofNat 32 r ∧
    (j.rank r).state.PMI2_size = .ofNat 32 n ∧
    (j.rank r).got = (List.finRange n).map fun i ↦ (job.endpoint i r).text

end

/-- **The exchange over PMI-2.**  For any manager that keeps to the protocol, any environments with
texts that fit into a command and from which each process gets its rank, and in whatever order the
ranks take their steps: no step goes wrong, every run comes to an end after the same number of
messages, and then each rank has been given the end points that were published for it. -/
theorem pmi2_exchange {n : ℕ} (job : Job n) (barriers : ℕ) (env : Fin n → Env)
    (henv : Environs env) (junk : ℕ → Char) (S : Server n (pmi2Protocol n)) :
    (∀ j, (pmi2Machine job barriers henv junk S).Reachable j →
        ∀ r f, (pmi2Machine job barriers henv junk S).step j r ≠ .error (.fault f)) ∧
      (pmi2Machine job barriers henv junk S).EndsAfter (pmi2Start job barriers henv junk S)
        (n * (2 * (2 * n + barriers + 5))) (ExchangeDone job) := by
  have hopening : ∀ r, ((pmi2Dialogue env).opening r).length = 2 := fun _ ↦ rfl
  obtain ⟨hsafe, hends⟩ := Dialogue.exchange (S := S) (h := pmi2Dialogue_speakable job henv)
    (fun r ↦ pmi2Speaks junk n (.ofNat 32 r)) (@init_idle n job barriers env henv) hopening
  have hmessages : 2 + 2 * n * ((pmi2Dialogue env).naming.length + 1) + barriers + 2 +
      (pmi2Dialogue env).sizing.length + (pmi2Dialogue env).closing.length =
        2 * n + barriers + 5 := by
    show 2 + 2 * n * (0 + 1) + barriers + 2 + 0 + 1 = _
    omega
  rw [hmessages] at hends
  refine ⟨hsafe, hends.bound, hends.extend, fun as s' hrun hlen r ↦ ?_⟩
  obtain ⟨hops, hidle, hgot⟩ := hends.final as s' hrun hlen r
  refine ⟨hops, hidle.ranked, hidle.sized.resolve_left ?_, hgot⟩
  rintro ⟨op, hop, -⟩
  exact List.not_mem_nil hop

/-- What a process manager sets for a rank. -/
def rankEnv (r : Fin 2) : Env := { PMI_RANK := some (Nat.toDigits 10 r) }

theorem environs_rankEnv : Environs rankEnv where
  texts := by decide
  rank r := Pmi1.atoi_toDigits (Nat.lt_trans r.isLt (by decide))

theorem pmi2_exchange_twoRanks :
    (pmi2Machine twoRanks 1 environs_rankEnv (fun _ ↦ '?') (pmi2Manager (by decide))).EndsAfter
      (pmi2Start twoRanks 1 environs_rankEnv (fun _ ↦ '?') (pmi2Manager (by decide)))
      40 (ExchangeDone twoRanks) :=
  (pmi2_exchange twoRanks 1 rankEnv environs_rankEnv (fun _ ↦ '?') (pmi2Manager (by decide))).2

end Pmi2

end IbvBench
