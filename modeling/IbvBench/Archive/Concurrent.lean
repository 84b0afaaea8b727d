import IbvBench.Archive.Basic
import Mathlib.Data.List.Nodup

/-!
# The archive under interleaving

Any number of threads call `put`, `get` and `remove` on one archive.  The accesses to the slots are
atomic and everything else is local to a thread, so a step of the system (`ArchiveThreads.step`) is
one access of one thread, or the beginning of a call.  A thread puts nonzero values, and gets and
removes only under keys of its own.

What the threads did is in the log, the newest event first, and the entries that are live are a
function of the log (`live`): put and not removed yet.  The invariant that relates the slots to them
is one of ownership: the slot of a live entry belongs to the thread that put it, and only that thread
ever writes it; a free slot belongs to whoever swaps a value into it.
-/

set_option autoImplicit false

namespace IbvBench

open StepMachine

namespace ArchiveThreads

/-! ## Threads -/

inductive Call where
  | put (value : ℕ)
  | get (key : ℕ)
  | remove (key : ℕ)
  deriving DecidableEq, Repr

/-- Where a thread is: the next access it makes to a slot. -/
inductive Pc where
  | idle
  /-- `archive.ptr[key].val == LCM_ARCHIVE_EMPTY`, in try `i` of a `put`. -/
  | putRead (value i key : ℕ)
  /-- The compare-and-swap of the same try. -/
  | putCas (value i key : ℕ)
  /-- The read of a `get`. -/
  | getRead (key : ℕ)
  /-- The read of a `remove`. -/
  | removeRead (key : ℕ)
  /-- The write of a `remove` that has read `val`. -/
  | removeStore (key val : ℕ)
  deriving DecidableEq, Repr

variable {ι : Type}

inductive Event (ι : Type) where
  | call (t : ι) (c : Call)
  /-- A slot was written. -/
  | write (t : ι) (key val : ℕ)
  /-- `put` returned `LCM_SUCCESS` and a key. -/
  | put (t : ι) (value key : ℕ)
  /-- `put` returned `LCM_RETRY`. -/
  | retry (t : ι) (value : ℕ)
  /-- `get` returned a value. -/
  | got (t : ι) (key val : ℕ)
  /-- `remove` returned a value. -/
  | removed (t : ι) (key val : ℕ)
  deriving DecidableEq, Repr

def Event.thread : Event ι → ι
  | call t _ | write t _ _ | put t _ _ | retry t _ | got t _ _ | removed t _ _ => t

/-- A value in the archive, with the thread that put it there and the key it was given. -/
structure Entry (ι : Type) where
  owner : ι
  key : ℕ
  val : ℕ
  deriving DecidableEq, Repr

/-- The entries that were put and have not been removed. -/
def live [DecidableEq ι] : List (Event ι) → List (Entry ι)
  | [] => []
  | .put t value key :: log => { owner := t, key, val := value } :: live log
  | .removed t key _ :: log => (live log).filter fun e ↦ ¬ (e.owner = t ∧ e.key = key)
  | _ :: log => live log

/-- What the slots hold, by the log. -/
def contents : List (Event ι) → ℕ → ℕ
  | [] => fun _ ↦ LCMArchive.emptyVal
  | .write _ key val :: log => Function.update (contents log) key val
  | _ :: log => contents log

/-- The archive, where each thread is, and what they have done. -/
structure Sys (ι : Type) where
  archive : LCMArchive
  pc : ι → Pc
  log : List (Event ι)

variable [DecidableEq ι]

/-- A thread puts nonzero values, and uses only keys of its own. -/
def Call.Allowed (t : ι) (log : List (Event ι)) : Call → Prop
  | put value => value ≠ LCMArchive.emptyVal
  | get key | remove key => ∃ e ∈ live log, e.owner = t ∧ e.key = key

instance (t : ι) (log : List (Event ι)) (c : Call) : Decidable (c.Allowed t log) := by
  cases c <;> unfold Call.Allowed <;> infer_instance

/-- The first access of a call. -/
def Call.entry (a : LCMArchive) : Call → Pc
  | put value => .putRead value 1 (a.hash value)
  | get key => .getRead key
  | remove key => .removeRead key

namespace Sys

def setPc (s : Sys ι) (t : ι) (p : Pc) : Sys ι := { s with pc := Function.update s.pc t p }

/-- A call returns. -/
def ret (s : Sys ι) (t : ι) (e : Event ι) : Sys ι :=
  { s with pc := Function.update s.pc t .idle, log := e :: s.log }

/-- Try `i` of a `put` has failed: go on to the next one, if there is one. -/
def nextTry (s : Sys ι) (t : ι) (value i key : ℕ) : Sys ι :=
  if i < LCMArchive.ntry then s.setPc t (.putRead value (i + 1) (key + i * i))
  else s.ret t (.retry t value)

/-- A slot is written. -/
def write (s : Sys ι) (t : ι) (key val : ℕ) (archive : LCMArchive) : Sys ι :=
  { s with archive, log := .write t key val :: s.log }

/-- The next access of a thread, and what it does up to the one after. -/
def access (s : Sys ι) (t : ι) : Exec (Sys ι) :=
  match s.pc t with
  | .idle => .error .blocked
  | .putRead value i key => do
    let val ← s.archive.load key
    if val = LCMArchive.emptyVal then .ok (s.setPc t (.putCas value i key))
    else .ok (s.nextTry t value i key)
  | .putCas value i key => do
    let (swapped, archive) ← s.archive.cas key LCMArchive.emptyVal value
    if swapped then .ok ((s.write t key value archive).ret t (.put t value key))
    else .ok (s.nextTry t value i key)
  | .getRead key => do
    let val ← s.archive.get key
    .ok (s.ret t (.got t key val))
  | .removeRead key => do
    let val ← s.archive.load key
    .ok (s.setPc t (.removeStore key val))
  | .removeStore key val => do
    let archive ← s.archive.store key LCMArchive.emptyVal
    .ok ((s.write t key LCMArchive.emptyVal archive).ret t (.removed t key val))

end Sys

inductive Action (ι : Type) where
  | call (t : ι) (c : Call)
  | access (t : ι)

def step (s : Sys ι) : Action ι → Exec (Sys ι)
  | .call t c =>
    if s.pc t = .idle ∧ c.Allowed t s.log then
      .ok { s.setPc t (c.entry s.archive) with log := .call t c :: s.log }
    else .error .blocked
  | .access t => s.access t

/-- An archive of `2 ^ nbits` slots and its threads. -/
def machine (ι : Type) [DecidableEq ι] (nbits : ℕ) : Machine (Sys ι) (Action ι) Fault where
  init s := s = { archive := (LCMArchive.init nbits).2, pc := fun _ ↦ .idle, log := [] }
  step := step

/-! ## What an access does -/

/-- **The cases of an access.** -/
inductive Access (s : Sys ι) (t : ι) : Sys ι → Prop
  /-- It goes on to another access of the same `put`. -/
  | again {value i key i' key' : ℕ} {p : Pc} : (s.pc t = .putRead value i key ∨
      s.pc t = .putCas value i key) → (p = .putRead value i' key' ∨ p = .putCas value i' key') →
      Access s t (s.setPc t p)
  | retry {value i key : ℕ} : (s.pc t = .putRead value i key ∨ s.pc t = .putCas value i key) →
      Access s t (s.ret t (.retry t value))
  | put {value i key : ℕ} {archive : LCMArchive} : s.pc t = .putCas value i key →
      s.archive.val key = LCMArchive.emptyVal →
      archive.val = Function.update s.archive.val key value →
      Access s t ((s.write t key value archive).ret t (.put t value key))
  | got {key : ℕ} : s.pc t = .getRead key →
      Access s t (s.ret t (.got t key (s.archive.val key)))
  | removing {key : ℕ} : s.pc t = .removeRead key →
      Access s t (s.setPc t (.removeStore key (s.archive.val key)))
  | removed {key val : ℕ} {archive : LCMArchive} : s.pc t = .removeStore key val →
      archive.val = Function.update s.archive.val key LCMArchive.emptyVal →
      Access s t ((s.write t key LCMArchive.emptyVal archive).ret t (.removed t key val))

theorem access_nextTry {s : Sys ι} {t : ι} {value i key : ℕ}
    (h : s.pc t = .putRead value i key ∨ s.pc t = .putCas value i key) :
    Access s t (s.nextTry t value i key) := by
  rw [Sys.nextTry]
  split
  · exact .again h (.inl rfl)
  · exact .retry h

theorem access_eq_ok {s s' : Sys ι} {t : ι} (h : s.access t = .ok s') : Access s t s' := by
  rw [Sys.access] at h
  split at h
  next => cases h
  next value i key hpc =>
    obtain ⟨val, -, h⟩ := bind_eq_ok.mp h
    split at h <;> cases h
    · exact .again (.inl hpc) (.inr rfl)
    · exact access_nextTry (.inl hpc)
  next value i key hpc =>
    obtain ⟨⟨swapped, archive⟩, hcas, h⟩ := bind_eq_ok.mp h
    obtain ⟨-, ⟨rfl, hval, rfl⟩ | ⟨rfl, -, rfl⟩⟩ := LCMArchive.cas_eq_ok hcas <;> cases h
    · exact .put hpc hval rfl
    · exact access_nextTry (.inr hpc)
  next key hpc =>
    obtain ⟨val, hval, h⟩ := bind_eq_ok.mp h
    obtain ⟨-, rfl⟩ := LCMArchive.load_eq_ok hval
    cases h
    exact .got hpc
  next key hpc =>
    obtain ⟨val, hval, h⟩ := bind_eq_ok.mp h
    obtain ⟨-, rfl⟩ := LCMArchive.load_eq_ok hval
    cases h
    exact .removing hpc
  next key val hpc =>
    obtain ⟨archive, hstore, h⟩ := bind_eq_ok.mp h
    obtain ⟨-, rfl⟩ := LCMArchive.store_eq_ok hstore
    cases h
    exact .removed hpc rfl

/-! ## Reading the log -/

/-- Since its last call, the thread has not written. -/
def Clean (t : ι) : List (Event ι) → Prop
  | [] => True
  | .call t' _ :: log => t' = t ∨ Clean t log
  | .write t' _ _ :: log => t' ≠ t ∧ Clean t log
  | _ :: log => Clean t log

/-- What a return says about the past. -/
def Event.Ok (log : List (Event ι)) : Event ι → Prop
  | put _ _ key => ∀ e ∈ live log, e.key ≠ key
  | retry t _ => Clean t log
  | got t key val | removed t key val => { owner := t, key, val } ∈ live log
  | _ => True

/-- Every return in the log says it. -/
def LogOk : List (Event ι) → Prop
  | [] => True
  | e :: log => e.Ok log ∧ LogOk log

theorem LogOk.of_append {e : Event ι} {post pre : List (Event ι)} (h : LogOk (post ++ e :: pre)) :
    e.Ok pre := by
  induction post with
  | nil => exact h.1
  | cons _ _ ih => exact ih h.2

omit [DecidableEq ι] in
/-- Between a call and the present, a clean thread has not written. -/
theorem Clean.of_append {t : ι} {c : Call} {mid pre : List (Event ι)}
    (h : Clean t (mid ++ .call t c :: pre)) (hmid : ∀ c', .call t c' ∉ mid) (key val : ℕ) :
    .write t key val ∉ mid := by
  induction mid with
  | nil => exact List.not_mem_nil
  | cons e mid ih =>
    have htail (c' : Call) : .call t c' ∉ mid := fun hc ↦ hmid c' (List.mem_cons_of_mem _ hc)
    intro hw
    cases e with
    | call t' c' =>
      have hne : t' ≠ t := by
        rintro rfl
        exact hmid c' List.mem_cons_self
      rcases List.mem_cons.mp hw with hw | hw
      · cases hw
      · exact ih (h.resolve_left hne) htail hw
    | write t' key' val' =>
      rcases List.mem_cons.mp hw with hw | hw
      · cases hw
        exact h.1 rfl
      · exact ih h.2 htail hw
    | put | retry | got | removed =>
      rcases List.mem_cons.mp hw with hw | hw
      · cases hw
      · exact ih h htail hw

section

variable {t t' : ι} {ev : Event ι} {log : List (Event ι)} {e : Entry ι}

/-- An entry stays live until its owner removes it. -/
theorem mem_live_cons (h : e ∈ live log) (hev : ∀ val, ev ≠ .removed e.owner e.key val) :
    e ∈ live (ev :: log) := by
  cases ev with
  | put => exact List.mem_cons_of_mem _ h
  | removed t key val =>
    refine List.mem_filter.mpr ⟨h, ?_⟩
    simp only [decide_not, Bool.not_eq_true', decide_eq_false_iff_not]
    rintro ⟨rfl, rfl⟩
    exact hev val rfl
  | call | write | retry | got => exact h

theorem mem_live_cons_of_ne (h : e ∈ live log) (hev : ev.thread ≠ e.owner) :
    e ∈ live (ev :: log) := by
  refine mem_live_cons h fun val he ↦ hev ?_
  rw [he]
  rfl

omit [DecidableEq ι] in
theorem Clean.cons_of_ne (h : Clean t log) (hev : ev.thread ≠ t) : Clean t (ev :: log) := by
  cases ev with
  | call => exact .inr h
  | write => exact ⟨hev, h⟩
  | put | retry | got | removed => exact h

end

/-! ## Ownership -/

/-- What a thread relies on between two accesses. -/
def Pc.Ok (log : List (Event ι)) (t : ι) : Pc → Prop
  | idle => True
  | putRead value _ _ | putCas value _ _ => value ≠ LCMArchive.emptyVal ∧ Clean t log
  | getRead key | removeRead key => ∃ e ∈ live log, e.owner = t ∧ e.key = key
  | removeStore key val => { owner := t, key, val } ∈ live log

/-- **Ownership.**  The slot of a live entry holds its value, and nobody else's. -/
structure Inv (s : Sys ι) : Prop where
  val : s.archive.val = contents s.log
  nodup : ((live s.log).map (·.key)).Nodup
  slot : ∀ e ∈ live s.log, s.archive.val e.key = e.val ∧ e.val ≠ LCMArchive.emptyVal
  pc : ∀ t, (s.pc t).Ok s.log t
  log : LogOk s.log

/-- What one thread does takes nothing from another. -/
theorem Pc.Ok.cons_of_ne {t : ι} {ev : Event ι} {log : List (Event ι)} {p : Pc} (h : p.Ok log t)
    (hev : ev.thread ≠ t) : p.Ok (ev :: log) t := by
  cases p with
  | idle => trivial
  | putRead | putCas => exact ⟨h.1, h.2.cons_of_ne hev⟩
  | getRead | removeRead =>
    obtain ⟨e, he, rfl, rfl⟩ := h
    exact ⟨e, mem_live_cons_of_ne he hev, rfl, rfl⟩
  | removeStore => exact mem_live_cons_of_ne h hev

/-- Neither does a write with the return that follows it. -/
theorem Pc.Ok.cons_write {t t' : ι} {ev : Event ι} {key val : ℕ} {log : List (Event ι)} {p : Pc}
    (h : p.Ok log t') (ht : t' ≠ t) (hev : ev.thread = t := by rfl) :
    p.Ok (ev :: .write t key val :: log) t' := by
  have hwrite : (Event.write t key val).thread ≠ t' := Ne.symm ht
  exact (h.cons_of_ne hwrite).cons_of_ne (by rw [hev]; exact Ne.symm ht)

theorem Inv.pc_setPc {s : Sys ι} {t : ι} {p : Pc} {log : List (Event ι)} (h : Inv s)
    (hp : p.Ok log t) (hlog : ∀ t' (p' : Pc), t' ≠ t → p'.Ok s.log t' → p'.Ok log t') (t' : ι) :
    (Function.update s.pc t p t').Ok log t' := by
  by_cases ht : t' = t
  · subst ht
    rwa [Function.update_self]
  · rw [Function.update_of_ne ht]
    exact hlog t' _ ht (h.pc t')

/-- The keys of live entries tell them apart. -/
theorem Inv.eq_of_key {s : Sys ι} (h : Inv s) {e e' : Entry ι} (he : e ∈ live s.log)
    (he' : e' ∈ live s.log) (hk : e.key = e'.key) : e = e' :=
  List.inj_on_of_nodup_map h.nodup he he' hk

theorem inv_call {s : Sys ι} {t : ι} {c : Call} (h : Inv s) (hc : c.Allowed t s.log) :
    Inv { s.setPc t (c.entry s.archive) with log := .call t c :: s.log } := by
  refine ⟨h.val, h.nodup, h.slot, ?_, ⟨trivial, h.log⟩⟩
  refine h.pc_setPc ?_ fun t' p' ht hp ↦ hp.cons_of_ne (Ne.symm ht)
  cases c with
  | put value => exact ⟨hc, .inl rfl⟩
  | get key | remove key => exact hc

/-- A value is put into a free slot. -/
theorem inv_put {s : Sys ι} {t : ι} {value i key : ℕ} {archive : LCMArchive} (h : Inv s)
    (hat : s.pc t = .putCas value i key) (hempty : s.archive.val key = LCMArchive.emptyVal)
    (hval : archive.val = Function.update s.archive.val key value) :
    Inv ((s.write t key value archive).ret t (.put t value key)) := by
  have hpc := h.pc t
  rw [hat] at hpc
  -- the slot is empty, so it is nobody's
  have hfree (e : Entry ι) (he : e ∈ live s.log) : e.key ≠ key := by
    rintro rfl
    obtain ⟨hslot, hne⟩ := h.slot e he
    exact hne (hslot.symm.trans hempty)
  refine ⟨?_, ?_, ?_, ?_, ⟨hfree, trivial, h.log⟩⟩
  · exact hval.trans (congrArg (Function.update · key value) h.val)
  · refine List.nodup_cons.mpr ⟨?_, h.nodup⟩
    rintro hmem
    obtain ⟨e, he, hk⟩ := List.mem_map.mp hmem
    exact hfree e he hk
  · intro e he
    have hread : archive.val e.key = Function.update s.archive.val key value e.key := by rw [hval]
    rcases List.mem_cons.mp he with rfl | he
    · exact ⟨hread.trans (Function.update_self ..), hpc.1⟩
    · rw [Function.update_of_ne (hfree e he)] at hread
      exact ⟨hread.trans (h.slot e he).1, (h.slot e he).2⟩
  · exact h.pc_setPc trivial fun t' p' ht hp ↦ hp.cons_write ht

/-- A slot is emptied by the thread that holds its key. -/
theorem inv_removed {s : Sys ι} {t : ι} {key val : ℕ} {archive : LCMArchive} (h : Inv s)
    (hat : s.pc t = .removeStore key val)
    (hval : archive.val = Function.update s.archive.val key LCMArchive.emptyVal) :
    Inv ((s.write t key LCMArchive.emptyVal archive).ret t (.removed t key val)) := by
  have hpc := h.pc t
  rw [hat] at hpc
  have hlive : { owner := t, key, val } ∈ live s.log := hpc
  have hsub : live (.removed t key val :: .write t key LCMArchive.emptyVal :: s.log) ⊆
      live s.log := List.filter_subset_self _
  refine ⟨?_, ?_, ?_, ?_, ⟨hlive, trivial, h.log⟩⟩
  · exact hval.trans (congrArg (Function.update · key LCMArchive.emptyVal) h.val)
  · exact h.nodup.sublist (List.filter_sublist.map _)
  · intro e he
    -- only the removed entry has this key
    have hkey : e.key ≠ key := by
      intro hk
      obtain rfl := h.eq_of_key (hsub he) hlive hk
      exact absurd he (by simp [live, Sys.ret, Sys.write])
    have hread : archive.val e.key
        = Function.update s.archive.val key LCMArchive.emptyVal e.key := by rw [hval]
    rw [Function.update_of_ne hkey] at hread
    exact ⟨hread.trans (h.slot e (hsub he)).1, (h.slot e (hsub he)).2⟩
  · exact h.pc_setPc trivial fun t' p' ht hp ↦ hp.cons_write ht

theorem inv_access {s s' : Sys ι} {t : ι} (h : Inv s) (ha : Access s t s') : Inv s' := by
  have hpc := h.pc t
  have hne {e : Event ι} (he : e.thread = t) (t' : ι) (p' : Pc) (ht : t' ≠ t)
      (hp : p'.Ok s.log t') : p'.Ok (e :: s.log) t' := hp.cons_of_ne (by rw [he]; exact Ne.symm ht)
  cases ha with
  | @again value _ _ _ _ _ hat hp =>
    have hput : value ≠ LCMArchive.emptyVal ∧ Clean t s.log := by
      rcases hat with hat | hat <;> rw [hat] at hpc <;> exact hpc
    refine ⟨h.val, h.nodup, h.slot, h.pc_setPc ?_ fun _ _ _ hp ↦ hp, h.log⟩
    rcases hp with rfl | rfl <;> exact hput
  | @retry value _ _ hat =>
    have hput : value ≠ LCMArchive.emptyVal ∧ Clean t s.log := by
      rcases hat with hat | hat <;> rw [hat] at hpc <;> exact hpc
    exact ⟨h.val, h.nodup, h.slot, h.pc_setPc trivial (hne rfl), ⟨hput.2, h.log⟩⟩
  | put hat hempty hval => exact inv_put h hat hempty hval
  | got hat =>
    rw [hat] at hpc
    obtain ⟨e, he, rfl, rfl⟩ := hpc
    refine ⟨h.val, h.nodup, h.slot, h.pc_setPc trivial (hne rfl), ⟨?_, h.log⟩⟩
    rw [(h.slot e he).1]
    exact he
  | removing hat =>
    rw [hat] at hpc
    obtain ⟨e, he, rfl, rfl⟩ := hpc
    refine ⟨h.val, h.nodup, h.slot, h.pc_setPc ?_ fun _ _ _ hp ↦ hp, h.log⟩
    rw [(h.slot e he).1]
    exact he
  | removed hat hval => exact inv_removed h hat hval

theorem inv_step {s s' : Sys ι} {a : Action ι} (h : Inv s) (hs : step s a = .ok s') : Inv s' := by
  cases a with
  | call t c =>
    rw [step] at hs
    split at hs
    · rename_i hc
      cases hs
      exact inv_call h hc.2
    · cases hs
  | access t => exact inv_access h (access_eq_ok hs)

theorem reachable_inv {nbits : ℕ} {s : Sys ι} (hs : (machine ι nbits).Reachable s) : Inv s := by
  refine hs.invariant (fun s h ↦ ?_) fun s a s' (h : Inv s) hstep ↦ inv_step (a := a) h hstep
  cases h
  exact ⟨rfl, List.nodup_nil, (fun e he ↦ by cases he), fun _ ↦ trivial, trivial⟩

/-- An entry stays live, with its value in its slot, in every step that is not the last one of its
owner removing it. -/
theorem live_step {s s' : Sys ι} {a : Action ι} (h : Inv s) (hs : step s a = .ok s') {e : Entry ι}
    (he : e ∈ live s.log) : e ∈ live s'.log ∧ s'.archive.val e.key = e.val ∨
      a = .access e.owner ∧ s.pc e.owner = .removeStore e.key e.val := by
  have hi := inv_step h hs
  suffices hmem : e ∈ live s'.log ∨ a = .access e.owner ∧ s.pc e.owner = .removeStore e.key e.val by
    exact hmem.imp_left fun he' ↦ ⟨he', (hi.slot e he').1⟩
  cases a with
  | call t c =>
    rw [step] at hs
    split at hs
    · cases hs
      exact .inl he
    · cases hs
  | access t =>
    have hpc := h.pc t
    cases access_eq_ok hs with
    | again | retry | got | removing => exact .inl he
    | put => exact .inl (List.mem_cons_of_mem _ he)
    | @removed key val archive hat _ =>
      rw [hat] at hpc
      have hpc' : { owner := t, key, val } ∈ live s.log := hpc
      by_cases hown : e.owner = t ∧ e.key = key
      · obtain rfl := h.eq_of_key he hpc' hown.2
        exact .inr ⟨rfl, hat⟩
      · exact .inl (List.mem_filter.mpr ⟨he, decide_eq_true hown⟩)

/-- **The archive is a correct key allocator.**  In every state that any interleaving of any number
of threads reaches without leaving the table:

* no key is in use twice, and the slot of a key in use holds the value that was put;
* every `get` and every `remove` in the log has returned the value put under its key;
* only the end of a `remove` by its owner takes an entry away, and no other step touches its slot;
* the slots hold what the log says was written, and a `put` that returned `LCM_RETRY` has written
  nothing. -/
theorem keys_allocated {nbits : ℕ} {s : Sys ι} (hs : (machine ι nbits).Reachable s) :
    (((live s.log).map (·.key)).Nodup ∧ ∀ e ∈ live s.log, s.archive.val e.key = e.val) ∧
    (∀ post pre t key val,
      s.log = post ++ .got t key val :: pre ∨ s.log = post ++ .removed t key val :: pre →
        { owner := t, key, val } ∈ live pre) ∧
    (∀ a s', step s a = .ok s' → ∀ e ∈ live s.log,
      e ∈ live s'.log ∧ s'.archive.val e.key = e.val ∨
        a = .access e.owner ∧ s.pc e.owner = .removeStore e.key e.val) ∧
    (s.archive.val = contents s.log ∧ ∀ post mid pre t value c,
      s.log = post ++ .retry t value :: (mid ++ .call t c :: pre) → (∀ c', .call t c' ∉ mid) →
        ∀ key val, .write t key val ∉ mid) := by
  have h := reachable_inv hs
  refine ⟨⟨h.nodup, fun e he ↦ (h.slot e he).1⟩, ?_,
    fun a s' hstep e he ↦ live_step h hstep he, h.val, ?_⟩
  · intro post pre t key val hlog
    have hok := h.log
    rcases hlog with hlog | hlog <;> rw [hlog] at hok <;> exact hok.of_append
  · intro post mid pre t value c hlog hmid
    have hok := h.log
    rw [hlog] at hok
    have hclean : Clean t (mid ++ .call t c :: pre) := hok.of_append
    exact hclean.of_append hmid

/-- Two threads whose values have the same first key: both read the empty slot, one of them wins the
swap, and the other one goes on to the next slot. -/
def race : List (Action Bool) :=
  [.call false (.put 64), .call true (.put 65), .access false, .access true, .access false,
   .access true, .access true, .access true, .call false (.get 1), .access false,
   .call false (.remove 1), .access false, .access false]

/-- The state it leads to. -/
def afterRace : Sys Bool :=
  (machine Bool 2).result { archive := (LCMArchive.init 2).2, pc := fun _ ↦ .idle, log := [] } race

theorem keys_allocated_race : live afterRace.log = [{ owner := true, key := 2, val := 65 }] ∧
    afterRace.archive.val 2 = 65 := by
  have hlive : live afterRace.log = [{ owner := true, key := 2, val := 65 }] := by decide
  have hs : (machine Bool 2).Reachable afterRace := Machine.reachable_result (.init rfl) race
  have hval := (keys_allocated hs).1.2 { owner := true, key := 2, val := 65 } (by rw [hlive]; simp)
  exact ⟨hlive, hval⟩

end ArchiveThreads

end IbvBench
