import IbvBench.Lib.PutFencePhases
import IbvBench.Pmi.InitExchange

/-!
# What `init` exchanges over a process manager

Over PMI-1 and over PMI-2 the program puts and gets the same pairs in the same order.  What it
exchanges besides, and where a process takes its own rank from, is different: a `Dialogue` says what.

* `Dialogue.phases` — everything from the first exchange of `PMI_Init` to the last one of
  `PMI_Finalize`: the two loops of `init` and its barriers, and then the benchmark, which asks for
  the number of ranks again and comes to as many barriers as it has.
* `Dialogue.exchange` — any client and any server that keep to their protocol get it done, when each
  process has taken the rank that it has.
-/

set_option autoImplicit false

namespace IbvBench

open PutFence

/-- `%d` -/
def intText (x : ℤ) : List Char :=
  if x < 0 then '-' :: Nat.toDigits 10 x.natAbs else Nat.toDigits 10 x.natAbs

/-- `"ibvBench_%d_%d"`, for two ints. -/
def intKeyText (fromRank toRank : ℤ) : List Char :=
  "ibvBench_".toList ++ (intText fromRank ++ '_' :: intText toRank)

theorem intText_natCast (n : ℕ) : intText n = Nat.toDigits 10 n := by
  rw [intText, if_neg (Int.not_lt.mpr (Int.natCast_nonneg n)), Int.natAbs_natCast]

theorem intKeyText_natCast (fromRank toRank : ℕ) :
    intKeyText fromRank toRank = keyText fromRank toRank := by
  unfold intKeyText keyText
  rw [intText_natCast, intText_natCast]

/-- What is exchanged besides the pairs. -/
structure Dialogue (n : ℕ) (X : Type) where
  /-- What `lcm_pm_get_rank` returns. -/
  rank : Fin n → BitVec 32
  opening : Fin n → List X
  /-- In front of each pair that is put, and of each that is asked for. -/
  naming : List X
  /-- For `lcm_pm_get_size` in the benchmark. -/
  sizing : List X
  closing : List X

namespace Dialogue

variable {n : ℕ} {X : Type} (d : Dialogue n X) (job : Job n) (barriers : ℕ)

/-- Exchanges that are about no pair. -/
def others (l : List X) : List (Op X (List Char) (List Char)) := l.map .other

/-- The first loop of `init`. -/
def putOps (r : Fin n) : List (Op X (List Char) (List Char)) :=
  (List.finRange n).flatMap fun i : Fin n ↦
    others d.naming ++ [.put (intKeyText (d.rank r).toInt i) (job.endpoint r i).text]

/-- The second one. -/
def getOps (r : Fin n) : List (Op X (List Char) (List Char)) :=
  (List.finRange n).flatMap fun i : Fin n ↦
    others d.naming ++ [.get (intKeyText i (d.rank r).toInt)]

/-- What the benchmark does behind `init`, up to `finalize`. -/
def runOps : List (Op X (List Char) (List Char)) :=
  others d.sizing ++ (List.replicate barriers .fence ++ others d.closing)

/-- What rank `r` does up to the barrier behind the first loop of `init`. -/
def publishOps (r : Fin n) : List (Op X (List Char) (List Char)) :=
  others (d.opening r) ++ d.putOps job r

/-- What it does behind it: there is another barrier behind the second loop. -/
def connectOps (r : Fin n) : List (Op X (List Char) (List Char)) :=
  d.getOps r ++ .fence :: d.runOps barriers

/-- All of it. -/
def ops (r : Fin n) : List (Op X (List Char) (List Char)) :=
  d.publishOps job r ++ .fence :: d.connectOps barriers r

/-- Each process takes itself for the rank that it is. -/
def Ranked : Prop := ∀ r : Fin n, (d.rank r).toInt = r

section

variable {d job barriers} {r : Fin n} {op : Op X (List Char) (List Char)} {l : List X}

theorem mem_others (h : op ∈ others l) : ∃ x ∈ l, op = .other x := by
  obtain ⟨x, hx, rfl⟩ := List.mem_map.mp h
  exact ⟨x, hx, rfl⟩

theorem ranked_of_ofNat (hrank : ∀ r : Fin n, d.rank r = .ofNat 32 r) (job : Job n) :
    d.Ranked := by
  intro r
  have hint := Nat.lt_trans r.isLt job.nranks_int
  rw [hrank, BitVec.toInt_eq_toNat_of_lt, BitVec.toNat_ofNat, Nat.mod_eq_of_lt (by omega)]
  rw [BitVec.toNat_ofNat, Nat.mod_eq_of_lt (by omega)]
  omega

/-- The keys that the first loop puts then, -/
theorem putOps_eq (hrank : d.Ranked) (r : Fin n) :
    d.putOps job r = (List.finRange n).flatMap fun i : Fin n ↦
      others d.naming ++ [.put (keyText r i) (job.endpoint r i).text] := by
  simp only [putOps, hrank r, intKeyText_natCast]

/-- and those that the second one asks for. -/
theorem getOps_eq (hrank : d.Ranked) (r : Fin n) :
    d.getOps r = (List.finRange n).flatMap fun i : Fin n ↦
      others d.naming ++ [.get (keyText i r)] := by
  simp only [getOps, hrank r, intKeyText_natCast]

theorem mem_putOps (hrank : d.Ranked) (h : op ∈ d.putOps job r) :
    (∃ x ∈ d.naming ++ d.sizing ++ d.closing, op = .other x) ∨
      ∃ i : Fin n, op = .put (keyText r i) (job.endpoint r i).text := by
  rw [putOps_eq hrank] at h
  obtain ⟨i, -, h⟩ := List.mem_flatMap.mp h
  rcases List.mem_append.mp h with h | h
  · obtain ⟨x, hx, rfl⟩ := mem_others h
    exact .inl ⟨x, by simp [hx], rfl⟩
  · exact .inr ⟨i, List.mem_singleton.mp h⟩

theorem mem_publishOps (hrank : d.Ranked) (h : op ∈ d.publishOps job r) :
    (∃ x ∈ d.opening r ++ (d.naming ++ d.sizing ++ d.closing), op = .other x) ∨
      ∃ i : Fin n, op = .put (keyText r i) (job.endpoint r i).text := by
  rcases List.mem_append.mp h with h | h
  · obtain ⟨x, hx, rfl⟩ := mem_others h
    exact .inl ⟨x, List.mem_append_left _ hx, rfl⟩
  · exact (mem_putOps hrank h).imp_left fun ⟨x, hx, heq⟩ ↦ ⟨x, List.mem_append_right _ hx, heq⟩

theorem mem_runOps (h : op ∈ d.runOps barriers) :
    (∃ x ∈ d.naming ++ d.sizing ++ d.closing, op = .other x) ∨ op = .fence := by
  rcases List.mem_append.mp h with h | h
  · obtain ⟨x, hx, rfl⟩ := mem_others h
    exact .inl ⟨x, by simp [hx], rfl⟩
  · rcases List.mem_append.mp h with h | h
    · exact .inr (List.eq_of_mem_replicate h)
    · obtain ⟨x, hx, rfl⟩ := mem_others h
      exact .inl ⟨x, by simp [hx], rfl⟩

theorem mem_connectOps (hrank : d.Ranked) (h : op ∈ d.connectOps barriers r) :
    (∃ x ∈ d.naming ++ d.sizing ++ d.closing, op = .other x) ∨ op = .fence ∨
      ∃ i : Fin n, op = .get (keyText i r) := by
  rcases List.mem_append.mp h with h | h
  · rw [getOps_eq hrank] at h
    obtain ⟨i, -, h⟩ := List.mem_flatMap.mp h
    rcases List.mem_append.mp h with h | h
    · obtain ⟨x, hx, rfl⟩ := mem_others h
      exact .inl ⟨x, by simp [hx], rfl⟩
    · exact .inr (.inr ⟨i, List.mem_singleton.mp h⟩)
  · rcases List.mem_cons.mp h with rfl | h
    · exact .inr (.inl rfl)
    · exact (mem_runOps h).imp_right .inl

theorem put_mem_publishOps (hrank : d.Ranked) (r i : Fin n) :
    .put (keyText r i) (job.endpoint r i).text ∈ d.publishOps job r := by
  rw [publishOps, putOps_eq hrank]
  exact List.mem_append_right _ (List.mem_flatMap.mpr ⟨i, List.mem_finRange i,
    List.mem_append_right _ (List.mem_singleton_self _)⟩)

/-- What a rank does first, and what it does then. -/
theorem ops_eq (r : Fin n) : d.ops job barriers r =
    others (d.opening r) ++ (d.putOps job r ++ .fence :: d.connectOps barriers r) := by
  rw [ops, publishOps, List.append_assoc]

theorem mem_ops_of_opening {x : X} (h : x ∈ d.opening r) : .other x ∈ d.ops job barriers r := by
  rw [ops_eq]
  exact List.mem_append_left _ (List.mem_map_of_mem h)

/-- The exchanges of `PMI_Init` are not repeated. -/
theorem mem_ops_behind (hrank : d.Ranked)
    (h : op ∈ d.putOps job r ++ .fence :: d.connectOps barriers r) :
    (∃ x ∈ d.naming ++ d.sizing ++ d.closing, op = .other x) ∨ ∀ x, op ≠ .other x := by
  rcases List.mem_append.mp h with h | h
  · refine (mem_putOps hrank h).imp_right ?_
    rintro ⟨i, rfl⟩ x hx
    cases hx
  · rcases List.mem_cons.mp h with rfl | h
    · exact .inr fun x hx ↦ by cases hx
    · refine (mem_connectOps hrank h).imp_right ?_
      rintro (rfl | ⟨i, rfl⟩) x hx <;> cases hx

/-! ### The keys -/

theorem filterMap_others {α : Type} {f : Op X (List Char) (List Char) → Option α}
    (hf : ∀ x, f (.other x) = none) (l : List X) : (others l).filterMap f = [] := by
  rw [List.filterMap_eq_nil_iff]
  intro op hop
  obtain ⟨x, -, rfl⟩ := mem_others hop
  exact hf x

theorem filterMap_publishOps (hrank : d.Ranked) (r : Fin n) :
    (d.publishOps job r).filterMap Op.putKey =
      (List.finRange n).map fun i : Fin n ↦ keyText r i := by
  rw [publishOps, putOps_eq hrank, List.filterMap_append, filterMap_others fun _ ↦ rfl,
    List.nil_append, List.filterMap_flatMap, List.map_eq_flatMap]
  refine List.flatMap_congr fun i _ ↦ ?_
  rw [List.filterMap_append, filterMap_others fun _ ↦ rfl]
  rfl

theorem filterMap_ops (hrank : d.Ranked) (r : Fin n) :
    (d.ops job barriers r).filterMap Op.asked =
      (List.finRange n).map fun i : Fin n ↦ keyText i r := by
  have hpublish : (d.publishOps job r).filterMap Op.asked = [] := by
    rw [List.filterMap_eq_nil_iff]
    intro op hop
    rcases mem_publishOps hrank hop with ⟨x, -, rfl⟩ | ⟨i, rfl⟩ <;> rfl
  have hrun : (d.runOps barriers).filterMap Op.asked = [] := by
    rw [List.filterMap_eq_nil_iff]
    intro op hop
    rcases mem_runOps hop with ⟨x, -, rfl⟩ | rfl <;> rfl
  rw [ops, List.filterMap_append, hpublish, List.nil_append, List.filterMap_cons_none rfl,
    connectOps, getOps_eq hrank, List.filterMap_append, List.filterMap_cons_none rfl, hrun,
    List.append_nil, List.filterMap_flatMap, List.map_eq_flatMap]
  refine List.flatMap_congr fun i _ ↦ ?_
  rw [List.filterMap_append, filterMap_others fun _ ↦ rfl]
  rfl

/-- No key is put twice. -/
theorem nodup_putKeys (hrank : d.Ranked) :
    ((List.finRange n).flatMap fun r ↦ (d.publishOps job r).filterMap Op.putKey).Nodup := by
  simp only [filterMap_publishOps hrank]
  rw [List.nodup_flatMap]
  constructor
  · intro r _
    exact (List.nodup_finRange n).map fun i j h ↦ Fin.ext (keyText_inj h).2
  · refine (List.nodup_finRange n).imp fun hne ↦ ?_
    intro key h h'
    obtain ⟨i, -, rfl⟩ := List.mem_map.mp h
    obtain ⟨j, -, heq⟩ := List.mem_map.mp h'
    exact hne (Fin.ext (keyText_inj heq).1.symm)

end

/-! ## The script -/

/-- The protocol has requests for all of it. -/
structure Speakable (P : Protocol X (List Char) (List Char) Char) : Prop where
  ranked : d.Ranked
  other : ∀ r, ∀ x ∈ d.opening r ++ (d.naming ++ d.sizing ++ d.closing), P.Ok (.other x)
  put : ∀ r i : Fin n, P.Ok (.put (keyText r i) (job.endpoint r i).text)
  fence : P.Ok .fence
  get : ∀ r i : Fin n, P.Ok (.get (keyText i r))

variable {P : Protocol X (List Char) (List Char) Char}

/-- What all ranks do. -/
def phases (h : d.Speakable job P) : Phases n P where
  before := d.publishOps job
  after := d.connectOps barriers
  ok r op hop := by
    rcases List.mem_append.mp hop with hop | hop
    · rcases mem_publishOps h.ranked hop with ⟨x, hx, rfl⟩ | ⟨i, rfl⟩
      · exact h.other r x hx
      · exact h.put r i
    · rcases List.mem_cons.mp hop with rfl | hop
      · exact h.fence
      · rcases mem_connectOps h.ranked hop with ⟨x, hx, rfl⟩ | rfl | ⟨i, rfl⟩
        · exact h.other r x (List.mem_append_right _ hx)
        · exact h.fence
        · exact h.get r i
  noFence r op hop := by
    rcases mem_publishOps h.ranked hop with ⟨x, -, rfl⟩ | ⟨i, rfl⟩ <;> rfl
  noGet r op hop := by
    rcases mem_publishOps h.ranked hop with ⟨x, -, rfl⟩ | ⟨i, rfl⟩ <;> rfl
  noPut r op hop := by
    rcases mem_connectOps h.ranked hop with ⟨x, -, rfl⟩ | rfl | ⟨i, rfl⟩ <;> rfl
  fences r q := by
    have hloop (r : Fin n) : (d.getOps r).countP Op.isFence = 0 := by
      rw [List.countP_eq_zero]
      intro op hop
      obtain ⟨i, -, hop⟩ := List.mem_flatMap.mp hop
      rcases List.mem_append.mp hop with hop | hop
      · obtain ⟨x, -, rfl⟩ := mem_others hop
        exact Bool.false_ne_true
      · rw [List.mem_singleton.mp hop]
        exact Bool.false_ne_true
    simp only [connectOps, List.countP_append, hloop]
  once := nodup_putKeys h.ranked
  settled {r key} hget := by
    rcases mem_connectOps h.ranked hget with ⟨x, -, hx⟩ | hx | ⟨i, hx⟩
    · cases hx
    · cases hx
    · injection hx with hkey
      rw [hkey]
      exact ⟨i, _, put_mem_publishOps h.ranked i r⟩

variable {d job barriers} {h : d.Speakable job P}

/-- What is put under the key of two ranks. -/
theorem puts_eq {r i : Fin n} {v : List Char}
    (hputs : (d.phases job barriers h).script.Puts (keyText i r) v) :
    v = (job.endpoint i r).text := by
  obtain ⟨q, j, hat⟩ := hputs
  have hmem : .put (keyText i r) v ∈ d.publishOps job q :=
    List.mem_of_getElem? (Phases.isAt_put hat).2
  rcases mem_publishOps h.ranked hmem with ⟨x, -, hx⟩ | ⟨i', hx⟩
  · cases hx
  · injection hx with hkey hvalue
    obtain ⟨hi, hr⟩ := keyText_inj hkey
    obtain rfl := Fin.ext hi
    obtain rfl := Fin.ext hr
    exact hvalue

/-- **Each rank has been given the end points** that the others have published for it. -/
theorem got_eq {r : Fin n} {got : List (List Char)}
    (hgot : List.Forall₂ (d.phases job barriers h).script.Puts
      (((d.phases job barriers h).script.ops r).filterMap Op.asked) got) :
    got = (List.finRange n).map fun i ↦ (job.endpoint i r).text := by
  have hasked : ((d.phases job barriers h).script.ops r).filterMap Op.asked =
      (List.finRange n).map fun i : Fin n ↦ keyText i r := filterMap_ops h.ranked r
  rw [hasked, List.forall₂_map_left_iff] at hgot
  rw [← List.forall₂_eq_eq_eq, List.forall₂_map_right_iff]
  exact hgot.flip.imp fun v i hputs ↦ puts_eq hputs

/-- How many exchanges a rank makes. -/
theorem length_ops (r : Fin n) : ((d.phases job barriers h).script.ops r).length =
    (d.opening r).length + 2 * n * (d.naming.length + 1) + barriers + 2 + d.sizing.length +
      d.closing.length := by
  show (d.publishOps job r ++ .fence :: d.connectOps barriers r).length = _
  simp only [publishOps, connectOps, putOps, getOps, runOps, others, List.length_append,
    List.length_cons, List.length_map, List.length_flatMap, List.length_replicate, List.length_nil,
    List.map_const', List.length_finRange, List.sum_replicate_nat, Nat.zero_add]
  ring

/-! ## The job -/

/-- **The exchange**, for a client that keeps to the protocol and a server that does, and in
whatever order the ranks take their steps: no step goes wrong, every run comes to an end after the
same number of messages, and then each rank has been given its end points. -/
theorem exchange {φ : Type} {C : Client X (List Char) (List Char) Char φ} {S : Server n P}
    (W : Fin n → C.Speaks P) {state : Fin n → C.State}
    (hidle : ∀ r, (W r).Idle ((d.phases job barriers h).script.ops r) (state r)) {k : ℕ}
    (hopening : ∀ r, (d.opening r).length = k) :
    (∀ j, ((d.phases job barriers h).script.machine C S state).Reachable j →
        ∀ r f, ((d.phases job barriers h).script.machine C S state).step j r ≠ .error (.fault f)) ∧
      ((d.phases job barriers h).script.machine C S state).EndsAfter
        ((d.phases job barriers h).script.start C S state)
        (n * (2 * (k + 2 * n * (d.naming.length + 1) + barriers + 2 + d.sizing.length +
          d.closing.length)))
        (fun j ↦ ∀ r, (j.rank r).ops = [] ∧ (W r).Idle [] (j.rank r).state ∧
          (j.rank r).got = (List.finRange n).map fun i ↦ (job.endpoint i r).text) := by
  constructor
  · intro j hj
    exact (Script.reachable_inv W hidle hj).2
  · have hends := Script.endsAfter (S := S) W hidle
    have hmessages : (d.phases job barriers h).script.messages =
        n * (2 * (k + 2 * n * (d.naming.length + 1) + barriers + 2 + d.sizing.length +
          d.closing.length)) := by
      simp only [Script.messages, length_ops, hopening, Finset.sum_const, Finset.card_univ,
        Fintype.card_fin, smul_eq_mul]
    rw [hmessages] at hends
    refine ⟨hends.bound, hends.extend, fun as s' hrun hlen r ↦ ?_⟩
    obtain ⟨hops, hstate, hgot⟩ := hends.final as s' hrun hlen r
    exact ⟨hops, hstate, got_eq hgot⟩

end Dialogue

end IbvBench
