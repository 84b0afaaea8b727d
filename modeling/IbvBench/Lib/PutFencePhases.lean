import IbvBench.Lib.PutFenceJob
import Mathlib.Data.List.Nodup

/-!
# Scripts that put, fence and then get

The usual way to exchange values: each process puts what it has, there is a fence, and behind it each
process asks for what it needs.

`Phases.script` is the `Script` that it makes when no key is put twice, and all that is asked for is
put.
-/

set_option autoImplicit false

namespace PutFence

variable {n : ℕ} {X K V β : Type}

/-- The key that is put. -/
def Op.putKey : Op X K V → Option K
  | .put key _ => some key
  | _ => none

/-- What the processes do before the first fence, and behind it. -/
structure Phases (n : ℕ) (P : Protocol X K V β) where
  before : Fin n → List (Op X K V)
  after : Fin n → List (Op X K V)
  ok : ∀ r, ∀ op ∈ before r ++ .fence :: after r, P.Ok op
  noFence : ∀ r, ∀ op ∈ before r, op.isFence = false
  noGet : ∀ r, ∀ op ∈ before r, op.asked = none
  noPut : ∀ r, ∀ op ∈ after r, op.putKey = none
  fences : ∀ r q, (after r).countP Op.isFence = (after q).countP Op.isFence
  /-- No key is put twice. -/
  once : ((List.finRange n).flatMap fun r ↦ (before r).filterMap Op.putKey).Nodup
  /-- What is asked for is put. -/
  settled : ∀ {r key}, .get key ∈ after r → ∃ q v, .put key v ∈ before q

namespace Phases

variable {P : Protocol X K V β} (p : Phases n P)

/-- All that a process does. -/
def ops (r : Fin n) : List (Op X K V) := p.before r ++ .fence :: p.after r

section

variable {p} {r q : Fin n} {i : ℕ} {op : Op X K V} {key : K} {v : V}

/-- A pair is put in front of the fence. -/
theorem isAt_put (h : IsAt p.ops r i (.put key v)) :
    i < (p.before r).length ∧ (p.before r)[i]? = some (.put key v) := by
  rcases Nat.lt_or_ge i (p.before r).length with hlt | hge
  · rw [IsAt, ops, List.getElem?_append_left hlt] at h
    exact ⟨hlt, h⟩
  · rw [IsAt, ops, List.getElem?_append_right hge] at h
    rcases List.mem_cons.mp (List.mem_of_getElem? h) with he | hmem
    · cases he
    · exact absurd (p.noPut r _ hmem) (by rintro ⟨⟩)

/-- Values are asked for behind it. -/
theorem isAt_get (h : IsAt p.ops r i (.get key)) :
    (p.before r).length < i ∧ .get key ∈ p.after r := by
  rcases Nat.lt_or_ge i (p.before r).length with hlt | hge
  · rw [IsAt, ops, List.getElem?_append_left hlt] at h
    exact absurd (p.noGet r _ (List.mem_of_getElem? h)) (by rintro ⟨⟩)
  · rw [IsAt, ops, List.getElem?_append_right hge] at h
    obtain ⟨d, rfl⟩ := Nat.exists_eq_add_of_le hge
    rw [Nat.add_sub_cancel_left] at h
    rcases d with _ | d
    · cases h
    · exact ⟨Nat.lt_add_of_pos_right (Nat.succ_pos d), List.mem_of_getElem? h⟩

/-- There is no fence in front of the first one, -/
theorem fencesBefore_before (h : i ≤ (p.before r).length) : fencesBefore (p.ops r) i = 0 := by
  rw [fencesBefore, ops, List.take_append_of_le_length h, List.countP_eq_zero]
  intro op hop
  rw [p.noFence r op (List.mem_of_mem_take hop)]
  exact Bool.false_ne_true

/-- and one at least behind it. -/
theorem fencesBefore_after (h : (p.before r).length < i) : 0 < fencesBefore (p.ops r) i := by
  have hat : IsAt p.ops r (p.before r).length .fence := by
    rw [IsAt, ops, List.getElem?_append_right (Nat.le_refl _), Nat.sub_self]
    rfl
  have hone := fencesBefore_succ hat
  have hmono : fencesBefore (p.ops r) ((p.before r).length + 1) ≤ fencesBefore (p.ops r) i :=
    fencesBefore_mono _ h
  rw [hone] at hmono
  exact Nat.lt_of_lt_of_le (Nat.succ_pos _) hmono

/-- Where there is a put of a key is where it is put. -/
theorem index_unique {l : List (Op X K V)} (h : (l.filterMap Op.putKey).Nodup) {j : ℕ} {w : V}
    (hi : l[i]? = some (.put key v)) (hj : l[j]? = some (.put key w)) : i = j := by
  rw [List.Nodup, List.pairwise_filterMap, List.pairwise_iff_getElem] at h
  obtain ⟨hilt, hi⟩ := List.getElem?_eq_some_iff.mp hi
  obtain ⟨hjlt, hj⟩ := List.getElem?_eq_some_iff.mp hj
  rcases Nat.lt_trichotomy i j with hlt | heq | hgt
  · exact absurd rfl (h i j hilt hjlt hlt key (by rw [hi]; rfl) key (by rw [hj]; rfl))
  · exact heq
  · exact absurd rfl (h j i hjlt hilt hgt key (by rw [hj]; rfl) key (by rw [hi]; rfl))

theorem once_isAt {j : ℕ} {w : V} (h : IsAt p.ops r i (.put key v))
    (h' : IsAt p.ops q j (.put key w)) : r = q ∧ i = j := by
  have hi := (isAt_put h).2
  have hj := (isAt_put h').2
  have hkey {r : Fin n} {i : ℕ} {v : V} (h : (p.before r)[i]? = some (.put key v)) :
      key ∈ (p.before r).filterMap Op.putKey :=
    List.mem_filterMap.mpr ⟨_, List.mem_of_getElem? h, rfl⟩
  obtain ⟨hone, hdisjoint⟩ := List.nodup_flatMap.mp p.once
  have hrq : r = q := by
    by_contra hne
    have hsymm : Std.Symm (Function.onFun List.Disjoint fun r ↦
        (p.before r).filterMap Op.putKey) := ⟨fun _ _ h ↦ h.symm⟩
    exact hdisjoint.forall (List.mem_finRange r) (List.mem_finRange q) hne (hkey hi) (hkey hj)
  subst hrq
  exact ⟨rfl, index_unique (hone r (List.mem_finRange r)) hi hj⟩

end

/-- **The script of the two phases.** -/
def script : Script n P where
  ops := p.ops
  ok := p.ok
  fences r q := by
    have hbefore (r : Fin n) : (p.before r).countP Op.isFence = 0 := by
      rw [List.countP_eq_zero]
      intro op hop
      rw [p.noFence r op hop]
      exact Bool.false_ne_true
    rw [ops, ops, List.countP_append, List.countP_append, hbefore, hbefore, List.countP_cons,
      List.countP_cons, p.fences r q]
  once := once_isAt
  settled h := by
    obtain ⟨hlt, hmem⟩ := isAt_get h
    obtain ⟨q, v, hput⟩ := p.settled hmem
    obtain ⟨j, hjlt, hj⟩ := List.mem_iff_getElem.mp hput
    refine ⟨q, j, v, ?_, ?_⟩
    · rw [IsAt, ops, List.getElem?_append_left hjlt, List.getElem?_eq_getElem hjlt, hj]
    · rw [fencesBefore_before (Nat.le_of_lt hjlt)]
      exact fencesBefore_after hlt

end Phases

end PutFence
