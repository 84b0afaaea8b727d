import IbvBench.Lib.CString
import IbvBench.Lib.StepMachine
import Mathlib.Tactic.Ring

/-!
# Bounded copies

`MPIU_Strncpy`, which both PMI clients have.  A block of memory is a list, and a write that is not
inside the block is a fault; the `int` that counts down is an integer, and no caller passes a size
that is none.

`MPIU_Strncpy_eq` says what the block holds afterwards, and so that no write was outside.
-/

set_option autoImplicit false

namespace IbvBench

open StepMachine

/-- What can go wrong in the PMI clients. -/
inductive WireFault where
  /-- A block was read or written past its end. -/
  | overrun
  /-- Memory was read that nothing had been written to. -/
  | uninitialised
  /-- A pointer that came over the wire was written to. -/
  | wildPointer
  /-- The process manager was asked to abort the job. -/
  | aborted
  deriving DecidableEq, Repr

abbrev Wire (α : Type) := Comp WireFault α

/-- `block[i] = c` -/
def store (block : List Char) (i : ℕ) (c : Char) : Wire (List Char) :=
  if i < block.length then .ok (block.set i c) else .error (.fault .overrun)

/-- A local array, with whatever the memory holds. -/
def localArray (junk : ℕ → Char) (size : ℕ) : List Char := (List.range size).map junk

/-- The characters of the string in a block. -/
def text (block : List Char) : Option (List Char) := (cstr block).map CString.chars

/-- The loop `while (*s_ptr && i-- > 0) *d_ptr++ = *s_ptr++`, where `d_ptr` is `dest + d`: the last
values of `i` and `d`, and the block. -/
def copyLoop : (src : List Char) → (i : ℤ) → (d : ℕ) → (dest : List Char) →
    Wire (ℤ × ℕ × List Char)
  | [], _, _, _ => .error (.fault .overrun)
  | c :: src, i, d, dest =>
    if c = nul then .ok (i, d, dest)
    else if 0 < i then do
      let dest ← store dest d c
      copyLoop src (i - 1) (d + 1) dest
    else .ok (i - 1, d, dest)

/-- `MPIU_Strncpy`: the block, and what is returned. -/
def MPIU_Strncpy (dest src : List Char) (n : ℕ) : Wire (List Char × ℤ) :=
  if n = 0 then .ok (dest, 0)
  else do
    let (i, d, dest) ← copyLoop src n 0 dest
    if 0 < i then do
      let dest ← store dest d nul
      .ok (dest, 0)
    else do
      let dest ← store dest (n - 1) nul
      .ok (dest, 1)

section

variable {pre old chars rest : List Char}

theorem store_append {c b : Char} : store (pre ++ b :: rest) pre.length c = .ok (pre ++ c :: rest) := by
  have hlt : pre.length < (pre ++ b :: rest).length := by
    rw [List.length_append, List.length_cons]
    omega
  rw [store, if_pos hlt, List.set_append_right _ _ (Nat.le_refl _), Nat.sub_self]
  rfl

theorem text_append (hchars : nul ∉ chars) : text (chars ++ nul :: rest) = some chars := by
  have h := cstr_buf_append ⟨chars, hchars⟩ rest
  rw [CString.buf, List.append_assoc, List.singleton_append] at h
  rw [text, h]
  rfl

theorem eq_of_text {block : List Char} (h : text block = some chars) :
    nul ∉ chars ∧ ∃ rest, block = chars ++ nul :: rest := by
  obtain ⟨s, hs, rfl⟩ := Option.map_eq_some_iff.mp h
  obtain ⟨rest, hrest⟩ := eq_of_cstr hs
  refine ⟨s.nul_notMem, rest, ?_⟩
  rw [hrest, CString.buf, List.append_assoc, List.singleton_append]

/-- The last character is overwritten. -/
theorem store_last {l : List Char} (hl : l ≠ []) (c : Char) :
    store (l ++ rest) (l.length - 1) c = .ok (l.take (l.length - 1) ++ c :: rest) := by
  obtain ⟨l, b, rfl⟩ := (List.eq_nil_or_concat' l).resolve_left hl
  have hlen : (l ++ [b]).length - 1 = l.length := by
    rw [List.length_append, List.length_singleton, Nat.add_sub_cancel]
  rw [hlen, List.append_assoc, List.singleton_append, store_append, List.take_left]

/-- What the loop copies is behind what was there already: all of the string, or as much as it was
told to. -/
theorem copyLoop_eq (hchars : nul ∉ chars) {i : ℕ} (hroom : min chars.length i ≤ old.length) :
    copyLoop (chars ++ nul :: rest) i pre.length (pre ++ old) =
      if chars.length ≤ i then
        .ok (i - chars.length, pre.length + chars.length,
          pre ++ chars ++ old.drop chars.length)
      else .ok (-1, pre.length + i, pre ++ chars.take i ++ old.drop i) := by
  induction chars generalizing i pre old with
  | nil => simp [copyLoop]
  | cons c chars ih =>
    have hc : c ≠ nul := fun he ↦ hchars (by rw [he]; exact List.mem_cons_self)
    have hrest : nul ∉ chars := fun hm ↦ hchars (List.mem_cons_of_mem _ hm)
    rw [List.cons_append, copyLoop, if_neg hc]
    rcases i with _ | i
    · simp
    · rcases old with _ | ⟨b, old⟩
      · rw [List.length_cons, List.length_nil] at hroom
        omega
      · rw [List.length_cons, List.length_cons] at hroom
        have hih := @ih (pre ++ [c]) old hrest i (by omega)
        have hi : ((i + 1 : ℕ) : ℤ) - 1 = (i : ℕ) := by omega
        rw [List.append_assoc, List.singleton_append, List.length_append,
          List.length_singleton] at hih
        rw [if_pos (by omega), store_append, ok_bind, hi, hih]
        simp only [List.length_cons, Nat.add_le_add_iff_right, List.append_assoc,
          List.cons_append, List.nil_append, List.drop_succ_cons, List.take_succ_cons]
        split
        · rename_i hle
          congr 2
          · push_cast
            ring
          · congr 1
            omega
        · congr 3
          omega

end

/-- **The copy is a terminated string inside the first `n` characters of the block**: all of the
source if it is shorter than that, and otherwise its begin, which is reported. -/
theorem MPIU_Strncpy_eq {chars dest rest : List Char} {n : ℕ} (hchars : nul ∉ chars) (hn : 0 < n)
    (hdest : n ≤ dest.length) :
    MPIU_Strncpy dest (chars ++ nul :: rest) n =
      if chars.length < n then .ok (chars ++ nul :: dest.drop (chars.length + 1), 0)
      else .ok (chars.take (n - 1) ++ nul :: dest.drop n, 1) := by
  have hroom : min chars.length n ≤ dest.length := Nat.le_trans (Nat.min_le_right _ _) hdest
  have hloop := @copyLoop_eq [] dest chars rest hchars n hroom
  simp only [List.length_nil, List.nil_append, Nat.zero_add] at hloop
  rw [MPIU_Strncpy, if_neg (Nat.ne_of_gt hn), hloop]
  rcases Nat.lt_trichotomy chars.length n with hlt | heq | hgt
  · have hpos : (0 : ℤ) < (n : ℤ) - chars.length := by omega
    obtain ⟨b, hb⟩ : ∃ b, dest.drop chars.length = b :: dest.drop (chars.length + 1) :=
      ⟨_, List.drop_eq_getElem_cons (Nat.lt_of_lt_of_le hlt hdest)⟩
    rw [if_pos (Nat.le_of_lt hlt), ok_bind]
    dsimp only
    rw [if_pos hpos, hb, store_append, ok_bind, if_pos hlt]
  · have hzero : ¬ (0 : ℤ) < (n : ℤ) - chars.length := by omega
    have hne : chars ≠ [] := by
      rintro rfl
      exact Nat.ne_of_gt hn heq.symm
    rw [if_pos (Nat.le_of_eq heq), ok_bind]
    dsimp only
    rw [if_neg hzero, ← heq, store_last hne, ok_bind, if_neg (Nat.lt_irrefl _)]
  · have hlen : (chars.take n).length = n := List.length_take_of_le (Nat.le_of_lt hgt)
    have hne : chars.take n ≠ [] := by
      intro hnil
      rw [hnil] at hlen
      exact Nat.ne_of_gt hn hlen.symm
    have hstore := @store_last (dest.drop n) _ hne nul
    rw [hlen, List.take_take, Nat.min_eq_left (Nat.sub_le n 1)] at hstore
    rw [if_neg (Nat.not_le.mpr hgt), ok_bind]
    dsimp only
    rw [if_neg (by decide), hstore, ok_bind, if_neg (Nat.lt_asymm hgt)]

end IbvBench
