import Mathlib.Data.List.Basic
import Mathlib.Tactic.Common

/-!
# C strings in blocks of memory

A pointer to characters is modelled by what follows it up to the end of its block, as a list.  The
functions of `string.h` are then partial functions on such lists, undefined where the C function
would read or write past the end of a block.

* `CString` — a string proper: characters, none of them the terminator.
* `cstr` — the string at a pointer, if it is terminated inside its block.
* `strcpy`, `memcpy` — the block that is written to, afterwards.

The lemmas say what a block holds after it has been written to, and that `memcpy` of consecutive
pieces concatenates them.
-/

set_option autoImplicit false

/-- The terminator. -/
def nul : Char := Char.ofNat 0

/-- A string: characters other than the terminator. -/
structure CString where
  chars : List Char
  nul_notMem : nul ∉ chars
  deriving DecidableEq

namespace CString

/-- `strlen`. -/
def length (s : CString) : ℕ := s.chars.length

/-- The string with its terminator. -/
def buf (s : CString) : List Char := s.chars ++ [nul]

/-- The string of one character. -/
def single (c : Char) (h : c ≠ nul) : CString := ⟨[c], fun hm ↦ h (List.mem_singleton.mp hm).symm⟩

theorem ext {s t : CString} (h : s.chars = t.chars) : s = t := by
  cases s
  cases t
  cases h
  rfl

end CString

/-- The string at a pointer. -/
def cstr : List Char → Option CString
  | [] => none
  | c :: buf =>
    if h : c = nul then some ⟨[], List.not_mem_nil⟩
    else (cstr buf).map fun s ↦
      ⟨c :: s.chars, fun hm ↦ (List.mem_cons.mp hm).elim (fun he ↦ h he.symm) s.nul_notMem⟩

/-- `strcpy(dst, src)`. -/
def strcpy (dst src : List Char) : Option (List Char) :=
  match cstr src with
  | some s => if s.length < dst.length then some (s.buf ++ dst.drop (s.length + 1)) else none
  | none => none

/-- `memcpy(dst + off, src, n)`. -/
def memcpy (dst : List Char) (off : ℕ) (src : List Char) (n : ℕ) : Option (List Char) :=
  if n ≤ src.length ∧ off + n ≤ dst.length then
    some (dst.take off ++ src.take n ++ dst.drop (off + n))
  else none

/-- The block a string was written to reads back as the string. -/
theorem cstr_buf_append (s : CString) (rest : List Char) : cstr (s.buf ++ rest) = some s := by
  obtain ⟨chars, h⟩ := s
  induction chars with
  | nil => rfl
  | cons c chars ih =>
    have hc : c ≠ nul := fun he ↦ h (by rw [he]; exact List.mem_cons_self)
    have hrest := ih fun hm ↦ h (List.mem_cons_of_mem _ hm)
    simp only [CString.buf] at hrest
    simp only [CString.buf, List.cons_append, cstr, dif_neg hc, hrest, Option.map_some]

@[simp] theorem cstr_buf (s : CString) : cstr s.buf = some s := by
  have h := cstr_buf_append s []
  rwa [List.append_nil] at h

/-- What a terminated block looks like. -/
theorem eq_of_cstr {buf : List Char} {s : CString} (h : cstr buf = some s) :
    ∃ rest, buf = s.buf ++ rest := by
  induction buf generalizing s with
  | nil => cases h
  | cons c buf ih =>
    rw [cstr] at h
    split at h
    · rename_i hc
      cases h
      exact ⟨buf, by rw [hc]; rfl⟩
    · obtain ⟨t, ht, hs⟩ := Option.map_eq_some_iff.mp h
      obtain ⟨rest, rfl⟩ := ih ht
      cases hs
      exact ⟨rest, rfl⟩

/-- A string ends before whatever comes after its block. -/
theorem cstr_append {buf : List Char} {s : CString} (h : cstr buf = some s) (rest : List Char) :
    cstr (buf ++ rest) = some s := by
  obtain ⟨mid, rfl⟩ := eq_of_cstr h
  rw [List.append_assoc, cstr_buf_append]

/-- The terminator is in the block, too. -/
theorem length_lt_of_cstr {buf : List Char} {s : CString} (h : cstr buf = some s) :
    s.length < buf.length := by
  obtain ⟨rest, rfl⟩ := eq_of_cstr h
  simp only [CString.buf, CString.length, List.length_append, List.length_singleton]
  omega

theorem strcpy_eq {dst src : List Char} {s : CString} (h : cstr src = some s)
    (hlen : s.length < dst.length) :
    strcpy dst src = some (s.buf ++ dst.drop (s.length + 1)) := by
  rw [strcpy, h]
  exact if_pos hlen

/-- A copy needs a terminated source and room for it. -/
theorem of_strcpy_eq_some {dst src d : List Char} (h : strcpy dst src = some d) :
    ∃ s, cstr src = some s ∧ s.length < dst.length ∧ d = s.buf ++ dst.drop (s.length + 1) := by
  rw [strcpy] at h
  split at h
  · rename_i s hs
    split at h
    · rename_i hlen
      cases h
      exact ⟨s, hs, hlen, rfl⟩
    · cases h
  · cases h

/-- A copied string keeps the block's size. -/
theorem length_buf_append_drop {s : CString} {dst : List Char} (h : s.length < dst.length) :
    (s.buf ++ dst.drop (s.length + 1)).length = dst.length := by
  have hbuf : s.buf.length = s.length + 1 := by simp [CString.buf, CString.length]
  rw [List.length_append, List.length_drop, hbuf]
  omega

/-- Copying to the end of what has been written so far. -/
theorem memcpy_append {pre b rest : List Char} (h : b.length ≤ rest.length) :
    memcpy (pre ++ rest) pre.length b b.length = some (pre ++ b ++ rest.drop b.length) := by
  have hlen : pre.length + b.length ≤ (pre ++ rest).length := by
    rw [List.length_append]
    omega
  rw [memcpy, if_pos ⟨Nat.le_refl _, hlen⟩, List.take_left, List.take_length, List.drop_append,
    List.drop_of_length_le (Nat.le_add_right _ _), Nat.add_sub_cancel_left, List.nil_append]
