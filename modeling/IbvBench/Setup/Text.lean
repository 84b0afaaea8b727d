import IbvBench.Lib.Numerals
import Mathlib.Tactic.NormNum

/-!
# The texts that `init` publishes

Each rank publishes an end point for each rank, under a key that names the two: `ibvBench_%d_%d`.  The
end point is a text as well, `%lx:%x:%x:%hx`, with the address and the key of the registered region,
the number of a queue pair and the local identifier of the port.
-/

set_option autoImplicit false

namespace IbvBench

open Numerals

/-- `"ibvBench_%d_%d"`, for two ranks. -/
def keyText (fromRank toRank : ℕ) : List Char :=
  "ibvBench_".toList ++ (Nat.toDigits 10 fromRank ++ '_' :: Nat.toDigits 10 toRank)

/-- What an end point says. -/
structure Endpoint where
  mr_addr : BitVec 64
  rkey : BitVec 32
  qp_num : BitVec 32
  lid : BitVec 16
  deriving DecidableEq

namespace Endpoint

variable (e : Endpoint)

/-- The numbers of an end point. -/
def fields : List ℕ := [e.mr_addr.toNat, e.rkey.toNat, e.qp_num.toNat, e.lid.toNat]

/-- `sprintf(ep_name, "%lx:%x:%x:%hx", ...)` -/
def text : List Char := printFields ':' e.fields

/-- `sscanf(ep_name, "%lx:%x:%x:%hx", ...)`, when it converts all four numbers.  Each is stored with
the width of its variable. -/
def scan (ep_name : List Char) : Option Endpoint :=
  match scanFields ':' 4 ep_name with
  | [dest_addr, dest_rkey, dest_qpn, dest_lid] =>
    some { mr_addr := .ofInt 64 dest_addr, rkey := .ofInt 32 dest_rkey,
           qp_num := .ofInt 32 dest_qpn, lid := .ofInt 16 dest_lid }
  | _ => none

/-- A colon is no part of a numeral. -/
theorem ends_colon : Ends [':'] := by
  intro c hc
  obtain rfl : ':' = c := Option.some.inj hc
  decide

/-- **Scanning recovers the end point that was printed.** -/
theorem scan_text : scan e.text = some e := by
  have hfields : scanFields ':' 4 e.text =
      [(e.mr_addr.toNat : ℤ), (e.rkey.toNat : ℤ), (e.qp_num.toNat : ℤ), (e.lid.toNat : ℤ)] :=
    scanFields_printFields ends_colon e.fields
  rw [scan, hfields]
  simp only [BitVec.ofInt_natCast, BitVec.ofNat_toNat, BitVec.setWidth_eq]

/-- An end point has at most 39 letters. -/
theorem length_text_le : e.text.length ≤ 39 := by
  have hdigits : ∀ {w k : ℕ} (x : BitVec w), 2 ^ w = 16 ^ k → 0 < k →
      (Nat.toDigits 16 x.toNat).length ≤ k := by
    intro w k x hw hk
    rw [Nat.length_toDigits_le_iff (by decide) hk, ← hw]
    exact x.isLt
  have hfields : List.Forall₂ (fun n k ↦ (Nat.toDigits 16 n).length ≤ k) e.fields [16, 8, 8, 4] :=
    .cons (hdigits e.mr_addr (by norm_num) (by decide)) <|
      .cons (hdigits e.rkey (by norm_num) (by decide)) <|
      .cons (hdigits e.qp_num (by norm_num) (by decide)) <|
      .cons (hdigits e.lid (by norm_num) (by decide)) .nil
  exact length_printFields_le hfields

end Endpoint

/-- **Different pairs of ranks have different keys.** -/
theorem keyText_inj {a b a' b' : ℕ} (h : keyText a b = keyText a' b') : a = a' ∧ b = b' := by
  have hfields : Nat.toDigits 10 a ++ '_' :: Nat.toDigits 10 b =
      Nat.toDigits 10 a' ++ '_' :: Nat.toDigits 10 b' := List.append_cancel_left h
  have hsep : '_'.isDigit = false := by decide
  exact fields_inj hsep hfields

theorem length_keyText (a b : ℕ) : (keyText a b).length =
    9 + ((Nat.toDigits 10 a).length + ((Nat.toDigits 10 b).length + 1)) := by
  have hname : "ibvBench_".toList.length = 9 := rfl
  unfold keyText
  simp only [List.length_append, List.length_cons]
  rw [hname]

/-- **The texts keep what they say.**  An end point fits into a buffer of 256 bytes and is read back
as it was printed; and a key names one pair of ranks only. -/
theorem endpoint_text_roundtrip :
    (∀ e : Endpoint, e.text.length + 1 < 256 ∧ Endpoint.scan e.text = some e) ∧
      ∀ a b a' b' : ℕ, keyText a b = keyText a' b' ↔ a = a' ∧ b = b' := by
  refine ⟨fun e ↦ ⟨?_, e.scan_text⟩, fun a b a' b' ↦ ⟨keyText_inj, ?_⟩⟩
  · have hlength := e.length_text_le
    omega
  · rintro ⟨rfl, rfl⟩
    rfl

/-- A key has at most 30 letters when the ranks are ints. -/
theorem length_keyText_le {a b : ℕ} (ha : a < 2 ^ 31) (hb : b < 2 ^ 31) :
    (keyText a b).length ≤ 30 := by
  have hdigits : ∀ n, n < 2 ^ 31 → (Nat.toDigits 10 n).length ≤ 10 := fun n hn ↦
    (Nat.length_toDigits_le_iff (by decide) (by decide)).mpr (Nat.lt_of_lt_of_le hn (by norm_num))
  have ha' := hdigits a ha
  have hb' := hdigits b hb
  rw [length_keyText]
  omega

end IbvBench
