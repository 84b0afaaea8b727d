import IbvBench.Lib.CInt
import IbvBench.Lib.Numerals
import IbvBench.Pingpong.Sweep
import Mathlib.Data.List.TakeWhile

/-!
# When the sweep ends

The range of a sweep comes from the command line: `parseArgs` takes whatever `atoi` makes of the two
arguments, and the two ints are converted to `size_t`.  So a negative number is a size close to
`2 ^ 64`, and the size that is shifted left in each pass is cut off at 64 bits.

`sweep_ends_iff` says for which configurations the sweep comes to its end.
-/

set_option autoImplicit false

namespace IbvBench

open Prog

/-! ## The command line -/

/-- `strtol` in base ten, which stays within the range of a `long`. -/
def strtol (text : List Char) : ℤ :=
  let (negative, l) := Numerals.scanSign (text.dropWhile Numerals.isSpace)
  let n : ℤ := Nat.ofDigitChars 10 (l.takeWhile Char.isDigit) 0
  if negative then max (-2 ^ 63) (-n) else min (2 ^ 63 - 1) n

/-- `atoi` -/
def atoi (text : List Char) : BitVec 32 := .ofInt 32 (strtol text)

/-- `Config` of `ibv_pingpong_write.cpp`. -/
structure Config where
  touch_data : Bool := true
  min_msg_size : BitVec 32 := 8
  max_msg_size : BitVec 32 := 64 * 1024
  inline_size : BitVec 32 := 220

/-- The `switch` of `parseArgs`, for an option and its argument. -/
def Config.set (config : Config) (opt : Char) (optarg : List Char) : Config :=
  match opt with
  | 'a' => { config with min_msg_size := atoi optarg }
  | 'b' => { config with max_msg_size := atoi optarg }
  | 't' => { config with touch_data := atoi optarg ≠ 0 }
  | 'i' => { config with inline_size := atoi optarg }
  | _ => config

/-- `parseArgs`, for the options that `getopt_long` returns.  The benchmarks without `inline_size`
have no option `i`. -/
def parseArgs (opts : List (Char × List Char)) : Config :=
  opts.foldl (fun config o ↦ config.set o.1 o.2) {}

/-- `{config.min_msg_size, config.max_msg_size}` as the sweep gets it. -/
def Config.range (config : Config) : ℕ × ℕ :=
  ((sizeT config.min_msg_size.toInt).toNat, (sizeT config.max_msg_size.toInt).toNat)

section

variable {n : ℕ}

theorem takeWhile_isDigit (n : ℕ) :
    (Nat.toDigits 10 n).takeWhile Char.isDigit = Nat.toDigits 10 n :=
  List.takeWhile_eq_self_iff.mpr fun _ hc ↦ Nat.isDigit_of_mem_toDigits (by decide) (by decide) hc

theorem strtol_toDigits (hn : n < 2 ^ 63) : strtol (Nat.toDigits 10 n) = n := by
  obtain ⟨c, l, h⟩ := List.exists_cons_of_ne_nil (Nat.toDigits_ne_nil (n := n) (b := 10))
  have hc : c.isDigit = true := by
    refine Nat.isDigit_of_mem_toDigits (n := n) (b := 10) (by decide) (by decide) ?_
    rw [h]
    exact List.mem_cons_self
  obtain ⟨hspace, hminus, hplus, -⟩ := Numerals.ne_of_isHex (Numerals.isHex_of_isDigit hc)
  have hsign : Numerals.scanSign ((Nat.toDigits 10 n).dropWhile Numerals.isSpace) =
      (false, Nat.toDigits 10 n) := by
    rw [h, List.dropWhile_cons_of_neg (by rw [hspace]; decide), Numerals.scanSign]
    · exact fun _ heq ↦ hminus (List.cons.inj heq).1
    · exact fun _ heq ↦ hplus (List.cons.inj heq).1
  rw [strtol, hsign]
  show min (2 ^ 63 - 1) ((Nat.ofDigitChars 10 ((Nat.toDigits 10 n).takeWhile _) 0 : ℕ) : ℤ) = n
  rw [takeWhile_isDigit, Nat.ofDigitChars_ten_toDigits]
  omega

theorem strtol_neg_toDigits (hn : n ≤ 2 ^ 63) : strtol ('-' :: Nat.toDigits 10 n) = -n := by
  show max (-2 ^ 63) (-((Nat.ofDigitChars 10 ((Nat.toDigits 10 n).takeWhile _) 0 : ℕ) : ℤ)) = -n
  rw [takeWhile_isDigit, Nat.ofDigitChars_ten_toDigits]
  omega

/-- Every int is written as some argument. -/
theorem exists_atoi (x : BitVec 32) : ∃ text, atoi text = x := by
  have hlt := x.toInt_lt
  have hle := x.le_toInt
  rcases Int.le_total 0 x.toInt with hpos | hneg
  · refine ⟨Nat.toDigits 10 x.toInt.toNat, ?_⟩
    rw [atoi, strtol_toDigits (by omega), Int.toNat_of_nonneg hpos, BitVec.ofInt_toInt]
  · refine ⟨'-' :: Nat.toDigits 10 (-x.toInt).toNat, ?_⟩
    rw [atoi, strtol_neg_toDigits (by omega), Int.toNat_of_nonneg (by omega), Int.neg_neg,
      BitVec.ofInt_toInt]

/-- **Each pair of ints is the range of some command line.** -/
theorem exists_parseArgs (a b : BitVec 32) :
    ∃ opts, (parseArgs opts).min_msg_size = a ∧ (parseArgs opts).max_msg_size = b := by
  obtain ⟨text, rfl⟩ := exists_atoi a
  obtain ⟨text', rfl⟩ := exists_atoi b
  exact ⟨[('a', text), ('b', text')], rfl, rfl⟩

end

/-! ## Termination -/

section

variable {first last k : ℕ} {report : ℤ} {v : SweepVars}

/-- Both counts are small, whatever the sizes. -/
theorem varsAt_le : ∀ k, (varsAt first k).loop ≤ TOTAL ∧ (varsAt first k).skip ≤ TOTAL
  | 0 => ⟨Nat.le_refl TOTAL, show SKIP ≤ TOTAL by decide⟩
  | k + 1 => by
    obtain ⟨hloop, hskip⟩ := varsAt_le k
    rw [varsAt, SweepVars.next, SweepVars.switch]
    split
    · exact ⟨show TOTAL_LARGE ≤ TOTAL by decide, show SKIP_LARGE ≤ TOTAL by decide⟩
    · exact ⟨hloop, hskip⟩

/-- So one thread alone always comes to the end of a pass. -/
theorem sweepPass_varsAt (report : ℤ) (first k : ℕ) :
    (sweepPass report (0, 1) (varsAt first k)).Ends ((varsAt first k).switch.events report 0 1)
      (varsAt first (k + 1)) := by
  -- the counts of a pass are those in front of the next one
  obtain ⟨hloop, hskip⟩ : (varsAt first k).switch.loop ≤ TOTAL ∧
    (varsAt first k).switch.skip ≤ TOTAL := varsAt_le (k + 1)
  have htotal : TOTAL = 4000 := rfl
  have hmax : ∀ n ≤ TOTAL, 1 + n ≤ 2 ^ 31 := by omega
  exact sweepPass_ends Nat.zero_lt_one (hmax _ hskip) (hmax _ hloop)

/-- The sweep ends at the first size above the last one of the range, -/
theorem RUN_VARY_MSG_ends_of_lt (hfirst : first < 2 ^ 64) (hk : last < first * 2 ^ k % 2 ^ 64) :
    ∃ out v, (RUN_VARY_MSG (first, last) report (0, 1)).Ends out v := by
  have hex : ∃ k, last < first * 2 ^ k % 2 ^ 64 := ⟨k, hk⟩
  refine ⟨_, _, Ends.loop (s := varsAt first) (K := Nat.find hex)
    (fun j hj ↦ ⟨decide_eq_true ?_, sweepPass_varsAt report first j⟩) (decide_eq_false ?_)⟩
  · rw [varsAt_msg_size hfirst]
    exact Nat.not_lt.mp (Nat.find_min hex hj)
  · rw [varsAt_msg_size hfirst]
    exact Nat.not_le.mpr (Nat.find_spec hex)

/-- and does not end when there is none. -/
theorem RUN_VARY_MSG_diverges (hfirst : first < 2 ^ 64)
    (hle : ∀ k, first * 2 ^ k % 2 ^ 64 ≤ last) :
    (RUN_VARY_MSG (first, last) report (0, 1)).Diverges := by
  refine diverges_loop (s := varsAt first) fun k ↦
    ⟨decide_eq_true ?_, sweepPass_varsAt report first k⟩
  rw [varsAt_msg_size hfirst]
  exact hle k

end

/-! ### The sizes of a configuration -/

section

variable {x y : ℤ} {n k : ℕ}

theorem toNat_sizeT_of_nonneg (h : 0 ≤ x) (h' : x < 2 ^ 31) : ((sizeT x).toNat : ℤ) = x := by
  rw [sizeT]
  omega

theorem toNat_sizeT_of_neg (h : x < 0) (h' : -2 ^ 31 ≤ x) : ((sizeT x).toNat : ℤ) = 2 ^ 64 + x := by
  rw [sizeT]
  omega

/-- A size that has been shifted by 31 bits is not above a negative int. -/
theorem shifted_le (hk : 31 ≤ k) : n * 2 ^ k % 2 ^ 64 ≤ 2 ^ 64 - 2 ^ 31 := by
  obtain ⟨j, rfl⟩ := Nat.exists_eq_add_of_le hk
  have hfactor : n * 2 ^ (31 + j) = 2 ^ 31 * (n * 2 ^ j) := by
    rw [pow_add, Nat.mul_left_comm]
  have hmod : n * 2 ^ (31 + j) % 2 ^ 64 = 2 ^ 31 * (n * 2 ^ j % 2 ^ 33) := by
    rw [hfactor, show 2 ^ 64 = 2 ^ 31 * 2 ^ 33 by rfl, Nat.mul_mod_mul_left]
  have hlt := Nat.mod_lt (n * 2 ^ j) (show 0 < 2 ^ 33 by decide)
  omega

/-- Before that the shifted size of a negative int decreases. -/
theorem shifted_neg_le {c : ℕ} (hc : 0 < c) (hc' : c ≤ 2 ^ 31) (hk : k < 31) :
    (2 ^ 64 - c) * 2 ^ k % 2 ^ 64 ≤ 2 ^ 64 - c := by
  have hpow : 2 ^ k ≤ 2 ^ 30 := Nat.pow_le_pow_right (by decide) (by omega)
  have hsum : (2 ^ 64 - c) * 2 ^ k + c * 2 ^ k = 2 ^ 64 * 2 ^ k := by
    rw [← Nat.add_mul, Nat.sub_add_cancel (by omega)]
  have hge : c ≤ c * 2 ^ k := Nat.le_mul_of_pos_right c (Nat.two_pow_pos k)
  have hle : c * 2 ^ k ≤ 2 ^ 31 * 2 ^ 30 := Nat.mul_le_mul hc' hpow
  have hpos := Nat.two_pow_pos k
  omega

/-- That of a positive one increases. -/
theorem shifted_pos_lt (hn : n < 2 ^ 31) (hk : k < 31) : n * 2 ^ k % 2 ^ 64 < 2 ^ 61 := by
  have hpow : 2 ^ k ≤ 2 ^ 30 := Nat.pow_le_pow_right (by decide) (by omega)
  have hle : n * 2 ^ k ≤ n * 2 ^ 30 := Nat.mul_le_mul_left n hpow
  omega

/-- **When some size is above the last one of the range.** -/
theorem exists_above_iff (hx : -2 ^ 31 ≤ x) (hx' : x < 2 ^ 31) (hy : -2 ^ 31 ≤ y)
    (hy' : y < 2 ^ 31) : (∃ k, (sizeT y).toNat < (sizeT x).toNat * 2 ^ k % 2 ^ 64) ↔
      x ≠ 0 ∧ (0 ≤ y ∨ y < x ∧ x < 0) := by
  rcases Int.lt_trichotomy x 0 with hneg | rfl | hpos
  · have hfirst := toNat_sizeT_of_neg hneg hx
    obtain ⟨c, hc⟩ : ∃ c : ℕ, x = -c := ⟨(-x).toNat, by omega⟩
    have hsize : (sizeT x).toNat = 2 ^ 64 - c := by omega
    rcases Int.lt_or_le y 0 with hy0 | hy0
    · have hlast := toNat_sizeT_of_neg hy0 hy
      constructor
      · rintro ⟨k, hk⟩
        rcases Nat.lt_or_ge k 31 with hlt | hge
        · have hle := shifted_neg_le (c := c) (by omega) (by omega) hlt
          rw [hsize] at hk
          omega
        · have hle := shifted_le (n := (sizeT x).toNat) hge
          omega
      · rintro ⟨-, hlt⟩
        refine ⟨0, ?_⟩
        rw [pow_zero, Nat.mul_one, Nat.mod_eq_of_lt (by omega)]
        omega
    · have hlast := toNat_sizeT_of_nonneg hy0 hy'
      refine ⟨fun _ ↦ ⟨by omega, .inl hy0⟩, fun _ ↦ ⟨0, ?_⟩⟩
      rw [pow_zero, Nat.mul_one, Nat.mod_eq_of_lt (by omega)]
      omega
  · constructor
    · rintro ⟨k, hk⟩
      rw [show (sizeT 0).toNat = 0 by rfl, Nat.zero_mul, Nat.zero_mod] at hk
      exact absurd hk (Nat.not_lt_zero _)
    · rintro ⟨hne, -⟩
      exact absurd rfl hne
  · have hfirst := toNat_sizeT_of_nonneg hpos.le hx'
    rcases Int.lt_or_le y 0 with hy0 | hy0
    · have hlast := toNat_sizeT_of_neg hy0 hy
      constructor
      · rintro ⟨k, hk⟩
        rcases Nat.lt_or_ge k 31 with hlt | hge
        · have hle := shifted_pos_lt (n := (sizeT x).toNat) (by omega) hlt
          omega
        · have hle := shifted_le (n := (sizeT x).toNat) hge
          omega
      · rintro ⟨-, hlt⟩
        omega
    · have hlast := toNat_sizeT_of_nonneg hy0 hy'
      refine ⟨fun _ ↦ ⟨by omega, .inl hy0⟩, fun _ ↦ ⟨31, ?_⟩⟩
      rw [Nat.mod_eq_of_lt (by omega)]
      omega

end

/-- **For which configurations the sweep ends.**  The first size must not be 0, which stays 0 when
it is shifted; and the last one must not be negative, unless the first one is negative as well and
already above it.  In every other case there is always another pass. -/
theorem sweep_ends_iff (config : Config) (report : ℤ) :
    ((∃ out v, (RUN_VARY_MSG config.range report (0, 1)).Ends out v) ↔
      config.min_msg_size.toInt ≠ 0 ∧ (0 ≤ config.max_msg_size.toInt ∨
        config.max_msg_size.toInt < config.min_msg_size.toInt ∧ config.min_msg_size.toInt < 0)) ∧
    ((RUN_VARY_MSG config.range report (0, 1)).Diverges ↔
      ¬ ∃ out v, (RUN_VARY_MSG config.range report (0, 1)).Ends out v) := by
  have hfirst : config.range.1 < 2 ^ 64 := by
    show (sizeT config.min_msg_size.toInt).toNat < 2 ^ 64
    rw [sizeT]
    omega
  have habove := exists_above_iff config.min_msg_size.le_toInt config.min_msg_size.toInt_lt
    config.max_msg_size.le_toInt config.max_msg_size.toInt_lt
  have hdiverges : (¬ ∃ k, config.range.2 < config.range.1 * 2 ^ k % 2 ^ 64) →
      (RUN_VARY_MSG config.range report (0, 1)).Diverges := by
    intro hnone
    exact RUN_VARY_MSG_diverges hfirst fun k ↦ Nat.not_lt.mp fun hk ↦ hnone ⟨k, hk⟩
  have hends : (∃ out v, (RUN_VARY_MSG config.range report (0, 1)).Ends out v) ↔
      ∃ k, config.range.2 < config.range.1 * 2 ^ k % 2 ^ 64 := by
    constructor
    · rintro ⟨out, v, h⟩
      by_contra hnone
      exact h.not_diverges (hdiverges hnone)
    · rintro ⟨k, hk⟩
      exact RUN_VARY_MSG_ends_of_lt hfirst hk
  refine ⟨hends.trans habove, ?_, ?_⟩
  · rintro hd ⟨out, v, h⟩
    exact h.not_diverges hd
  · intro hnone
    exact hdiverges fun hex ↦ hnone (hends.mpr hex)

/-- `--min-msg-size 0` -/
theorem sweep_diverges_zero :
    (RUN_VARY_MSG (parseArgs [('a', ['0'])]).range 1 (0, 1)).Diverges := by
  have hrange : (parseArgs [('a', ['0'])]).range = (0, 65536) := by decide
  rw [hrange]
  refine RUN_VARY_MSG_diverges (by decide) fun k ↦ ?_
  rw [Nat.zero_mul]
  decide

end IbvBench
