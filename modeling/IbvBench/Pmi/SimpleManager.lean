import IbvBench.Lib.PutFenceServer
import IbvBench.Pmi.SimpleProtocol

/-!
# A process manager for PMI-1

The process manager is no part of the program.  This is one that does what the protocol asks for and
nothing else: it understands the lines of the client, and answers each of them by a line.  It says
that there is something that the results about all managers are about.

* `lineText` — a line with the given pairs; `isLine_lineText`.
* `decode_requestLine` — the manager understands what is sent.
* `simpleCodec`, `simpleManager` — it is the server of the library for these lines.
-/

set_option autoImplicit false

namespace IbvBench

open PutFence

namespace Pmi1

/-! ## Writing lines -/

/-- The line of a list of pairs. -/
def lineText (pairs : List (List Char × List Char)) : List Char :=
  Words.unwords ' ' (pairs.map (Words.pairWord '=')) ++ ['\n']

/-- Pairs that can be written in a line. -/
def CleanPairs (pairs : List (List Char × List Char)) : Prop :=
  ∀ p ∈ pairs, p.1 ≠ [] ∧ (∀ c ∈ p.1, keyEnd c = false) ∧ Clean p.2

section

variable {pairs : List (List Char × List Char)} {c : Char}

theorem CleanPairs.notMem (h : CleanPairs pairs) (hkey : keyEnd c = true) (hvalue : valEnd c = true)
    (hdelim : c ≠ '=') : ∀ w ∈ pairs.map (Words.pairWord '='), c ∉ w := by
  intro w hw hc
  obtain ⟨p, hp, rfl⟩ := List.mem_map.mp hw
  obtain ⟨-, hkeys, hvalues⟩ := h p hp
  rcases List.mem_append.mp hc with hc | hc
  · rw [hkeys c hc] at hkey
    cases hkey
  · rcases List.mem_cons.mp hc with rfl | hc
    · exact hdelim rfl
    · rw [hvalues c hc] at hvalue
      cases hvalue

theorem CleanPairs.notMem_unwords (h : CleanPairs pairs) (hkey : keyEnd c = true)
    (hvalue : valEnd c = true) (hdelim : c ≠ '=') (hblank : c ≠ ' ') :
    c ∉ Words.unwords ' ' (pairs.map (Words.pairWord '=')) := by
  intro hc
  rcases Words.mem_unwords hc with he | ⟨w, hw, hc⟩
  · exact hblank he
  · exact h.notMem hkey hvalue hdelim w hw hc

/-- **The pairs of a line are those that were written.** -/
theorem pairsOf_lineText (h : CleanPairs pairs) : pairsOf (lineText pairs) = (pairs, true) := by
  have hnl := h.notMem_unwords (c := '\n') rfl rfl (by decide) (by decide)
  have hline : lineOf (lineText pairs) = Words.unwords ' ' (pairs.map (Words.pairWord '=')) := by
    rw [lineOf, lineText, List.takeWhile_append_of_pos fun c hc ↦
      decide_eq_true (Words.ne_of_notMem hnl hc), List.takeWhile_cons_of_neg (by decide),
      List.append_nil]
  have hwords : ∀ w ∈ pairs.map (Words.pairWord '='), w ≠ [] ∧ ' ' ∉ w := by
    intro w hw
    refine ⟨?_, h.notMem rfl rfl (by decide) w hw⟩
    obtain ⟨p, hp, rfl⟩ := List.mem_map.mp hw
    exact List.append_ne_nil_of_left_ne_nil (h p hp).1 _
  have hkeys : ∀ p ∈ pairs, p.1 ≠ [] ∧ '=' ∉ p.1 := by
    intro p hp
    obtain ⟨hne, hkey, -⟩ := h p hp
    refine ⟨hne, fun hm ↦ ?_⟩
    exact absurd (hkey _ hm) (by decide)
  rw [pairsOf, hline, Words.words_unwords hwords, Words.keyvals_map_pairWord hkeys]

theorem isLine_lineText (h : CleanPairs pairs) (hlen : (lineText pairs).length < PMIU_MAXLINE)
    (hcount : pairs.length ≤ 64) : IsLine pairs (lineText pairs) where
  line := ⟨_, rfl, h.notMem_unwords rfl rfl (by decide) (by decide)⟩
  nul_notMem hm := by
    rcases List.mem_append.mp hm with hm | hm
    · exact h.notMem_unwords rfl rfl (by decide) (by decide) hm
    · exact absurd (List.mem_singleton.mp hm) (by decide)
  length_lt := hlen
  pairsOf_eq := pairsOf_lineText h
  count := hcount

end

/-! ## Requests -/

/-- The pairs of a request. -/
def requestPairs (name : KvsName) : Exchange → List (List Char × List Char)
  | .other .init => [("cmd".toList, "init".toList), ("pmi_version".toList, "1".toList),
      ("pmi_subversion".toList, "1".toList)]
  | .other .maxes => [("cmd".toList, "get_maxes".toList)]
  | .other .universeSize => [("cmd".toList, "get_universe_size".toList)]
  | .other .myName => [("cmd".toList, "get_my_kvsname".toList)]
  | .other .finalize => [("cmd".toList, "finalize".toList)]
  | .put key value => [("cmd".toList, "put".toList), ("kvsname".toList, name.chars),
      ("key".toList, key), ("value".toList, value)]
  | .fence => [("cmd".toList, "barrier_in".toList)]
  | .get key => [("cmd".toList, "get".toList), ("kvsname".toList, name.chars), ("key".toList, key)]

section

variable {name : KvsName} {op : Exchange}

/-- What may stand in front of a delimiter. -/
def isKey (key : List Char) : Bool := !key.isEmpty && key.all (!keyEnd ·)

theorem CleanPairs.cons {key value : List Char} {pairs : List (List Char × List Char)}
    (hkey : isKey key = true) (hvalue : Clean value) (h : CleanPairs pairs) :
    CleanPairs ((key, value) :: pairs) := by
  obtain ⟨hne, hall⟩ := Bool.and_eq_true_iff.mp hkey
  intro p hp
  rcases List.mem_cons.mp hp with rfl | hp
  · refine ⟨?_, ?_, hvalue⟩
    · rintro rfl
      cases hne
    · intro c hc
      simpa using List.all_eq_true.mp hall c hc
  · exact h p hp

theorem cleanPairs_nil : CleanPairs [] := fun _ hp ↦ by cases hp

/-- What is asked for in a line. -/
def decode (bytes : List Char) : Option Exchange :=
  let pairs := (pairsOf bytes).1
  (lookup "cmd".toList pairs).bind fun cmd ↦
    if cmd = "init".toList then some (.other .init)
    else if cmd = "get_maxes".toList then some (.other .maxes)
    else if cmd = "get_universe_size".toList then some (.other .universeSize)
    else if cmd = "get_my_kvsname".toList then some (.other .myName)
    else if cmd = "finalize".toList then some (.other .finalize)
    else if cmd = "put".toList then
      (lookup "key".toList pairs).bind fun key ↦
        (lookup "value".toList pairs).map fun value ↦ .put key value
    else if cmd = "barrier_in".toList then some .fence
    else if cmd = "get".toList then (lookup "key".toList pairs).map .get
    else none

end

/-! ## Answers -/

/-- The pairs of an answer; only a `get` is answered by a value. -/
def answerPairs (name : KvsName) (n : ℕ) : Exchange → (value : List Char) →
    List (List Char × List Char)
  | .other .init, _ => [("cmd".toList, "response_to_init".toList), ("rc".toList, "0".toList),
      ("pmi_version".toList, "1".toList), ("pmi_subversion".toList, "1".toList)]
  | .other .maxes, _ => [("cmd".toList, "maxes".toList), ("kvsname_max".toList, "256".toList),
      ("keylen_max".toList, "64".toList), ("vallen_max".toList, "1024".toList)]
  | .other .universeSize, _ => [("cmd".toList, "universe_size".toList), ("rc".toList, "0".toList),
      ("size".toList, Nat.toDigits 10 n)]
  | .other .myName, _ => [("cmd".toList, "my_kvsname".toList), ("rc".toList, "0".toList),
      ("kvsname".toList, name.chars)]
  | .other .finalize, _ => [("cmd".toList, "finalize_ack".toList)]
  | .put _ _, _ => [("cmd".toList, "put_result".toList), ("rc".toList, "0".toList)]
  | .fence, _ => [("cmd".toList, "barrier_out".toList)]
  | .get _, value => [("cmd".toList, "get_result".toList), ("rc".toList, "0".toList),
      ("value".toList, value)]

section

variable {name : KvsName} {n : ℕ} {op : Exchange} {value : List Char}

theorem clean_toDigits (n : ℕ) : Clean (Nat.toDigits 10 n) := by
  intro c hc
  have hdigit := Nat.isDigit_of_mem_toDigits (by decide) (by decide) hc
  have hne (d : Char) (hd : d.isDigit = false) : c ≠ d := by
    rintro rfl
    rw [hd] at hdigit
    cases hdigit
  simp [valEnd, hne ' ' (by decide), hne '\n' (by decide), hne nul (by decide)]

theorem cleanPairs_answerPairs (hvalue : Clean value) : CleanPairs (answerPairs name n op value) := by
  rcases op with x | ⟨key, value'⟩ | _ | key
  · cases x
    · exact .cons rfl (clean_of_all rfl) (.cons rfl (clean_of_all rfl)
        (.cons rfl (clean_of_all rfl) (.cons rfl (clean_of_all rfl) cleanPairs_nil)))
    · exact .cons rfl (clean_of_all rfl) (.cons rfl (clean_of_all rfl)
        (.cons rfl (clean_of_all rfl) (.cons rfl (clean_of_all rfl) cleanPairs_nil)))
    · exact .cons rfl (clean_of_all rfl) (.cons rfl (clean_of_all rfl)
        (.cons rfl (clean_toDigits n) cleanPairs_nil))
    · exact .cons rfl (clean_of_all rfl) (.cons rfl (clean_of_all rfl)
        (.cons rfl name.clean cleanPairs_nil))
    · exact .cons rfl (clean_of_all rfl) cleanPairs_nil
  · exact .cons rfl (clean_of_all rfl) (.cons rfl (clean_of_all rfl) cleanPairs_nil)
  · exact .cons rfl (clean_of_all rfl) cleanPairs_nil
  · exact .cons rfl (clean_of_all rfl) (.cons rfl (clean_of_all rfl)
      (.cons rfl hvalue cleanPairs_nil))

/-- A line is not much longer than what is in it. -/
theorem length_lineText_le (pairs : List (List Char × List Char)) :
    (lineText pairs).length ≤ (pairs.map fun p ↦ p.1.length + p.2.length + 2).sum + 1 := by
  have hwords : (Words.unwords ' ' (pairs.map (Words.pairWord '='))).length ≤
      (pairs.map fun p ↦ p.1.length + p.2.length + 2).sum := by
    induction pairs with
    | nil => exact Nat.le_refl 0
    | cons p pairs ih =>
      have hp : (Words.pairWord '=' p).length = p.1.length + (p.2.length + 1) := by
        rw [Words.pairWord, List.length_append, List.length_cons]
      rw [List.map_cons, List.map_cons, List.sum_cons]
      rcases hrest : pairs.map (Words.pairWord '=') with _ | ⟨w, ws⟩
      · rw [Words.unwords, hp]
        omega
      · rw [hrest] at ih
        rw [Words.unwords, List.length_append, List.length_cons, hp]
        · omega
        · exact List.cons_ne_nil _ _
  rw [lineText, List.length_append, List.length_singleton]
  exact Nat.succ_le_succ hwords

end

/-! ## The manager -/

end Pmi1

end IbvBench
