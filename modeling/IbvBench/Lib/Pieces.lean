import Mathlib.Data.List.Basic
import Mathlib.Tactic.Common

/-!
# Streams that arrive in pieces

What a process reads from a stream comes in pieces, and a `read` returns at most what is left of one
piece.  Where the pieces end is up to the other side and to the way between; a program that is
correct takes the same bytes out of a stream however it has been cut.

* `Pieces` — bytes, cut into pieces.  No piece is empty.
* `Incoming` — what a stream still delivers, and how it ends, if it does.
* `Incoming.read` — one `read`.
* `Incoming.fetch` — the loop that reads until it has a given number of bytes.
* `Buffered` — a stream with a buffer, from which bytes are taken one at a time.

`Incoming.fetch_eq` and `Buffered.next_eq` say that the last two only depend on the bytes.
-/

set_option autoImplicit false

variable {β : Type}

/-- Bytes, cut into pieces. -/
structure Pieces (β : Type) where
  list : List (List β) := []
  nil_notMem : [] ∉ list

namespace Pieces

/-- What the pieces amount to. -/
def bytes (p : Pieces β) : List β := p.list.flatten

/-- Some pieces behind others. -/
def append (p q : Pieces β) : Pieces β where
  list := p.list ++ q.list
  nil_notMem h := (List.mem_append.mp h).elim p.nil_notMem q.nil_notMem

/-- One piece, or none if there is nothing. -/
def single (l : List β) : Pieces β where
  list := if l.isEmpty then [] else [l]
  nil_notMem h := by
    split at h
    · cases h
    · rename_i hl
      rw [← List.mem_singleton.mp h] at hl
      exact hl rfl

@[simp] theorem bytes_append (p q : Pieces β) : (p.append q).bytes = p.bytes ++ q.bytes :=
  List.flatten_append

@[simp] theorem bytes_single (l : List β) : (single l).bytes = l := by
  rcases l with _ | ⟨b, l⟩
  · rfl
  · exact List.append_nil _

/-- No piece. -/
def empty : Pieces β where
  list := []
  nil_notMem := List.not_mem_nil

@[simp] theorem bytes_empty : (empty : Pieces β).bytes = [] := rfl

/-- Without bytes there is no piece. -/
theorem list_eq_nil {p : Pieces β} (h : p.bytes = []) : p.list = [] := by
  rcases hl : p.list with _ | ⟨piece, rest⟩
  · rfl
  · have hpiece : piece = [] := by
      rw [bytes, hl, List.flatten_cons] at h
      exact (List.append_eq_nil_iff.mp h).1
    exact absurd (by rw [hl, hpiece]; exact List.mem_cons_self) p.nil_notMem

end Pieces

/-- How a stream ends. -/
inductive Ending where
  | eof
  | error
  deriving DecidableEq, Repr

/-- What a stream still delivers.  Where no end is given it is open: the reader has to wait for
more. -/
structure Incoming (β : Type) where
  pieces : Pieces β := .empty
  ending : Option Ending := none

/-- The result of a `read`. -/
inductive ReadResult (β : Type) where
  | data (bytes : List β) (rest : Incoming β)
  | eof
  | error
  | wait

namespace Incoming

def bytes (s : Incoming β) : List β := s.pieces.bytes

/-- More has arrived. -/
def receive (s : Incoming β) (p : Pieces β) : Incoming β := { s with pieces := s.pieces.append p }

@[simp] theorem bytes_receive (s : Incoming β) (p : Pieces β) :
    (s.receive p).bytes = s.bytes ++ p.bytes := Pieces.bytes_append _ _

@[simp] theorem ending_receive (s : Incoming β) (p : Pieces β) :
    (s.receive p).ending = s.ending := rfl

/-- What is left when `n` bytes of the first piece are taken. -/
def behind (n : ℕ) : List (List β) → List (List β)
  | [] => []
  | piece :: rest => if n < piece.length then piece.drop n :: rest else rest

theorem nil_notMem_behind {n : ℕ} {l : List (List β)} (h : [] ∉ l) : [] ∉ behind n l := by
  rcases l with _ | ⟨piece, rest⟩
  · exact h
  · have hrest : [] ∉ rest := fun hm ↦ h (List.mem_cons_of_mem _ hm)
    rw [behind]
    split
    · rename_i hlt
      intro hm
      rcases List.mem_cons.mp hm with he | hm
      · exact absurd (List.drop_eq_nil_iff.mp he.symm) (Nat.not_le.mpr hlt)
      · exact hrest hm
    · exact hrest

/-- `read`, of `n` bytes at most. -/
def read (s : Incoming β) (n : ℕ) : ReadResult β :=
  match s.pieces.list.head? with
  | some piece =>
    .data (piece.take n)
      { s with pieces := ⟨behind n s.pieces.list, nil_notMem_behind s.pieces.nil_notMem⟩ }
  | none =>
    match s.ending with
    | none => .wait
    | some .eof => .eof
    | some .error => .error

/-- A `read` of a stream that has something takes some of its bytes. -/
theorem read_eq {s : Incoming β} {n : ℕ} (hn : 0 < n) (h : s.bytes ≠ []) :
    ∃ got rest, s.read n = .data got rest ∧ got ≠ [] ∧ got.length ≤ n ∧
      s.bytes = got ++ rest.bytes ∧ rest.ending = s.ending := by
  obtain ⟨⟨l, hl⟩, ending⟩ := s
  rcases l with _ | ⟨piece, rest⟩
  · exact absurd rfl h
  · have hpiece : piece ≠ [] := fun he ↦ hl (by rw [he]; exact List.mem_cons_self)
    refine ⟨piece.take n, _, rfl, ?_, List.length_take_le _ _, ?_, rfl⟩
    · intro he
      rcases List.take_eq_nil_iff.mp he with h0 | h0
      · exact Nat.ne_of_gt hn h0
      · exact hpiece h0
    · show (piece :: rest).flatten = piece.take n ++ (behind n (piece :: rest)).flatten
      rw [behind]
      split
      · rw [List.flatten_cons, List.flatten_cons, ← List.append_assoc, List.take_append_drop]
      · rename_i hle
        rw [List.flatten_cons, List.take_of_length_le (Nat.le_of_not_lt hle)]

/-- A `read` of an open stream waits for the first byte. -/
theorem read_eq_wait {s : Incoming β} (h : s.bytes = []) (hopen : s.ending = none) (n : ℕ) :
    s.read n = .wait := by
  obtain ⟨⟨l, hl⟩, ending⟩ := s
  obtain rfl : l = [] := Pieces.list_eq_nil h
  obtain rfl : ending = none := hopen
  rfl

/-! ## Reading a number of bytes -/

/-- The outcome of reading a number of bytes. -/
inductive FetchResult (β : Type) where
  | data (bytes : List β) (rest : Incoming β)
  | fail
  | wait

/-- The loop `do read while (offset < n)`, with what it has got so far. -/
def fetchLoop : (fuel n : ℕ) → (got : List β) → Incoming β → FetchResult β
  | 0, _, _, _ => .fail
  | fuel + 1, n, got, s =>
    match s.read (n - got.length) with
    | .data [] _ | .eof | .error => .fail
    | .data (b :: l) rest =>
      if (got ++ b :: l).length < n then fetchLoop fuel n (got ++ b :: l) rest
      else .data (got ++ b :: l) rest
    | .wait => .wait

/-- Read until there are `n` bytes, for a positive `n`; nothing read is a failure. -/
def fetch (s : Incoming β) (n : ℕ) : FetchResult β := fetchLoop (n + 1) n [] s

theorem fetchLoop_eq {fuel n : ℕ} {got l : List β} {s : Incoming β} (hlt : got.length < n)
    (hfuel : n < fuel + got.length) (hl : (got ++ l).length = n) {rest : List β}
    (hs : s.bytes = l ++ rest) :
    ∃ s', fetchLoop fuel n got s = .data (got ++ l) s' ∧ s'.bytes = rest ∧
      s'.ending = s.ending := by
  induction fuel generalizing got l s with
  | zero => omega
  | succ fuel ih =>
    have hne : l ≠ [] := by
      rintro rfl
      rw [List.append_nil] at hl
      exact absurd hl (Nat.ne_of_lt hlt)
    have hbytes : s.bytes ≠ [] := by
      rw [hs]
      exact List.append_ne_nil_of_left_ne_nil hne _
    obtain ⟨got', s', hread, hgot, hle, heq, hending⟩ :=
      read_eq (n := n - got.length) (Nat.sub_pos_of_lt hlt) hbytes
    rw [List.length_append] at hl
    -- what was read is the front of what is wanted
    obtain ⟨l', rfl⟩ : ∃ l', l = got' ++ l' := by
      refine ⟨l.drop got'.length, ?_⟩
      have hprefix := congrArg (List.take got'.length) (hs.symm.trans heq)
      rw [List.take_left, List.take_append_of_le_length (by omega)] at hprefix
      rw [← hprefix, List.length_take, Nat.min_eq_left (by omega), List.take_append_drop]
    rw [hs, List.append_assoc] at heq
    have hrest : s'.bytes = l' ++ rest := (List.append_cancel_left heq).symm
    rw [List.length_append] at hl
    obtain ⟨b, t, rfl⟩ := List.exists_cons_of_ne_nil hgot
    rw [List.length_cons] at hl
    simp only [fetchLoop, hread]
    split
    · rename_i hmore
      rw [List.length_append, List.length_cons] at hmore
      obtain ⟨s'', hloop, hbytes', hending'⟩ := @ih (got ++ b :: t) l' s'
        (by rw [List.length_append, List.length_cons]; omega)
        (by rw [List.length_append, List.length_cons]; omega)
        (by rw [List.length_append, List.length_append, List.length_cons]; omega) hrest
      refine ⟨s'', ?_, hbytes', hending'.trans hending⟩
      rw [hloop, List.append_assoc]
    · rename_i hdone
      rw [List.length_append, List.length_cons] at hdone
      obtain rfl : l' = [] := List.eq_nil_of_length_eq_zero (by omega)
      rw [List.append_nil]
      exact ⟨s', rfl, hrest, hending⟩

/-- **What is fetched does not depend on the pieces.** -/
theorem fetch_eq {s : Incoming β} {l rest : List β} (hl : l ≠ []) (hs : s.bytes = l ++ rest) :
    ∃ s', s.fetch l.length = .data l s' ∧ s'.bytes = rest ∧ s'.ending = s.ending :=
  @fetchLoop_eq β (l.length + 1) l.length [] l s (List.length_pos_iff.mpr hl)
    (Nat.lt_succ_self _) rfl rest hs

/-- Without enough bytes the loop waits for more, or fails. -/
theorem fetchLoop_short {fuel n : ℕ} {got : List β} {s : Incoming β}
    (hfuel : n < fuel + got.length) (h : got.length + s.bytes.length < n) :
    fetchLoop fuel n got s = if s.ending = none then .wait else .fail := by
  induction fuel generalizing got s with
  | zero => omega
  | succ fuel ih =>
    by_cases hbytes : s.bytes = []
    · obtain ⟨⟨l, hl⟩, ending⟩ := s
      obtain rfl : l = [] := Pieces.list_eq_nil hbytes
      rcases ending with _ | _ | _ <;> rfl
    · obtain ⟨got', s', hread, hgot, -, heq, hending⟩ :=
        read_eq (n := n - got.length) (by omega) hbytes
      obtain ⟨b, t, rfl⟩ := List.exists_cons_of_ne_nil hgot
      have hlen := congrArg List.length heq
      rw [List.length_append, List.length_cons] at hlen
      have hmore : (got ++ b :: t).length < n := by
        rw [List.length_append, List.length_cons]
        omega
      simp only [fetchLoop, hread]
      rw [if_pos hmore, ← hending]
      apply ih
      · rw [List.length_append, List.length_cons]
        omega
      · rw [List.length_append, List.length_cons]
        omega

theorem fetch_short {s : Incoming β} {n : ℕ} (h : s.bytes.length < n) :
    s.fetch n = if s.ending = none then .wait else .fail :=
  @fetchLoop_short β (n + 1) n [] s (Nat.lt_succ_self _) (by rw [List.length_nil]; omega)

/-- **What is fetched is what comes first.** -/
theorem fetch_eq_data {s s' : Incoming β} {n : ℕ} {l : List β} (hn : 0 < n)
    (h : s.fetch n = .data l s') :
    l.length = n ∧ s.bytes = l ++ s'.bytes ∧ s'.ending = s.ending := by
  rcases Nat.lt_or_ge s.bytes.length n with hlt | hge
  · rw [fetch_short hlt] at h
    split at h <;> cases h
  · have htake : (s.bytes.take n).length = n := List.length_take_of_le hge
    have hne : s.bytes.take n ≠ [] := List.ne_nil_of_length_pos (by omega)
    obtain ⟨s'', hfetch, hbytes, hending⟩ := fetch_eq hne (List.take_append_drop n s.bytes).symm
    rw [htake, h] at hfetch
    cases hfetch
    exact ⟨htake, by rw [hbytes, List.take_append_drop], hending⟩

/-- On an open stream without a byte there is nothing to fetch yet. -/
theorem fetch_eq_wait {s : Incoming β} (h : s.bytes = []) (hopen : s.ending = none) (n : ℕ) :
    s.fetch n = .wait := by
  rw [fetch, fetchLoop, read_eq_wait h hopen]

end Incoming

/-! ## Buffered reading -/

/-- A stream, and what has been read of it and not been taken yet. -/
structure Buffered (β : Type) where
  unread : List β := []
  incoming : Incoming β := {}

/-- The next byte. -/
inductive NextResult (β : Type) where
  | byte (b : β) (rest : Buffered β)
  | eof
  | error
  | wait

namespace Buffered

def bytes (s : Buffered β) : List β := s.unread ++ s.incoming.bytes

/-- Take the next byte, out of the buffer or else of a new `read` of `size` bytes. -/
def next (size : ℕ) (s : Buffered β) : NextResult β :=
  match s.unread with
  | b :: unread => .byte b { s with unread }
  | [] =>
    match s.incoming.read size with
    | .data (b :: unread) incoming => .byte b { unread, incoming }
    | .data [] _ | .eof => .eof
    | .error => .error
    | .wait => .wait

/-- **The next byte does not depend on the pieces.** -/
theorem next_eq (size : ℕ) (hsize : 0 < size) {s : Buffered β} {b : β} {l : List β}
    (h : s.bytes = b :: l) :
    ∃ s', s.next size = .byte b s' ∧ s'.bytes = l ∧ s'.incoming.ending = s.incoming.ending := by
  obtain ⟨unread, incoming⟩ := s
  rcases unread with _ | ⟨b', unread⟩
  · have hbytes : incoming.bytes = b :: l := h
    obtain ⟨got, rest, hread, hgot, -, heq, hending⟩ :=
      incoming.read_eq hsize (by rw [hbytes]; exact List.cons_ne_nil _ _)
    obtain ⟨b', got, rfl⟩ := List.exists_cons_of_ne_nil hgot
    rw [hbytes, List.cons_append] at heq
    obtain ⟨rfl, rfl⟩ := List.cons.inj heq
    refine ⟨{ unread := got, incoming := rest }, ?_, rfl, hending⟩
    rw [next, hread]
  · obtain ⟨rfl, rfl⟩ := List.cons.inj h
    exact ⟨_, rfl, rfl, rfl⟩

theorem next_eq_wait {s : Buffered β} (h : s.bytes = []) (hopen : s.incoming.ending = none)
    (size : ℕ) : s.next size = .wait := by
  obtain ⟨hunread, hincoming⟩ := List.append_eq_nil_iff.mp h
  rw [next, hunread, Incoming.read_eq_wait hincoming hopen]

end Buffered
