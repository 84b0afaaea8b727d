import IbvBench.Lib.PutFenceJob

/-!
# A server for puts and fences

The plain server keeps the pairs by epochs, and the processes that wait at the fence.  What the messages
look like is left to a `Codec`.

* `Codec` — how requests are understood, and what is answered.
* `Codec.server` — the server.  That it keeps to the protocol follows from what is known of the codec.
-/

set_option autoImplicit false

namespace PutFence

variable {n : ℕ} {X Y K V β : Type}

/-- An operation of which the exchange is known by its kind only. -/
def Op.map (kind : X → Y) : Op X K V → Op Y K V
  | .other x => .other (kind x)
  | .put key value => .put key value
  | .fence => .fence
  | .get key => .get key

/-- What a server makes of the messages of a protocol. -/
structure Codec (n : ℕ) (Y : Type) (P : Protocol X K V β) where
  kind : X → Y
  decode : List β → Option (Op Y K V)
  /-- The answer to an operation of a process, to a `get` with the value if there is one. -/
  answer : Fin n → Op Y K V → Option V → List β
  decode_request : ∀ {op}, P.Ok op → decode (P.request op) = some (op.map kind)
  answer_other : ∀ {r x}, P.Ok (.other x) →
    P.Answer (.other x) none (answer r (.other (kind x)) none)
  answer_put : ∀ {r key value}, P.Ok (.put key value) →
    P.Answer (.put key value) none (answer r (.put key value) none)
  answer_fence : ∀ {r}, P.Ok .fence → P.Answer .fence none (answer r .fence none)
  answer_get : ∀ {r key value}, P.Ok (.get key) → P.Ok (.put key value) →
    P.Answer (.get key) (some value) (answer r (.get key) (some value))

/-- What the server knows. -/
structure Store (n : ℕ) (K V : Type) where
  pairs : State n K V := {}
  arrived : Fin n → Bool := fun _ ↦ false

/-- One process is answered. -/
def reply (r : Fin n) (message : List β) (q : Fin n) : Pieces β :=
  if q = r then .single message else .empty

theorem answered_reply {r : Fin n} {A : List β → Prop} {message : List β} (h : A message) :
    Answered r A (reply r message) := by
  refine ⟨?_, fun q hq ↦ ?_⟩
  · rw [reply, if_pos rfl, Pieces.bytes_single]
    exact h
  · rw [reply, if_neg hq, Pieces.bytes_empty]

section

variable [DecidableEq K] {key : K} {value : V}

/-- The visible value of a key. -/
def State.find (a : State n K V) (key : K) : Option V :=
  (a.visible.find? fun p ↦ p.1 = key).map Prod.snd

/-- A value that is settled is found. -/
theorem State.Settled.find_eq {a : State n K V} (h : a.Settled key value) :
    a.find key = some value := by
  obtain ⟨hmem, hunique⟩ := h
  rcases hfind : a.visible.find? fun p ↦ p.1 = key with _ | p
  · have hnone := List.find?_eq_none.mp hfind _ hmem
    exact absurd (decide_eq_true rfl) hnone
  · have hp : p.1 = key := by simpa using List.find?_some hfind
    have hvalue : p.2 = value := by
      refine hunique p.2 (List.mem_append_left _ ?_)
      rw [← hp]
      exact List.mem_of_find?_eq_some hfind
    rw [State.find, hfind, Option.map_some, hvalue]

end

namespace Codec

variable [DecidableEq K] {P : Protocol X K V β} (c : Codec n Y P)

/-- What is done for an operation, and what is sent to each process. -/
def perform (s : Store n K V) (r : Fin n) : Op Y K V → Store n K V × (Fin n → Pieces β)
  | .other y => (s, reply r (c.answer r (.other y) none))
  | .put key value => ({ s with pairs := s.pairs.apply (.put r key value) },
      reply r (c.answer r (.put key value) none))
  | .get key => (s, reply r (c.answer r (.get key) (s.pairs.find key)))
  | .fence =>
    if ∀ q, q ≠ r → s.arrived q = true then
      ({ pairs := s.pairs.apply .fence }, fun q ↦ .single (c.answer q .fence none))
    else ({ s with arrived := Function.update s.arrived r true }, fun _ ↦ .empty)

/-- A message that is not understood is not answered. -/
def serve (s : Store n K V) (r : Fin n) (message : List β) : Store n K V × (Fin n → Pieces β) :=
  match c.decode message with
  | some op => c.perform s r op
  | none => (s, fun _ ↦ .empty)

theorem serve_request {op : Op X K V} (hok : P.Ok op) (s : Store n K V) (r : Fin n) :
    c.serve s r (P.request op) = c.perform s r (op.map c.kind) := by
  rw [serve, c.decode_request hok]

/-- **The server keeps to the protocol.** -/
def server : Server n P where
  State := Store n K V
  init := {}
  serve := c.serve
  view := Store.pairs
  arrived := Store.arrived
  view_init := rfl
  arrived_init := rfl
  other s r x hok := by
    rw [c.serve_request hok]
    exact ⟨rfl, rfl, answered_reply (c.answer_other hok)⟩
  put s r key value hok := by
    rw [c.serve_request hok]
    exact ⟨rfl, rfl, answered_reply (c.answer_put hok)⟩
  get s r key value hok hput hsettled := by
    rw [c.serve_request hok, Op.map, perform, hsettled.find_eq]
    exact ⟨rfl, rfl, answered_reply (c.answer_get hok hput)⟩
  fence_wait s r hok hother := by
    obtain ⟨q, hne, hq⟩ := hother
    have hnot : ¬ ∀ q, q ≠ r → s.arrived q = true := fun hall ↦ by
      rw [hall q hne] at hq
      cases hq
    rw [c.serve_request hok, Op.map, perform, if_neg hnot]
    exact ⟨rfl, rfl, fun _ ↦ Pieces.bytes_empty⟩
  fence_done s r hok hothers := by
    rw [c.serve_request hok, Op.map, perform, if_pos hothers]
    refine ⟨rfl, rfl, fun q ↦ ?_⟩
    rw [Pieces.bytes_single]
    exact c.answer_fence hok

end Codec

end PutFence
