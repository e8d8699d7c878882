import Mathlib.Data.List.FinRange
import Mathlib.Logic.Function.Basic
import Cs241.Foundation.ByteMemory
import Cs241.Foundation.Runs

/-!
# The chat server of `charming_chatroom/server.c`

The acceptor puts each new descriptor into a free slot of `clients` and starts a
thread for that slot. The thread reads messages and broadcasts them; when its
client is gone it closes the descriptor, and then clears the slot under the
mutex. A broadcast holds the mutex through the two write loops for each client,
which take one `write` at a time. The system keeps the open descriptors and may
hand out a number again as soon as it is closed.
-/
namespace Cs241.Chat

open Foundation

/-- `MAX_CLIENTS`. -/
abbrev maxClients : ℕ := 8

abbrev Slot := Fin maxClients

/-- Where the loop of `run_server` is: at its test, in `accept`, or before its section under the
mutex with the descriptor that `accept` returned. -/
inductive Acceptor
  | testing
  | accepting
  | storing (clientId : ℕ)
deriving DecidableEq

/-- The thread of a slot: none, in its loop, or between `close` and its section under the mutex. -/
inductive Client
  | absent
  | serving
  | closed
deriving DecidableEq

/-- Where a broadcast is: at the test of its loop, or in the write loop for the size or for the
message, with the socket and the bytes that are left to write. -/
inductive Point
  | head (i : ℕ)
  | size (i socket : ℕ) (left : List UInt8)
  | message (i socket : ℕ) (left : List UInt8)
deriving DecidableEq

/-- The slot whose turn it is. -/
def Point.index : Point → ℕ
  | .head i => i
  | .size i _ _ => i
  | .message i _ _ => i

/-- A call of `write_to_clients` that holds the mutex. -/
structure Broadcast where
  owner : Slot
  message : List UInt8
  point : Point
deriving DecidableEq

/-- `clients[i]` is `none` for `-1`. A connection is the number of the `accept` that made it;
`sent` is what has been written to it and `broadcasts` are the messages of the finished
broadcasts. -/
structure World where
  clients : Slot → Option ℕ
  clientsCount : ℤ
  acceptor : Acceptor
  client : Slot → Client
  broadcast : Option Broadcast
  descriptors : ℕ → Option ℕ
  accepted : ℕ
  sent : ℕ → List UInt8
  broadcasts : List (List UInt8)

def World.init : World :=
  { clients := fun _ => none, clientsCount := 0, acceptor := .testing, client := fun _ => .absent,
    broadcast := none, descriptors := fun _ => none, accepted := 0, sent := fun _ => [],
    broadcasts := [] }

/-! ## The acceptor -/

/-- `accept` returns `clientId`. -/
def accept (w : World) (clientId : ℕ) : World :=
  { w with
    acceptor := .storing clientId
    descriptors := Function.update w.descriptors clientId (some w.accepted)
    accepted := w.accepted + 1 }

def freeSlot (w : World) : Option Slot :=
  (List.finRange maxClients).find? fun i => w.clients i = none

/-- The section of `run_server` under the mutex, and the start of the thread. -/
def store (w : World) (clientId : ℕ) : World :=
  match freeSlot w with
  | some i =>
    { w with
      clients := Function.update w.clients i (some clientId)
      clientsCount := w.clientsCount + 1
      acceptor := .testing
      client := Function.update w.client i .serving }
  | none => { w with clientsCount := w.clientsCount + 1, acceptor := .testing }

/-! ## The threads of the clients -/

/-- `write_to_clients` takes the mutex. -/
def beginBroadcast (w : World) (i : Slot) (message : List UInt8) : World :=
  { w with broadcast := some { owner := i, message := message, point := .head 0 } }

/-- The test of the loop of `write_to_clients`: the mutex is given back, a free slot is skipped, or
`write_message_size` starts. -/
def loopHead (w : World) (b : Broadcast) (i : ℕ) : World :=
  if h : i < maxClients then
    match w.clients ⟨i, h⟩ with
    | none => { w with broadcast := some { b with point := .head (i + 1) } }
    | some socket =>
      { w with
        broadcast := some { b with point := .size i socket (networkBytes b.message.length) } }
  else { w with broadcast := none, broadcasts := w.broadcasts ++ [b.message] }

theorem loopHead_cases (w : World) (b : Broadcast) (i : ℕ) :
    (loopHead w b i = { w with broadcast := some { b with point := .head (i + 1) } } ∧
        ∃ h : i < maxClients, w.clients ⟨i, h⟩ = none) ∨
      (∃ socket, loopHead w b i =
          { w with
            broadcast := some { b with point := .size i socket (networkBytes b.message.length) } } ∧
        ∃ h : i < maxClients, w.clients ⟨i, h⟩ = some socket) ∨
      loopHead w b i = { w with broadcast := none, broadcasts := w.broadcasts ++ [b.message] } ∧
        maxClients ≤ i := by
  by_cases h : i < maxClients
  · cases hi : w.clients ⟨i, h⟩ with
    | none => exact .inl ⟨by simp only [loopHead, h, dif_pos, hi], h, hi⟩
    | some socket => exact .inr (.inl ⟨socket, by simp only [loopHead, h, dif_pos, hi], h, hi⟩)
  · exact .inr (.inr ⟨by rw [loopHead, dif_neg h], not_lt.mp h⟩)

/-- The socket of the `write` that comes next, and the bytes it is to write. -/
def Point.pending : Point → Option (ℕ × List UInt8)
  | .head _ => none
  | .size _ socket left => some (socket, left)
  | .message _ socket left => some (socket, left)

/-- A `write` has written `n` bytes: the loop goes on until none is left. After the size comes the
message, and after the message the next slot. -/
def Broadcast.advance (b : Broadcast) (n : ℕ) : Point :=
  match b.point with
  | .head i => .head i
  | .size i socket left =>
    if left.drop n = [] then .message i socket b.message else .size i socket (left.drop n)
  | .message i socket left =>
    if left.drop n = [] then .head (i + 1) else .message i socket (left.drop n)

def wrote (w : World) (b : Broadcast) (n : ℕ) : World :=
  match b.point.pending.bind fun (socket, left) => (w.descriptors socket).map (·, left) with
  | some (connection, left) =>
    { w with
      sent := Function.update w.sent connection (w.sent connection ++ left.take n)
      broadcast := some { b with point := b.advance n } }
  | none => w

theorem wrote_eq {w : World} {b : Broadcast} {n socket connection : ℕ} {left : List UInt8}
    (hpending : b.point.pending = some (socket, left))
    (hopen : w.descriptors socket = some connection) :
    wrote w b n =
      { w with
        sent := Function.update w.sent connection (w.sent connection ++ left.take n)
        broadcast := some { b with point := b.advance n } } := by
  simp [wrote, hpending, hopen]

/-- A `write` has returned zero: `write_all_to_socket` returns zero, and the client is given up. -/
def wroteZero (w : World) (b : Broadcast) : World :=
  match b.point with
  | .head _ => w
  | .size i _ _ => { w with broadcast := some { b with point := .head (i + 1) } }
  | .message i _ _ => { w with broadcast := some { b with point := .head (i + 1) } }

theorem wroteZero_eq {w : World} {b : Broadcast} (hpending : b.point.pending.isSome) :
    wroteZero w b = { w with broadcast := some { b with point := .head (b.point.index + 1) } } := by
  obtain ⟨owner, message, point⟩ := b
  cases point with
  | head i => cases hpending
  | size i socket left => rfl
  | message i socket left => rfl

/-- `close(clients[clientId])` at the end of `process_client`. -/
def closeClient (w : World) (i : Slot) : World :=
  { w with
    client := Function.update w.client i .closed
    descriptors := fun socket =>
      if w.clients i = some socket then none else w.descriptors socket }

/-- The section of `process_client` under the mutex. -/
def clear (w : World) (i : Slot) : World :=
  { w with
    clients := Function.update w.clients i none
    clientsCount := w.clientsCount - 1
    client := Function.update w.client i .absent }

/-! ## Steps -/

/-- `begin i size message`: the thread of slot `i` has received the bytes `size` and `message`. A
`write` that fails is made again, which changes nothing. -/
inductive Action
  | test
  | accept (clientId : ℕ)
  | store (clientId : ℕ)
  | begin (i : Slot) (size message : List UInt8)
  | loop (b : Broadcast) (i : ℕ)
  | wrote (b : Broadcast) (n : ℕ)
  | wroteZero (b : Broadcast)
  | failed
  | close (i : Slot)
  | clear (i : Slot)

/-- When a step can be taken. Sections under the mutex wait for the broadcast to end. -/
def Enabled (w : World) : Action → Prop
  | .test => w.acceptor = .testing ∧ w.clientsCount < maxClients
  | .accept clientId => w.acceptor = .accepting ∧ w.descriptors clientId = none
  | .store clientId => w.acceptor = .storing clientId ∧ w.broadcast = none
  | .begin i size message => w.client i = .serving ∧ w.broadcast = none ∧ size.length = 4 ∧
      message.length = ofNetworkBytes size ∧ 0 < message.length
  | .loop b i => w.broadcast = some b ∧ b.point = .head i
  | .wrote b n => w.broadcast = some b ∧ ∃ p ∈ b.point.pending,
      (w.descriptors p.1).isSome ∧ 0 < n ∧ n ≤ p.2.length
  | .wroteZero b => w.broadcast = some b ∧ b.point.pending.isSome
  | .failed => ∃ b ∈ w.broadcast, b.point.pending.isSome
  | .close i => w.client i = .serving ∧ ∀ b ∈ w.broadcast, b.owner ≠ i
  | .clear i => w.client i = .closed ∧ w.broadcast = none

instance (w : World) (a : Action) : Decidable (Enabled w a) := by
  cases a <;> unfold Enabled <;> infer_instance

def perform (w : World) : Action → World
  | .test => { w with acceptor := .accepting }
  | .accept clientId => Chat.accept w clientId
  | .store clientId => Chat.store w clientId
  | .begin i _ message => beginBroadcast w i message
  | .loop b i => loopHead w b i
  | .wrote b n => Chat.wrote w b n
  | .wroteZero b => Chat.wroteZero w b
  | .failed => w
  | .close i => closeClient w i
  | .clear i => Chat.clear w i

def Step (w : World) (a : Action) (w' : World) : Prop := Enabled w a ∧ w' = perform w a

/-- The actions one after the other, as long as they are enabled and meet the guard. -/
def performAll (guard : World → Action → Prop) [∀ w a, Decidable (guard w a)] (as : List Action)
    (w : World) : Option World :=
  as.foldlM (fun w a => if Enabled w a ∧ guard w a then some (perform w a) else none) w

theorem run_of_performAll {as : List Action} {w w' : World} {guard : World → Action → Prop}
    [∀ w a, Decidable (guard w a)] (h : performAll guard as w = some w') :
    Run (Guarded Step guard) w as w' :=
  (Run.of_foldlM h).mono fun hstep => ⟨hstep.1.2, hstep.1.1, (Option.some.inj hstep.2).symm⟩

theorem run_of_performAll_true {as : List Action} {w w' : World}
    (h : performAll (fun _ _ => True) as w = some w') : Run Step w as w' :=
  (run_of_performAll h).mono fun hstep => hstep.2

end Cs241.Chat
