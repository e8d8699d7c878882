import Cs241.Chat.Messages
import Cs241.Foundation.Interleavings

/-!
# The chat room from end to end

The clients write frames to their connections, in pieces; the thread of a slot reads
the four bytes of a size and then the message, in pieces, and starts a broadcast. What
a client types, what is on its way and what the threads have read are kept with the
server's state, and a log tells from which connection each broadcast message came.
-/
namespace Cs241.Chat

open Foundation Sockets

/-- `unsent` is what `write_to_server` has yet to write of the typed messages, `wire` what the
server has yet to read, and `buffer` what the thread of a slot has read of the next frame. -/
structure Room where
  world : World
  typed : ℕ → List Message
  unsent : ℕ → List UInt8
  wire : ℕ → List UInt8
  buffer : Slot → List UInt8
  log : List (ℕ × List UInt8)

def Room.init : Room :=
  { world := .init, typed := fun _ => [], unsent := fun _ => [], wire := fun _ => [],
    buffer := fun _ => [], log := [] }

/-- The connection whose client has the slot. -/
def World.connection (w : World) (i : Slot) : Option ℕ := (w.clients i).bind w.descriptors

/-- How many bytes the thread still asks for: of the size, and then of the message. -/
def missing (buffer : List UInt8) : ℕ :=
  if buffer.length < 4 then 4 - buffer.length
  else 4 + ofNetworkBytes (buffer.take 4) - buffer.length

/-- `type` is a message entered by the client of a connection, `write` and `read` are calls that
move `n` bytes. -/
inductive Deed
  | world (a : Action)
  | type (k : ℕ) (message : Message)
  | write (k n : ℕ)
  | read (i : Slot) (n : ℕ)

/-- A broadcast begins when the thread has read a whole frame. -/
def Room.Enabled (r : Room) : Deed → Prop
  | .world (.begin i size message) =>
    Chat.Enabled r.world (.begin i size message) ∧ r.buffer i = size ++ message
  | .world a => Chat.Enabled r.world a
  | .type _ _ => True
  | .write k n => 0 < n ∧ n ≤ (r.unsent k).length
  | .read i n => r.world.client i = .serving ∧ (∀ b ∈ r.world.broadcast, b.owner ≠ i) ∧
      ∃ k ∈ r.world.connection i, 0 < n ∧ n ≤ missing (r.buffer i) ∧ n ≤ (r.wire k).length

instance (r : Room) (d : Deed) : Decidable (r.Enabled d) := by
  unfold Room.Enabled
  split <;> infer_instance

def Room.perform (r : Room) : Deed → Room
  | .world (.begin i size message) =>
    { r with
      world := Chat.perform r.world (.begin i size message)
      buffer := Function.update r.buffer i []
      log := r.log ++ (r.world.connection i).toList.map fun k => (k, message) }
  | .world (.close i) =>
    { r with
      world := Chat.perform r.world (.close i)
      buffer := Function.update r.buffer i [] }
  | .world a => { r with world := Chat.perform r.world a }
  | .type k message =>
    { r with
      typed := Function.update r.typed k (r.typed k ++ [message])
      unsent := Function.update r.unsent k (r.unsent k ++ frame message.bytes) }
  | .write k n =>
    { r with
      unsent := Function.update r.unsent k ((r.unsent k).drop n)
      wire := Function.update r.wire k (r.wire k ++ (r.unsent k).take n) }
  | .read i n =>
    match r.world.connection i with
    | some k =>
      { r with
        wire := Function.update r.wire k ((r.wire k).drop n)
        buffer := Function.update r.buffer i (r.buffer i ++ (r.wire k).take n) }
    | none => r

def Room.Step (r : Room) (d : Deed) (r' : Room) : Prop := r.Enabled d ∧ r' = r.perform d

/-! ## Frames -/

theorem frame_length (message : List UInt8) : (frame message).length = 4 + message.length := by
  simp [frame]

/-- A frame is read back from the front of a stream. -/
theorem frame_append_inj {m m' rest rest' : List UInt8} (hm : m.length < 2 ^ 32)
    (hm' : m'.length < 2 ^ 32) (h : frame m ++ rest = frame m' ++ rest') : m = m' ∧ rest = rest' := by
  simp only [frame, List.append_assoc] at h
  obtain ⟨hsize, hbody⟩ := List.append_inj h (by simp)
  have hlen : m.length = m'.length := by
    rw [← ofNetworkBytes_networkBytes hm, hsize, ofNetworkBytes_networkBytes hm']
  exact List.append_inj hbody hlen

/-- The frames of the messages. -/
def frames (messages : List (List UInt8)) : List UInt8 := (messages.map frame).flatten

@[simp] theorem frames_nil : frames [] = [] := rfl

theorem frames_append (ms ms' : List (List UInt8)) : frames (ms ++ ms') = frames ms ++ frames ms' := by
  simp [frames]

theorem frames_singleton (m : List UInt8) : frames [m] = frame m := by simp [frames]

/-- The next message in a stream of frames is the next one that was typed. -/
theorem next_message {done typed : List (List UInt8)} {m rest : List UInt8}
    (htyped : ∀ m ∈ typed, m.length < 2 ^ 32) (hm : m.length < 2 ^ 32) (hdone : done <+: typed)
    (h : frames typed = frames done ++ (frame m ++ rest)) : done ++ [m] <+: typed := by
  obtain ⟨more, rfl⟩ := hdone
  rw [frames_append] at h
  have hmore := List.append_cancel_left h
  cases more with
  | nil =>
    have hlen := congrArg List.length hmore
    rw [frames_nil, List.length_append, frame_length, List.length_nil] at hlen
    omega
  | cons m' more =>
    rw [← List.singleton_append, frames_append, frames_singleton] at hmore
    obtain ⟨rfl, -⟩ := frame_append_inj (htyped m' (by simp)) hm hmore
    exact ⟨more, by simp⟩

/-! ## Where the typed bytes are -/

/-- The connection is not yet in a slot: it has not been accepted, or not been stored. -/
def World.Waiting (w : World) (k : ℕ) : Prop :=
  w.accepted ≤ k ∨ ∃ clientId, w.acceptor = .storing clientId ∧ w.descriptors clientId = some k

/-- The bytes of the messages that the client of `k` has typed. -/
def Room.stream (r : Room) (k : ℕ) : List UInt8 := frames ((r.typed k).map Message.bytes)

/-- The bytes of the messages that were broadcast for `k`. -/
def Room.done (r : Room) (k : ℕ) : List UInt8 := frames (written r.log k)

structure RoomInv (r : Room) : Prop where
  table : TableInv r.world
  idle : ∀ i, r.world.client i ≠ .serving → r.buffer i = []
  /-- What a served client has typed was broadcast or is on its way, in this order. -/
  served : ∀ i k, r.world.client i = .serving → r.world.connection i = some k →
    r.stream k = r.done k ++ (r.buffer i ++ r.wire k ++ r.unsent k)
  waiting : ∀ k, r.world.Waiting k →
    written r.log k = [] ∧ r.stream k = r.wire k ++ r.unsent k
  fifo : ∀ k, written r.log k <+: (r.typed k).map Message.bytes
  current : r.log.map Prod.snd =
    r.world.broadcasts ++ (r.world.broadcast.toList.map Broadcast.message)
  proper : ∀ e ∈ r.log, 0 < e.2.length ∧ e.2.length < 2 ^ 32

theorem init_roomInv : RoomInv .init where
  table := init_tableInv
  idle _ _ := rfl
  served _ _ h := nomatch h
  waiting _ _ := ⟨rfl, rfl⟩
  fifo _ := List.nil_prefix
  current := rfl
  proper := nofun

/-- Two served slots have different connections. -/
theorem connection_injective {w : World} (h : TableInv w) {i j : Slot} {k : ℕ}
    (hi : w.client i = .serving) (hj : w.client j = .serving) (hik : w.connection i = some k)
    (hjk : w.connection j = some k) : i = j := by
  obtain ⟨s, hs, hsk⟩ := Option.bind_eq_some_iff.mp hik
  obtain ⟨s', hs', hsk'⟩ := Option.bind_eq_some_iff.mp hjk
  obtain rfl := h.injective s s' k hsk hsk'
  exact h.served i j s hi hj hs hs'

theorem connection_not_waiting {w : World} (h : TableInv w) {i : Slot} {k : ℕ}
    (hi : w.client i = .serving) (hik : w.connection i = some k) : ¬ w.Waiting k := by
  obtain ⟨s, hs, hsk⟩ := Option.bind_eq_some_iff.mp hik
  rintro (hk | ⟨clientId, hstoring, hk⟩)
  · exact absurd (h.older s k hsk) hk.not_gt
  · obtain rfl := h.injective s clientId k hsk hk
    exact (h.storing s hstoring).2 i hi hs

/-- A step of the server that moves no bytes of the clients. -/
theorem RoomInv.world {r : Room} {w : World} (h : RoomInv r) (htable : TableInv w)
    (hserving : ∀ i, w.client i = .serving → r.world.client i = .serving ∧
      w.connection i = r.world.connection i)
    (hidle : ∀ i, w.client i ≠ .serving → r.world.client i ≠ .serving)
    (hwaiting : ∀ k, w.Waiting k → r.world.Waiting k)
    (hcurrent : w.broadcasts ++ w.broadcast.toList.map Broadcast.message =
      r.world.broadcasts ++ r.world.broadcast.toList.map Broadcast.message) :
    RoomInv { r with world := w } where
  table := htable
  idle i hi := h.idle i (hidle i hi)
  served i k hi hk := by
    obtain ⟨hi', hconnection⟩ := hserving i hi
    exact h.served i k hi' (hconnection ▸ hk)
  waiting k hk := h.waiting k (hwaiting k hk)
  fifo := h.fifo
  current := h.current.trans hcurrent.symm
  proper := h.proper

/-- Only broadcasts differ. -/
theorem RoomInv.sameTable {r : Room} {w : World} (h : RoomInv r) (hsame : SameTable r.world w)
    (hcurrent : w.broadcasts ++ w.broadcast.toList.map Broadcast.message =
      r.world.broadcasts ++ r.world.broadcast.toList.map Broadcast.message) :
    RoomInv { r with world := w } := by
  refine h.world (h.table.congr hsame) (fun i hi => ?_) (fun i hi => ?_) (fun k hk => ?_) hcurrent
  · rw [hsame.client] at hi
    exact ⟨hi, by rw [World.connection, hsame.clients, hsame.descriptors, World.connection]⟩
  · rwa [hsame.client] at hi
  · rwa [World.Waiting, hsame.accepted, hsame.acceptor, hsame.descriptors] at hk

theorem loopHead_current {w : World} {b : Broadcast} {i : ℕ} (hb : w.broadcast = some b) :
    (loopHead w b i).broadcasts ++ (loopHead w b i).broadcast.toList.map Broadcast.message =
      w.broadcasts ++ w.broadcast.toList.map Broadcast.message := by
  rcases loopHead_cases w b i with ⟨heq, -⟩ | ⟨socket, heq, -⟩ | ⟨heq, -⟩ <;> rw [heq, hb] <;> simp

theorem RoomInv.accept {r : Room} {clientId : ℕ} (h : RoomInv r)
    (hacceptor : r.world.acceptor = .accepting) (hclosed : r.world.descriptors clientId = none) :
    RoomInv { r with world := Chat.accept r.world clientId } := by
  refine h.world (h.table.accept hacceptor hclosed) (fun i hi => ⟨hi, ?_⟩) (fun i hi => hi)
    (fun k hk => .inl ?_) rfl
  · cases hsocket : r.world.clients i with
    | none => simp only [World.connection, Chat.accept, hsocket, Option.bind_none]
    | some socket =>
      have hopen := h.table.opened i socket hi hsocket
      have hne : socket ≠ clientId := fun heq => by simp [heq, hclosed] at hopen
      simp only [World.connection, Chat.accept, hsocket, Option.bind_some,
        Function.update_of_ne hne]
  · rcases hk with hk | ⟨clientId', hstoring, hk⟩
    · exact Nat.le_of_succ_le hk
    · obtain rfl : clientId = clientId' := Acceptor.storing.inj hstoring
      have hk : some r.world.accepted = some k := by
        simpa only [Chat.accept, Function.update_self] using hk
      exact (Option.some.inj hk).le

/-- The new client's connection was waiting until now. -/
theorem RoomInv.store {r : Room} {clientId : ℕ} (h : RoomInv r)
    (hacceptor : r.world.acceptor = .storing clientId) :
    RoomInv { r with world := Chat.store r.world clientId } := by
  have htable := h.table.store hacceptor
  simp only [Chat.store] at htable ⊢
  split at htable
  · case h_1 i hi =>
    have hfree : r.world.client i ≠ .serving := by
      have habsent := (h.table.absent i).mp (freeSlot_eq_some hi)
      simp [habsent]
    refine ⟨htable, fun j hj => ?_, fun j k hj hk => ?_, fun k hk => ?_, h.fifo, h.current,
      h.proper⟩
    · by_cases hji : j = i
      · exact h.idle j (hji ▸ hfree)
      · exact h.idle j (by simpa [hji] using hj)
    · by_cases hji : j = i
      · subst hji
        have hdescriptor : r.world.descriptors clientId = some k := by
          simpa [World.connection] using hk
        obtain ⟨hlog, hstream⟩ := h.waiting k (.inr ⟨clientId, hacceptor, hdescriptor⟩)
        have hbuffer : r.buffer j = [] := h.idle j hfree
        show r.stream k = r.done k ++ (r.buffer j ++ r.wire k ++ r.unsent k)
        rw [Room.done, hlog, frames_nil, hbuffer, List.nil_append, List.nil_append, hstream]
      · exact h.served j k (by simpa [hji] using hj) (by simpa [World.connection, hji] using hk)
    · rcases hk with hk | ⟨clientId', hstoring, -⟩
      · exact h.waiting k (.inl hk)
      · cases hstoring
  · refine h.world htable (fun i hi => ⟨hi, rfl⟩) (fun i hi => hi) (fun k hk => ?_) rfl
    rcases hk with hk | ⟨clientId', hstoring, -⟩
    · exact .inl hk
    · cases hstoring

theorem RoomInv.close {r : Room} {i : Slot} (h : RoomInv r) (hi : r.world.client i = .serving) :
    RoomInv { r with world := closeClient r.world i, buffer := Function.update r.buffer i [] } := by
  have hother {j : Slot} (hj : (closeClient r.world i).client j = .serving) :
      j ≠ i ∧ r.world.client j = .serving := by
    by_cases hji : j = i
    · simp [closeClient, hji] at hj
    · exact ⟨hji, by simpa [closeClient, hji] using hj⟩
  have hopen {socket k : ℕ} (hk : (closeClient r.world i).descriptors socket = some k) :
      r.world.descriptors socket = some k := by
    simp only [closeClient] at hk
    split_ifs at hk
    exact hk
  refine ⟨h.table.close hi, fun j hj => ?_, fun j k hj hk => ?_, fun k hk => ?_, h.fifo, h.current,
    h.proper⟩
  · show Function.update r.buffer i [] j = []
    by_cases hji : j = i
    · rw [hji, Function.update_self]
    · rw [Function.update_of_ne hji]
      exact h.idle j (by simpa [closeClient, hji] using hj)
  · obtain ⟨hji, hj⟩ := hother hj
    obtain ⟨socket, hsocket, hk⟩ := Option.bind_eq_some_iff.mp hk
    have hconnection : r.world.connection j = some k :=
      Option.bind_eq_some_iff.mpr ⟨socket, hsocket, hopen hk⟩
    have hserved := h.served j k hj hconnection
    show r.stream k = r.done k ++ (Function.update r.buffer i [] j ++ r.wire k ++ r.unsent k)
    rw [Function.update_of_ne hji]
    exact hserved
  · refine h.waiting k ?_
    rcases hk with hk | ⟨clientId, hstoring, hk⟩
    · exact .inl hk
    · exact .inr ⟨clientId, hstoring, hopen hk⟩

theorem RoomInv.clear {r : Room} {i : Slot} (h : RoomInv r) (hi : r.world.client i = .closed) :
    RoomInv { r with world := Chat.clear r.world i } := by
  refine h.world (h.table.clear hi) (fun j hj => ?_) (fun j hj => ?_) (fun k hk => hk) rfl
  · by_cases hji : j = i
    · simp [Chat.clear, hji] at hj
    · exact ⟨by simpa [Chat.clear, hji] using hj, by simp [World.connection, Chat.clear, hji]⟩
  · by_cases hji : j = i
    · simp [hji, hi]
    · simpa [Chat.clear, hji] using hj

/-- A thread starts to broadcast the frame that it has read. -/
theorem RoomInv.begin {r : Room} {i : Slot} {size message : List UInt8} (h : RoomInv r)
    (hen : r.Enabled (.world (.begin i size message))) :
    RoomInv (r.perform (.world (.begin i size message))) := by
  obtain ⟨⟨hi, hidle, hsize, hlength, hpos⟩, hbuffer⟩ := hen
  obtain ⟨k, hk⟩ : ∃ k, r.world.connection i = some k := by
    cases hsocket : r.world.clients i with
    | none =>
      rw [h.table.absent, hi] at hsocket
      cases hsocket
    | some socket =>
      obtain ⟨k, hk⟩ := Option.isSome_iff_exists.mp (h.table.opened i socket hi hsocket)
      exact ⟨k, Option.bind_eq_some_iff.mpr ⟨socket, hsocket, hk⟩⟩
  have hlt : message.length < 2 ^ 32 := hlength ▸ ofNetworkBytes_lt hsize
  have hframe : r.buffer i = frame message := by
    rw [hbuffer, frame, hlength, networkBytes_ofNetworkBytes hsize]
  have hserved := h.served i k hi hk
  rw [hframe] at hserved
  have hlog : r.perform (.world (.begin i size message)) =
      { r with
        world := beginBroadcast r.world i message
        buffer := Function.update r.buffer i []
        log := r.log ++ [(k, message)] } := by
    simp [Room.perform, hk, Chat.perform]
  rw [hlog]
  have hwritten (j : ℕ) :
      written (r.log ++ [(k, message)]) j = written r.log j ++ if k = j then [message] else [] := by
    rw [written_append]
    exact congrArg _ (written_block [message] k j)
  refine ⟨h.table.congr ⟨rfl, rfl, rfl, rfl, rfl, rfl⟩, fun j hj => ?_, fun j k' hj hk' => ?_,
    fun k' hk' => ?_, fun k' => ?_, ?_, fun e he => ?_⟩
  · have hji : j ≠ i := by
      rintro rfl
      exact hj hi
    show Function.update r.buffer i [] j = []
    rw [Function.update_of_ne hji]
    exact h.idle j hj
  · show r.stream k' = frames (written (r.log ++ [(k, message)]) k') ++
      (Function.update r.buffer i [] j ++ r.wire k' ++ r.unsent k')
    rw [hwritten]
    by_cases hji : j = i
    · subst hji
      obtain rfl : k = k' := Option.some.inj (hk.symm.trans hk')
      rw [if_pos rfl, frames_append, frames_singleton, Function.update_self, List.nil_append,
        hserved, Room.done]
      simp only [List.append_assoc]
    · have hkk : k ≠ k' := by
        rintro rfl
        exact hji (connection_injective h.table hj hi hk' hk)
      rw [if_neg hkk, List.append_nil, Function.update_of_ne hji]
      exact h.served j k' hj hk'
  · obtain ⟨hempty, hstream⟩ := h.waiting k' hk'
    have hkk : k ≠ k' := by
      rintro rfl
      exact connection_not_waiting h.table hi hk hk'
    refine ⟨?_, hstream⟩
    rw [hwritten, if_neg hkk, List.append_nil, hempty]
  · rw [hwritten]
    by_cases hkk : k = k'
    · subst hkk
      rw [if_pos rfl]
      refine @next_message _ _ _ (r.wire k ++ r.unsent k) ?_ hlt (h.fifo k) ?_
      · intro m hm
        obtain ⟨message, -, rfl⟩ := List.mem_map.mp hm
        exact message.lt
      · show r.stream k = _
        rw [hserved, Room.done, List.append_assoc]
    · rw [if_neg hkk, List.append_nil]
      exact h.fifo k'
  · have hcurrent := h.current
    rw [hidle] at hcurrent
    simp [hcurrent, beginBroadcast]
  · rcases List.mem_append.mp he with he | he
    · exact h.proper e he
    · obtain rfl := List.mem_singleton.mp he
      exact ⟨hpos, hlt⟩

/-- Bytes of the clients move, maybe after more messages were typed. -/
theorem RoomInv.move {r r' : Room} (h : RoomInv r) (hworld : r'.world = r.world)
    (hlog : r'.log = r.log) (more : ℕ → List Message)
    (htyped : ∀ k, r'.typed k = r.typed k ++ more k)
    (hidle : ∀ i, r.world.client i ≠ .serving → r'.buffer i = r.buffer i)
    (hserved : ∀ i k, r.world.client i = .serving → r.world.connection i = some k →
      r'.buffer i ++ r'.wire k ++ r'.unsent k =
        r.buffer i ++ r.wire k ++ r.unsent k ++ frames ((more k).map Message.bytes))
    (hwaiting : ∀ k, r.world.Waiting k → r'.wire k ++ r'.unsent k =
      r.wire k ++ r.unsent k ++ frames ((more k).map Message.bytes)) : RoomInv r' := by
  have hstream (k : ℕ) : r'.stream k = r.stream k ++ frames ((more k).map Message.bytes) := by
    rw [Room.stream, htyped, List.map_append, frames_append, Room.stream]
  refine ⟨hworld ▸ h.table, fun i hi => ?_, fun i k hi hk => ?_, fun k hk => ?_, fun k => ?_, ?_, ?_⟩
  · rw [hworld] at hi
    rw [hidle i hi]
    exact h.idle i hi
  · rw [hworld] at hi hk
    rw [hstream, h.served i k hi hk, hserved i k hi hk, Room.done, Room.done, hlog]
    simp only [List.append_assoc]
  · rw [hworld] at hk
    obtain ⟨hempty, hold⟩ := h.waiting k hk
    rw [hlog, hstream, hold, hwaiting k hk]
    exact ⟨hempty, rfl⟩
  · rw [hlog, htyped, List.map_append]
    exact (h.fifo k).trans (List.prefix_append _ _)
  · rw [hlog, hworld]
    exact h.current
  · rw [hlog]
    exact h.proper

theorem RoomInv.type {r : Room} (h : RoomInv r) (k : ℕ) (message : Message) :
    RoomInv (r.perform (.type k message)) := by
  have hunsent (j : ℕ) : Function.update r.unsent k (r.unsent k ++ frame message.bytes) j =
      r.unsent j ++ frames ((if j = k then [message] else []).map Message.bytes) := by
    by_cases hj : j = k
    · subst hj
      simp [frames]
    · simp [hj]
  refine h.move rfl rfl (fun j => if j = k then [message] else []) (fun j => ?_) (fun _ _ => rfl)
    (fun i j _ _ => ?_) fun j _ => ?_
  · by_cases hj : j = k
    · subst hj
      simp [Room.perform]
    · simp [Room.perform, hj]
  · show r.buffer i ++ r.wire j ++ Function.update r.unsent k _ j = _
    rw [hunsent]
    simp only [List.append_assoc]
  · show r.wire j ++ Function.update r.unsent k _ j = _
    rw [hunsent, List.append_assoc]

theorem RoomInv.write {r : Room} (h : RoomInv r) (k n : ℕ) :
    RoomInv (r.perform (.write k n)) := by
  have hmoved (j : ℕ) : (r.perform (.write k n)).wire j ++ (r.perform (.write k n)).unsent j =
      r.wire j ++ r.unsent j := by
    by_cases hj : j = k
    · subst hj
      simp [Room.perform, List.append_assoc]
    · simp [Room.perform, hj]
  refine h.move rfl rfl (fun _ => []) (fun j => (List.append_nil _).symm) (fun _ _ => rfl)
    (fun i j _ _ => ?_) fun j _ => ?_
  · show r.buffer i ++ (r.perform (.write k n)).wire j ++ (r.perform (.write k n)).unsent j = _
    rw [List.append_assoc, hmoved]
    simp
  · rw [hmoved]
    simp

theorem RoomInv.read {r : Room} {i : Slot} {n : ℕ} (h : RoomInv r) (hen : r.Enabled (.read i n)) :
    RoomInv (r.perform (.read i n)) := by
  obtain ⟨hi, -, k, hk, -, -, -⟩ := hen
  have hperform : r.perform (.read i n) =
      { r with
        wire := Function.update r.wire k ((r.wire k).drop n)
        buffer := Function.update r.buffer i (r.buffer i ++ (r.wire k).take n) } := by
    have hk : r.world.connection i = some k := hk
    simp only [Room.perform, hk]
  rw [hperform]
  refine h.move rfl rfl (fun _ => []) (fun j => (List.append_nil _).symm) (fun j hj => ?_)
    (fun j k' hj hk' => ?_) fun k' hk' => ?_
  · have hji : j ≠ i := by
      rintro rfl
      exact hj hi
    exact Function.update_of_ne hji ..
  · by_cases hji : j = i
    · subst hji
      obtain rfl : k = k' := Option.some.inj (hk.symm.trans hk')
      simp
    · have hkk : k' ≠ k := by
        rintro rfl
        exact hji (connection_injective h.table hj hi hk' hk)
      simp [hji, hkk]
  · have hkk : k' ≠ k := by
      rintro rfl
      exact connection_not_waiting h.table hi hk hk'
    simp [hkk]

theorem step_roomInv {r r' : Room} {d : Deed} (h : RoomInv r) (hstep : r.Step d r') :
    RoomInv r' := by
  obtain ⟨hen, rfl⟩ := hstep
  cases d with
  | type k message => exact h.type k message
  | write k n => exact h.write k n
  | read i n => exact h.read hen
  | world a =>
    cases a with
    | test =>
      refine h.world (h.table.test hen.2) (fun i hi => ⟨hi, rfl⟩) (fun i hi => hi) (fun k hk => ?_) rfl
      rcases hk with hk | ⟨clientId, hstoring, -⟩
      · exact .inl hk
      · cases hstoring
    | accept clientId => exact h.accept hen.1 hen.2
    | store clientId => exact h.store hen.1
    | begin i size message => exact h.begin hen
    | loop b i => exact h.sameTable loopHead_sameTable (loopHead_current hen.1)
    | wrote b n =>
      obtain ⟨hb, ⟨socket, left⟩, hpending, hopen, -⟩ := hen
      obtain ⟨connection, hconnection⟩ := Option.isSome_iff_exists.mp hopen
      refine h.sameTable wrote_sameTable ?_
      rw [perform, wrote_eq hpending hconnection, hb]
      rfl
    | wroteZero b =>
      refine h.sameTable wroteZero_sameTable ?_
      rw [perform, wroteZero_eq hen.2, hen.1]
      rfl
    | failed => exact h
    | close i => exact h.close hen.1
    | clear i => exact h.clear hen.1

/-! ## Runs -/

/-- The steps of the server in a run of the room are a run of the server. -/
theorem run_world {guard : World → Action → Prop} {guard' : Room → Deed → Prop}
    {r₀ r : Room} {ds : List Deed} (hguard : ∀ r a, guard' r (.world a) → guard r.world a)
    (h : Run (Guarded Room.Step guard') r₀ ds r) :
    ∃ as, Run (Guarded Chat.Step guard) r₀.world as r.world := by
  induction h with
  | refl => exact ⟨[], .refl⟩
  | @tail ds r d r' _ hstep ih =>
    obtain ⟨as, hrun⟩ := ih
    obtain ⟨hg, hen, rfl⟩ := hstep
    cases d with
    | world a =>
      have ha : Chat.Enabled r.world a ∧
          (r.perform (.world a)).world = Chat.perform r.world a := by
        cases a <;> first | exact ⟨hen, rfl⟩ | exact ⟨hen.1, rfl⟩
      exact ⟨as ++ [a], hrun.tail ⟨hguard r a hg, ha.1, ha.2⟩⟩
    | type k message => exact ⟨as, hrun⟩
    | write k n => exact ⟨as, hrun⟩
    | read i n =>
      obtain ⟨-, -, k, hk, -⟩ := hen
      have hk : r.world.connection i = some k := hk
      refine ⟨as, ?_⟩
      simp only [Room.perform, hk]
      exact hrun

/-- `x` stays connected and whole, and no other slot has its descriptor when a broadcast begins. -/
def Undisturbed (x : Watched) (r : Room) : Deed → Prop
  | .world a => Stays x r.world a ∧ OneSlot x r.world a
  | _ => True

theorem log_grows {r r' : Room} {d : Deed} (hstep : r.Step d r') : r.log <+: r'.log := by
  obtain ⟨-, rfl⟩ := hstep
  cases d with
  | world a =>
    cases a with
    | begin i size message => exact List.prefix_append _ _
    | _ => exact List.prefix_rfl
  | read i n =>
    simp only [Room.perform]
    split <;> exact List.prefix_rfl
  | _ => exact List.prefix_rfl

theorem exists_messages {ms : List (List UInt8)} (h : ∀ m ∈ ms, 0 < m.length ∧ m.length < 2 ^ 32) :
    ∃ messages : List Message, messages.map Message.bytes = ms := by
  induction ms with
  | nil => exact ⟨[], rfl⟩
  | cons m ms ih =>
    obtain ⟨messages, rfl⟩ := ih fun m hm => h m (List.mem_cons_of_mem _ hm)
    obtain ⟨hpos, hlt⟩ := h m List.mem_cons_self
    exact ⟨⟨m, hpos, hlt⟩ :: messages, rfl⟩

theorem run_roomInv {ds : List Deed} {r : Room} (h : Run Room.Step .init ds r) : RoomInv r :=
  h.invariant init_roomInv fun hI hstep => step_roomInv hI hstep

/-- A client that has just joined shows, after any run that leaves it undisturbed, exactly the
messages that were broadcast since, in the order of the broadcasts; and what was broadcast for a
connection is what its client has typed, in its order and up to what is still on its way. -/
theorem run_room {ds₀ ds : List Deed} {r₀ r : Room} {x : Watched} (stale' : Source UInt8 → Stale)
    (h₀ : Run Room.Step .init ds₀ r₀) (hidle : r₀.world.broadcast = none)
    (hx : Connected r₀.world x) (hnew : r₀.world.sent x.connection = [])
    (h : Run (Guarded Room.Step (Undisturbed x)) r₀ ds r) (hend : r.world.broadcast = none) :
    (∃ log, r.log = r₀.log ++ log ∧ ∀ plan, ∃ N source, source.rest = [] ∧ ∀ fuel ≥ N,
      receive fuel stale' ⟨r.world.sent x.connection, plan⟩ = some (log.map Prod.snd, source)) ∧
    (∀ k, written r.log k <+: (r.typed k).map Message.bytes) ∧
    ∀ i k, r.world.client i = .serving → r.world.connection i = some k →
      r.buffer i ++ r.wire k ++ r.unsent k = [] →
        written r.log k = (r.typed k).map Message.bytes := by
  have hinv₀ := run_roomInv h₀
  have hinv := run_roomInv (h₀.trans (h.mono fun hstep => hstep.2))
  refine ⟨?_, hinv.fifo, fun i k hi hk hnothing => ?_⟩
  · obtain ⟨as₀, hrun₀⟩ := @run_world (fun _ _ => True) (fun _ _ => True) _ _ _
      (fun _ _ h => h) (h₀.mono fun hstep => ⟨trivial, hstep⟩)
    obtain ⟨as, hrun⟩ := @run_world (fun w a => Stays x w a ∧ OneSlot x w a) _ _ _ _
      (fun r a hguard => hguard) h
    have hbroadcast : BroadcastInv r₀.world :=
      hrun₀.invariant ⟨nofun, nofun⟩ fun hI hstep => step_broadcastInv hI hstep.2
    obtain ⟨-, messages, hmessages, hreceived⟩ :=
      run_received hinv₀.table hbroadcast hidle hx hrun
    obtain ⟨log, hlog⟩ : r₀.log <+: r.log :=
      h.invariant (P := fun r => r₀.log <+: r.log) List.prefix_rfl
        fun hprefix hstep => hprefix.trans (log_grows hstep.2)
    refine ⟨log, hlog.symm, ?_⟩
    -- what was broadcast since is the rest of the log
    have hrest : log.map Prod.snd = messages := by
      have hcurrent₀ := hinv₀.current
      have hcurrent := hinv.current
      rw [hidle, Option.toList_none, List.map_nil, List.append_nil] at hcurrent₀
      rw [hend, Option.toList_none, List.map_nil, List.append_nil, ← hlog, List.map_append,
        hcurrent₀, hmessages] at hcurrent
      exact List.append_cancel_left hcurrent
    have hproper : ∀ m ∈ messages, 0 < m.length ∧ m.length < 2 ^ 32 := by
      intro m hm
      rw [← hrest] at hm
      obtain ⟨e, he, rfl⟩ := List.mem_map.mp hm
      exact hinv.proper e (hlog ▸ List.mem_append_right _ he)
    obtain ⟨typed, htyped⟩ := exists_messages hproper
    have hsent := hreceived.idle hend
    rw [hnew, List.nil_append] at hsent
    intro plan
    obtain ⟨N, source, hrest', hreceive⟩ := receive_spec stale' typed []
      ⟨r.world.sent x.connection, plan⟩ (by
        show r.world.sent x.connection = _
        rw [hsent, ← htyped, List.map_map, List.flatMap_def]
        rfl)
    refine ⟨N, source, hrest', fun fuel hfuel => ?_⟩
    rw [hrest, ← htyped]
    exact hreceive fuel hfuel fuel hfuel
  · have hserved := hinv.served i k hi hk
    obtain ⟨more, hmore⟩ := hinv.fifo k
    rw [hnothing, List.append_nil, Room.stream, Room.done, ← hmore, frames_append] at hserved
    have hnil : frames more = [] := List.append_cancel_left (hserved.trans (List.append_nil _).symm)
    cases more with
    | nil => rw [← hmore, List.append_nil]
    | cons m more =>
      have hlen := congrArg List.length hnil
      rw [← List.singleton_append, frames_append, frames_singleton, List.length_append,
        frame_length, List.length_nil] at hlen
      omega

instance (x : Watched) (r : Room) (d : Deed) : Decidable (Undisturbed x r d) := by
  unfold Undisturbed
  split <;> infer_instance

/-- The deeds one after the other, as long as they are enabled and meet the guard. -/
def Room.performAll (guard : Room → Deed → Prop) [∀ r d, Decidable (guard r d)] (ds : List Deed)
    (r : Room) : Option Room :=
  ds.foldlM (fun r d => if r.Enabled d ∧ guard r d then some (r.perform d) else none) r

theorem run_of_roomPerformAll {ds : List Deed} {r r' : Room} {guard : Room → Deed → Prop}
    [∀ r d, Decidable (guard r d)] (h : r.performAll guard ds = some r') :
    Run (Guarded Room.Step guard) r ds r' :=
  (Run.of_foldlM h).mono fun hstep => ⟨hstep.1.2, hstep.1.1, (Option.some.inj hstep.2).symm⟩

/-- Two clients join; the first one types a message of one byte, which its thread reads in two
pieces, and the second one shows it. -/
theorem run_room_two : ∃ r : Room, r.world.sent 1 = [0, 0, 0, 1, 7] ∧ ∃ log N source,
    r.log = log ∧ source.rest = [] ∧ ∀ fuel ≥ N,
      receive fuel (fun _ => ⟨0, 0⟩) ⟨r.world.sent 1, []⟩ = some (log.map Prod.snd, source) := by
  let typed : List Deed := [.type 0 ⟨[7], by decide, by decide⟩, .write 0 2, .write 0 3, .read 0 2,
    .read 0 2, .read 0 1]
  let broadcast : List Deed :=
    (broadcastSteps 0 [7] [(0, 5), (1, 6)] [2, 3, 4, 5, 6, 7, 8]).map .world
  have hfold : (Room.performAll (fun _ _ => True)
      ([.test, .accept 5, .store 5, .test, .accept 6, .store 6].map .world) .init).bind (fun r₀ =>
        (r₀.performAll (Undisturbed ⟨1, 6, 1⟩) (typed ++ broadcast)).map fun r =>
          decide (r.world.sent 1 = [0, 0, 0, 1, 7] ∧ r₀.world.broadcast = none ∧
            Connected r₀.world ⟨1, 6, 1⟩ ∧ r₀.world.sent 1 = [] ∧ r₀.log = [] ∧
            r.world.broadcast = none)) = some true := by
    decide
  obtain ⟨r₀, hr₀, hrest⟩ := Option.bind_eq_some_iff.mp hfold
  obtain ⟨r, hr, hend⟩ := Option.map_eq_some_iff.mp hrest
  obtain ⟨hsent, hidle, hx, hnew, hlog₀, hdone⟩ := of_decide_eq_true hend
  obtain ⟨⟨log, hlog, hreceive⟩, -⟩ := run_room (fun _ => ⟨0, 0⟩)
    ((run_of_roomPerformAll hr₀).mono fun hstep => hstep.2) hidle hx hnew
    (run_of_roomPerformAll hr) hdone
  obtain ⟨N, source, hsource, hall⟩ := hreceive []
  exact ⟨r, hsent, log, N, source, by rw [hlog, hlog₀, List.nil_append], hsource, hall⟩

end Cs241.Chat
