import Mathlib.Data.List.Forall2
import Cs241.Chat.Slots

/-!
# What the clients receive

A broadcast sends one frame to each client: the size of the message in four
bytes and then the message. Two clients that stay connected are followed through
a run; each has received the frames of the finished broadcasts, and of the
current one the part that its slot's turn has written so far.
-/
namespace Cs241.Chat

open Foundation

/-- The bytes that the two write loops send. -/
def frame (message : List UInt8) : List UInt8 := networkBytes message.length ++ message

/-- A whole frame: the length of the message as a big-endian number of four bytes, then the
message. -/
def IsFrame (message bytes : List UInt8) : Prop :=
  ∃ size, size.length = 4 ∧ ofNetworkBytes size = message.length ∧ bytes = size ++ message

theorem isFrame_frame {message : List UInt8} (h : message.length < 2 ^ 32) :
    IsFrame message (frame message) :=
  ⟨networkBytes message.length, rfl, ofNetworkBytes_networkBytes h, rfl⟩

/-- What is still to be sent to the client whose turn it is. -/
def Broadcast.rest (b : Broadcast) : List UInt8 :=
  match b.point with
  | .head _ => frame b.message
  | .size _ _ left => left ++ b.message
  | .message _ _ left => left

/-- `p` is what the broadcast has sent to slot `k`. -/
structure Progress (b : Broadcast) (k : ℕ) (p : List UInt8) : Prop where
  passed : k < b.point.index → p = frame b.message
  turn : k = b.point.index → p ++ b.rest = frame b.message
  coming : b.point.index < k → p = []

theorem Progress.isPrefix {b : Broadcast} {k : ℕ} {p : List UInt8} (h : Progress b k p) :
    p <+: frame b.message := by
  rcases lt_trichotomy k b.point.index with hk | hk | hk
  · rw [h.passed hk]
  · exact ⟨b.rest, h.turn hk⟩
  · rw [h.coming hk]
    exact List.nil_prefix

theorem progress_begin {b : Broadcast} (h : b.point = .head 0) (k : ℕ) : Progress b k [] where
  passed hk := by simp [h, Point.index] at hk
  turn _ := by simp [Broadcast.rest, h]
  coming _ := rfl

/-- The loop goes on to the next slot. -/
theorem Progress.next {b : Broadcast} {k : ℕ} {p : List UInt8} (h : Progress b k p)
    (hk : k ≠ b.point.index) :
    Progress { b with point := .head (b.point.index + 1) } k p where
  passed hlt := by
    have hlt : k < b.point.index + 1 := hlt
    exact h.passed (by omega)
  turn heq := by
    have heq : k = b.point.index + 1 := heq
    rw [h.coming (by omega)]
    rfl
  coming hlt := by
    have hlt : b.point.index + 1 < k := hlt
    exact h.coming (by omega)

/-- The write loop for the size starts. -/
theorem Progress.start {b : Broadcast} {k i : ℕ} {p : List UInt8} (h : Progress b k p)
    (hpoint : b.point = .head i) (socket : ℕ) :
    Progress { b with point := .size i socket (networkBytes b.message.length) } k p where
  passed hlt := h.passed (by rwa [hpoint])
  turn heq := by
    have hturn := h.turn (by rwa [hpoint])
    rwa [Broadcast.rest, hpoint] at hturn
  coming hlt := h.coming (by rwa [hpoint])

/-- The loop stays at a slot other than `k`. -/
theorem Progress.stay {b : Broadcast} {k : ℕ} {p : List UInt8} {point : Point}
    (h : Progress b k p) (hk : k ≠ b.point.index) (hindex : point.index = b.point.index) :
    Progress { b with point := point } k p where
  passed hlt := h.passed (hlt.trans_eq hindex)
  turn heq := absurd (heq.trans hindex) hk
  coming hlt := h.coming (hindex.symm.trans_lt hlt)

theorem advance_index (b : Broadcast) (n : ℕ) :
    b.advance n = .head (b.point.index + 1) ∨ (b.advance n).index = b.point.index := by
  obtain ⟨owner, message, point⟩ := b
  cases point with
  | head i => exact .inr rfl
  | size i socket left =>
    simp only [Broadcast.advance]
    split_ifs <;> exact .inr rfl
  | message i socket left =>
    simp only [Broadcast.advance]
    split_ifs
    · exact .inl rfl
    · exact .inr rfl

/-- A write to another slot than `k`. -/
theorem Progress.advance_other {b : Broadcast} {k : ℕ} {p : List UInt8} (h : Progress b k p)
    (hk : k ≠ b.point.index) (n : ℕ) : Progress { b with point := b.advance n } k p := by
  rcases advance_index b n with hnext | hindex
  · rw [hnext]
    exact h.next hk
  · exact h.stay hk hindex

theorem take_of_drop_eq_nil {left : List UInt8} {n : ℕ} (h : left.drop n = []) :
    left.take n = left := by
  simpa [h] using List.take_append_drop n left

/-- A write to slot `k`. -/
theorem Progress.advance {b : Broadcast} {k n socket : ℕ} {p left : List UInt8}
    (h : Progress b k p) (hk : k = b.point.index)
    (hpending : b.point.pending = some (socket, left)) :
    Progress { b with point := b.advance n } k (p ++ left.take n) := by
  have hturn := h.turn hk
  obtain ⟨owner, message, point⟩ := b
  cases point with
  | head i => cases hpending
  | size i s l =>
    obtain ⟨rfl, rfl⟩ := Prod.mk.inj (Option.some.inj hpending)
    simp only [Point.index, Broadcast.rest] at hk hturn
    simp only [Broadcast.advance]
    split_ifs with hdone
    · refine ⟨fun hlt => absurd hk hlt.ne, fun _ => ?_, fun hlt => absurd hk hlt.ne'⟩
      rw [take_of_drop_eq_nil hdone, ← hturn, List.append_assoc]
      rfl
    · refine ⟨fun hlt => absurd hk hlt.ne, fun _ => ?_, fun hlt => absurd hk hlt.ne'⟩
      show p ++ l.take n ++ (l.drop n ++ message) = frame message
      rw [← hturn, List.append_assoc, ← List.append_assoc (l.take n), List.take_append_drop]
  | message i s l =>
    obtain ⟨rfl, rfl⟩ := Prod.mk.inj (Option.some.inj hpending)
    simp only [Point.index, Broadcast.rest] at hk hturn
    simp only [Broadcast.advance]
    split_ifs with hdone
    · have hnext : k < i + 1 := by omega
      refine ⟨fun _ => ?_, fun heq => absurd heq hnext.ne, fun hlt => absurd hlt hnext.not_gt⟩
      rw [take_of_drop_eq_nil hdone]
      exact hturn
    · refine ⟨fun hlt => absurd hk hlt.ne, fun _ => ?_, fun hlt => absurd hk hlt.ne'⟩
      show p ++ l.take n ++ l.drop n = frame message
      rw [← hturn, List.append_assoc, List.take_append_drop]

/-! ## Following a client -/

/-- A client, by its slot, its descriptor and its connection. -/
structure Watched where
  slot : Slot
  socket : ℕ
  connection : ℕ

/-- The client is in the table and is served. -/
structure Connected (w : World) (x : Watched) : Prop where
  serving : w.client x.slot = .serving
  clients : w.clients x.slot = some x.socket
  descriptors : w.descriptors x.socket = some x.connection

/-- The client stays connected and its socket does not fail. -/
def Stays (x : Watched) (_ : World) : Action → Prop
  | .close i => i ≠ x.slot
  | .wroteZero b => ∀ p ∈ b.point.pending, p.1 ≠ x.socket
  | _ => True

/-- When a broadcast begins, the descriptor of the client is in no slot but its own. -/
def OneSlot (x : Watched) (w : World) : Action → Prop
  | .begin _ _ _ => ∀ i, w.clients i = some x.socket → i = x.slot
  | _ => True

/-- A broadcast in progress sends a message of at most `2 ^ 32 - 1` bytes, and the socket of its
write loop is that of the slot. -/
structure BroadcastOk (w : World) (b : Broadcast) : Prop where
  length : b.message.length < 2 ^ 32
  socket : ∀ p ∈ b.point.pending, ∃ h : b.point.index < maxClients,
    w.clients ⟨b.point.index, h⟩ = some p.1

theorem Connected.congr {w w' : World} {x : Watched} (h : Connected w x)
    (hsame : SameTable w w') : Connected w' x :=
  ⟨hsame.client ▸ h.serving, hsame.clients ▸ h.clients, hsame.descriptors ▸ h.descriptors⟩

theorem Connected.step {w w' : World} {x : Watched} {a : Action} (h : Connected w x)
    (htable : TableInv w) (hstays : Stays x w a) (hstep : Step w a w') : Connected w' x := by
  obtain ⟨hen, rfl⟩ := hstep
  have hopen : (w.descriptors x.socket).isSome := by simp [h.descriptors]
  cases a with
  | test => exact ⟨h.serving, h.clients, h.descriptors⟩
  | accept clientId =>
    have hne : x.socket ≠ clientId := fun heq => by simp [heq, hen.2] at hopen
    exact ⟨h.serving, h.clients, by simpa [perform, Chat.accept, hne] using h.descriptors⟩
  | store clientId =>
    simp only [perform, Chat.store]
    split
    · rename_i i hi
      have hne : x.slot ≠ i := fun heq => by simpa [← heq, h.clients] using freeSlot_eq_some hi
      exact ⟨by simpa [hne] using h.serving, by simpa [hne] using h.clients, h.descriptors⟩
    · exact ⟨h.serving, h.clients, h.descriptors⟩
  | begin i size message => exact ⟨h.serving, h.clients, h.descriptors⟩
  | loop b i => exact h.congr loopHead_sameTable
  | wrote b n => exact h.congr wrote_sameTable
  | wroteZero b => exact h.congr wroteZero_sameTable
  | failed => exact h
  | close i =>
    have hne : x.slot ≠ i := fun heq => hstays heq.symm
    have hsocket : w.clients i ≠ some x.socket := fun heq =>
      hne (htable.served _ _ _ h.serving hen.1 h.clients heq)
    exact ⟨by simpa [perform, closeClient, hne] using h.serving, h.clients,
      by simpa [perform, closeClient, hsocket] using h.descriptors⟩
  | clear i =>
    have hne : x.slot ≠ i := fun heq => by simpa [← heq, h.serving] using hen.1
    exact ⟨by simpa [perform, Chat.clear, hne] using h.serving,
      by simpa [perform, Chat.clear, hne] using h.clients, h.descriptors⟩

/-- The broadcasts, the current one and the finished ones. -/
structure BroadcastInv (w : World) : Prop where
  current : ∀ b ∈ w.broadcast, BroadcastOk w b
  finished : ∀ message ∈ w.broadcasts, message.length < 2 ^ 32

theorem advance_pending {b : Broadcast} {n : ℕ} {p : ℕ × List UInt8}
    (h : p ∈ (b.advance n).pending) :
    (b.advance n).index = b.point.index ∧ ∃ left, b.point.pending = some (p.1, left) := by
  obtain ⟨owner, message, point⟩ := b
  cases point with
  | head i => cases h
  | size i socket left =>
    simp only [Broadcast.advance] at h ⊢
    split_ifs at h ⊢
    · obtain rfl := Option.some.inj h
      exact ⟨rfl, left, rfl⟩
    · obtain rfl := Option.some.inj h
      exact ⟨rfl, left, rfl⟩
  | message i socket left =>
    simp only [Broadcast.advance] at h ⊢
    split_ifs at h ⊢
    · cases h
    · obtain rfl := Option.some.inj h
      exact ⟨rfl, left, rfl⟩

theorem BroadcastInv.idle {w : World} (h : BroadcastInv w) (hnone : w.broadcast = none)
    {w' : World} (hbroadcast : w'.broadcast = w.broadcast)
    (hbroadcasts : w'.broadcasts = w.broadcasts) : BroadcastInv w' where
  current b hb := by
    rw [hbroadcast, hnone] at hb
    cases hb
  finished := hbroadcasts ▸ h.finished

theorem BroadcastInv.move {w : World} {b : Broadcast} (h : BroadcastInv w) (point : Point)
    (hb : w.broadcast = some b)
    (hsocket : ∀ p ∈ point.pending, ∃ h : point.index < maxClients,
      w.clients ⟨point.index, h⟩ = some p.1) :
    BroadcastInv { w with broadcast := some { b with point := point } } where
  current b' hb' := by
    obtain rfl := Option.some.inj hb'
    exact ⟨(h.current b hb).length, hsocket⟩
  finished := h.finished

theorem step_broadcastInv {w w' : World} {a : Action} (h : BroadcastInv w) (hstep : Step w a w') :
    BroadcastInv w' := by
  obtain ⟨hen, rfl⟩ := hstep
  cases a with
  | test => exact ⟨fun b hb => ⟨(h.current b hb).length, (h.current b hb).socket⟩, h.finished⟩
  | accept clientId =>
    exact ⟨fun b hb => ⟨(h.current b hb).length, (h.current b hb).socket⟩, h.finished⟩
  | store clientId =>
    refine h.idle hen.2 ?_ ?_ <;> simp only [perform, Chat.store] <;> split <;> rfl
  | begin i size message =>
    obtain ⟨-, -, hsize, hlength, -⟩ := hen
    refine ⟨fun b hb => ?_, h.finished⟩
    obtain rfl := Option.some.inj hb
    exact ⟨hlength.trans_lt (ofNetworkBytes_lt hsize), fun p hp => by cases hp⟩
  | loop b i =>
    rcases loopHead_cases w b i with ⟨heq, -⟩ | ⟨socket, heq, hi, hsocket⟩ | ⟨heq, -⟩
    · rw [perform, heq]
      exact h.move _ hen.1 fun p hp => by cases hp
    · rw [perform, heq]
      apply h.move _ hen.1
      intro p hp
      obtain rfl := Option.some.inj hp
      exact ⟨hi, hsocket⟩
    · rw [perform, heq]
      refine ⟨fun b hb => (by cases hb), fun message hm => ?_⟩
      rcases List.mem_append.mp hm with hm | hm
      · exact h.finished message hm
      · obtain rfl := List.mem_singleton.mp hm
        exact (h.current b hen.1).length
  | wrote b n =>
    obtain ⟨hb, ⟨socket, left⟩, hpending, hopen, -⟩ := hen
    obtain ⟨connection, hconnection⟩ := Option.isSome_iff_exists.mp hopen
    rw [perform, wrote_eq hpending hconnection]
    have hmove := h.move (b.advance n) hb fun p hp => ?_
    · exact ⟨fun b' hb' => ⟨(hmove.current b' hb').length, (hmove.current b' hb').socket⟩,
        hmove.finished⟩
    · obtain ⟨hindex, left', hleft⟩ := advance_pending hp
      rw [hindex]
      exact (h.current b hb).socket (p.1, left') hleft
  | wroteZero b =>
    rw [perform, wroteZero_eq hen.2]
    exact h.move _ hen.1 fun p hp => by cases hp
  | failed => exact h
  | close i => exact ⟨fun b hb => ⟨(h.current b hb).length, (h.current b hb).socket⟩, h.finished⟩
  | clear i => exact h.idle hen.2 rfl rfl

/-- What `x` has received after `base`: the frames of `messages`, and of a broadcast in progress
what it has sent to the slot of `x`. -/
structure Received (x : Watched) (base : List UInt8) (messages : List (List UInt8)) (w : World) :
    Prop where
  idle : w.broadcast = none → w.sent x.connection = base ++ (messages.map frame).flatten
  current : ∀ b, w.broadcast = some b → (∀ i, w.clients i = some x.socket → i = x.slot) ∧
    ∃ p, w.sent x.connection = base ++ (messages.map frame).flatten ++ p ∧ Progress b x.slot p

/-- A step that does not touch the broadcast. -/
theorem Received.idle_step {x : Watched} {base : List UInt8} {messages : List (List UInt8)}
    {w w' : World} (h : Received x base messages w) (hnone : w.broadcast = none)
    (hbroadcast : w'.broadcast = w.broadcast) (hsent : w'.sent = w.sent) :
    Received x base messages w' where
  idle _ := hsent ▸ h.idle hnone
  current b hb := by
    rw [hbroadcast, hnone] at hb
    cases hb

theorem Received.same {x : Watched} {base : List UInt8} {messages : List (List UInt8)}
    {w w' : World} (h : Received x base messages w) (hbroadcast : w'.broadcast = w.broadcast)
    (hclients : w'.clients = w.clients) (hsent : w'.sent = w.sent) :
    Received x base messages w' where
  idle hnone := hsent ▸ h.idle (hbroadcast ▸ hnone)
  current b hb := by
    rw [hclients, hsent]
    exact h.current b (hbroadcast ▸ hb)

/-- The broadcast moves on, without a byte for `x`. -/
theorem Received.move {x : Watched} {base : List UInt8} {messages : List (List UInt8)}
    {w w' : World} {b : Broadcast} {point : Point} (h : Received x base messages w)
    (hb : w.broadcast = some b) (hb' : w'.broadcast = some { b with point := point })
    (hclients : w'.clients = w.clients)
    (hsent : w'.sent x.connection = w.sent x.connection)
    (hprogress : ∀ p, Progress b x.slot p → Progress { b with point := point } x.slot p) :
    Received x base messages w' where
  idle hnone := by
    rw [hb'] at hnone
    cases hnone
  current b₁ hb₁ := by
    obtain rfl := Option.some.inj (hb'.symm.trans hb₁)
    obtain ⟨honly, p, hp, hpb⟩ := h.current b hb
    exact ⟨hclients ▸ honly, p, hsent.trans hp, hprogress p hpb⟩

theorem step_received {x : Watched} {base : List UInt8} {done messages : List (List UInt8)}
    {w w' : World} {a : Action} (h : Received x base messages w)
    (hdone : w.broadcasts = done ++ messages) (htable : TableInv w) (hbroadcast : BroadcastInv w)
    (hx : Connected w x) (hstays : Stays x w a) (hslot : OneSlot x w a) (hstep : Step w a w') :
    ∃ messages, w'.broadcasts = done ++ messages ∧ Received x base messages w' := by
  obtain ⟨hen, rfl⟩ := hstep
  cases a with
  | test => exact ⟨messages, hdone, h.same rfl rfl rfl⟩
  | accept clientId => exact ⟨messages, hdone, h.same rfl rfl rfl⟩
  | store clientId =>
    simp only [perform, Chat.store]
    split
    · exact ⟨messages, hdone, h.idle_step hen.2 rfl rfl⟩
    · exact ⟨messages, hdone, h.idle_step hen.2 rfl rfl⟩
  | begin i size message =>
    refine ⟨messages, hdone, fun hnone => (by cases hnone), fun b hb => ⟨hslot, [], ?_, ?_⟩⟩
    · rw [List.append_nil]
      exact h.idle hen.2.1
    · obtain rfl := Option.some.inj hb
      exact progress_begin rfl _
  | loop b i =>
    obtain ⟨hb, hpoint⟩ := hen
    have hindex : b.point.index = i := by rw [hpoint]; rfl
    rcases loopHead_cases w b i with ⟨heq, hi, hfree⟩ | ⟨socket, heq, -⟩ | ⟨heq, hend⟩
    · rw [perform, heq]
      have hne : (x.slot : ℕ) ≠ b.point.index := fun hx' => by
        have hslot : (⟨i, hi⟩ : Slot) = x.slot := Fin.ext (hx'.trans hindex).symm
        rw [hslot, hx.clients] at hfree
        cases hfree
      exact ⟨messages, hdone, h.move hb rfl rfl rfl fun p hp => hindex ▸ hp.next hne⟩
    · rw [perform, heq]
      exact ⟨messages, hdone, h.move hb rfl rfl rfl fun p hp => hp.start hpoint socket⟩
    · rw [perform, heq]
      refine ⟨messages ++ [b.message], by simp [hdone], fun _ => ?_, fun b' hb' => (by cases hb')⟩
      obtain ⟨-, p, hp, hpb⟩ := h.current b hb
      rw [hp, hpb.passed (by omega)]
      simp
  | wrote b n =>
    obtain ⟨hb, ⟨socket, left⟩, hpending, hopen, -⟩ := hen
    obtain ⟨connection, hconnection⟩ := Option.isSome_iff_exists.mp hopen
    obtain ⟨hi, hsocket⟩ := (hbroadcast.current b hb).socket (socket, left) hpending
    obtain ⟨honly, p, hp, hpb⟩ := h.current b hb
    rw [perform, wrote_eq hpending hconnection]
    refine ⟨messages, hdone, ?_⟩
    by_cases hturn : (x.slot : ℕ) = b.point.index
    · have hslot : (⟨b.point.index, hi⟩ : Slot) = x.slot := Fin.ext hturn.symm
      obtain rfl : x.socket = socket := by
        rw [hslot, hx.clients] at hsocket
        exact Option.some.inj hsocket
      obtain rfl : x.connection = connection := by
        rw [hx.descriptors] at hconnection
        exact Option.some.inj hconnection
      refine ⟨fun hnone => (by cases hnone), fun b' hb' => ⟨honly, p ++ left.take n, ?_, ?_⟩⟩
      · simp [hp]
      · obtain rfl := Option.some.inj hb'
        exact hpb.advance hturn hpending
    · have hne : socket ≠ x.socket := fun heq => by
        have hslot := honly _ (heq ▸ hsocket)
        exact hturn (by rw [← hslot])
      have hother : x.connection ≠ connection := fun heq =>
        hne (htable.injective _ _ _ hconnection (heq ▸ hx.descriptors))
      exact h.move hb rfl rfl (Function.update_of_ne hother ..) fun p hp => hp.advance_other hturn n
  | wroteZero b =>
    obtain ⟨hb, hpending⟩ := hen
    obtain ⟨⟨socket, left⟩, hsome⟩ := Option.isSome_iff_exists.mp hpending
    obtain ⟨hi, hsocket⟩ := (hbroadcast.current b hb).socket (socket, left) hsome
    have hturn : (x.slot : ℕ) ≠ b.point.index := fun hturn => by
      have hslot : (⟨b.point.index, hi⟩ : Slot) = x.slot := Fin.ext hturn.symm
      rw [hslot, hx.clients] at hsocket
      exact hstays _ hsome (Option.some.inj hsocket).symm
    rw [perform, wroteZero_eq hpending]
    exact ⟨messages, hdone, h.move hb rfl rfl rfl fun p hp => hp.next hturn⟩
  | failed => exact ⟨messages, hdone, h⟩
  | close i => exact ⟨messages, hdone, h.same rfl rfl rfl⟩
  | clear i => exact ⟨messages, hdone, h.idle_step hen.2 rfl rfl⟩

/-! ## Two clients -/

/-- Since `w₀` one of the two streams is a prefix of the other one, and between broadcasts both are
the same whole frames, one for each broadcast. -/
def StreamsAgree (x y : Watched) (w₀ w : World) : Prop :=
  ∃ messages sx sy, w.broadcasts = w₀.broadcasts ++ messages ∧
    w.sent x.connection = w₀.sent x.connection ++ sx ∧
    w.sent y.connection = w₀.sent y.connection ++ sy ∧ (sx <+: sy ∨ sy <+: sx) ∧
    (w.broadcast = none → ∃ frames, List.Forall₂ IsFrame messages frames ∧
      sx = frames.flatten ∧ sy = frames.flatten)

theorem run_received {as : List Action} {w₀ w : World} {x : Watched} (htable : TableInv w₀)
    (hbroadcast : BroadcastInv w₀) (hidle : w₀.broadcast = none) (hx : Connected w₀ x)
    (h : Run (Guarded Step fun w a => Stays x w a ∧ OneSlot x w a) w₀ as w) :
    BroadcastInv w ∧ ∃ messages, w.broadcasts = w₀.broadcasts ++ messages ∧
      Received x (w₀.sent x.connection) messages w := by
  have hinv : (TableInv w ∧ BroadcastInv w ∧ Connected w x) ∧
      ∃ messages, w.broadcasts = w₀.broadcasts ++ messages ∧
        Received x (w₀.sent x.connection) messages w := by
    refine h.invariant (P := fun w => (TableInv w ∧ BroadcastInv w ∧ Connected w x) ∧
      ∃ messages, w.broadcasts = w₀.broadcasts ++ messages ∧
        Received x (w₀.sent x.connection) messages w) ⟨⟨htable, hbroadcast, hx⟩, [], by simp, ?_⟩ ?_
    · exact ⟨fun _ => by simp, fun b hb => by simp [hidle] at hb⟩
    · rintro w a w' ⟨⟨ht, hb, hc⟩, messages, hdone, hr⟩ ⟨⟨hstays, hslot⟩, hstep⟩
      exact ⟨⟨step_tableInv ht hstep, step_broadcastInv hb hstep, hc.step ht hstays hstep⟩,
        step_received hr hdone ht hb hc hstays hslot hstep⟩
  exact ⟨hinv.1.2.1, hinv.2⟩

/-- Any two clients that stay connected and whose sockets do not fail, with other clients coming
and going: if each broadcast finds their descriptors in their own slots only, they receive the
same frames in the same order. -/
theorem run_streamsAgree {as₀ as : List Action} {w₀ w : World} {x y : Watched}
    (h₀ : Run Step .init as₀ w₀) (hidle : w₀.broadcast = none) (hx : Connected w₀ x)
    (hy : Connected w₀ y)
    (h : Run (Guarded Step fun w a => (Stays x w a ∧ Stays y w a) ∧ OneSlot x w a ∧ OneSlot y w a)
      w₀ as w) : StreamsAgree x y w₀ w := by
  have htable : TableInv w₀ := run_tableInv h₀
  have hbroadcast : BroadcastInv w₀ :=
    h₀.invariant ⟨fun b hb => (by cases hb), fun m hm => absurd hm List.not_mem_nil⟩
      fun hI hstep => step_broadcastInv hI hstep
  obtain ⟨hbroadcast', messages, hdone, hrx⟩ := run_received htable hbroadcast hidle hx
    (h.mono fun hstep => ⟨⟨hstep.1.1.1, hstep.1.2.1⟩, hstep.2⟩)
  obtain ⟨-, messages', hdone', hry⟩ := run_received htable hbroadcast hidle hy
    (h.mono fun hstep => ⟨⟨hstep.1.1.2, hstep.1.2.2⟩, hstep.2⟩)
  obtain rfl : messages = messages' := List.append_cancel_left (hdone.symm.trans hdone')
  cases hb : w.broadcast with
  | none =>
    refine ⟨messages, _, _, hdone, hrx.idle hb, hry.idle hb, .inl List.prefix_rfl, fun _ => ?_⟩
    refine ⟨messages.map frame, ?_, rfl, rfl⟩
    rw [List.forall₂_map_right_iff, List.forall₂_same]
    intro m hm
    exact isFrame_frame (hbroadcast'.finished m (hdone ▸ List.mem_append_right _ hm))
  | some b =>
    obtain ⟨-, px, hpx, hprogx⟩ := hrx.current b hb
    obtain ⟨-, py, hpy, hprogy⟩ := hry.current b hb
    rw [List.append_assoc] at hpx hpy
    refine ⟨messages, _, _, hdone, hpx, hpy, ?_, fun hnone => by simp [hb] at hnone⟩
    rcases List.prefix_or_prefix_of_prefix hprogx.isPrefix hprogy.isPrefix with hle | hle
    · exact .inl ((List.prefix_append_right_inj _).mpr hle)
    · exact .inr ((List.prefix_append_right_inj _).mpr hle)

instance (w : World) (x : Watched) : Decidable (Connected w x) :=
  decidable_of_iff (w.client x.slot = .serving ∧ w.clients x.slot = some x.socket ∧
      w.descriptors x.socket = some x.connection)
    ⟨fun h => ⟨h.1, h.2.1, h.2.2⟩, fun h => ⟨h.serving, h.clients, h.descriptors⟩⟩

instance (x : Watched) (w : World) (a : Action) : Decidable (Stays x w a) := by
  refine Action.casesOn a ?_ ?_ ?_ ?_ ?_ ?_ ?_ ?_ ?_ ?_ <;> intros <;> unfold Stays <;>
    infer_instance

instance (x : Watched) (w : World) (a : Action) : Decidable (OneSlot x w a) := by
  refine Action.casesOn a ?_ ?_ ?_ ?_ ?_ ?_ ?_ ?_ ?_ ?_ <;> intros <;> unfold OneSlot <;>
    infer_instance

/-- The steps of a broadcast that sends to the used slots and passes the free ones. -/
def broadcastSteps (owner : Slot) (message : List UInt8) (used : List (ℕ × ℕ)) (free : List ℕ) :
    List Action :=
  let b (point : Point) : Broadcast := { owner := owner, message := message, point := point }
  .begin owner (networkBytes message.length) message ::
    (used.flatMap fun (i, socket) =>
      [.loop (b (.head i)) i, .wrote (b (.size i socket (networkBytes message.length))) 4,
        .wrote (b (.message i socket message)) message.length]) ++
    free.map fun i => .loop (b (.head i)) i

/-- Two clients join, and the first one sends a message of one byte. -/
theorem run_streamsAgree_two : ∃ w₀ w : World, w.sent 0 = [0, 0, 0, 1, 7] ∧
    StreamsAgree ⟨0, 5, 0⟩ ⟨1, 6, 1⟩ w₀ w := by
  have hfold : (performAll (fun _ _ => True)
      [.test, .accept 5, .store 5, .test, .accept 6, .store 6] .init).bind (fun w₀ =>
        (performAll (fun w a => (Stays ⟨0, 5, 0⟩ w a ∧ Stays ⟨1, 6, 1⟩ w a) ∧
          OneSlot ⟨0, 5, 0⟩ w a ∧ OneSlot ⟨1, 6, 1⟩ w a)
          (broadcastSteps 0 [7] [(0, 5), (1, 6)] [2, 3, 4, 5, 6, 7, 8]) w₀).map fun w =>
            decide (w.sent 0 = [0, 0, 0, 1, 7] ∧ w₀.broadcast = none ∧
              Connected w₀ ⟨0, 5, 0⟩ ∧ Connected w₀ ⟨1, 6, 1⟩)) = some true := by
    decide
  obtain ⟨w₀, hw₀, hrest⟩ := Option.bind_eq_some_iff.mp hfold
  obtain ⟨w, hw, hend⟩ := Option.map_eq_some_iff.mp hrest
  obtain ⟨hsent, hidle, hx, hy⟩ := of_decide_eq_true hend
  exact ⟨w₀, w, hsent,
    run_streamsAgree (run_of_performAll_true hw₀) hidle hx hy (run_of_performAll hw)⟩

/-- The client of slot 2 has the number that slot 1 still holds from a client that is leaving: one
broadcast sends it two frames. -/
theorem run_twoFrames : ∃ (as₀ as : List Action) (w₀ w : World),
    Run Step .init as₀ w₀ ∧ w₀.broadcast = none ∧ Connected w₀ ⟨0, 5, 0⟩ ∧
      Connected w₀ ⟨2, 6, 2⟩ ∧
      Run (Guarded Step fun w a => Stays ⟨0, 5, 0⟩ w a ∧ Stays ⟨2, 6, 2⟩ w a) w₀ as w ∧
      ¬ StreamsAgree ⟨0, 5, 0⟩ ⟨2, 6, 2⟩ w₀ w := by
  have hfold : (performAll (fun _ _ => True)
      [.test, .accept 5, .store 5, .test, .accept 6, .store 6, .close 1, .test, .accept 6,
        .store 6] .init).bind (fun w₀ =>
        (performAll (fun w a => Stays ⟨0, 5, 0⟩ w a ∧ Stays ⟨2, 6, 2⟩ w a)
          (broadcastSteps 0 [7] [(0, 5), (1, 6), (2, 6)] [3, 4, 5, 6, 7, 8]) w₀).map fun w =>
            decide (w₀.broadcast = none ∧ Connected w₀ ⟨0, 5, 0⟩ ∧ Connected w₀ ⟨2, 6, 2⟩ ∧
              w₀.sent 0 = [] ∧ w₀.sent 2 = [] ∧ w.broadcast = none ∧
              w.sent 0 = [0, 0, 0, 1, 7] ∧ w.sent 2 = [0, 0, 0, 1, 7, 0, 0, 0, 1, 7])) =
      some true := by
    decide
  obtain ⟨w₀, hw₀, hrest⟩ := Option.bind_eq_some_iff.mp hfold
  obtain ⟨w, hw, hend⟩ := Option.map_eq_some_iff.mp hrest
  obtain ⟨hidle, hx, hy, hx₀, hy₀, hend, hsx, hsy⟩ := of_decide_eq_true hend
  refine ⟨_, _, w₀, w, run_of_performAll_true hw₀, hidle, hx, hy, run_of_performAll hw, ?_⟩
  rintro ⟨messages, sx, sy, -, hx', hy', -, hagree⟩
  obtain ⟨frames, -, rfl, rfl⟩ := hagree hend
  rw [hx₀, hsx, List.nil_append] at hx'
  rw [hy₀, hsy, List.nil_append, ← hx'] at hy'
  exact absurd hy' (by decide)

end Cs241.Chat
