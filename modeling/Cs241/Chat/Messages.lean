import Cs241.Chat.Frames
import Cs241.Sockets.Transfers

/-!
# Messages from one end to the other

A client writes the length of a message in network byte order and then the message. The other end
reads four bytes into a signed integer, turns them round and reads as many bytes. The conversions
keep every length below `2 ^ 32`, and the loops hide how the stream is cut.
-/
namespace Cs241.Chat

open Foundation Sockets

/-! ## Byte order -/

/-- `htonl` and `ntohl` of a machine with the least significant byte first. -/
def htonl (hostlong : ℕ) : ℕ := ofNetworkBytes (networkBytes hostlong).reverse

def ntohl (netlong : ℕ) : ℕ := ofNetworkBytes (networkBytes netlong).reverse

/-- The bytes of an `int32_t` in memory. -/
def intBytes (x : ℤ) : List UInt8 := (networkBytes (x % 2 ^ 32).toNat).reverse

/-- The `int32_t` in four bytes of memory. -/
def ofIntBytes (bytes : List UInt8) : ℤ := toInt (ofNetworkBytes bytes.reverse)

theorem toInt_natCast_emod {x : ℕ} (h : x < 2 ^ 32) : (toInt x % 2 ^ 32).toNat = x := by
  have hmod : toInt x % (2 ^ 32 : ℕ) = x % (2 ^ 32 : ℕ) := Int.bmod_emod
  have hcast : ((2 ^ 32 : ℕ) : ℤ) = 2 ^ 32 := by norm_num
  rw [hcast] at hmod
  rw [hmod, Int.emod_eq_of_lt (Int.natCast_nonneg x) (by exact_mod_cast h), Int.toNat_natCast]

theorem htonl_lt (x : ℕ) : htonl x < 2 ^ 32 := ofNetworkBytes_lt (by simp)

/-- In memory the converted length is in network byte order. -/
theorem intBytes_htonl (size : ℕ) : intBytes (toInt (htonl size)) = networkBytes size := by
  rw [intBytes, toInt_natCast_emod (htonl_lt size), htonl, networkBytes_ofNetworkBytes (by simp),
    List.reverse_reverse]

/-- What is read back is not changed by the sign that it may have in between. -/
theorem ntohl_ofIntBytes {bytes : List UInt8} (h : bytes.length = 4) :
    ntohl (ofIntBytes bytes % 2 ^ 32).toNat = ofNetworkBytes bytes := by
  have hlen : bytes.reverse.length = 4 := by rwa [List.length_reverse]
  rw [ofIntBytes, toInt_natCast_emod (ofNetworkBytes_lt hlen), ntohl,
    networkBytes_ofNetworkBytes hlen, List.reverse_reverse]

/-! ## Sending and receiving -/

/-- A message that a length of 32 bits can announce. -/
structure Message where
  bytes : List UInt8
  pos : 0 < bytes.length
  lt : bytes.length < 2 ^ 32

variable (fuel : ℕ) (stale : Sink UInt8 → Stale) (stale' : Source UInt8 → Stale)

def writeMessageSize (size : ℕ) (socket : Sink UInt8) : Option (ℤ × Sink UInt8) :=
  Chat.writeAllToSocket (write (intBytes (toInt (htonl size)))) fuel (stale socket) 4 socket

/-- What `write_to_server` does with a message: the message follows when its size was written. -/
def sendMessage (message : List UInt8) (socket : Sink UInt8) : Option (ℤ × Sink UInt8) :=
  (writeMessageSize fuel stale message.length socket).bind fun (retval, socket) =>
    if 0 < retval then
      Chat.writeAllToSocket (write message) fuel (stale socket) message.length socket
    else some (retval, socket)

/-- The loop of `write_to_server`, which ends where nothing could be written. -/
def sendAll : List (List UInt8) → Sink UInt8 → Option (Sink UInt8)
  | [], socket => some socket
  | message :: messages, socket =>
    (sendMessage fuel stale message socket).bind fun (retval, socket) =>
      if 0 < retval then sendAll messages socket else some socket

def getMessageSize (socket : Source UInt8) : Option (ℤ × Source UInt8) :=
  (Chat.readAllFromSocket Reading.read fuel (stale' socket) 4 ⟨socket, []⟩).map fun (readBytes, r) =>
    if readBytes = 0 ∨ readBytes = -1 then (readBytes, r.source)
    else (ntohl (ofIntBytes r.buffer % 2 ^ 32).toNat, r.source)

/-- A round of the loop of `read_from_server`, with the messages that were shown. -/
def receiveRound : List (List UInt8) × Source UInt8 →
    Round (List (List UInt8) × Source UInt8) (List (List UInt8) × Source UInt8)
  | (messages, socket) =>
    match getMessageSize fuel stale' socket with
    | none => .stuck
    | some (retval, socket) =>
      if 0 < retval then
        match Chat.readAllFromSocket Reading.read fuel (stale' socket) (toSize retval)
            ⟨socket, []⟩ with
        | none => .stuck
        | some (retval, r) =>
          if 0 < retval then .next (messages ++ [r.buffer], r.source)
          else .exit (messages, r.source)
      else .exit (messages, socket)

def receive (socket : Source UInt8) : Option (List (List UInt8) × Source UInt8) :=
  iterate (receiveRound fuel stale') fuel ([], socket)

/-! ## One message -/

section Message

variable {socket : Sink UInt8} {source : Source UInt8} {rest : List UInt8}

theorem sendMessage_spec (stale : Sink UInt8 → Stale) (message : Message) (socket : Sink UInt8) :
    ∃ N socket', socket'.sent = socket.sent ++ frame message.bytes ∧
      ∀ fuel ≥ N, sendMessage fuel stale message.bytes socket =
        some ((message.bytes.length : ℤ), socket') := by
  obtain ⟨bytes, hpos, hlt⟩ := message
  let sized := (socket.writeAll (networkBytes bytes.length)).2
  refine ⟨4 + socket.plan.length + (bytes.length + sized.plan.length) + 1,
    (sized.writeAll bytes).2, ?_, fun fuel hfuel => ?_⟩
  · rw [Sink.writeAll_sent, Sink.writeAll_sent, List.append_assoc]
    rfl
  · have hsize : writeMessageSize fuel stale bytes.length socket = some ((4 : ℤ), sized) := by
      rw [writeMessageSize, intBytes_htonl]
      exact transfer_write (stale socket) (networkBytes bytes.length) (by simp) (by simp)
        (by rw [length_networkBytes]; omega)
    rw [sendMessage, hsize, Option.bind_some]
    exact transfer_write (stale sized) bytes hpos (hlt.trans (by norm_num)) (by omega)

theorem readAll_four {fuel : ℕ} (hfuel : 4 + source.plan.length < fuel) :
    Chat.readAllFromSocket Reading.read fuel (stale' source) 4 ⟨source, []⟩ =
      some (Reading.ofLoop (source.readAll 4)) :=
  transfer_read (stale' source) (by norm_num) (by norm_num) hfuel

theorem getMessageSize_spec {size : ℕ} (hsize : size < 2 ^ 32)
    (h : source.rest = networkBytes size ++ rest) :
    ∃ N source', source'.rest = rest ∧
      ∀ fuel ≥ N, getMessageSize fuel stale' source = some ((size : ℤ), source') := by
  obtain ⟨source', hread, hrest⟩ := Source.readAll_of_le (show 4 ≤ source.rest.length by simp [h])
  refine ⟨4 + source.plan.length + 1, source', ?_, fun fuel hfuel => ?_⟩
  · rw [hrest, h]
    rfl
  · have htake : source.rest.take 4 = networkBytes size := by
      rw [h]
      rfl
    rw [getMessageSize, readAll_four stale' (by omega), hread, htake, Option.map_some]
    dsimp only [Reading.ofLoop]
    rw [if_neg (by decide), ntohl_ofIntBytes (length_networkBytes size),
      ofNetworkBytes_networkBytes hsize]

theorem receiveRound_message (message : Message) (messages : List (List UInt8))
    (h : source.rest = frame message.bytes ++ rest) :
    ∃ N source', source'.rest = rest ∧ ∀ fuel ≥ N,
      receiveRound fuel stale' (messages, source) = .next (messages ++ [message.bytes], source') := by
  obtain ⟨bytes, hpos, hlt⟩ := message
  rw [frame, List.append_assoc] at h
  obtain ⟨N, source₁, hrest₁, hsize⟩ := getMessageSize_spec stale' hlt h
  obtain ⟨source₂, hread, hrest₂⟩ :=
    Source.readAll_of_le (show bytes.length ≤ source₁.rest.length by simp [hrest₁])
  refine ⟨N + (bytes.length + source₁.plan.length) + 1, source₂, ?_, fun fuel hfuel => ?_⟩
  · rw [hrest₂, hrest₁, List.drop_left]
  · have hall : Chat.readAllFromSocket Reading.read fuel (stale' source₁) bytes.length
        ⟨source₁, []⟩ = some (Reading.ofLoop (source₁.readAll bytes.length)) :=
      transfer_read (stale' source₁) hpos (hlt.trans (by norm_num)) (by omega)
    have hpos' : (0 : ℤ) < bytes.length := by exact_mod_cast hpos
    rw [receiveRound, hsize fuel (by omega)]
    dsimp only
    rw [if_pos hpos', toSize_of_lt (hlt.trans (by norm_num)), hall, hread, hrest₁, List.take_left]
    exact if_pos hpos'

/-- At the end of the stream there is no further size. -/
theorem receiveRound_end (messages : List (List UInt8)) (h : source.rest = []) :
    ∃ N source', source'.rest = [] ∧ ∀ fuel ≥ N,
      receiveRound fuel stale' (messages, source) = .exit (messages, source') := by
  obtain ⟨source', hread, hrest⟩ := Source.readAll_of_lt (show source.rest.length < 4 by simp [h])
  refine ⟨4 + source.plan.length + 1, source', hrest, fun fuel hfuel => ?_⟩
  rw [receiveRound, getMessageSize, readAll_four stale' (by omega), hread]
  rfl

end Message

/-! ## All messages -/

theorem sendAll_spec (stale : Sink UInt8 → Stale) (messages : List Message)
    (socket : Sink UInt8) : ∃ N socket',
      socket'.sent = socket.sent ++ messages.flatMap (fun message => frame message.bytes) ∧
        ∀ fuel ≥ N, sendAll fuel stale (messages.map Message.bytes) socket = some socket' := by
  induction messages generalizing socket with
  | nil => exact ⟨0, socket, by simp, fun _ _ => rfl⟩
  | cons message messages ih =>
    obtain ⟨N, socket₁, hsent₁, hsend⟩ := sendMessage_spec stale message socket
    obtain ⟨M, socket₂, hsent₂, hall⟩ := ih socket₁
    refine ⟨N + M, socket₂, ?_, fun fuel hfuel => ?_⟩
    · rw [hsent₂, hsent₁, List.append_assoc, List.flatMap_cons]
    · have hpos : (0 : ℤ) < message.bytes.length := by exact_mod_cast message.pos
      rw [List.map_cons, sendAll, hsend fuel (by omega), Option.bind_some]
      dsimp only
      rw [if_pos hpos]
      exact hall fuel (by omega)

theorem receive_spec (stale' : Source UInt8 → Stale) (messages : List Message)
    (received : List (List UInt8)) (source : Source UInt8)
    (h : source.rest = messages.flatMap fun message => frame message.bytes) :
    ∃ N source', source'.rest = [] ∧ ∀ fuel ≥ N, ∀ rounds ≥ N,
      iterate (receiveRound fuel stale') rounds (received, source) =
        some (received ++ messages.map Message.bytes, source') := by
  induction messages generalizing received source with
  | nil =>
    obtain ⟨N, source', hrest, hround⟩ := receiveRound_end stale' received h
    refine ⟨N + 1, source', hrest, fun fuel hfuel rounds hrounds => ?_⟩
    obtain ⟨rounds, rfl⟩ := Nat.exists_eq_succ_of_ne_zero (n := rounds) (by omega)
    rw [iterate_exit (hround fuel (by omega)), List.map_nil, List.append_nil]
  | cons message messages ih =>
    rw [List.flatMap_cons] at h
    obtain ⟨N, source₁, hrest₁, hround⟩ := receiveRound_message stale' message received h
    obtain ⟨M, source₂, hrest₂, hall⟩ := ih (received ++ [message.bytes]) source₁ hrest₁
    refine ⟨N + M + 1, source₂, hrest₂, fun fuel hfuel rounds hrounds => ?_⟩
    obtain ⟨rounds, rfl⟩ := Nat.exists_eq_succ_of_ne_zero (n := rounds) (by omega)
    rw [iterate_next (hround fuel (by omega)), hall fuel (by omega) rounds (by omega),
      List.append_assoc, List.map_cons, List.singleton_append]

/-- Whatever is sent is received, with nothing left, however the bytes are cut on both sides. -/
theorem receive_sendAll (stale : Sink UInt8 → Stale) (stale' : Source UInt8 → Stale)
    (messages : List Message) (plan plan' : List Foundation.Event) :
    ∃ N, ∀ fuel ≥ N, ∃ socket source,
      sendAll fuel stale (messages.map Message.bytes) ⟨[], plan⟩ = some socket ∧
        receive fuel stale' ⟨socket.sent, plan'⟩ = some (messages.map Message.bytes, source) ∧
          source.rest = [] := by
  obtain ⟨N, socket, hsent, hsend⟩ := sendAll_spec stale messages ⟨[], plan⟩
  obtain ⟨M, source, hrest, hreceive⟩ :=
    receive_spec stale' messages [] ⟨socket.sent, plan'⟩ hsent
  refine ⟨N + M, fun fuel hfuel => ⟨socket, source, hsend fuel (by omega), ?_, hrest⟩⟩
  exact hreceive fuel (by omega) fuel (by omega)

end Cs241.Chat
