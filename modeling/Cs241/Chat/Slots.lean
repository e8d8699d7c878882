import Cs241.Chat.Model
import Cs241.Foundation.Monitor

/-!
# The slots of the chat server

The count of the clients is the number of used slots, and the descriptors of the
clients that are served are open and different. A client that has closed its
descriptor keeps the number in its slot until it gets the mutex; a descriptor
that is stored in the meantime may be the same number.
-/
namespace Cs241.Chat

open Foundation

/-- The part of the state that the broadcasts leave alone. -/
structure TableInv (w : World) : Prop where
  count : w.clientsCount = (Finset.univ.filter fun i => (w.clients i).isSome).card
  absent : ∀ i, w.clients i = none ↔ w.client i = .absent
  opened : ∀ i socket, w.client i = .serving → w.clients i = some socket →
    (w.descriptors socket).isSome
  served : ∀ i j socket, w.client i = .serving → w.client j = .serving →
    w.clients i = some socket → w.clients j = some socket → i = j
  storing : ∀ clientId, w.acceptor = .storing clientId → (w.descriptors clientId).isSome ∧
    ∀ i, w.client i = .serving → w.clients i ≠ some clientId
  room : w.acceptor ≠ .testing → w.clientsCount < maxClients
  older : ∀ socket connection, w.descriptors socket = some connection → connection < w.accepted
  injective : ∀ socket socket' connection, w.descriptors socket = some connection →
    w.descriptors socket' = some connection → socket = socket'

/-- The two states differ in what belongs to the broadcasts. -/
structure SameTable (w w' : World) : Prop where
  clients : w'.clients = w.clients
  clientsCount : w'.clientsCount = w.clientsCount
  acceptor : w'.acceptor = w.acceptor
  client : w'.client = w.client
  descriptors : w'.descriptors = w.descriptors
  accepted : w'.accepted = w.accepted

theorem TableInv.congr {w w' : World} (h : TableInv w) (hsame : SameTable w w') : TableInv w' := by
  obtain ⟨hclients, hcount, hacceptor, hclient, hdescriptors, haccepted⟩ := hsame
  cases w
  cases w'
  simp only at hclients hcount hacceptor hclient hdescriptors haccepted
  subst hclients hcount hacceptor hclient hdescriptors haccepted
  exact ⟨h.count, h.absent, h.opened, h.served, h.storing, h.room, h.older, h.injective⟩

theorem init_tableInv : TableInv .init where
  count := by simp [World.init]
  absent _ := by simp [World.init]
  opened _ _ h := by cases h
  served _ _ _ h := by cases h
  storing _ h := by cases h
  room h := absurd rfl h
  older _ _ h := by cases h
  injective _ _ _ h := by cases h

theorem TableInv.test {w : World} (h : TableInv w) (hroom : w.clientsCount < maxClients) :
    TableInv { w with acceptor := .accepting } :=
  ⟨h.count, h.absent, h.opened, h.served, fun _ heq => (by cases heq), fun _ => hroom, h.older,
    h.injective⟩

theorem TableInv.accept {w : World} {clientId : ℕ} (h : TableInv w)
    (hacceptor : w.acceptor = .accepting) (hclosed : w.descriptors clientId = none) :
    TableInv (Chat.accept w clientId) where
  count := h.count
  absent := h.absent
  opened i socket hi hsocket := by
    have hopen := h.opened i socket hi hsocket
    have hne : socket ≠ clientId := fun heq => by simp [heq, hclosed] at hopen
    simpa [Chat.accept, hne] using hopen
  served := h.served
  storing other heq := by
    obtain rfl : clientId = other := Acceptor.storing.inj heq
    refine ⟨by simp [Chat.accept], fun i hi hsocket => ?_⟩
    have hopen := h.opened i clientId hi hsocket
    simp [hclosed] at hopen
  room _ := h.room (by simp [hacceptor])
  older socket connection hsocket := by
    rcases eq_or_ne socket clientId with rfl | hne
    · obtain rfl : w.accepted = connection := by simpa [Chat.accept] using hsocket
      exact Nat.lt_succ_self _
    · have hold : w.descriptors socket = some connection := by
        simpa [Chat.accept, hne] using hsocket
      exact (h.older socket connection hold).trans (Nat.lt_succ_self _)
  injective socket socket' connection hs hs' := by
    have hfresh : ∀ s, s ≠ clientId → w.descriptors s ≠ some w.accepted := fun s _ heq =>
      lt_irrefl _ (h.older s _ heq)
    simp only [Chat.accept, Function.update_apply] at hs hs'
    split_ifs at hs hs' with h₁ h₂ h₂
    · rw [h₁, h₂]
    · exact absurd (hs'.trans hs.symm) (hfresh socket' h₂)
    · exact absurd (hs.trans hs'.symm) (hfresh socket h₁)
    · exact h.injective socket socket' connection hs hs'

theorem card_used_update (clients : Slot → Option ℕ) (i : Slot) (c : Option ℕ) :
    (Finset.univ.filter fun j => (Function.update clients i c j).isSome).card +
        (if (clients i).isSome then 1 else 0) =
      (Finset.univ.filter fun j => (clients j).isSome).card + (if c.isSome then 1 else 0) :=
  Monitor.card_filter_update (fun c : Option ℕ => c.isSome) clients i c

theorem freeSlot_eq_some {w : World} {i : Slot} (h : freeSlot w = some i) : w.clients i = none := by
  simpa using List.find?_some h

theorem freeSlot_isSome {w : World} (h : TableInv w) (hroom : w.clientsCount < maxClients) :
    (freeSlot w).isSome := by
  by_contra hnone
  rw [Option.not_isSome_iff_eq_none, freeSlot, List.find?_eq_none] at hnone
  have hall : (Finset.univ.filter fun i => (w.clients i).isSome) = Finset.univ := by
    apply Finset.filter_true_of_mem
    intro i _
    have hi := hnone i (List.mem_finRange i)
    simpa [Option.isSome_iff_ne_none] using hi
  have hcount := h.count
  rw [hall, Finset.card_univ, Fintype.card_fin] at hcount
  omega

theorem TableInv.store {w : World} {clientId : ℕ} (h : TableInv w)
    (hacceptor : w.acceptor = .storing clientId) : TableInv (Chat.store w clientId) := by
  have hroom : w.clientsCount < maxClients := h.room (by simp [hacceptor])
  obtain ⟨i, hi⟩ := Option.isSome_iff_exists.mp (freeSlot_isSome h hroom)
  obtain ⟨hopen, hnew⟩ := h.storing clientId hacceptor
  have hfree := freeSlot_eq_some hi
  have hserving : ∀ j, j ≠ i → Function.update w.client i .serving j = w.client j :=
    fun j hj => Function.update_of_ne hj ..
  have hkept : ∀ j, j ≠ i → Function.update w.clients i (some clientId) j = w.clients j :=
    fun j hj => Function.update_of_ne hj ..
  simp only [Chat.store, hi]
  exact
    { count := by
        have hcard := card_used_update w.clients i (some clientId)
        have hcount := h.count
        simp only [hfree, Option.isSome_none, Bool.false_eq_true, if_false, Option.isSome_some,
          if_true] at hcard ⊢
        omega
      absent := fun j => by
        rcases eq_or_ne j i with rfl | hj
        · simp
        · simp only [hserving j hj, hkept j hj]
          exact h.absent j
      opened := fun j socket hj hsocket => by
        rcases eq_or_ne j i with rfl | hne
        · obtain rfl : clientId = socket := by simpa using hsocket
          exact hopen
        · exact h.opened j socket (hserving j hne ▸ hj) (hkept j hne ▸ hsocket)
      served := fun j k socket hj hk hsj hsk => by
        rcases eq_or_ne j i with rfl | hji
        · rcases eq_or_ne k j with rfl | hkj
          · rfl
          · obtain rfl : clientId = socket := by simpa using hsj
            exact absurd (hkept k hkj ▸ hsk) (hnew k (hserving k hkj ▸ hk))
        · rcases eq_or_ne k i with rfl | hki
          · obtain rfl : clientId = socket := by simpa using hsk
            exact absurd (hkept j hji ▸ hsj) (hnew j (hserving j hji ▸ hj))
          · exact h.served j k socket (hserving j hji ▸ hj) (hserving k hki ▸ hk)
              (hkept j hji ▸ hsj) (hkept k hki ▸ hsk)
      storing := fun _ heq => by cases heq
      room := fun hne => absurd rfl hne
      older := h.older
      injective := h.injective }

theorem TableInv.close {w : World} {i : Slot} (h : TableInv w) (hi : w.client i = .serving) :
    TableInv (closeClient w i) := by
  obtain ⟨socket, hsocket⟩ : ∃ socket, w.clients i = some socket := by
    rw [← Option.ne_none_iff_exists', Ne, h.absent, hi]
    simp
  have hserving : ∀ j, Function.update w.client i .closed j = .serving →
      j ≠ i ∧ w.client j = .serving := by
    intro j hj
    rcases eq_or_ne j i with rfl | hne
    · simp at hj
    · exact ⟨hne, by simpa [hne] using hj⟩
  have hother : ∀ j s, j ≠ i → w.client j = .serving → w.clients j = some s → socket ≠ s :=
    fun j s hne hj hs heq => hne (h.served j i s hj hi hs (heq ▸ hsocket))
  simp only [closeClient, hsocket, Option.some.injEq]
  exact
    { count := h.count
      absent := fun j => by
        rcases eq_or_ne j i with rfl | hj
        · simp [hsocket]
        · simpa [hj] using h.absent j
      opened := fun j s hj hs => by
        obtain ⟨hne, hj⟩ := hserving j hj
        simpa [hother j s hne hj hs] using h.opened j s hj hs
      served := fun j k s hj hk hsj hsk =>
        h.served j k s (hserving j hj).2 (hserving k hk).2 hsj hsk
      storing := fun clientId hstoring => by
        obtain ⟨hopen, hnew⟩ := h.storing clientId hstoring
        have hne : socket ≠ clientId := fun heq => hnew i hi (heq ▸ hsocket)
        exact ⟨by simpa [hne] using hopen, fun j hj => hnew j (hserving j hj).2⟩
      room := h.room
      older := fun s c hs => by
        dsimp only at hs
        split_ifs at hs
        exact h.older s c hs
      injective := fun s s' c hs hs' => by
        dsimp only at hs hs'
        split_ifs at hs hs'
        exact h.injective s s' c hs hs' }

theorem TableInv.clear {w : World} {i : Slot} (h : TableInv w) (hi : w.client i = .closed) :
    TableInv (Chat.clear w i) := by
  obtain ⟨socket, hsocket⟩ : ∃ socket, w.clients i = some socket := by
    rw [← Option.ne_none_iff_exists', Ne, h.absent, hi]
    simp
  have hserving : ∀ j, Function.update w.client i .absent j = .serving →
      j ≠ i ∧ w.client j = .serving := by
    intro j hj
    rcases eq_or_ne j i with rfl | hne
    · simp at hj
    · exact ⟨hne, by simpa [hne] using hj⟩
  have hkept : ∀ j, j ≠ i → Function.update w.clients i none j = w.clients j :=
    fun j hj => Function.update_of_ne hj ..
  have hcount : (Chat.clear w i).clientsCount =
      (Finset.univ.filter fun j => ((Chat.clear w i).clients j).isSome).card := by
    have hcard := card_used_update w.clients i none
    have hcount := h.count
    simp only [hsocket, Option.isSome_none, Bool.false_eq_true, if_false, Option.isSome_some,
      if_true] at hcard
    show w.clientsCount - 1 =
      (Finset.univ.filter fun j => (Function.update w.clients i none j).isSome).card
    omega
  exact
    { count := hcount
      absent := fun j => by
        rcases eq_or_ne j i with rfl | hj
        · simp [Chat.clear]
        · simpa [Chat.clear, hj] using h.absent j
      opened := fun j s hj hs => by
        obtain ⟨hne, hj⟩ := hserving j hj
        exact h.opened j s hj (hkept j hne ▸ hs)
      served := fun j k s hj hk hsj hsk => by
        obtain ⟨hji, hj⟩ := hserving j hj
        obtain ⟨hki, hk⟩ := hserving k hk
        exact h.served j k s hj hk (hkept j hji ▸ hsj) (hkept k hki ▸ hsk)
      storing := fun clientId hstoring => by
        obtain ⟨hopen, hnew⟩ := h.storing clientId hstoring
        refine ⟨hopen, fun j hj hs => ?_⟩
        obtain ⟨hne, hj⟩ := hserving j hj
        exact hnew j hj (hkept j hne ▸ hs)
      room := fun hne => by
        have := h.room hne
        simp only [Chat.clear]
        omega
      older := h.older
      injective := h.injective }

/-! What a broadcast does leaves the table as it is. -/

theorem loopHead_sameTable {w : World} {b : Broadcast} {i : ℕ} : SameTable w (loopHead w b i) := by
  unfold loopHead
  split
  · split
    · exact ⟨rfl, rfl, rfl, rfl, rfl, rfl⟩
    · exact ⟨rfl, rfl, rfl, rfl, rfl, rfl⟩
  · exact ⟨rfl, rfl, rfl, rfl, rfl, rfl⟩

theorem wrote_sameTable {w : World} {b : Broadcast} {n : ℕ} : SameTable w (Chat.wrote w b n) := by
  unfold Chat.wrote
  split
  · exact ⟨rfl, rfl, rfl, rfl, rfl, rfl⟩
  · exact ⟨rfl, rfl, rfl, rfl, rfl, rfl⟩

theorem wroteZero_sameTable {w : World} {b : Broadcast} : SameTable w (Chat.wroteZero w b) := by
  unfold Chat.wroteZero
  split
  · exact ⟨rfl, rfl, rfl, rfl, rfl, rfl⟩
  · exact ⟨rfl, rfl, rfl, rfl, rfl, rfl⟩
  · exact ⟨rfl, rfl, rfl, rfl, rfl, rfl⟩

theorem step_tableInv {w w' : World} {a : Action} (h : TableInv w) (hstep : Step w a w') :
    TableInv w' := by
  obtain ⟨hen, rfl⟩ := hstep
  cases a with
  | test => exact h.test hen.2
  | accept clientId => exact h.accept hen.1 hen.2
  | store clientId => exact h.store hen.1
  | begin i size message => exact h.congr ⟨rfl, rfl, rfl, rfl, rfl, rfl⟩
  | loop b i => exact h.congr loopHead_sameTable
  | wrote b n => exact h.congr wrote_sameTable
  | wroteZero b => exact h.congr wroteZero_sameTable
  | failed => exact h
  | close i => exact h.close hen.1
  | clear i => exact h.clear hen.1

theorem run_tableInv {as : List Action} {w : World} (h : Run Step .init as w) : TableInv w :=
  h.invariant init_tableInv fun hI hstep => step_tableInv hI hstep

/-! ## Different descriptors -/

/-- No slot holds the descriptor that the acceptor stores: every client that closed the same
number has cleared its slot. -/
def FreshStore (w : World) : Action → Prop
  | .store clientId => ∀ i, w.clients i ≠ some clientId
  | _ => True

/-- The used slots hold different descriptors. -/
def Distinct (w : World) : Prop :=
  ∀ i j socket, w.clients i = some socket → w.clients j = some socket → i = j

theorem Distinct.update {w : World} {i : Slot} {c : Option ℕ} (h : Distinct w)
    (hnew : ∀ j, c = w.clients j → c = none) :
    ∀ j k socket, Function.update w.clients i c j = some socket →
      Function.update w.clients i c k = some socket → j = k := by
  intro j k socket hj hk
  simp only [Function.update_apply] at hj hk
  split_ifs at hj hk with hji hki hki
  · rw [hji, hki]
  · have := hnew k (hj.trans hk.symm)
    simp [this] at hj
  · have := hnew j (hk.trans hj.symm)
    simp [this] at hk
  · exact h j k socket hj hk

theorem step_distinct {w w' : World} {a : Action} (h : Distinct w)
    (hstep : Guarded Step FreshStore w a w') : Distinct w' := by
  obtain ⟨hfresh, hen, rfl⟩ := hstep
  cases a with
  | test => exact h
  | accept clientId => exact h
  | store clientId =>
    simp only [perform, Chat.store]
    split
    · exact h.update fun j hj => absurd hj.symm (hfresh j)
    · exact h
  | begin i size message => exact h
  | loop b i =>
    rw [Distinct, perform, loopHead_sameTable.clients]
    exact h
  | wrote b n =>
    rw [Distinct, perform, wrote_sameTable.clients]
    exact h
  | wroteZero b =>
    rw [Distinct, perform, wroteZero_sameTable.clients]
    exact h
  | failed => exact h
  | close i => exact h
  | clear i => exact h.update fun _ _ => rfl

/-- As long as the acceptor stores no descriptor that a slot still holds, the slots hold different
descriptors and the count is their number; so a broadcast, which visits each slot once, writes to
no connection twice. -/
theorem run_distinct {as : List Action} {w : World} (h : Run (Guarded Step FreshStore) .init as w) :
    Distinct w ∧ w.clientsCount = (Finset.univ.filter fun i => (w.clients i).isSome).card ∧
      ∀ i j socket socket' connection, w.clients i = some socket → w.clients j = some socket' →
        w.descriptors socket = some connection →
          w.descriptors socket' = some connection → i = j := by
  have htable : TableInv w := run_tableInv (h.mono fun hstep => hstep.2)
  have hdistinct : Distinct w :=
    h.invariant (P := Distinct) (fun i j socket hi => by cases hi) step_distinct
  refine ⟨hdistinct, htable.count, fun i j socket socket' connection hi hj hs hs' => ?_⟩
  obtain rfl := htable.injective socket socket' connection hs hs'
  exact hdistinct i j socket hi hj

instance (w : World) (a : Action) : Decidable (FreshStore w a) := by
  refine Action.casesOn a ?_ ?_ ?_ ?_ ?_ ?_ ?_ ?_ ?_ ?_ <;> intros <;> unfold FreshStore <;>
    infer_instance

/-- A client leaves and clears its slot, and its number is used again. -/
theorem run_distinct_reuse : ∃ w : World, w.clients 0 = some 5 ∧ w.accepted = 2 ∧
    Distinct w ∧ w.clientsCount = (Finset.univ.filter fun i => (w.clients i).isSome).card ∧
      ∀ i j socket socket' connection, w.clients i = some socket → w.clients j = some socket' →
        w.descriptors socket = some connection → w.descriptors socket' = some connection →
        i = j := by
  have hfold : (performAll FreshStore [.test, .accept 5, .store 5, .close 0, .clear 0, .test,
      .accept 5, .store 5] .init).map (fun w => (w.clients 0, w.accepted)) = some (some 5, 2) := by
    decide
  obtain ⟨w, hw, hend⟩ := Option.map_eq_some_iff.mp hfold
  obtain ⟨hclients, haccepted⟩ := Prod.mk.inj hend
  exact ⟨w, hclients, haccepted, run_distinct (run_of_performAll hw)⟩

/-- A client closes its descriptor and does not get the mutex; the next client gets the same number
and a second slot. -/
theorem run_duplicate : ∃ w : World, Run Step .init
    [.test, .accept 5, .store 5, .close 0, .test, .accept 5, .store 5] w ∧ ¬ Distinct w := by
  have hfold : (performAll (fun _ _ => True) [.test, .accept 5, .store 5, .close 0, .test,
      .accept 5, .store 5] .init).map (fun w => (w.clients 0, w.clients 1)) =
        some (some 5, some 5) := by
    decide
  obtain ⟨w, hw, hend⟩ := Option.map_eq_some_iff.mp hfold
  obtain ⟨hfirst, hsecond⟩ := Prod.mk.inj hend
  exact ⟨w, run_of_performAll_true hw,
    fun hdistinct => absurd (hdistinct 0 1 5 hfirst hsecond) (by decide)⟩

end Cs241.Chat
