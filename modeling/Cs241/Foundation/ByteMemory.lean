import Mathlib.Algebra.Order.Monoid.Unbundled.Pow
import Mathlib.Algebra.Ring.Nat
import Mathlib.Data.List.Basic
import Mathlib.Tactic.Ring

/-!
# Byte-addressed memory with little-endian words

Memory is a total map from addresses to bytes. A word of `n` bytes is stored
least significant byte first; writing one and reading it back reduces the
value modulo `256 ^ n`, and a write leaves every disjoint word alone.
-/
namespace Cs241.Foundation

/-- Byte contents of an address space. -/
abbrev Mem := ℕ → UInt8

/-- The number stored little-endian in the `n` bytes from `a`. -/
def readBytes (m : Mem) : ℕ → ℕ → ℕ
  | _, 0 => 0
  | a, n + 1 => (m a).toNat + 256 * readBytes m (a + 1) n

/-- Store the low `n` bytes of `v` little-endian from `a` on. -/
def writeBytes (m : Mem) (a n v : ℕ) : Mem := fun x =>
  if a ≤ x ∧ x < a + n then UInt8.ofNat (v / 256 ^ (x - a)) else m x

theorem readBytes_congr {m m' : Mem} : ∀ {a n : ℕ},
    (∀ x, a ≤ x → x < a + n → m x = m' x) → readBytes m a n = readBytes m' a n
  | _, 0, _ => rfl
  | a, n + 1, h => by
    have htail : readBytes m (a + 1) n = readBytes m' (a + 1) n :=
      readBytes_congr fun x h₁ h₂ => h x (by omega) (by omega)
    simp only [readBytes, htail, h a le_rfl (by omega)]

theorem readBytes_lt (m : Mem) : ∀ a n : ℕ, readBytes m a n < 256 ^ n
  | _, 0 => by simp [readBytes]
  | a, n + 1 => by
    have htail := readBytes_lt m (a + 1) n
    have hbyte : (m a).toNat < 256 := (m a).toNat_lt
    simp only [readBytes, pow_succ]
    omega

theorem writeBytes_of_lt {m : Mem} {a n v x : ℕ} (h : x < a ∨ a + n ≤ x) :
    writeBytes m a n v x = m x := by
  unfold writeBytes
  rw [if_neg (by omega)]

/-- Any tail of a freshly written word is the matching quotient of its value. -/
theorem readBytes_writeBytes_tail (m : Mem) (a n v : ℕ) : ∀ k j : ℕ, k + j = n →
    readBytes (writeBytes m a n v) (a + k) j = v / 256 ^ k % 256 ^ j
  | _, 0, _ => by simp [readBytes, Nat.mod_one]
  | k, j + 1, h => by
    have ih := readBytes_writeBytes_tail m a n v (k + 1) j (by omega)
    have hbyte : (writeBytes m a n v (a + k)).toNat = v / 256 ^ k % 256 := by
      simp [writeBytes, show k < n by omega, UInt8.toNat_ofNat']
    rw [readBytes, hbyte, show a + k + 1 = a + (k + 1) by omega, ih, pow_succ,
      ← Nat.div_div_eq_div_mul, pow_succ, mul_comm (256 ^ j), Nat.mod_mul]

theorem readBytes_writeBytes (m : Mem) (a n v : ℕ) :
    readBytes (writeBytes m a n v) a n = v % 256 ^ n := by
  simpa using readBytes_writeBytes_tail m a n v 0 n (by omega)

/-- The 64-bit word at `a`. -/
def readWord (m : Mem) (a : ℕ) : ℕ := readBytes m a 8

/-- Store a 64-bit word at `a`. -/
def writeWord (m : Mem) (a v : ℕ) : Mem := writeBytes m a 8 v

theorem readWord_lt (m : Mem) (a : ℕ) : readWord m a < 2 ^ 64 := readBytes_lt m a 8

theorem readWord_congr {m m' : Mem} {a : ℕ} (h : ∀ x, a ≤ x → x < a + 8 → m x = m' x) :
    readWord m a = readWord m' a := readBytes_congr h

@[simp] theorem writeWord_of_lt {m : Mem} {a v x : ℕ} (h : x < a ∨ a + 8 ≤ x) :
    writeWord m a v x = m x := writeBytes_of_lt h

theorem readWord_writeWord {m : Mem} {a v : ℕ} (hv : v < 2 ^ 64) :
    readWord (writeWord m a v) a = v := by
  have hpow : (256 : ℕ) ^ 8 = 2 ^ 64 := by norm_num
  rw [readWord, writeWord, readBytes_writeBytes, hpow, Nat.mod_eq_of_lt hv]

/-- The bytes of a 64-bit word, as they are sent. -/
def wordBytes (v : ℕ) : List UInt8 := (List.range 8).map fun i => UInt8.ofNat (v / 256 ^ i)

@[simp] theorem length_wordBytes (v : ℕ) : (wordBytes v).length = 8 := rfl

/-- The word that received bytes stand for. -/
def ofWordBytes (bytes : List UInt8) : ℕ := readWord (fun i => bytes.getD i 0) 0

theorem ofWordBytes_wordBytes {v : ℕ} (hv : v < 2 ^ 64) : ofWordBytes (wordBytes v) = v := by
  refine (readWord_congr fun i _ hi => ?_).trans
    (readWord_writeWord (m := fun _ => 0) (a := 0) hv)
  simp only [writeWord, writeBytes]
  rw [if_pos ⟨Nat.zero_le i, hi⟩]
  simp [wordBytes, List.getD, show i < 8 by omega]

/-- The low 32 bits of a number in network byte order, most significant byte first. -/
def networkBytes (v : ℕ) : List UInt8 :=
  [UInt8.ofNat (v / 256 ^ 3), UInt8.ofNat (v / 256 ^ 2), UInt8.ofNat (v / 256), UInt8.ofNat v]

@[simp] theorem length_networkBytes (v : ℕ) : (networkBytes v).length = 4 := rfl

/-- The number that bytes in network byte order stand for. -/
def ofNetworkBytes (bytes : List UInt8) : ℕ := bytes.foldl (fun n b => 256 * n + b.toNat) 0

theorem ofNetworkBytes_networkBytes {v : ℕ} (hv : v < 2 ^ 32) :
    ofNetworkBytes (networkBytes v) = v := by
  simp only [ofNetworkBytes, networkBytes, List.foldl_cons, List.foldl_nil, UInt8.toNat_ofNat']
  omega

theorem ofNetworkBytes_lt {bytes : List UInt8} (h : bytes.length = 4) :
    ofNetworkBytes bytes < 2 ^ 32 := by
  obtain ⟨a, b, c, d, rfl⟩ := List.length_eq_four.mp h
  have ha := a.toNat_lt
  have hb := b.toNat_lt
  have hc := c.toNat_lt
  have hd := d.toNat_lt
  simp only [ofNetworkBytes, List.foldl_cons, List.foldl_nil]
  omega

theorem networkBytes_ofNetworkBytes {bytes : List UInt8} (h : bytes.length = 4) :
    networkBytes (ofNetworkBytes bytes) = bytes := by
  obtain ⟨a, b, c, d, rfl⟩ := List.length_eq_four.mp h
  have ha := a.toNat_lt
  have hb := b.toNat_lt
  have hc := c.toNat_lt
  have hd := d.toNat_lt
  simp only [ofNetworkBytes, networkBytes, List.foldl_cons, List.foldl_nil, List.cons.injEq,
    and_true, ← UInt8.toNat_inj, UInt8.toNat_ofNat']
  omega

theorem readWord_writeWord_of_apart {m : Mem} {a b v : ℕ} (h : b + 8 ≤ a ∨ a + 8 ≤ b) :
    readWord (writeWord m a v) b = readWord m b :=
  readWord_congr fun x h₁ h₂ => writeWord_of_lt (by omega)

/-- Overwrite the `n` bytes from `a` with one byte value. -/
def fill (m : Mem) (a : ℕ) (b : UInt8) (n : ℕ) : Mem := fun x =>
  if a ≤ x ∧ x < a + n then b else m x

theorem fill_of_lt {m : Mem} {a n x : ℕ} {b : UInt8} (h : x < a ∨ a + n ≤ x) :
    fill m a b n x = m x := by
  unfold fill
  rw [if_neg (by omega)]

/-- Copy `n` bytes from `src` to `dst`, two ranges that do not overlap. -/
def copyBytes (m : Mem) (dst src n : ℕ) : Mem := fun x =>
  if dst ≤ x ∧ x < dst + n then m (src + (x - dst)) else m x

theorem copyBytes_of_lt {m : Mem} {dst src n x : ℕ} (h : x < dst ∨ dst + n ≤ x) :
    copyBytes m dst src n x = m x := by
  unfold copyBytes
  rw [if_neg (by omega)]

theorem copyBytes_add {m : Mem} {dst src n i : ℕ} (h : i < n) :
    copyBytes m dst src n (dst + i) = m (src + i) := by
  unfold copyBytes
  rw [if_pos (by omega), Nat.add_sub_cancel_left]

end Cs241.Foundation
