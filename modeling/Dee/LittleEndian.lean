import Mathlib

/-! Little-endian half words, words and double words in byte memory. -/
namespace Dee.LittleEndian

def readHalf (mem : ℕ → UInt8) (a : ℕ) : UInt16 :=
  UInt16.ofNat ((mem a).toNat + 256 * (mem (a + 1)).toNat)

def readWord (mem : ℕ → UInt8) (a : ℕ) : UInt32 :=
  UInt32.ofNat ((mem a).toNat + 256 * (mem (a + 1)).toNat + 256 ^ 2 * (mem (a + 2)).toNat +
    256 ^ 3 * (mem (a + 3)).toNat)

/-- The value of the eight bytes at `a`. -/
def readDouble (mem : ℕ → UInt8) (a : ℕ) : ℕ :=
  (readWord mem a).toNat + 256 ^ 4 * (readWord mem (a + 4)).toNat

/-- The eight bytes of a number. -/
def doubleBytes (n : ℕ) : List UInt8 := (List.range 8).map fun i => UInt8.ofNat (n / 256 ^ i)

/-- An array of words as it lies in memory. -/
def wordBytes (w : ℕ → UInt32) : ℕ → UInt8 :=
  fun i => UInt8.ofNat ((w (i / 4)).toNat / 256 ^ (i % 4))

theorem readWord_wordBytes (w : ℕ → UInt32) (i : ℕ) : readWord (wordBytes w) (4 * i) = w i := by
  have hd : ∀ j < 4, (4 * i + j) / 4 = i := fun j hj => by omega
  have hm : ∀ j < 4, (4 * i + j) % 4 = j := fun j hj => by omega
  have h0 := hd 0 (by omega)
  have m0 := hm 0 (by omega)
  simp only [Nat.add_zero] at h0 m0
  have hlt := (w i).toNat_lt
  apply UInt32.toNat_inj.mp
  simp only [readWord, wordBytes, h0, m0, hd 1 (by omega), hd 2 (by omega), hd 3 (by omega),
    hm 1 (by omega), hm 2 (by omega), hm 3 (by omega), UInt8.toNat_ofNat', UInt32.toNat_ofNat']
  omega

theorem readDouble_of_doubleBytes {mem : ℕ → UInt8} {a n : ℕ} (hn : n < 2 ^ 64)
    (h : ∀ i < 8, mem (a + i) = UInt8.ofNat (n / 256 ^ i)) : readDouble mem a = n := by
  have h0 := h 0 (by omega)
  simp only [Nat.add_zero, Nat.pow_zero, Nat.div_one] at h0
  simp only [readDouble, readWord, Nat.add_assoc, Nat.reduceAdd, h0, h 1 (by omega),
    h 2 (by omega), h 3 (by omega), h 4 (by omega), h 5 (by omega), h 6 (by omega),
    h 7 (by omega), UInt8.toNat_ofNat', UInt32.toNat_ofNat']
  omega

theorem readWord_congr {m m' : ℕ → UInt8} {a a' : ℕ} (h : ∀ j < 4, m (a + j) = m' (a' + j)) :
    readWord m a = readWord m' a' := by
  have h0 := h 0 (by omega)
  simp only [Nat.add_zero] at h0
  simp only [readWord, h0, h 1 (by omega), h 2 (by omega), h 3 (by omega)]

theorem readHalf_inj {m m' : ℕ → UInt8} {a a' : ℕ} :
    readHalf m a = readHalf m' a' ↔ m a = m' a' ∧ m (a + 1) = m' (a' + 1) := by
  have h1 := (m a).toNat_lt
  have h2 := (m (a + 1)).toNat_lt
  have h3 := (m' a').toNat_lt
  have h4 := (m' (a' + 1)).toNat_lt
  rw [← UInt16.toNat_inj, ← UInt8.toNat_inj, ← UInt8.toNat_inj]
  simp only [readHalf, UInt16.toNat_ofNat']
  omega

end Dee.LittleEndian
