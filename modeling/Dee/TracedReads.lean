import Dee.LittleEndian

/-! Computations on a raw buffer that keep the list of the indices they read. Memory is a
function on all indices: what lies outside the buffer is arbitrary, and reading it is
recorded like any other read. -/
namespace Dee

structure Traced (α : Type*) where
  value : α
  reads : List ℕ

namespace Traced
universe u
variable {α β : Type u}

instance : Monad Traced where
  pure a := ⟨a, []⟩
  bind x f := ⟨(f x.value).value, x.reads ++ (f x.value).reads⟩

@[simp] theorem value_pure (a : α) : (pure a : Traced α).value = a := rfl

@[simp] theorem value_bind (x : Traced α) (f : α → Traced β) :
    (x >>= f).value = (f x.value).value := rfl

/-- All reads are below `n`. -/
def Within (n : ℕ) (x : Traced α) : Prop := ∀ i ∈ x.reads, i < n

instance (n : ℕ) (x : Traced α) : Decidable (Within n x) :=
  inferInstanceAs (Decidable (∀ i ∈ x.reads, i < n))

@[simp] theorem within_pure (n : ℕ) (a : α) : Within n (pure a : Traced α) := by
  intro i hi
  cases hi

@[simp] theorem within_bind (n : ℕ) (x : Traced α) (f : α → Traced β) :
    Within n (x >>= f) ↔ Within n x ∧ Within n (f x.value) :=
  List.forall_mem_append

/-- Read one byte. -/
def byte (mem : ℕ → UInt8) (a : ℕ) : Traced UInt8 := ⟨mem a, [a]⟩

/-- Read `k` bytes from `a` on. -/
def bytes (mem : ℕ → UInt8) (a k : ℕ) : Traced (List UInt8) :=
  ⟨(List.range k).map fun i => mem (a + i), (List.range k).map fun i => a + i⟩

/-- Read a little-endian number of `k` bytes, converted by `f`. -/
def number (f : (ℕ → UInt8) → ℕ → α) (k : ℕ) (mem : ℕ → UInt8) (a : ℕ) : Traced α :=
  ⟨f mem a, (List.range k).map fun i => a + i⟩

def half : (ℕ → UInt8) → ℕ → Traced UInt16 := number LittleEndian.readHalf 2

def word : (ℕ → UInt8) → ℕ → Traced UInt32 := number LittleEndian.readWord 4

def double : (ℕ → UInt8) → ℕ → Traced ℕ := number LittleEndian.readDouble 8

@[simp] theorem value_byte (mem : ℕ → UInt8) (a : ℕ) : (byte mem a).value = mem a := rfl

@[simp] theorem value_bytes (mem : ℕ → UInt8) (a k : ℕ) :
    (bytes mem a k).value = (List.range k).map fun i => mem (a + i) := rfl

@[simp] theorem value_half (mem : ℕ → UInt8) (a : ℕ) :
    (half mem a).value = LittleEndian.readHalf mem a := rfl

@[simp] theorem value_word (mem : ℕ → UInt8) (a : ℕ) :
    (word mem a).value = LittleEndian.readWord mem a := rfl

@[simp] theorem value_double (mem : ℕ → UInt8) (a : ℕ) :
    (double mem a).value = LittleEndian.readDouble mem a := rfl

theorem within_range {n a k : ℕ} :
    (∀ i ∈ (List.range k).map fun i => a + i, i < n) ↔ k = 0 ∨ a + k ≤ n := by
  constructor
  · intro h
    rcases Nat.eq_zero_or_pos k with hk | hk
    · exact Or.inl hk
    · have hlast := h (a + (k - 1)) (List.mem_map.mpr ⟨k - 1, List.mem_range.mpr (by omega), rfl⟩)
      right
      omega
  · intro h i hi
    obtain ⟨j, hj, rfl⟩ := List.mem_map.mp hi
    have hlt := List.mem_range.mp hj
    omega

@[simp] theorem within_byte {n : ℕ} {mem : ℕ → UInt8} {a : ℕ} : Within n (byte mem a) ↔ a < n :=
  List.forall_mem_singleton

@[simp] theorem within_bytes {n : ℕ} {mem : ℕ → UInt8} {a k : ℕ} :
    Within n (bytes mem a k) ↔ k = 0 ∨ a + k ≤ n := within_range

theorem within_number {f : (ℕ → UInt8) → ℕ → α} {n k : ℕ} {mem : ℕ → UInt8} {a : ℕ}
    (hk : 0 < k) : Within n (number f k mem a) ↔ a + k ≤ n := by
  rw [Within, number, within_range, or_iff_right hk.ne']

@[simp] theorem within_half {n : ℕ} {mem : ℕ → UInt8} {a : ℕ} :
    Within n (half mem a) ↔ a + 2 ≤ n := within_number (by omega)

@[simp] theorem within_word {n : ℕ} {mem : ℕ → UInt8} {a : ℕ} :
    Within n (word mem a) ↔ a + 4 ≤ n := within_number (by omega)

@[simp] theorem within_double {n : ℕ} {mem : ℕ → UInt8} {a : ℕ} :
    Within n (double mem a) ↔ a + 8 ≤ n := within_number (by omega)

end Traced
end Dee
