import Mathlib

/-! Memory as a function from addresses to bytes, block copies, and what a sequence of
copies leaves in a region. -/
namespace Dee.ByteMemory
variable {β : Type*}

/-- A pointer to unchanging memory: its address, 0 for null, and the bytes behind it. -/
structure HostPtr (β : Type*) where
  addr : ℕ
  bytes : ℕ → β

def memcpy (mem : ℕ → β) (dst : ℕ) (src : ℕ → β) (n : ℕ) : ℕ → β :=
  fun a => if dst ≤ a ∧ a < dst + n then src (a - dst) else mem a

/-- The region of `n` bytes at `a` holds the bytes `src`. -/
def Holds (mem : ℕ → β) (a : ℕ) (src : ℕ → β) (n : ℕ) : Prop := ∀ i < n, mem (a + i) = src i

/-- The regions of `n` bytes at `a` and of `m` bytes at `b` do not meet. -/
def Disjoint (a n b m : ℕ) : Prop := a + n ≤ b ∨ b + m ≤ a

theorem holds_memcpy (mem : ℕ → β) (dst : ℕ) (src : ℕ → β) (n : ℕ) :
    Holds (memcpy mem dst src n) dst src n := by
  intro i hi
  simp only [memcpy]
  rw [if_pos (by omega), Nat.add_sub_cancel_left]

theorem Holds.memcpy {mem : ℕ → β} {a n : ℕ} {src : ℕ → β} (h : Holds mem a src n) {dst m : ℕ}
    {s : ℕ → β} (hd : Disjoint dst m a n) : Holds (memcpy mem dst s m) a src n := by
  intro i hi
  simp only [ByteMemory.memcpy]
  rw [if_neg, h i hi]
  rcases hd with hd | hd <;> omega

/-- One block copy, with the bytes it reads. -/
structure Copy (β : Type*) where
  dst : ℕ
  src : ℕ → β
  nbytes : ℕ

def Copy.run (mem : ℕ → β) (c : Copy β) : ℕ → β := ByteMemory.memcpy mem c.dst c.src c.nbytes

/-- The copies in submission order. -/
def runCopies (mem : ℕ → β) (cs : List (Copy β)) : ℕ → β := cs.foldl Copy.run mem

@[simp] theorem runCopies_nil (mem : ℕ → β) : runCopies mem [] = mem := rfl

@[simp] theorem runCopies_cons (mem : ℕ → β) (c : Copy β) (cs : List (Copy β)) :
    runCopies mem (c :: cs) = runCopies (c.run mem) cs := rfl

theorem runCopies_append (mem : ℕ → β) (cs ds : List (Copy β)) :
    runCopies mem (cs ++ ds) = runCopies (runCopies mem cs) ds := by
  simp [runCopies, List.foldl_append]

/-- Copies that miss a region leave it alone. -/
theorem Holds.runCopies {mem : ℕ → β} {a n : ℕ} {src : ℕ → β} (h : Holds mem a src n)
    {cs : List (Copy β)} (hd : ∀ c ∈ cs, Disjoint c.dst c.nbytes a n) :
    Holds (runCopies mem cs) a src n := by
  induction cs generalizing mem with
  | nil => exact h
  | cons c cs ih =>
    obtain ⟨hc, hcs⟩ := List.forall_mem_cons.mp hd
    exact ih (h.memcpy hc) hcs

/-- A byte that the copies change lies in the destination of one of them. -/
theorem runCopies_of_outside {mem : ℕ → β} {a : ℕ} {cs : List (Copy β)}
    (h : ∀ c ∈ cs, ¬ (c.dst ≤ a ∧ a < c.dst + c.nbytes)) : runCopies mem cs a = mem a := by
  induction cs generalizing mem with
  | nil => rfl
  | cons c cs ih =>
    obtain ⟨hc, hcs⟩ := List.forall_mem_cons.mp h
    rw [runCopies_cons, ih hcs, Copy.run, ByteMemory.memcpy, if_neg hc]

/-- A region holds the bytes of the last copy that was aimed at it. -/
theorem holds_runCopies (mem : ℕ → β) (pre post : List (Copy β)) (c : Copy β)
    (hd : ∀ d ∈ post, Disjoint d.dst d.nbytes c.dst c.nbytes) :
    Holds (runCopies mem (pre ++ c :: post)) c.dst c.src c.nbytes := by
  rw [runCopies_append, runCopies_cons]
  apply Holds.runCopies
  · exact holds_memcpy _ _ _ _
  · exact hd

end Dee.ByteMemory
