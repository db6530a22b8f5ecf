import Dee.Engine
import Dee.SwigluCuda

/-! The kernels that a layer launches on the GPU, and the device buffers that they leave for each
other. What a launch leaves depends on the weights it reads, not on the order of its threads. -/
namespace Dee
open ThreadLaunch
variable {F : Type*}

/-- The device buffers `d_hbuf_`, `d_ybuf_` and `d_h_out_`. -/
structure Scratch (F : Type*) where
  hbuf : ℕ → F
  ybuf : ℕ → F
  hOut : ℕ → F

/-- A launch. The kernels of an expert read its blob at the device address `p`; which expert that
was is written down for the proofs only. -/
inductive Kernel
  | swigluH (x : Int32) (p : ℕ)
  | swigluY (row : ℕ) (x : Int32) (p : ℕ)
  | combine (count : ℕ)

/-- A buffer after a launch that was given the pointer `buf + base`. -/
def storeFrom (base : ℕ) (y buf : ℕ → F) : ℕ → F :=
  fun i => if base ≤ i then y (i - base) else buf i

namespace Kernel

/-- The expert of the launch and the address of its blob. -/
def blob? : Kernel → Option (Int32 × ℕ)
  | .swigluH x p => some (x, p)
  | .swigluY _ x p => some (x, p)
  | .combine _ => none

/-- The number of rows that the grid of the launch covers. -/
def rows (inter hidden : ℕ) : Kernel → ℕ
  | .swigluH _ _ => inter
  | .swigluY _ _ _ => hidden
  | .combine _ => hidden

/-- The threads of the launch, by number. -/
def grid (inter hidden : ℕ) (ker : Kernel) : List (ℕ × ℕ) :=
  threads (Dee.grid (ker.rows inter hidden)) 256

variable [Field F]

/-- A launch whose threads run in the given order. -/
def launch (exp : F → F) (inter hidden : ℕ) (hIn : ℕ → F) (weights : Int32 → ℕ → ℕ → F)
    (order : List (ℕ × ℕ)) (d : Scratch F) : Kernel → Scratch F
  | .swigluH x p =>
    { d with hbuf := runThreads (swigluHKernel exp (weights x p) hIn inter hidden) order d.hbuf }
  | .swigluY row x p =>
    { d with
      ybuf := storeFrom (row * hidden)
        (runThreads (swigluYKernel (weights x p) d.hbuf inter hidden) order
          (advance d.ybuf (row * hidden))) d.ybuf }
  | .combine count => { d with hOut := combineCuda d.ybuf d.hOut count hidden order }

variable {exp : F → F} {inter hidden : ℕ} {W hIn : ℕ → F} {order : List (ℕ × ℕ)}

theorem runThreads_swigluH (hinter : inter + 255 < 2 ^ 31)
    (horder : order.Perm (threads (Dee.grid inter) 256)) (buf : ℕ → F) (i : ℕ) :
    runThreads (swigluHKernel exp W hIn inter hidden) order buf i = if i < inter then
      siluCuda exp (rowDot W hIn hidden i) * rowDot (advance W (inter * hidden)) hIn hidden i
      else buf i :=
  (launch_spec (fun i => siluCuda exp (rowDot W hIn hidden i) *
    rowDot (advance W (inter * hidden)) hIn hidden i) hinter horder swigluHKernel_eq buf).2 i

theorem runThreads_swigluY (hhidden : hidden + 255 < 2 ^ 31)
    (horder : order.Perm (threads (Dee.grid hidden) 256)) (h buf : ℕ → F) (o : ℕ) :
    runThreads (swigluYKernel W h inter hidden) order buf o = if o < hidden then
      ∑ i ∈ Finset.range inter, W (2 * (inter * hidden) + (o * inter + i)) * h i else buf o :=
  (launch_spec (fun o => ∑ i ∈ Finset.range inter,
    W (2 * (inter * hidden) + (o * inter + i)) * h i) hhidden horder (swigluYKernel_eq h) buf).2 o

theorem combineCuda_eq (hhidden : hidden + 255 < 2 ^ 31)
    (horder : order.Perm (threads (Dee.grid hidden) 256)) (ybuf out : ℕ → F) (count o : ℕ) :
    combineCuda ybuf out count hidden order o = if o < hidden then
      (∑ k ∈ Finset.range count, ybuf (k * hidden + o)) / count else out o :=
  (launch_spec (fun o => (∑ k ∈ Finset.range count, ybuf (k * hidden + o)) / count) hhidden
    horder (combineKernel_eq ybuf count) out).2 o

/-- Launches that see the same blob leave the same buffers, whatever the order of their
threads. -/
theorem launch_congr (ker : Kernel) (hinter : inter + 255 < 2 ^ 31)
    (hhidden : hidden + 255 < 2 ^ 31) {order' : List (ℕ × ℕ)}
    (horder : order.Perm (ker.grid inter hidden)) (horder' : order'.Perm (ker.grid inter hidden))
    {weights weights' : Int32 → ℕ → ℕ → F}
    (hblob : ∀ x p, ker.blob? = some (x, p) →
      ∀ j < 3 * (inter * hidden), weights x p j = weights' x p j) (d : Scratch F) :
    ker.launch exp inter hidden hIn weights order d =
      ker.launch exp inter hidden hIn weights' order' d := by
  cases ker with
  | swigluH x p =>
    have hsame := hblob x p rfl
    have hbuf : runThreads (swigluHKernel exp (weights x p) hIn inter hidden) order d.hbuf =
        runThreads (swigluHKernel exp (weights' x p) hIn inter hidden) order' d.hbuf := by
      funext i
      rw [runThreads_swigluH hinter horder, runThreads_swigluH hinter horder']
      split_ifs with hi
      · have hgate : rowDot (weights x p) hIn hidden i = rowDot (weights' x p) hIn hidden i :=
          rowDot_congr (fun j hj => hsame j (by omega)) hi
        have hup : rowDot (advance (weights x p) (inter * hidden)) hIn hidden i =
            rowDot (advance (weights' x p) (inter * hidden)) hIn hidden i :=
          rowDot_congr (fun j hj => hsame _ (by omega)) hi
        rw [hgate, hup]
      · rfl
    simp only [launch, hbuf]
  | swigluY row x p =>
    have hsame := hblob x p rfl
    have hrow : ∀ buf, runThreads (swigluYKernel (weights x p) d.hbuf inter hidden) order buf =
        runThreads (swigluYKernel (weights' x p) d.hbuf inter hidden) order' buf := by
      intro buf
      funext o
      rw [runThreads_swigluY hhidden horder, runThreads_swigluY hhidden horder']
      split_ifs with ho
      · apply Finset.sum_congr rfl
        intro i hi
        have hcell := cell_lt ho (Finset.mem_range.mp hi)
        rw [Nat.mul_comm hidden] at hcell
        rw [hsame _ (by omega)]
      · rfl
    simp only [launch, hrow]
  | combine count =>
    have hmean : combineCuda d.ybuf d.hOut count hidden order =
        combineCuda d.ybuf d.hOut count hidden order' := by
      funext o
      rw [combineCuda_eq hhidden horder, combineCuda_eq hhidden horder']
    simp only [launch, hmean]

end Kernel
end Dee
