import Dee.SwiGlu
import Dee.ThreadLaunch

/-! The CUDA kernels over exact arithmetic. The grid of a launch covers every row once,
in whatever order its threads run; the activation of the first kernel has lost the sign
of its exponent, so it is not the SiLU of the CPU node. -/
namespace Dee
open CountedLoops Finset ThreadLaunch
variable {F : Type*} [Field F] {exp : F → F} {inter hidden : ℕ} {W x : ℕ → F}

/-- `blockIdx.x * blockDim.x + threadIdx.x`, stored as an `int`. -/
def globalIndex (t : ℕ × ℕ) : ℤ := ((t.1 * 256 + t.2 : ℕ) : ℤ).bmod (2 ^ 32)

/-- The number of blocks for `n` rows. -/
def grid (n : ℕ) : ℕ := (n + 255) / 256

def swigluHKernel (exp : F → F) (W x : ℕ → F) (inter hidden : ℕ) (t : ℕ × ℕ) : Option (ℕ × F) :=
  let i := globalIndex t
  if (inter : ℤ) ≤ i then none
  else
    let Wg := W
    let Wu := advance W (inter * hidden)
    let rg := advance Wg (i.toNat * hidden)
    let ru := advance Wu (i.toNat * hidden)
    let gf := forRange hidden (fun j gf => (gf.1 + rg j * x j, gf.2 + ru j * x j)) (0, 0)
    let s := gf.1 / (1 + exp gf.1)
    some (i.toNat, s * gf.2)

def swigluYKernel (W h : ℕ → F) (inter hidden : ℕ) (t : ℕ × ℕ) : Option (ℕ × F) :=
  let o := globalIndex t
  if (hidden : ℤ) ≤ o then none
  else
    let Wd := advance W (2 * (inter * hidden))
    some (o.toNat, forRange inter (fun i acc => acc + Wd (o.toNat * inter + i) * h i) 0)

def combineKernel (ybuf : ℕ → F) (K hidden : ℕ) (t : ℕ × ℕ) : Option (ℕ × F) :=
  let o := globalIndex t
  if (hidden : ℤ) ≤ o then none
  else
    let s := forRange K (fun e s => s + ybuf (e * hidden + o.toNat)) 0
    some (o.toNat, s / K)

/-- Both launches of an expert, each with the order in which its threads run. -/
def swigluExpertCuda (exp : F → F) (W x : ℕ → F) (inter hidden : ℕ)
    (hOrder yOrder : List (ℕ × ℕ)) (hbuf y : ℕ → F) : (ℕ → F) × (ℕ → F) :=
  let h := runThreads (swigluHKernel exp W x inter hidden) hOrder hbuf
  (h, runThreads (swigluYKernel W h inter hidden) yOrder y)

def combineCuda (ybuf out : ℕ → F) (K hidden : ℕ) (order : List (ℕ × ℕ)) : ℕ → F :=
  runThreads (combineKernel ybuf K hidden) order out

/-- The activation of the kernel: the exponent has the wrong sign. -/
def siluCuda (exp : F → F) (z : F) : F := z / (1 + exp z)

theorem le_grid (n : ℕ) : n ≤ grid n * 256 := by
  unfold grid
  omega

theorem globalIndex_of_mem {n : ℕ} (hn : n + 255 < 2 ^ 31) {t : ℕ × ℕ}
    (ht : t ∈ threads (grid n) 256) : globalIndex t = ((t.1 * 256 + t.2 : ℕ) : ℤ) := by
  have hmem := List.mem_map_of_mem (f := fun t : ℕ × ℕ => t.1 * 256 + t.2) ht
  rw [threads_linear, List.mem_range] at hmem
  have hgrid : grid n * 256 ≤ n + 255 := by
    unfold grid
    omega
  apply Int.bmod_eq_of_le
  · omega
  · omega

omit [Field F] in
/-- A launch over `n` rows whose threads store one value per row, in any order. -/
theorem launch_spec {kernel : ℕ × ℕ → Option (ℕ × F)} (val : ℕ → F) {n : ℕ}
    {order : List (ℕ × ℕ)} (hn : n + 255 < 2 ^ 31) (horder : order.Perm (threads (grid n) 256))
    (hk : ∀ t, kernel t =
      if globalIndex t < n then some ((globalIndex t).toNat, val (globalIndex t).toNat) else none)
    (buf : ℕ → F) :
    (stored kernel order).Perm (List.range n) ∧
      ∀ i, runThreads kernel order buf i = if i < n then val i else buf i := by
  have hindex : ∀ t ∈ threads (grid n) 256, kernel t =
      if t.1 * 256 + t.2 < n then some (t.1 * 256 + t.2, val (t.1 * 256 + t.2)) else none := by
    intro t ht
    have hg := globalIndex_of_mem hn ht
    rw [hk t, hg]
    simp only [Int.toNat_natCast, Nat.cast_lt]
  have hstored : (stored kernel order).Perm (List.range n) := by
    rw [← stored_eq_range (threads_linear (grid n) 256) (le_grid n) hindex]
    exact stored_perm horder
  refine ⟨hstored, fun i => ?_⟩
  have hsame : ∀ t ∈ order, ∀ s, kernel t = some s → s.2 = val s.1 := by
    intro t ht s hs
    rw [hindex t (horder.mem_iff.mp ht)] at hs
    split_ifs at hs
    rw [← Option.some.inj hs]
  rw [runThreads_apply hsame]
  simp only [hstored.mem_iff, List.mem_range]

theorem swigluHKernel_eq (t : ℕ × ℕ) :
    swigluHKernel exp W x inter hidden t = if globalIndex t < inter then
      some ((globalIndex t).toNat, siluCuda exp (rowDot W x hidden (globalIndex t).toNat) *
        rowDot (advance W (inter * hidden)) x hidden (globalIndex t).toNat) else none := by
  simp only [swigluHKernel, forRange_add_pair, zero_add]
  split_ifs with h1 h2
  · omega
  · rfl
  · rfl
  · omega

theorem swigluYKernel_eq (h : ℕ → F) (t : ℕ × ℕ) :
    swigluYKernel W h inter hidden t = if globalIndex t < hidden then
      some ((globalIndex t).toNat, ∑ i ∈ range inter,
        W (2 * (inter * hidden) + ((globalIndex t).toNat * inter + i)) * h i) else none := by
  simp only [swigluYKernel, forRange_add, zero_add]
  split_ifs with h1 h2
  · omega
  · rfl
  · rfl
  · omega

theorem combineKernel_eq (ybuf : ℕ → F) (K : ℕ) (t : ℕ × ℕ) :
    combineKernel ybuf K hidden t = if globalIndex t < hidden then
      some ((globalIndex t).toNat, (∑ e ∈ range K, ybuf (e * hidden + (globalIndex t).toNat)) / K)
      else none := by
  simp only [combineKernel, forRange_add, zero_add]
  split_ifs with h1 h2
  · omega
  · rfl
  · rfl
  · omega

/-- The mean over the rows, in whatever order the threads run. -/
theorem combineCuda_apply (ybuf out : ℕ → F) (K : ℕ) (hhidden : hidden + 255 < 2 ^ 31)
    {order : List (ℕ × ℕ)} (horder : order.Perm (threads (grid hidden) 256)) {o : ℕ}
    (ho : o < hidden) :
    combineCuda ybuf out K hidden order o = (∑ e ∈ range K, ybuf (e * hidden + o)) / K := by
  obtain ⟨-, hval⟩ := launch_spec (fun o => (∑ e ∈ range K, ybuf (e * hidden + o)) / K) hhidden
    horder (combineKernel_eq ybuf K) out
  rw [combineCuda, hval o, if_pos ho]

theorem swigluExpertCuda_fst (hOrder yOrder : List (ℕ × ℕ)) (hbuf y : ℕ → F) :
    (swigluExpertCuda exp W x inter hidden hOrder yOrder hbuf y).1 =
      runThreads (swigluHKernel exp W x inter hidden) hOrder hbuf := rfl

theorem swigluExpertCuda_snd (hOrder yOrder : List (ℕ × ℕ)) (hbuf y : ℕ → F) :
    (swigluExpertCuda exp W x inter hidden hOrder yOrder hbuf y).2 =
      runThreads (swigluYKernel W (swigluExpertCuda exp W x inter hidden hOrder yOrder hbuf y).1
        inter hidden) yOrder y := by
  simp only [swigluExpertCuda]

/-- Both launches write every place of their buffer once, and the result is the expert
with the activation of the kernel. -/
theorem swigluExpertCuda_spec (exp : F → F) (W x : ℕ → F) (hinter : inter + 255 < 2 ^ 31) (hhidden : hidden + 255 < 2 ^ 31)
    {hOrder yOrder : List (ℕ × ℕ)} (hh : hOrder.Perm (threads (grid inter) 256))
    (hy : yOrder.Perm (threads (grid hidden) 256)) (hbuf y : ℕ → F) :
    (stored (swigluHKernel exp W x inter hidden) hOrder).Perm (List.range inter) ∧
      (stored (swigluYKernel W (swigluExpertCuda exp W x inter hidden hOrder yOrder hbuf y).1
        inter hidden) yOrder).Perm (List.range hidden) ∧
      ∀ o < hidden, (swigluExpertCuda exp W x inter hidden hOrder yOrder hbuf y).2 o =
        ∑ i ∈ range inter, W (2 * (inter * hidden) + (o * inter + i)) *
          (siluCuda exp (rowDot W x hidden i) * rowDot (advance W (inter * hidden)) x hidden i) := by
  obtain ⟨hstored, hval⟩ := launch_spec (fun i => siluCuda exp (rowDot W x hidden i) *
    rowDot (advance W (inter * hidden)) x hidden i) hinter hh swigluHKernel_eq hbuf
  obtain ⟨ystored, yval⟩ := launch_spec (fun o => ∑ i ∈ range inter,
    W (2 * (inter * hidden) + (o * inter + i)) *
      (swigluExpertCuda exp W x inter hidden hOrder yOrder hbuf y).1 i)
    hhidden hy (swigluYKernel_eq _) y
  refine ⟨hstored, ystored, fun o ho => ?_⟩
  rw [swigluExpertCuda_snd, yval o, if_pos ho]
  apply sum_congr rfl
  intro i hi
  rw [swigluExpertCuda_fst, hval i, if_pos (mem_range.mp hi)]

/-- For all sizes within the grid, all weights, inputs and thread orders: every place is
written once, and the outputs are those of `expert_mlp` exactly when each down row is
orthogonal to the errors of the activation. -/
theorem swigluExpertCuda_expertMlp_iff (exp : F → F) (blob x : ℕ → F)
    (hinter : inter + 255 < 2 ^ 31) (hhidden : hidden + 255 < 2 ^ 31)
    {hOrder yOrder : List (ℕ × ℕ)} (hh : hOrder.Perm (threads (grid inter) 256))
    (hy : yOrder.Perm (threads (grid hidden) 256)) (hbuf y : ℕ → F) (b : MlpBuffers F) :
    let r := swigluExpertCuda exp blob x inter hidden hOrder yOrder hbuf y
    (stored (swigluHKernel exp blob x inter hidden) hOrder).Perm (List.range inter) ∧
      (stored (swigluYKernel blob r.1 inter hidden) yOrder).Perm (List.range hidden) ∧
      ((∀ o < hidden, r.2 o =
          (expertMlp exp x hidden inter blob (advance blob (2 * (inter * hidden))) b).out o) ↔
        ∀ o < hidden, ∑ i ∈ range inter, blob (2 * (inter * hidden) + (o * inter + i)) *
          ((siluCuda exp (rowDot blob x hidden i) - silu exp (rowDot blob x hidden i)) *
            rowDot (advance blob (inter * hidden)) x hidden i) = 0) := by
  intro r
  obtain ⟨hstored, ystored, hval⟩ := swigluExpertCuda_spec exp blob x
    hinter hhidden hh hy hbuf y
  refine ⟨hstored, ystored, forall₂_congr fun o ho => ?_⟩
  rw [hval o ho, expertMlp_out b ho, documentedExpert, ← sub_eq_zero, ← sum_sub_distrib]
  simp only [hiddenUnit, ← mul_sub, ← sub_mul]

/-- An expert of size one whose gate weight is zero: both activations vanish. -/
theorem swigluExpertCuda_expertMlp_iff_zero_gate :
    let blob : ℕ → ℝ := fun i => if i = 0 then 0 else 1
    let order := threads (grid 1) 256
    let b : MlpBuffers ℝ := ⟨fun _ => 0, fun _ => 0, fun _ => 0, fun _ => 0⟩
    ∀ o < 1, (swigluExpertCuda Real.exp blob (fun _ => 1) 1 1 order order (fun _ => 0)
        fun _ => 0).2 o =
      (expertMlp Real.exp (fun _ => 1) 1 1 blob (advance blob (2 * (1 * 1))) b).out o := by
  intro blob order b
  have hiff := (swigluExpertCuda_expertMlp_iff Real.exp blob (fun _ => 1) (by norm_num)
    (by norm_num) (List.Perm.refl (threads (grid 1) 256)) (List.Perm.refl (threads (grid 1) 256))
    (fun _ => 0) (fun _ => 0) b).2.2
  apply hiff.mpr
  intro o ho
  simp [blob, rowDot, siluCuda, silu]

/-- With all weights and inputs equal to one the outputs are `1 / (1 + e)` and
`1 / (1 + 1 / e)`. -/
theorem swigluExpertCuda_misses_sign :
    let order := threads (grid 1) 256
    let b : MlpBuffers ℝ := ⟨fun _ => 0, fun _ => 0, fun _ => 0, fun _ => 0⟩
    (swigluExpertCuda Real.exp (fun _ => 1) (fun _ => 1) 1 1 order order (fun _ => 0)
        fun _ => 0).2 0 ≠
      (expertMlp Real.exp (fun _ => 1) 1 1 (fun _ => 1) (advance (fun _ => 1) (2 * (1 * 1))) b).out
        0 := by
  intro order b
  have hval := (swigluExpertCuda_spec Real.exp (fun _ => 1) (fun _ => 1) (by norm_num)
    (by norm_num) (List.Perm.refl (threads (grid 1) 256)) (List.Perm.refl (threads (grid 1) 256))
    (fun _ => 0) fun _ => 0).2.2 0 Nat.one_pos
  have hlt : Real.exp (-1) < Real.exp 1 := Real.exp_lt_exp.mpr (by norm_num)
  have hpos := Real.exp_pos (-1)
  rw [hval, expertMlp_out b Nat.one_pos]
  simp only [documentedExpert, hiddenUnit, rowDot, advance, siluCuda, silu, sum_range_one, mul_one,
    one_mul]
  apply ne_of_lt
  apply one_div_lt_one_div_of_lt
  · linarith
  · linarith

end Dee
