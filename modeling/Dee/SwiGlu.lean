import Dee.CountedLoops

/-! The expert kernels over exact arithmetic. A float pointer is the function that
reads it, `exp` is any fixed function, and a weight blob is laid out
`[gate: inter x hidden][up: inter x hidden][down: hidden x inter]`. -/
namespace Dee
open CountedLoops Finset
variable {F : Type*} [Field F] {exp : F → F} {inter hidden : ℕ} {blob x acc : ℕ → F}

/-- Pointer arithmetic `p + n`. -/
def advance (p : ℕ → F) (n : ℕ) : ℕ → F := fun i => p (n + i)

def silu (exp : F → F) (z : F) : F := z / (1 + exp (-z))

/-- `y = W * x` for a row-major `rows x cols` matrix. -/
def matvec (W x y : ℕ → F) (rows cols : ℕ) : ℕ → F :=
  forRange rows (fun r y =>
    let wr := advance W (r * cols)
    Function.update y r (forRange cols (fun c s => s + wr c * x c) 0)) y

/-- The buffers that the caller of `expert_mlp` provides. -/
structure MlpBuffers (F : Type*) where
  out : ℕ → F
  gate : ℕ → F
  up : ℕ → F
  act : ℕ → F

def expertMlp (exp : F → F) (x : ℕ → F) (hidden inter : ℕ) (gateUp down : ℕ → F)
    (b : MlpBuffers F) : MlpBuffers F :=
  let gate := matvec gateUp x b.gate inter hidden
  let up := matvec (advance gateUp (inter * hidden)) x b.up inter hidden
  let act := forRange inter (fun i act => Function.update act i (silu exp (gate i) * up i)) b.act
  ⟨matvec down act b.out hidden inter, gate, up, act⟩

/-- One round of the engine's kernel: row `i` of the down block is read at stride `hidden`. -/
def swigluRow (exp : F → F) (blob x : ℕ → F) (inter hidden i : ℕ) (acc : ℕ → F) : ℕ → F :=
  let Wg := blob
  let Wu := advance blob (inter * hidden)
  let Wd := advance blob (2 * (inter * hidden))
  let rg := advance Wg (i * hidden)
  let ru := advance Wu (i * hidden)
  let gf := forRange hidden (fun j gf => (gf.1 + rg j * x j, gf.2 + ru j * x j)) (0, 0)
  let s := gf.1 / (1 + exp (-gf.1))
  let h := s * gf.2
  let rd := advance Wd (i * hidden)
  forRange hidden (fun o acc => Function.update acc o (acc o + rd o * h)) acc

def swiglu (exp : F → F) (blob x : ℕ → F) (inter hidden : ℕ) (acc : ℕ → F) : ℕ → F :=
  forRange inter (swigluRow exp blob x inter hidden) acc

/-- The inner product of row `r` of a row-major matrix with `cols` columns. -/
def rowDot (W x : ℕ → F) (cols r : ℕ) : F := ∑ c ∈ range cols, W (r * cols + c) * x c

/-- Activation `i` of an expert. -/
def hiddenUnit (exp : F → F) (blob x : ℕ → F) (inter hidden i : ℕ) : F :=
  silu exp (rowDot blob x hidden i) * rowDot (advance blob (inter * hidden)) x hidden i

/-- Output `o` of the documented expert: the down block is `hidden x inter`, row-major. -/
def documentedExpert (exp : F → F) (blob x : ℕ → F) (inter hidden o : ℕ) : F :=
  ∑ i ∈ range inter,
    blob (2 * (inter * hidden) + (o * inter + i)) * hiddenUnit exp blob x inter hidden i

/-- Output `o` of the kernel. -/
def swigluTerm (exp : F → F) (blob x : ℕ → F) (inter hidden o : ℕ) : F :=
  ∑ i ∈ range inter,
    blob (2 * (inter * hidden) + (i * hidden + o)) * hiddenUnit exp blob x inter hidden i

theorem matvec_apply (W x y : ℕ → F) (rows cols : ℕ) {r : ℕ} (h : r < rows) :
    matvec W x y rows cols r = rowDot W x cols r := by
  simp only [matvec, forRange_add, zero_add, forRange_fill, h, if_true, advance, rowDot]

/-- `expert_mlp` computes the documented expert whatever its scratch buffers hold. -/
theorem expertMlp_out (b : MlpBuffers F) {o : ℕ} (ho : o < hidden) :
    (expertMlp exp x hidden inter blob (advance blob (2 * (inter * hidden))) b).out o =
      documentedExpert exp blob x inter hidden o := by
  simp only [expertMlp, matvec_apply _ _ _ _ _ ho, rowDot, documentedExpert]
  apply sum_congr rfl
  intro i hi
  have hi' := mem_range.mp hi
  simp only [forRange_fill, hi', if_true, matvec_apply _ _ _ _ _ hi', advance, hiddenUnit]

/-- The step lemma of the kernel: a round adds its activation times a strided row. -/
theorem swigluRow_eq (i : ℕ) (acc : ℕ → F) :
    swigluRow exp blob x inter hidden i acc = fun o => if o < hidden then
      acc o + blob (2 * (inter * hidden) + (i * hidden + o)) * hiddenUnit exp blob x inter hidden i
      else acc o := by
  simp only [swigluRow, forRange_add_pair, zero_add]
  rw [forRange_update hidden fun o v => v + _]
  rfl

theorem swiglu_apply (o : ℕ) :
    swiglu exp blob x inter hidden acc o =
      if o < hidden then acc o + swigluTerm exp blob x inter hidden o else acc o := by
  have hrun : swiglu exp blob x inter hidden acc = fun o => if o < hidden then
      acc o + swigluTerm exp blob x inter hidden o else acc o := by
    unfold swiglu swigluTerm
    apply forRange_invariant (P := fun n v => v = fun o => if o < hidden then
      acc o + ∑ i ∈ range n, blob (2 * (inter * hidden) + (i * hidden + o)) *
        hiddenUnit exp blob x inter hidden i else acc o)
    · simp
    · intro i v _ hv
      rw [swigluRow_eq, hv]
      funext o
      split_ifs with ho
      · simp only [ho, if_true, sum_range_succ, add_assoc]
      · simp only [ho, if_false]
  rw [hrun]

theorem cell_lt {rows cols r c : ℕ} (hr : r < rows) (hc : c < cols) : r * cols + c < rows * cols := by
  calc r * cols + c < r * cols + cols := by omega
    _ = (r + 1) * cols := by ring
    _ ≤ rows * cols := Nat.mul_le_mul_right _ hr

theorem rowDot_congr {W W' : ℕ → F} {rows cols r : ℕ} (h : ∀ j < rows * cols, W j = W' j)
    (hr : r < rows) : rowDot W x cols r = rowDot W' x cols r := by
  apply sum_congr rfl
  intro c hc
  rw [h _ (cell_lt hr (mem_range.mp hc))]

/-- The kernel reads nothing beyond the three blocks. -/
theorem swiglu_congr {blob' : ℕ → F} (h : ∀ j < 3 * (inter * hidden), blob j = blob' j) :
    swiglu exp blob x inter hidden acc = swiglu exp blob' x inter hidden acc := by
  funext o
  rw [swiglu_apply, swiglu_apply]
  split_ifs with ho
  · congr 1
    apply sum_congr rfl
    intro i hi
    have hi' := mem_range.mp hi
    have hdown := cell_lt hi' ho
    rw [h _ (by omega), hiddenUnit, hiddenUnit]
    have hgate : rowDot blob x hidden i = rowDot blob' x hidden i :=
      rowDot_congr (fun j hj => h j (by omega)) hi'
    have hup : rowDot (advance blob (inter * hidden)) x hidden i =
        rowDot (advance blob' (inter * hidden)) x hidden i :=
      rowDot_congr (fun j hj => h (inter * hidden + j) (by omega)) hi'
    rw [hgate, hup]
  · rfl

/-- The accumulator only adds. -/
theorem swiglu_add (acc : ℕ → F) (o : ℕ) : swiglu exp blob x inter hidden acc o =
    acc o + swiglu exp blob x inter hidden (fun _ => 0) o := by
  rw [swiglu_apply, swiglu_apply]
  split_ifs
  · rw [zero_add]
  · rw [add_zero]

theorem swiglu_one_by_one (exp : F → F) (blob x : ℕ → F) :
    swiglu exp blob x 1 1 (fun _ => 0) 0 =
      blob 2 * (silu exp (blob 0 * x 0) * (blob 1 * x 0)) := by
  simp [swiglu_apply, swigluTerm, hiddenUnit, rowDot, advance]

/-- What the documentation promises of a blob: the kernel adds the documented expert, and
from zero it agrees with `expert_mlp`. -/
structure ComputesDocumented (exp : F → F) (blob : ℕ → F) (inter hidden : ℕ) : Prop where
  adds : ∀ (x acc : ℕ → F), ∀ o < hidden, swiglu exp blob x inter hidden acc o =
    acc o + documentedExpert exp blob x inter hidden o
  agrees : ∀ (x : ℕ → F) (b : MlpBuffers F), ∀ o < hidden,
    swiglu exp blob x inter hidden (fun _ => 0) o =
      (expertMlp exp x hidden inter blob (advance blob (2 * (inter * hidden))) b).out o

theorem computesDocumented_iff : ComputesDocumented exp blob inter hidden ↔ ∀ (x : ℕ → F),
    ∀ o < hidden, swigluTerm exp blob x inter hidden o =
      documentedExpert exp blob x inter hidden o := by
  constructor
  · intro h x o ho
    have hadd := h.adds x 0 o ho
    rw [swiglu_apply, if_pos ho] at hadd
    exact add_left_cancel hadd
  · intro h
    constructor
    · intro x acc o ho
      rw [swiglu_apply, if_pos ho, h x o ho]
    · intro x b o ho
      rw [swiglu_apply, if_pos ho, h x o ho, expertMlp_out b ho, zero_add]

/-- A blob whose only active unit is `k`, with gate value `z` and the down block `D`. -/
def probe (D : ℕ → F) (inter hidden k : ℕ) (z : F) : ℕ → F := fun j =>
  if j < inter * hidden then if j = k * hidden then z else 0
  else if j < 2 * (inter * hidden) then if j = inter * hidden + k * hidden then 1 else 0
  else D (j - 2 * (inter * hidden))

theorem probe_down (D : ℕ → F) (inter hidden k : ℕ) (z : F) (j : ℕ) :
    probe D inter hidden k z (2 * (inter * hidden) + j) = D j := by
  simp only [probe]
  rw [if_neg (by omega), if_neg (by omega), Nat.add_sub_cancel_left]

/-- The first basis vector. -/
def e₀ : ℕ → F := fun j => if j = 0 then 1 else 0

theorem rowDot_e₀ (W : ℕ → F) {cols : ℕ} (hc : 0 < cols) (r : ℕ) :
    rowDot W e₀ cols r = W (r * cols) := by
  unfold rowDot e₀
  rw [sum_eq_single 0 (fun c _ hc => by simp [hc]) (fun h => absurd (mem_range.mpr hc) h)]
  simp

theorem hiddenUnit_probe (D : ℕ → F) {i k : ℕ} (hi : i < inter) (hh : 0 < hidden) (z : F) :
    hiddenUnit exp (probe D inter hidden k z) e₀ inter hidden i =
      if i = k then silu exp z else 0 := by
  have hlt : i * hidden < inter * hidden := Nat.mul_lt_mul_of_pos_right hi hh
  have heq : i * hidden = k * hidden ↔ i = k := Nat.mul_left_inj hh.ne'
  rw [hiddenUnit, rowDot_e₀ _ hh, rowDot_e₀ _ hh, advance, probe, probe]
  simp only [hlt, if_true, heq, Nat.add_left_cancel_iff,
    show ¬ inter * hidden + i * hidden < inter * hidden by omega, if_false,
    show inter * hidden + i * hidden < 2 * (inter * hidden) by omega]
  split_ifs
  · rw [mul_one]
  · rw [mul_zero]

/-- The kernel computes the documented expert on the blobs with down block `D` exactly
when `D` reads the same at stride `hidden` and at stride `inter`. -/
theorem swiglu_documented_iff (exp : F → F) (inter hidden : ℕ) (D : ℕ → F) :
    (∀ blob : ℕ → F, (∀ j < hidden * inter, blob (2 * (inter * hidden) + j) = D j) →
      ComputesDocumented exp blob inter hidden) ↔
    (∀ z, silu exp z = 0) ∨
      ∀ i < inter, ∀ o < hidden, D (i * hidden + o) = D (o * inter + i) := by
  constructor
  · intro h
    by_cases hz : ∀ z, silu exp z = 0
    · exact Or.inl hz
    · obtain ⟨z, hz⟩ := not_forall.mp hz
      right
      intro i hi o ho
      have hdoc := computesDocumented_iff.mp
        (h (probe D inter hidden i z) fun j _ => probe_down D inter hidden i z j) e₀ o ho
      have hsum : ∀ d : ℕ → F, (∑ k ∈ range inter,
          d k * hiddenUnit exp (probe D inter hidden i z) e₀ inter hidden k) =
            d i * silu exp z := by
        intro d
        rw [sum_eq_single i]
        · rw [hiddenUnit_probe D hi (by omega), if_pos rfl]
        · intro k hk hne
          rw [hiddenUnit_probe D (mem_range.mp hk) (by omega), if_neg hne, mul_zero]
        · exact fun hne => absurd (mem_range.mpr hi) hne
      simp only [swigluTerm, documentedExpert, hsum, probe_down] at hdoc
      exact mul_right_cancel₀ hz hdoc
  · intro h blob hD
    apply computesDocumented_iff.mpr
    intro x o ho
    apply sum_congr rfl
    intro i hi
    have hi' := mem_range.mp hi
    rcases h with hz | hD'
    · simp only [hiddenUnit, hz, zero_mul, mul_zero]
    · have h1 : i * hidden + o < hidden * inter := by
        rw [Nat.mul_comm hidden inter]
        exact cell_lt hi' ho
      have h2 : o * inter + i < hidden * inter := cell_lt ho hi'
      rw [hD _ h1, hD _ h2, hD' i hi' o ho]

/-- A `2 x 2` expert with one nonzero down weight, in row 0 and column 1. -/
theorem swiglu_misreads_down :
    let blob : ℕ → ℝ := probe (fun j => if j = 1 then 1 else 0) 2 2 0 1
    swiglu Real.exp blob e₀ 2 2 (fun _ => 0) 1 ≠
      0 + documentedExpert Real.exp blob e₀ 2 2 1 := by
  intro blob
  have h0 : hiddenUnit Real.exp blob e₀ 2 2 0 = silu Real.exp 1 :=
    hiddenUnit_probe _ (by omega) (by omega) 1
  have h1 : hiddenUnit Real.exp blob e₀ 2 2 1 = 0 :=
    hiddenUnit_probe _ (by omega) (by omega) 1
  have hsilu : silu Real.exp 1 ≠ 0 := by
    have := Real.exp_pos (-1)
    simp only [silu]
    positivity
  rw [swiglu_apply, if_pos (by omega)]
  simp only [swigluTerm, documentedExpert, sum_range_succ, sum_range_zero, h0, h1]
  simp [blob, probe, hsilu]

end Dee
