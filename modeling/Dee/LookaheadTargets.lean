import Mathlib

/-! The look-ahead targets that the MiniMax collector stores for the training of its Oracle:
one row of bits for each token, filled by nested loops over offsets and ranks. -/
namespace Dee

/-- A loop whose passes write `v` where they hit and else keep what is there. -/
theorem foldl_write {τ β γ : Type} {g : τ → γ} {f : τ → β → τ} {v : γ} {hit : β → Prop}
    [DecidablePred hit] (h : ∀ t b, g (f t b) = if hit b then v else g t) (l : List β) (t : τ) :
    g (l.foldl f t) = if ∃ b ∈ l, hit b then v else g t := by
  induction l generalizing t with
  | nil => simp
  | cons b l ih =>
    rw [List.foldl_cons, ih, h]
    by_cases hb : hit b
    · simp [hb]
    · simp [hb]

/-- The stop of a slice, where a negative one counts from the end. -/
def sliceStop (len : ℕ) (stop : ℤ) : ℕ :=
  if stop < 0 then (len + stop).toNat else min stop.toNat len

theorem sliceStop_sub {len off : ℕ} (h : off ≤ len) : sliceStop len (len - off) = len - off := by
  rw [sliceStop, if_neg (by omega)]
  omega

variable {topK numExperts : ℕ}

/-- The bits of a sequence: a row for each token. -/
def Targets (S numExperts : ℕ) : Type := Fin S → Fin numExperts → UInt8

/-- `tgt[:stop, idx] = 1` -/
def Targets.assignOnes {S : ℕ} (tgt : Targets S numExperts) (stop : ℤ)
    (idx : List (Fin numExperts)) : Targets S numExperts :=
  fun n e => if n < sliceStop S stop ∧ e ∈ idx then 1 else tgt n e

/-- The pass of the target loop for one offset. -/
def targetPass (ridx : List (Fin topK → Fin numExperts)) (tgt : Targets ridx.length numExperts)
    (off : ℕ) : Targets ridx.length numExperts :=
  let sl := ridx.drop off
  (List.finRange topK).foldl
    (fun tgt k => tgt.assignOnes (ridx.length - off) (sl.map fun row => row k)) tgt

/-- The targets of a sequence with router table `ridx`. -/
def lookaheadTargets (ridx : List (Fin topK → Fin numExperts)) (lookahead : ℕ) :
    Targets ridx.length numExperts :=
  (List.range' 1 lookahead).foldl (targetPass ridx) fun _ _ => 0

/-- Token `j` exists and activates expert `e`. -/
def Activates (ridx : List (Fin topK → Fin numExperts)) (j : ℕ) (e : Fin numExperts) : Prop :=
  ∃ h : j < ridx.length, ∃ k, ridx[j] k = e

instance (ridx : List (Fin topK → Fin numExperts)) (j : ℕ) (e : Fin numExperts) :
    Decidable (Activates ridx j e) :=
  inferInstanceAs (Decidable (∃ h : j < ridx.length, ∃ k, ridx[j] k = e))

theorem exists_mem_column {ridx : List (Fin topK → Fin numExperts)} {off : ℕ}
    {e : Fin numExperts} :
    (∃ k, e ∈ (ridx.drop off).map fun row => row k) ↔ ∃ j, off ≤ j ∧ Activates ridx j e := by
  constructor
  · rintro ⟨k, he⟩
    obtain ⟨row, hrow, rfl⟩ := List.mem_map.mp he
    obtain ⟨i, hi, rfl⟩ := List.mem_iff_getElem.mp hrow
    rw [List.length_drop] at hi
    exact ⟨off + i, by omega, by omega, k, by rw [List.getElem_drop]⟩
  · rintro ⟨j, hoff, hj, k, rfl⟩
    obtain ⟨i, rfl⟩ := Nat.exists_eq_add_of_le hoff
    refine ⟨k, List.mem_map.mpr ⟨ridx[off + i], ?_, rfl⟩⟩
    rw [← List.getElem_drop (i := off) (j := i) (h := by rw [List.length_drop]; omega)]
    exact List.getElem_mem _

/-- One pass sets, in each of its rows, the experts of every token from `off` on: the rows
and the columns of the assignment are not paired. -/
theorem targetPass_apply (ridx : List (Fin topK → Fin numExperts))
    (tgt : Targets ridx.length numExperts) (off : ℕ) (n : Fin ridx.length) (e : Fin numExperts) :
    targetPass ridx tgt off n e =
      if n < sliceStop ridx.length (ridx.length - off) ∧
        ∃ k, e ∈ (ridx.drop off).map fun row => row k then 1 else tgt n e := by
  rw [targetPass, foldl_write (g := fun t : Targets ridx.length numExperts => t n e)
    (fun t k => rfl)]
  simp only [List.mem_finRange, true_and, exists_and_left]

/-- A cell is set as soon as any later token of the whole sequence, however far, or even an
earlier one but the first, activates the expert. -/
theorem lookaheadTargets_apply {ridx : List (Fin topK → Fin numExperts)} {lookahead : ℕ}
    (hla : 1 ≤ lookahead) (n : Fin ridx.length) (e : Fin numExperts) :
    ((n + 1 < ridx.length ∧ ∃ j, 1 ≤ j ∧ Activates ridx j e) →
      lookaheadTargets ridx lookahead n e = 1) ∧
    (¬ (n + 1 < ridx.length ∧ ∃ j, 1 ≤ j ∧ Activates ridx j e) →
      lookaheadTargets ridx lookahead n e = 0) := by
  have hcell := foldl_write (g := fun t : Targets ridx.length numExperts => t n e)
    (fun t off => targetPass_apply ridx t off n e) (List.range' 1 lookahead) fun _ _ => 0
  have hiff : (∃ off ∈ List.range' 1 lookahead,
      n < sliceStop ridx.length (ridx.length - off) ∧
        ∃ k, e ∈ (ridx.drop off).map fun row => row k) ↔
      n + 1 < ridx.length ∧ ∃ j, 1 ≤ j ∧ Activates ridx j e := by
    constructor
    · rintro ⟨off, hoff, hn, hk⟩
      obtain ⟨j, hle, hj⟩ := exists_mem_column.mp hk
      have hlt := hj.1
      rw [List.mem_range'_1] at hoff
      rw [sliceStop_sub (by omega)] at hn
      exact ⟨by omega, j, by omega, hj⟩
    · rintro ⟨hn, j, h1, hj⟩
      refine ⟨1, List.mem_range'_1.mpr ⟨le_rfl, by omega⟩, ?_, exists_mem_column.mpr ⟨j, h1, hj⟩⟩
      rw [sliceStop_sub (by omega)]
      omega
  rw [← hiff]
  exact ⟨fun h => hcell.trans (if_pos h), fun h => hcell.trans (if_neg h)⟩

/-- Each row is the union of the experts of the next `lookahead` tokens. -/
def UnionAhead (ridx : List (Fin topK → Fin numExperts)) (lookahead : ℕ)
    (tgt : Targets ridx.length numExperts) : Prop :=
  ∀ n e, (tgt n e = 1 ↔ ∃ off, 1 ≤ off ∧ off ≤ lookahead ∧ Activates ridx (n + off) e) ∧
    (tgt n e ≠ 1 → tgt n e = 0)

/-- Every expert of a token after the first recurs within each `lookahead` tokens that follow
a token, and the last token activates it. -/
def Recurs (ridx : List (Fin topK → Fin numExperts)) (lookahead : ℕ) : Prop :=
  ∀ j e, 1 ≤ j → Activates ridx j e → Activates ridx (ridx.length - 1) e ∧
    ∀ n, n + lookahead < ridx.length →
      ∃ off, 1 ≤ off ∧ off ≤ lookahead ∧ Activates ridx (n + off) e

/-- The targets are the unions they should be exactly if all experts recur. -/
theorem lookaheadTargets_union_iff (ridx : List (Fin topK → Fin numExperts)) {lookahead : ℕ}
    (hla : 1 ≤ lookahead) :
    UnionAhead ridx lookahead (lookaheadTargets ridx lookahead) ↔ Recurs ridx lookahead := by
  constructor
  · intro h j e h1 hj
    have hlt := hj.1
    have hset : ∀ n, n + 1 < ridx.length →
        ∃ off, 1 ≤ off ∧ off ≤ lookahead ∧ Activates ridx (n + off) e := by
      intro n hn
      have hone := (lookaheadTargets_apply hla ⟨n, by omega⟩ e).1 ⟨hn, j, h1, hj⟩
      exact (h ⟨n, by omega⟩ e).1.mp hone
    refine ⟨?_, fun n hn => hset n (by omega)⟩
    -- only the last token follows the one before it
    obtain ⟨off, hpos, _, hoff⟩ := hset (ridx.length - 2) (by omega)
    have hin := hoff.1
    rwa [show ridx.length - 2 + off = ridx.length - 1 by omega] at hoff
  · intro h n e
    have hcell := lookaheadTargets_apply hla n e
    by_cases hset : n + 1 < ridx.length ∧ ∃ j, 1 ≤ j ∧ Activates ridx j e
    · obtain ⟨hn, j, h1, hj⟩ := hset
      have hone := hcell.1 ⟨hn, j, h1, hj⟩
      refine ⟨iff_of_true hone ?_, fun hne => absurd hone hne⟩
      obtain ⟨hlast, hwin⟩ := h j e h1 hj
      rcases Nat.lt_or_ge (n + lookahead) ridx.length with hlt | hge
      · exact hwin n hlt
      · refine ⟨ridx.length - 1 - n, by omega, by omega, ?_⟩
        rwa [show (n : ℕ) + (ridx.length - 1 - n) = ridx.length - 1 by omega]
    · have hzero := hcell.2 hset
      refine ⟨iff_of_false ?_ ?_, fun _ => hzero⟩
      · rw [hzero]
        decide
      · rintro ⟨off, hpos, _, hoff⟩
        have hin := hoff.1
        exact hset ⟨by omega, n + off, by omega, hoff⟩

/-- Three tokens, of which the last two have the same experts. -/
theorem lookaheadTargets_union_iff_three :
    UnionAhead [![(0 : Fin 4), 1], ![2, 3], ![3, 2]] 1
        (lookaheadTargets [![(0 : Fin 4), 1], ![2, 3], ![3, 2]] 1) ↔
      Recurs [![(0 : Fin 4), 1], ![2, 3], ![3, 2]] 1 :=
  lookaheadTargets_union_iff _ le_rfl

/-- With a lookahead of one, the row of token 0 also has the experts of token 2. -/
theorem lookaheadTargets_past_window :
    ¬ ∀ (topK numExperts : ℕ) (ridx : List (Fin topK → Fin numExperts)) (lookahead : ℕ),
      1 ≤ lookahead → UnionAhead ridx lookahead (lookaheadTargets ridx lookahead) := by
  intro h
  have h₂ := (h 2 6 [![0, 1], ![2, 3], ![4, 5]] 1 le_rfl 0 4).1.mp (by decide)
  obtain ⟨off, hpos, hle, hoff⟩ := h₂
  obtain rfl : off = 1 := by omega
  revert hoff
  decide

end Dee
