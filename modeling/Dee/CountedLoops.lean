import Mathlib

/-! Counted loops `for (i = 0; i < n; ++i)` over an explicit state, and the sums,
array updates and invariants they compute. -/
namespace Dee.CountedLoops
variable {σ M : Type*}

/-- The state after the body has run for `0, .., n - 1` in this order. -/
def forRange : ℕ → (ℕ → σ → σ) → σ → σ
  | 0, _, s => s
  | n + 1, body, s => body n (forRange n body s)

@[simp] theorem forRange_zero (body : ℕ → σ → σ) (s : σ) : forRange 0 body s = s := rfl

theorem forRange_succ (n : ℕ) (body : ℕ → σ → σ) (s : σ) :
    forRange (n + 1) body s = body n (forRange n body s) := rfl

/-- A loop starts with its first round. -/
theorem forRange_succ' (n : ℕ) (body : ℕ → σ → σ) (s : σ) :
    forRange (n + 1) body s = forRange n (fun i => body (i + 1)) (body 0 s) := by
  induction n with
  | zero => rfl
  | succ n ih => rw [forRange_succ, ih, forRange_succ]

/-- The loop rule: an invariant indexed by the loop counter. -/
theorem forRange_invariant {n : ℕ} {body : ℕ → σ → σ} {P : ℕ → σ → Prop} {s : σ} (h0 : P 0 s)
    (hstep : ∀ i s, i < n → P i s → P (i + 1) (body i s)) : P n (forRange n body s) := by
  induction n with
  | zero => exact h0
  | succ n ih => exact hstep n _ (by omega) (ih fun i s hi => hstep i s (by omega))

/-- A measure that no round lowers is not lowered by the loop. -/
theorem le_forRange {body : ℕ → σ → σ} (len : σ → ℕ) (hmono : ∀ i s, len s ≤ len (body i s))
    (n : ℕ) (s : σ) : len s ≤ len (forRange n body s) :=
  forRange_invariant (P := fun _ s' => len s ≤ len s') le_rfl fun i s' _ h => h.trans (hmono i s')

/-- Two loops whose rounds agree, on the states of an invariant, when they end below a bound
agree when they end below it. -/
theorem forRange_congr_of_lt {body body' : ℕ → σ → σ} {P : σ → Prop} (len : σ → ℕ) {bound : ℕ}
    (hmono : ∀ i s, len s ≤ len (body i s))
    (heq : ∀ i s, P s → len (body i s) < bound → body i s = body' i s ∧ P (body i s)) {s : σ}
    (hP : P s) {n : ℕ} (hend : len (forRange n body s) < bound) :
    forRange n body s = forRange n body' s ∧ P (forRange n body s) := by
  induction n with
  | zero => exact ⟨rfl, hP⟩
  | succ n ih =>
    rw [forRange_succ] at hend
    obtain ⟨hsame, hkeep⟩ := ih ((hmono n _).trans_lt hend)
    obtain ⟨hround, hnext⟩ := heq n _ hkeep hend
    rw [forRange_succ, forRange_succ, ← hsame]
    exact ⟨hround, hnext⟩

/-- An accumulating loop adds up its terms. -/
theorem forRange_add [AddCommMonoid M] (n : ℕ) (f : ℕ → M) (s : M) :
    forRange n (fun i s => s + f i) s = s + ∑ i ∈ Finset.range n, f i := by
  induction n with
  | zero => simp
  | succ n ih => rw [forRange_succ, ih, Finset.sum_range_succ, add_assoc]

theorem forRange_add_pair [AddCommMonoid M] (n : ℕ) (f g : ℕ → M) (s t : M) :
    forRange n (fun i s => (s.1 + f i, s.2 + g i)) (s, t) =
      (s + ∑ i ∈ Finset.range n, f i, t + ∑ i ∈ Finset.range n, g i) := by
  induction n with
  | zero => simp
  | succ n ih =>
    rw [forRange_succ, ih, Finset.sum_range_succ, Finset.sum_range_succ, add_assoc, add_assoc]

/-- A loop that rewrites one array element a round. -/
theorem forRange_update (n : ℕ) (g : ℕ → M → M) (v : ℕ → M) :
    forRange n (fun i v => Function.update v i (g i (v i))) v =
      fun i => if i < n then g i (v i) else v i := by
  induction n with
  | zero => simp
  | succ n ih =>
    rw [forRange_succ, ih]
    funext i
    rcases lt_trichotomy i n with h | rfl | h
    · rw [Function.update_of_ne h.ne, if_pos h, if_pos (by omega)]
    · simp
    · rw [Function.update_of_ne h.ne', if_neg (by omega), if_neg (by omega)]

/-- A loop that fills an array. -/
theorem forRange_fill (n : ℕ) (f : ℕ → M) (v : ℕ → M) :
    forRange n (fun i v => Function.update v i (f i)) v = fun i => if i < n then f i else v i :=
  forRange_update n (fun i _ => f i) v

/-- A list read in range up to `n` is its prefix. -/
theorem mapM_range_getElem? {β : Type} {l : List β} {n : ℕ} (h : n ≤ l.length) :
    ((List.range n).mapM fun t => l[t]?) = some (l.take n) := by
  induction n with
  | zero => rfl
  | succ n ih =>
    have hn : l[n]? = some l[n] := List.getElem?_eq_getElem (by omega)
    rw [List.range_succ, List.mapM_append, ih (by omega), List.take_add_one]
    simp [hn]

/-- A loop over a list in which no pass fails. -/
theorem mapM_of_forall {m : Type → Type} [Monad m] [LawfulMonad m] {α β : Type} {f : α → m β}
    {g : α → β} {l : List α} (h : ∀ a ∈ l, f a = pure (g a)) : l.mapM f = pure (l.map g) := by
  induction l with
  | nil => exact List.mapM_nil
  | cons a l ih =>
    obtain ⟨ha, hl⟩ := List.forall_mem_cons.mp h
    rw [List.mapM_cons, ha, ih hl, pure_bind, pure_bind, List.map_cons]

end Dee.CountedLoops
