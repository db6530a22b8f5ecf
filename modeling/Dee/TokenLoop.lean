import Dee.CountedLoops

/-! The autoregressive loop of `Engine::generate` over its double buffer. The layer
pass and the rest of the engine state are parameters; the buffers that a token reads
and writes are picked once, before its layers run. -/
namespace Dee
open CountedLoops
variable {H σ : Type*}

structure LoopState (H σ : Type*) where
  engine : σ
  hiddenBuf : Fin 2 → H
  cur : Fin 2
  nxt : Fin 2

namespace LoopState

/-- The vector that the next token starts from. -/
def current (s : LoopState H σ) : H := s.hiddenBuf s.cur

/-- `forward_layer(L, h_in, h_out)` with `h_in`, `h_out` the buffers of the token. -/
def layerStep (forward : ℕ → H → σ → H × σ) (L : ℕ) (s : LoopState H σ) : LoopState H σ :=
  let r := forward L (s.hiddenBuf s.cur) s.engine
  { s with engine := r.2, hiddenBuf := Function.update s.hiddenBuf s.nxt r.1 }

/-- All layers of a token, the swap of the buffers, and the peak-VRAM update. -/
def tokenStep (forward : ℕ → H → σ → H × σ) (trackPeak : σ → σ) (numLayers : ℕ)
    (s : LoopState H σ) : LoopState H σ :=
  let s₁ := forRange numLayers (layerStep forward) s
  { s₁ with engine := trackPeak s₁.engine, cur := s₁.nxt, nxt := s₁.cur }

def tokenLoop (forward : ℕ → H → σ → H × σ) (trackPeak : σ → σ) (numLayers numTokens : ℕ)
    (s : LoopState H σ) : LoopState H σ :=
  forRange numTokens (fun _ => tokenStep forward trackPeak numLayers) s

/-- The documented layer chain `f_{n-1} ∘ ... ∘ f_0`. -/
def chain (f : ℕ → H → H) (n : ℕ) (h : H) : H := forRange n f h

variable {forward : ℕ → H → σ → H × σ} {f : ℕ → H → H} {trackPeak : σ → σ} {s : LoopState H σ}

/-- The layers of a token all read the same vector; only the last output remains. -/
theorem layers_spec (hf : ∀ L h e, (forward L h e).1 = f L h) (hne : s.cur ≠ s.nxt) (n : ℕ) :
    (forRange n (layerStep forward) s).cur = s.cur ∧
      (forRange n (layerStep forward) s).nxt = s.nxt ∧
      (forRange n (layerStep forward) s).hiddenBuf s.cur = s.current ∧
      (0 < n → (forRange n (layerStep forward) s).hiddenBuf s.nxt = f (n - 1) s.current) := by
  induction n with
  | zero => exact ⟨rfl, rfl, rfl, fun h => absurd h (lt_irrefl 0)⟩
  | succ n ih =>
    obtain ⟨hcur, hnxt, hin, -⟩ := ih
    rw [forRange_succ]
    generalize forRange n (layerStep forward) s = s₁ at hcur hnxt hin ⊢
    refine ⟨hcur, hnxt, ?_, fun _ => ?_⟩
    · simp only [layerStep]
      rw [Function.update_of_ne (by rw [hnxt]; exact hne), hin]
    · simp only [layerStep, hf]
      rw [← hnxt, Function.update_self, hcur, hin, Nat.add_sub_cancel]

/-- One token applies the last layer to the previous token's vector. -/
theorem tokenStep_spec (hf : ∀ L h e, (forward L h e).1 = f L h) (hne : s.cur ≠ s.nxt) {n : ℕ}
    (hn : 0 < n) :
    (tokenStep forward trackPeak n s).cur ≠ (tokenStep forward trackPeak n s).nxt ∧
      (tokenStep forward trackPeak n s).current = f (n - 1) s.current := by
  obtain ⟨hcur, hnxt, -, hout⟩ := layers_spec hf hne n
  simp only [tokenStep, current, hcur, hnxt]
  exact ⟨hne.symm, hout hn⟩

/-- The run lemma: `T` tokens apply the last layer `T` times. -/
theorem tokenLoop_spec (hf : ∀ L h e, (forward L h e).1 = f L h) (hne : s.cur ≠ s.nxt) {n : ℕ}
    (hn : 0 < n) (T : ℕ) :
    (tokenLoop forward trackPeak n T s).cur ≠ (tokenLoop forward trackPeak n T s).nxt ∧
      (tokenLoop forward trackPeak n T s).current = (f (n - 1))^[T] s.current := by
  unfold tokenLoop
  induction T with
  | zero => exact ⟨hne, rfl⟩
  | succ T ih =>
    obtain ⟨hne', hcur⟩ := ih
    rw [forRange_succ, Function.iterate_succ_apply', ← hcur]
    exact tokenStep_spec hf hne' hn

theorem chain_const {a : H} {n : ℕ} (hn : 0 < n) (h : H) :
    chain (fun L h => if L = 0 then a else h) n h = a := by
  obtain ⟨m, rfl⟩ := Nat.exists_eq_succ_of_ne_zero hn.ne'
  rw [chain, forRange_succ']
  apply forRange_invariant (P := fun _ v => v = a)
  · rfl
  · intro i v _ hv
    simp only [Nat.add_eq_zero_iff, one_ne_zero, and_false, if_false, hv]

/-- Whatever the layers compute, the loop leaves the last layer applied once per token,
which is the documented chain of all layers only in a one-layer model. -/
theorem tokenLoop_chains_iff [Nontrivial H] (trackPeak : σ → σ) (e : σ) {n T : ℕ} (hn : 1 ≤ n)
    (hT : 1 ≤ T) :
    (∀ (f : ℕ → H → H) (forward : ℕ → H → σ → H × σ) (s : LoopState H σ),
      (∀ L h e, (forward L h e).1 = f L h) → s.cur ≠ s.nxt →
        (tokenLoop forward trackPeak n T s).current = (f (n - 1))^[T] s.current) ∧
    ((∀ (f : ℕ → H → H) (forward : ℕ → H → σ → H × σ) (s : LoopState H σ),
      (∀ L h e, (forward L h e).1 = f L h) → s.cur ≠ s.nxt →
        (tokenLoop forward trackPeak n T s).current = (chain f n)^[T] s.current) ↔ n = 1) := by
  refine ⟨fun f forward s hf hne => (tokenLoop_spec hf hne hn T).2, ?_, ?_⟩
  · intro h
    by_contra hn1
    obtain ⟨a, b, hab⟩ := exists_pair_ne H
    -- layer 0 forgets its input and every later layer copies it
    let f : ℕ → H → H := fun L h => if L = 0 then a else h
    let s : LoopState H σ := ⟨e, fun _ => b, 0, 1⟩
    have hs : s.cur ≠ s.nxt := by simp [s]
    have hdoc := h f (fun L h e => (f L h, e)) s (fun _ _ _ => rfl) hs
    have hforward : ∀ (L : ℕ) (h : H) (e : σ), (f L h, e).1 = f L h := fun _ _ _ => rfl
    have hloop : (tokenLoop (fun L h e => (f L h, e)) trackPeak n T s).current =
        (f (n - 1))^[T] s.current := (tokenLoop_spec hforward hs hn T).2
    have hlast : f (n - 1) = id := by
      funext h
      simp only [f, show n - 1 ≠ 0 by omega, if_false, id]
    rw [hloop, hlast, Function.iterate_id] at hdoc
    obtain ⟨t, rfl⟩ := Nat.exists_eq_succ_of_ne_zero (show T ≠ 0 by omega)
    rw [Function.iterate_succ_apply', chain_const hn] at hdoc
    exact hab hdoc.symm
  · rintro rfl f forward s hf hne
    exact (tokenLoop_spec hf hne hn T).2

/-- One token through two layers that add and double. -/
theorem tokenLoop_chains_iff_two :
    (tokenLoop (fun L h (_ : Unit) => (if L = 0 then h + 1 else 2 * h, ())) id 2 1
        ⟨(), fun _ => (1 : ℤ), 0, 1⟩).current = 2 ∧
      ¬ ∀ (f : ℕ → ℤ → ℤ) (forward : ℕ → ℤ → Unit → ℤ × Unit) (s : LoopState ℤ Unit),
        (∀ L h e, (forward L h e).1 = f L h) → s.cur ≠ s.nxt →
          (tokenLoop forward id 2 1 s).current = (chain f 2)^[1] s.current := by
  obtain ⟨hlast, hiff⟩ := tokenLoop_chains_iff (H := ℤ) id () (n := 2) (T := 1) (by decide)
    (by decide)
  exact ⟨hlast (fun L h => if L = 0 then h + 1 else 2 * h) _ _ (fun _ _ _ => rfl) (by decide),
    fun h => by simpa using hiff.mp h⟩

/-- There the documented value would be 4. -/
theorem tokenLoop_drops_layer :
    (tokenLoop (fun L h (_ : Unit) => (if L = 0 then h + 1 else 2 * h, ())) id 2 1
        ⟨(), fun _ => (1 : ℤ), 0, 1⟩).current ≠
      (chain (fun L h => if L = 0 then h + 1 else 2 * h) 2)^[1] (1 : ℤ) := by
  decide

end LoopState
end Dee
