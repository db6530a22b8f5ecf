import Mathlib

/-! Loops that run until their body leaves them. The body can throw; the number of turns is
bounded by a fuel, and a loop that runs out of it throws an error of its own. A measure that
every further turn lowers bounds the turns. -/
namespace Dee.WhileLoops
variable {ε σ ρ : Type*}

/-- What a turn of a loop comes to. -/
inductive Turn (σ ρ : Type*)
  | again (s : σ)
  | exit (r : ρ)

/-- `while (true)`, with `out` for a loop that has not been left after `n` turns. -/
def loop (out : ε) (body : σ → Except ε (Turn σ ρ)) : ℕ → σ → Except ε ρ
  | 0, _ => .error out
  | n + 1, s =>
    match body s with
    | .error e => .error e
    | .ok (.again s') => loop out body n s'
    | .ok (.exit r) => .ok r

section Rules
variable {out : ε} {body : σ → Except ε (Turn σ ρ)}

theorem loop_error {s : σ} {e : ε} (h : body s = .error e) (n : ℕ) :
    loop out body (n + 1) s = .error e := by
  rw [loop, h]

theorem loop_again {s s' : σ} (h : body s = .ok (.again s')) (n : ℕ) :
    loop out body (n + 1) s = loop out body n s' := by
  rw [loop, h]

theorem loop_exit {s : σ} {r : ρ} (h : body s = .ok (.exit r)) (n : ℕ) :
    loop out body (n + 1) s = .ok r := by
  rw [loop, h]

/-- The rule of the invariant: it holds at every turn, and what it gives at the exit holds of
the result. -/
theorem loop_invariant {P : σ → Prop} {Q : ρ → Prop}
    (hagain : ∀ s s', P s → body s = .ok (.again s') → P s')
    (hexit : ∀ s r, P s → body s = .ok (.exit r) → Q r) {n : ℕ} {s : σ} (h0 : P s) {r : ρ}
    (h : loop out body n s = .ok r) : Q r := by
  induction n generalizing s with
  | zero => cases h
  | succ n ih =>
    cases hb : body s with
    | error e =>
      rw [loop_error hb] at h
      cases h
    | ok t =>
      cases t with
      | again s' =>
        rw [loop_again hb] at h
        exact ih (hagain s s' h0 hb) h
      | exit r' =>
        rw [loop_exit hb] at h
        cases h
        exact hexit s r h0 hb

/-- The rule of the variant: a loop is left after at most `m s + 1` turns. -/
theorem loop_ne_out {P : σ → Prop} {m : σ → ℕ}
    (hagain : ∀ s s', P s → body s = .ok (.again s') → P s' ∧ m s' < m s)
    (hbody : ∀ s, P s → body s ≠ .error out) {n : ℕ} {s : σ} (h0 : P s) (hn : m s < n) :
    loop out body n s ≠ .error out := by
  induction n generalizing s with
  | zero => omega
  | succ n ih =>
    cases hb : body s with
    | error e =>
      rw [loop_error hb]
      intro he
      cases he
      exact hbody s h0 hb
    | ok t =>
      cases t with
      | again s' =>
        obtain ⟨hP, hm⟩ := hagain s s' h0 hb
        rw [loop_again hb]
        exact ih hP (by omega)
      | exit r =>
        rw [loop_exit hb]
        simp

/-- A loop whose body does not throw throws only for its bound. -/
theorem eq_out_of_loop {e : ε} (hbody : ∀ s e, body s ≠ .error e) {n : ℕ} {s : σ}
    (h : loop out body n s = .error e) : e = out := by
  induction n generalizing s with
  | zero => exact (Except.error.inj h).symm
  | succ n ih =>
    cases hb : body s with
    | error e' => exact absurd hb (hbody s e')
    | ok t =>
      cases t with
      | again s' =>
        rw [loop_again hb] at h
        exact ih h
      | exit r =>
        rw [loop_exit hb] at h
        cases h

end Rules

end Dee.WhileLoops
