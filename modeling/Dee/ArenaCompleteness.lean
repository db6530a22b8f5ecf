import Dee.Arena
import Dee.GuardedRuns

/-! When the arena refuses a request although there is room. Free space is kept in two
places, the holes and the space above the high-water mark, and a run of free bytes that
spans the mark is in neither. -/
namespace Dee.Arena
open GuardedRuns

/-- An arena together with the blocks that its caller holds. -/
structure Held where
  arena : Arena
  live : List Span

inductive Op
  | alloc (bytes : ℕ)
  | free (s : Span)

namespace Held

def step (h : Held) : Op → Held
  | .alloc n =>
    let r := h.arena.alloc n
    if r.1 = npos then ⟨r.2, h.live⟩ else ⟨r.2, ⟨r.1, n⟩ :: h.live⟩
  | .free s => ⟨h.arena.free s.off s.size, h.live.erase s⟩

/-- Blocks are given back by their holder, with their own sizes. -/
def Owned (h : Held) : Op → Prop
  | .alloc _ => True
  | .free s => s ∈ h.live

/-- A request that comes to the bump pointer does not wrap the high-water mark. -/
def NoWrap (h : Held) : Op → Prop
  | .alloc n => (∀ s ∈ h.arena.holes, s.size < n) → h.arena.high + n < 2 ^ 64
  | .free _ => True

end Held

/-- The step lemma: the arena holds exactly the blocks of the caller. -/
theorem Tiled.step {h : Held} (ht : h.arena.Tiled h.live) {op : Op} (ho : h.Owned op)
    (hw : h.NoWrap op) : (h.step op).arena.Tiled (h.step op).live := by
  cases op with
  | alloc n =>
    simp only [Held.step]
    rcases Nat.eq_zero_or_pos n with rfl | hn
    · simpa [Arena.alloc] using ht
    · rcases ht.alloc_cases hn hw with ⟨-, -, hne, ht'⟩ | ⟨-, hsame⟩
      · rw [if_neg hne]
        exact ht'
      · rw [hsame, if_pos rfl]
        exact ht
  | free s => exact (ht.perm (List.perm_cons_erase ho)).free

theorem init_eq_true {cap : ℕ} {be : Backend} {a : Arena} (h : fresh.init cap be = (true, a)) :
    ∃ base, a = ⟨base, cap, 0, 0, []⟩ := by
  simp only [init, fresh, ne_eq, not_true_eq_false, if_false] at h
  cases hb : be.alloc with
  | none => simp [hb] at h
  | some f =>
    simp only [hb, Prod.mk.injEq] at h
    exact ⟨f cap, h.2.symm⟩

/-- The interval `[0, capacity)` has a run of `bytes` positions outside the given blocks. -/
def HasFreeRun (a : Arena) (live : List Span) (bytes : ℕ) : Prop :=
  ∃ o, o + bytes ≤ a.cap ∧ ∀ p, o ≤ p → p < o + bytes → ¬ Span.Covers live p

/-- A request that fits neither a hole nor the space above the high-water mark, but fits
the last hole and that space together. -/
structure Straddled (a : Arena) (bytes : ℕ) : Prop where
  holes_lt : ∀ s ∈ a.holes, s.size < bytes
  bump_gt : a.cap < a.high + bytes
  no_wrap : a.high + bytes < 2 ^ 64
  joined : ∃ s ∈ a.holes, s.stop = a.high ∧ bytes ≤ s.size + (a.cap - a.high)

/-- Exactly when a request is refused: no hole fits it, and the bump sum, if it does not
wrap, exceeds the capacity. A wrapped sum is always accepted, at the high-water mark. -/
theorem Tiled.alloc_eq_npos_iff {a : Arena} {live : List Span} (h : a.Tiled live) {bytes : ℕ}
    (hb : 0 < bytes) (hlt : bytes < 2 ^ 64) :
    (a.alloc bytes).1 = npos ↔ (∀ s ∈ a.holes, s.size < bytes) ∧
      (a.cap < a.high + bytes ∧ a.high + bytes < 2 ^ 64 ∨ a.high = npos) := by
  have hhigh := h.high_le
  have hcap := h.cap_lt
  rcases h.alloc_spec hb with ⟨⟨s, hs, hle⟩, hstop, -⟩ | ⟨hholes, ha⟩
  · refine iff_of_false (by simp only [npos]; omega) fun hno => ?_
    have := hno.1 s hs
    omega
  · have hoff : (a.alloc bytes).1 = if szAdd a.high bytes ≤ a.cap then a.high else npos := by
      rw [ha]
      split_ifs <;> rfl
    rw [hoff, and_iff_right hholes]
    rcases szAdd_cases (hhigh.trans_lt hcap) hlt with ⟨hno, he⟩ | ⟨hwrap, he⟩
    · split_ifs with hle
      · simp only [npos] at *
        omega
      · refine iff_of_true rfl (Or.inl ⟨by omega, hno⟩)
    · rw [if_pos (by omega)]
      simp only [npos] at *
      omega

/-- From a consistent arena: a refusal means that there is no room, except for a request
that straddles the high-water mark. -/
theorem Tiled.complete_iff {a : Arena} {live : List Span} (h : a.Tiled live) {bytes : ℕ}
    (hb : 0 < bytes) (hlt : bytes < 2 ^ 64) :
    ((a.alloc bytes).1 = npos → ¬ a.HasFreeRun live bytes) ↔ ¬ a.Straddled bytes := by
  have hrun := h.tiling.exists_run_within_iff hb h.high_le
  have hhigh := h.high_le
  have hcap := h.cap_lt
  rw [h.alloc_eq_npos_iff hb hlt, HasFreeRun, hrun, ← not_and, not_iff_not]
  constructor
  · rintro ⟨⟨hholes, hbump⟩, ⟨s, hs, hle⟩ | hle | ⟨s, hs, hstop, hle⟩⟩
    · have := hholes s hs
      omega
    · simp only [npos] at hbump
      omega
    · have hlt := hholes s hs
      simp only [npos] at hbump
      exact ⟨hholes, by omega, by omega, s, hs, hstop, hle⟩
  · rintro ⟨hholes, hgt, hno, hjoin⟩
    exact ⟨⟨hholes, Or.inl ⟨hgt, hno⟩⟩, Or.inr (Or.inr hjoin)⟩

/-- In every run from `init` whose high-water sums do not wrap: a request is refused only if
the capacity has no free run for it, exactly unless it straddles the high-water mark. -/
theorem run_alloc_complete_iff (be : Backend) (cap : ℕ) {a₀ : Arena} (hcap : cap < 2 ^ 64)
    (hinit : fresh.init cap be = (true, a₀)) (ops : List Op)
    (hown : Guarded Held.step Held.Owned ⟨a₀, []⟩ ops)
    (hw : Guarded Held.step Held.NoWrap ⟨a₀, []⟩ ops) {bytes : ℕ} (hb : 0 < bytes)
    (hlt : bytes < 2 ^ 64) :
    let h := run Held.step ⟨a₀, []⟩ ops
    ((h.arena.alloc bytes).1 = npos → ¬ h.arena.HasFreeRun h.live bytes) ↔
      ¬ h.arena.Straddled bytes := by
  obtain ⟨base, rfl⟩ := init_eq_true hinit
  have htiled := invariant_run (P := fun h : Held => h.arena.Tiled h.live)
    (fun _ _ ht hop => ht.step hop.1 hop.2) (tiled_init base cap hcap) (hown.and hw)
  exact htiled.complete_iff hb hlt

/-- After six of ten bytes were allocated and given back, six bytes fit the hole. -/
theorem run_alloc_complete_iff_six :
    let h := run Held.step ⟨⟨100, 10, 0, 0, []⟩, []⟩ [.alloc 6, .free ⟨0, 6⟩]
    ((h.arena.alloc 6).1 = npos → ¬ h.arena.HasFreeRun h.live 6) ↔ ¬ h.arena.Straddled 6 := by
  have hinit : fresh.init 10 (.host 100) = (true, ⟨100, 10, 0, 0, []⟩) := rfl
  exact run_alloc_complete_iff (.host 100) 10 (by decide) hinit [.alloc 6, .free ⟨0, 6⟩]
    (by simp only [Guarded, Held.Owned]; decide) (by simp only [Guarded, Held.NoWrap]; decide)
    (by decide) (by decide)

/-- In the same state all ten bytes are free, but eight are refused: there is a hole of six
and there are four bytes above the mark. -/
theorem alloc_refuses_straddling_request :
    ¬ ∀ (be : Backend) (cap : ℕ) (a₀ : Arena), fresh.init cap be = (true, a₀) →
      ∀ ops : List Op, Guarded Held.step Held.Owned ⟨a₀, []⟩ ops → ∀ bytes, 0 < bytes →
        ((run Held.step ⟨a₀, []⟩ ops).arena.alloc bytes).1 = npos →
          ¬ (run Held.step ⟨a₀, []⟩ ops).arena.HasFreeRun (run Held.step ⟨a₀, []⟩ ops).live bytes := by
  intro h
  have hinit : fresh.init 10 (.host 100) = (true, ⟨100, 10, 0, 0, []⟩) := rfl
  have hlive : (run Held.step ⟨⟨100, 10, 0, 0, []⟩, []⟩ [.alloc 6, .free ⟨0, 6⟩]).live = [] := by
    decide
  refine h (.host 100) 10 _ hinit [.alloc 6, .free ⟨0, 6⟩]
    (by simp only [Guarded, Held.Owned]; decide) 8 (by decide) (by decide) ?_
  refine ⟨0, by decide, fun p _ _ => ?_⟩
  rw [hlive]
  rintro ⟨s, hs, -⟩
  simp at hs

end Dee.Arena
