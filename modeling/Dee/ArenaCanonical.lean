import Dee.BumpLimits

/-! The free list as a canonical form: a tiling has only one list of holes. So after every
run the holes are determined by the live blocks, and blocks may be freed in any order. -/
namespace Dee
open GuardedRuns

namespace Span
variable {l l' live live' holes holes' : List Span} {n : ℕ}

/-- The first span starts at the first position that is covered. -/
theorem Sorted.off_le {s : Span} (h : Sorted (s :: l)) (hne : Nonempty (s :: l)) {p : ℕ}
    (hp : Covers (s :: l) p) : s.off ≤ p := by
  obtain ⟨hs, -⟩ := List.pairwise_cons.mp h
  obtain ⟨t, ht, htp, -⟩ := hp
  rcases List.mem_cons.mp ht with rfl | ht
  · exact htp
  · have := hs t ht
    simp only [stop] at this
    omega

theorem has_off {s : Span} (h : 0 < s.size) : s.Has s.off := ⟨le_rfl, by simp only [stop]; omega⟩

/-- Right behind the first span nothing is covered. -/
theorem Gapped.not_covers_stop {s : Span} (h : Gapped (s :: l)) : ¬ Covers (s :: l) s.stop := by
  obtain ⟨hs, -⟩ := List.pairwise_cons.mp h
  rintro ⟨t, ht, htp, hpt⟩
  rcases List.mem_cons.mp ht with rfl | ht
  · exact lt_irrefl _ hpt
  · exact (hs t ht).not_ge htp

/-- What the spans behind the first one cover. -/
theorem Gapped.covers_tail_iff {s : Span} (h : Gapped (s :: l)) (p : ℕ) :
    Covers l p ↔ Covers (s :: l) p ∧ ¬ s.Has p := by
  obtain ⟨hs, -⟩ := List.pairwise_cons.mp h
  rw [covers_cons]
  constructor
  · rintro ⟨t, ht, hp⟩
    have hst : s.Apart t := Or.inl (hs t ht).le
    exact ⟨Or.inr ⟨t, ht, hp⟩, hst.symm.not_has hp⟩
  · rintro ⟨hor, hno⟩
    exact hor.resolve_left hno

theorem Gapped.head_eq {s t : Span} (h : Gapped (s :: l)) (h' : Gapped (t :: l'))
    (hne : Nonempty (s :: l)) (hne' : Nonempty (t :: l'))
    (hcov : ∀ p, Covers (s :: l) p ↔ Covers (t :: l') p) : s = t := by
  have hs : 0 < s.size := hne s (by simp)
  have ht : 0 < t.size := hne' t (by simp)
  have hle : s.off ≤ t.off :=
    h.sorted.off_le hne ((hcov _).mpr ((covers_cons t l' _).mpr (Or.inl (has_off ht))))
  have hge : t.off ≤ s.off :=
    h'.sorted.off_le hne' ((hcov _).mp ((covers_cons s l _).mpr (Or.inl (has_off hs))))
  have hstop : ¬ s.stop < t.stop := fun hlt =>
    h.not_covers_stop ((hcov _).mpr ((covers_cons t l' _).mpr
      (Or.inl ⟨by simp only [stop]; omega, hlt⟩)))
  have hstop' : ¬ t.stop < s.stop := fun hlt =>
    h'.not_covers_stop ((hcov _).mp ((covers_cons s l _).mpr
      (Or.inl ⟨by simp only [stop]; omega, hlt⟩)))
  obtain ⟨o, k⟩ := s
  obtain ⟨o', k'⟩ := t
  simp only [stop] at hle hge hstop hstop'
  obtain rfl : o = o' := le_antisymm hle hge
  obtain rfl : k = k' := by omega
  rfl

/-- Lists of nonempty spans with gaps between them are canonical: what they cover
determines them. -/
theorem Gapped.eq_of_covers (h : Gapped l) (h' : Gapped l') (hne : Nonempty l)
    (hne' : Nonempty l') (hcov : ∀ p, Covers l p ↔ Covers l' p) : l = l' := by
  induction l generalizing l' with
  | nil =>
    cases l' with
    | nil => rfl
    | cons t l' =>
      have ht : Covers (t :: l') t.off :=
        (covers_cons t l' _).mpr (Or.inl (has_off (hne' t (by simp))))
      exact absurd ((hcov _).mpr ht) (covers_nil _)
  | cons s l ih =>
    cases l' with
    | nil =>
      have hs : Covers (s :: l) s.off := (covers_cons s l _).mpr (Or.inl (has_off (hne s (by simp))))
      exact absurd ((hcov _).mp hs) (covers_nil _)
    | cons t l' =>
      obtain rfl := h.head_eq h' hne hne' hcov
      have htail : l = l' := by
        refine ih (List.pairwise_cons.mp h).2 (List.pairwise_cons.mp h').2
          (fun u hu => hne u (by simp [hu])) (fun u hu => hne' u (by simp [hu])) fun p => ?_
        rw [h.covers_tail_iff, h'.covers_tail_iff, hcov]
      rw [htail]

theorem Tiling.covers_holes_iff (h : Tiling n holes live) (p : ℕ) :
    Covers holes p ↔ p < n ∧ ¬ Covers live p := by
  constructor
  · rintro ⟨s, hs, hp⟩
    refine ⟨hp.2.trans_le (h.holes_le s hs), ?_⟩
    rintro ⟨t, ht, hp'⟩
    exact (h.cross_apart s hs t ht).not_has hp hp'
  · rintro ⟨hp, hno⟩
    exact (h.cover p hp).resolve_right hno

/-- The live spans determine the holes. -/
theorem Tiling.holes_eq (h : Tiling n holes live) (h' : Tiling n holes' live') (hp : live.Perm live') :
    holes = holes' := by
  refine h.holes_gapped.eq_of_covers h'.holes_gapped h.holes_nonempty h'.holes_nonempty fun p => ?_
  rw [h.covers_holes_iff, (h'.perm hp.symm).covers_holes_iff]

theorem tiling_hole (hn : 0 < n) : Tiling n [⟨0, n⟩] [] where
  holes_nonempty := by simpa [Nonempty] using hn
  holes_gapped := List.pairwise_singleton _ _
  holes_le := by simp [stop]
  live_nonempty := by simp [Nonempty]
  live_apart := .nil
  live_le := by simp
  cross_apart := by simp
  cover := fun p hp => Or.inl ⟨_, List.mem_singleton_self _, Nat.zero_le p, by simpa [stop] using hp⟩
  sum := by simp [total]

/-- Without live spans there is one hole, or none in the empty segment. -/
theorem Tiling.holes_of_no_live (h : Tiling n holes []) :
    holes = if n = 0 then [] else [⟨0, n⟩] := by
  split_ifs with hn
  · subst hn
    exact h.holes_eq tiling_empty (.refl [])
  · exact h.holes_eq (tiling_hole (Nat.pos_of_ne_zero hn)) (.refl [])

end Span

namespace Arena

/-- Free the blocks one after the other, each with its own offset and size. -/
def freeAll (a : Arena) (l : List Span) : Arena := l.foldl (fun a s => a.free s.off s.size) a

theorem freeAll_base (a : Arena) (l : List Span) : (a.freeAll l).base = a.base := by
  induction l generalizing a with
  | nil => rfl
  | cons s l ih => exact (ih _).trans (free_base a s.off s.size)

theorem freeAll_cap (a : Arena) (l : List Span) : (a.freeAll l).cap = a.cap := by
  induction l generalizing a with
  | nil => rfl
  | cons s l ih => exact (ih _).trans (free_cap a s.off s.size)

theorem freeAll_high (a : Arena) (l : List Span) : (a.freeAll l).high = a.high := by
  induction l generalizing a with
  | nil => rfl
  | cons s l ih => exact (ih _).trans (free_high a s.off s.size)

theorem Tiled.freeAll {a : Arena} {l rest : List Span} (h : a.Tiled (l ++ rest)) :
    (a.freeAll l).Tiled rest := by
  induction l generalizing a with
  | nil => exact h
  | cons s l ih => exact ih h.free

/-- A consistent arena is determined by its region, its mark and its live blocks. -/
theorem Tiled.eq_of_perm {a b : Arena} {live live' : List Span} (ha : a.Tiled live)
    (hb : b.Tiled live') (hbase : a.base = b.base) (hcap : a.cap = b.cap) (hhigh : a.high = b.high)
    (hp : live.Perm live') : a = b := by
  have hused : a.used = b.used := by rw [ha.used_eq, hb.used_eq, Span.total_perm hp]
  have hholes : a.holes = b.holes := by
    have htiling := hb.tiling
    rw [← hhigh] at htiling
    exact ha.tiling.holes_eq htiling hp
  cases a
  cases b
  simp_all only

/-- Live blocks may be freed in any order. -/
theorem Tiled.freeAll_perm {a : Arena} {live l l' : List Span} (h : a.Tiled live)
    (hl : l.Subperm live) (hp : l.Perm l') : a.freeAll l = a.freeAll l' := by
  obtain ⟨l₀, hl₀, hsub⟩ := hl
  obtain ⟨rest, hrest⟩ := hsub.exists_perm_append
  have h₁ : a.Tiled (l ++ rest) := h.perm (hrest.trans (hl₀.append_right rest))
  have h₂ : a.Tiled (l' ++ rest) := h₁.perm (hp.append_right rest)
  refine h₁.freeAll.eq_of_perm h₂.freeAll ?_ ?_ ?_ (.refl rest)
  · rw [freeAll_base, freeAll_base]
  · rw [freeAll_cap, freeAll_cap]
  · rw [freeAll_high, freeAll_high]

/-- The free list of an arena and the blocks that its caller holds. -/
structure FreeListInv (a : Arena) (live : List Span) : Prop where
  holes_nonempty : ∀ s ∈ a.holes, 0 < s.size
  /-- sorted by offset, and each hole ends strictly before the next begins -/
  holes_gapped : a.holes.Pairwise fun s t => s.stop < t.off
  tile : ∀ p, p < a.high ↔ Span.Covers a.holes p ∨ Span.Covers live p
  apart : (a.holes ++ live).Pairwise Span.Apart
  high_le : a.high ≤ a.cap
  used_eq : a.used = (live.map Span.size).sum

theorem Tiled.freeListInv {a : Arena} {live : List Span} (h : a.Tiled live) :
    a.FreeListInv live where
  holes_nonempty := h.tiling.holes_nonempty
  holes_gapped := h.tiling.holes_gapped
  tile := by
    intro p
    constructor
    · exact h.tiling.cover p
    · rintro (⟨s, hs, hp⟩ | ⟨s, hs, hp⟩)
      · exact hp.2.trans_le (h.tiling.holes_le s hs)
      · exact hp.2.trans_le (h.tiling.live_le s hs)
  apart := List.pairwise_append.mpr
    ⟨h.tiling.holes_gapped.imp fun hlt => Or.inl hlt.le, h.tiling.live_apart, h.tiling.cross_apart⟩
  high_le := h.high_le
  used_eq := h.used_eq

theorem init_eq {cap : ℕ} {be : Backend} {ok : Bool} {a : Arena}
    (h : fresh.init cap be = (ok, a)) : ∃ base, a = ⟨base, cap, 0, 0, []⟩ := by
  simp only [init, fresh, ne_eq, not_true_eq_false, if_false] at h
  cases hb : be.alloc with
  | none =>
    simp only [hb, Prod.mk.injEq] at h
    exact ⟨0, h.2.symm⟩
  | some f =>
    simp only [hb, Prod.mk.injEq] at h
    exact ⟨f cap, h.2.symm⟩

/-- Every run whose high-water sums do not wrap leaves a consistent arena. -/
theorem run_tiled {be : Backend} {cap : ℕ} {ok : Bool} {a₀ : Arena} (hcap : cap < 2 ^ 64)
    (hinit : fresh.init cap be = (ok, a₀)) {ops : List Op}
    (hown : Guarded Held.step Held.Owned ⟨a₀, []⟩ ops)
    (hw : Guarded Held.step Held.NoWrap ⟨a₀, []⟩ ops) :
    (run Held.step ⟨a₀, []⟩ ops).arena.Tiled (run Held.step ⟨a₀, []⟩ ops).live := by
  obtain ⟨base, rfl⟩ := init_eq hinit
  exact invariant_run (P := fun h : Held => h.arena.Tiled h.live)
    (fun _ _ ht hop => ht.step hop.1 hop.2) (tiled_init base cap hcap) (hown.and hw)

/-- The invariant of the free list along every run. -/
theorem run_freeListInv (be : Backend) {cap : ℕ} {ok : Bool} {a₀ : Arena} (hcap : cap < 2 ^ 64)
    (hinit : fresh.init cap be = (ok, a₀)) (ops : List Op)
    (hown : Guarded Held.step Held.Owned ⟨a₀, []⟩ ops)
    (hw : Guarded Held.step Held.NoWrap ⟨a₀, []⟩ ops) :
    let h := run Held.step ⟨a₀, []⟩ ops
    h.arena.FreeListInv h.live :=
  (run_tiled hcap hinit hown hw).freeListInv

/-- A block between two holes: its release merges all three. -/
theorem run_freeListInv_three :
    let h := run Held.step ⟨⟨100, 9, 0, 0, []⟩, []⟩
      [.alloc 3, .alloc 3, .alloc 3, .free ⟨0, 3⟩, .free ⟨6, 3⟩, .free ⟨3, 3⟩]
    h.arena.FreeListInv h.live := by
  have hinit : fresh.init 9 (.host 100) = (true, ⟨100, 9, 0, 0, []⟩) := rfl
  exact run_freeListInv (.host 100) (by decide) hinit
    [.alloc 3, .alloc 3, .alloc 3, .free ⟨0, 3⟩, .free ⟨6, 3⟩, .free ⟨3, 3⟩]
    (by simp only [Guarded, Held.Owned]; decide) (by simp only [Guarded, Held.NoWrap]; decide)

end Arena

namespace VramCacheManager

/-- `clear` frees the blocks in iteration order. -/
theorem clear_arena {c : VramCacheManager} (h : ∀ e ∈ c.blocks.entries, e.2.resident = true) :
    c.clear.arena = c.arena.freeAll (c.blocks.entries.map fun e => e.2.span) := by
  simp only [clear]
  generalize c.arena = a
  generalize c.blocks.entries = l at h
  induction l generalizing a with
  | nil => rfl
  | cons e l ih =>
    obtain ⟨he, hl⟩ := List.forall_mem_cons.mp h
    rw [List.foldl_cons, if_pos he]
    exact ih _ hl

/-- The map of a cache, in another iteration order. -/
theorem Inv.clear_perm {c : VramCacheManager} (h : c.Inv)
    {blocks : UnorderedMap ExpertKey ExpertBlock} (hp : blocks.entries.Perm c.blocks.entries) :
    ({ c with blocks := blocks } : VramCacheManager).clear.arena = c.clear.arena := by
  have hmap := hp.map fun e => e.2.span
  rw [clear_arena h.resident, clear_arena fun e he => h.resident e (hp.mem_iff.mp he)]
  exact ((h.tiled.freeAll_perm (List.Perm.subperm (.refl _)) hmap.symm)).symm

theorem clear_high (c : VramCacheManager) : c.clear.arena.high = c.arena.high := by
  simp only [clear]
  generalize c.arena = a
  induction c.blocks.entries generalizing a with
  | nil => rfl
  | cons e l ih =>
    rw [List.foldl_cons, ih]
    split_ifs
    · exact Arena.free_high _ _ _
    · rfl

/-- Freeing commutes, and `clear` leaves one hole, in every run of an arena and of a cache
whose high-water sums do not wrap. -/
theorem run_frees_commute (be : Backend) {cap : ℕ} {ok : Bool} {a₀ : Arena} (hcap : cap < 2 ^ 64)
    (hinit : Arena.fresh.init cap be = (ok, a₀)) (ops : List Arena.Op)
    (hown : Guarded Arena.Held.step Arena.Held.Owned ⟨a₀, []⟩ ops)
    (hw : Guarded Arena.Held.step Arena.Held.NoWrap ⟨a₀, []⟩ ops) (order : Order) {B : ℕ}
    {c₀ : VramCacheManager} (hB : B < 2 ^ 64) (hcache : (fresh order).init B be = (true, c₀))
    (calls : List Op) (hfits : Guarded step BumpFits c₀ calls) :
    let h := run Arena.Held.step ⟨a₀, []⟩ ops
    let c := run step c₀ calls
    (∀ l l' : List Span, l.Subperm h.live → l.Perm l' →
      h.arena.freeAll l = h.arena.freeAll l') ∧
    (∀ blocks : UnorderedMap ExpertKey ExpertBlock, blocks.entries.Perm c.blocks.entries →
      ({ c with blocks := blocks } : VramCacheManager).clear.arena = c.clear.arena) ∧
    c.clear.arena.used = 0 ∧ c.clear.arena.high = c.arena.high ∧
      c.clear.arena.holes = if c.arena.high = 0 then [] else [⟨0, c.arena.high⟩] := by
  intro h c
  have htiled : h.arena.Tiled h.live := Arena.run_tiled hcap hinit hown hw
  obtain ⟨base, -, rfl⟩ := init_eq_true hcache
  have hinv : c.Inv := (run_inv_of_bumpFits (started_inv order base hB) hfits).1
  have hclear : c.clear.arena.Tiled [] := clear_arena_tiled hinv.resident hinv.tiled
  refine ⟨fun l l' hl hp => htiled.freeAll_perm hl hp, fun _ hp => hinv.clear_perm hp, ?_,
    clear_high c, ?_⟩
  · rw [hclear.used_eq, Span.total_nil]
  · rw [hclear.tiling.holes_of_no_live, clear_high]

/-- Two blocks of a cache, and three of an arena. -/
theorem run_frees_commute_three :
    let h := run Arena.Held.step ⟨⟨100, 9, 0, 0, []⟩, []⟩ [.alloc 3, .alloc 3, .alloc 3]
    let c := run step (started (.newestFirst _ _) 100 8) [.ensure ⟨0, 0⟩ 4 0, .ensure ⟨0, 1⟩ 4 0]
    h.arena.freeAll [⟨0, 3⟩, ⟨3, 3⟩, ⟨6, 3⟩] = h.arena.freeAll [⟨6, 3⟩, ⟨3, 3⟩, ⟨0, 3⟩] ∧
      c.clear.arena.used = 0 := by
  have hinit : Arena.fresh.init 9 (.host 100) = (true, ⟨100, 9, 0, 0, []⟩) := rfl
  have hcache : (fresh (.newestFirst _ _)).init 8 (.host 100) =
    (true, started (.newestFirst _ _) 100 8) := rfl
  have hlive : (run Arena.Held.step ⟨⟨100, 9, 0, 0, []⟩, []⟩
      [.alloc 3, .alloc 3, .alloc 3]).live = [⟨6, 3⟩, ⟨3, 3⟩, ⟨0, 3⟩] := by decide
  obtain ⟨hfree, -, hused, -⟩ := run_frees_commute (.host 100) (by decide) hinit
    [.alloc 3, .alloc 3, .alloc 3] (by simp only [Guarded, Arena.Held.Owned]; decide)
    (by simp only [Guarded, Arena.Held.NoWrap]; decide) (.newestFirst _ _) (by decide) hcache
    [.ensure ⟨0, 0⟩ 4 0, .ensure ⟨0, 1⟩ 4 0]
    ⟨fun _ _ => by decide, fun _ _ => by decide, trivial⟩
  refine ⟨hfree _ _ ?_ (by decide), hused⟩
  rw [hlive]
  exact List.Perm.subperm (by decide)

/-- Once the high-water sum has wrapped, blocks overlap, and what is merged depends on the
order. -/
theorem frees_depend_on_order : ¬ ∀ (be : Backend) (cap : ℕ) (ok : Bool) (a₀ : Arena),
    cap < 2 ^ 64 → Arena.fresh.init cap be = (ok, a₀) → ∀ ops : List Arena.Op,
      Guarded Arena.Held.step Arena.Held.Owned ⟨a₀, []⟩ ops →
        ∀ l l' : List Span, l.Subperm (run Arena.Held.step ⟨a₀, []⟩ ops).live → l.Perm l' →
          (run Arena.Held.step ⟨a₀, []⟩ ops).arena.freeAll l =
            (run Arena.Held.step ⟨a₀, []⟩ ops).arena.freeAll l' := by
  intro h
  have hinit : Arena.fresh.init 10 (.host 100) = (true, ⟨100, 10, 0, 0, []⟩) := rfl
  have hrun : run Arena.Held.step ⟨⟨100, 10, 0, 0, []⟩, []⟩
      [.alloc 6, .alloc 18446744073709551614, .alloc 3] =
        ⟨⟨100, 10, 7, 7, []⟩, [⟨4, 3⟩, ⟨6, 18446744073709551614⟩, ⟨0, 6⟩]⟩ := by
    rfl
  have hfree := h (.host 100) 10 true _ (by decide) hinit
    [.alloc 6, .alloc 18446744073709551614, .alloc 3]
    (by simp only [Guarded, Arena.Held.Owned]; decide)
    [⟨4, 3⟩, ⟨6, 18446744073709551614⟩, ⟨0, 6⟩] [⟨0, 6⟩, ⟨6, 18446744073709551614⟩, ⟨4, 3⟩]
  rw [hrun] at hfree
  exact absurd (hfree (.refl _) (by decide)) (by decide)

end VramCacheManager
end Dee
