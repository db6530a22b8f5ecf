import Dee.Spans

/-! The segment `[0, n)` cut into holes and live spans. The three operations of an
allocator are shown to keep the tiling: carving a live span out of a hole, growing
the segment by a live span at its end, and giving a live span back. -/
namespace Dee.Span

structure Tiling (n : ℕ) (holes live : List Span) : Prop where
  holes_nonempty : Nonempty holes
  holes_gapped : Gapped holes
  holes_le : ∀ s ∈ holes, s.stop ≤ n
  live_nonempty : Nonempty live
  live_apart : live.Pairwise Apart
  live_le : ∀ s ∈ live, s.stop ≤ n
  cross_apart : ∀ s ∈ holes, ∀ t ∈ live, s.Apart t
  cover : ∀ p < n, Covers holes p ∨ Covers live p
  sum : total holes + total live = n

theorem tiling_empty : Tiling 0 [] [] where
  holes_nonempty := by simp [Nonempty]
  holes_gapped := .nil
  holes_le := by simp
  live_nonempty := by simp [Nonempty]
  live_apart := .nil
  live_le := by simp
  cross_apart := by simp
  cover := by simp
  sum := rfl

theorem Tiling.perm {n : ℕ} {holes live live' : List Span} (h : Tiling n holes live)
    (hp : live.Perm live') : Tiling n holes live' where
  holes_nonempty := h.holes_nonempty
  holes_gapped := h.holes_gapped
  holes_le := h.holes_le
  live_nonempty := fun s hs => h.live_nonempty s (hp.mem_iff.mpr hs)
  live_apart := (hp.pairwise_iff fun h => h.symm).mp h.live_apart
  live_le := fun s hs => h.live_le s (hp.mem_iff.mpr hs)
  cross_apart := fun s hs t ht => h.cross_apart s hs t (hp.mem_iff.mpr ht)
  cover := fun p hlt => (h.cover p hlt).imp id fun ⟨s, hs, hp'⟩ => ⟨s, hp.mem_iff.mp hs, hp'⟩
  sum := by rw [← total_perm hp]; exact h.sum

/-- Growing the segment at its end. -/
theorem Tiling.grow {n k : ℕ} {holes live : List Span} (h : Tiling n holes live) (hk : 0 < k) :
    Tiling (n + k) holes (⟨n, k⟩ :: live) where
  holes_nonempty := h.holes_nonempty
  holes_gapped := h.holes_gapped
  holes_le := fun s hs => (h.holes_le s hs).trans (by omega)
  live_nonempty := List.forall_mem_cons.mpr ⟨hk, h.live_nonempty⟩
  live_apart := List.pairwise_cons.mpr ⟨fun t ht => Or.inr (h.live_le t ht), h.live_apart⟩
  live_le := List.forall_mem_cons.mpr
    ⟨le_rfl, fun s hs => (h.live_le s hs).trans (by omega)⟩
  cross_apart := fun s hs => List.forall_mem_cons.mpr
    ⟨Or.inl (h.holes_le s hs), h.cross_apart s hs⟩
  cover := by
    intro p hp
    by_cases hlt : p < n
    · exact (h.cover p hlt).imp id fun hc => (covers_cons _ _ _).mpr (Or.inr hc)
    · exact Or.inr ((covers_cons _ _ _).mpr (Or.inl ⟨by dsimp only; omega, by
        simp only [stop]; omega⟩))
  sum := by
    have := h.sum
    simp only [total_cons]
    omega

/-- The pieces of a hole split after its first `k` positions. -/
private def rest (k : ℕ) (s : Span) (post : List Span) : List Span :=
  if s.size = k then post else ⟨s.off + k, s.size - k⟩ :: post

private theorem mem_rest {k : ℕ} {s t : Span} {post : List Span} (hk : k ≤ s.size)
    (h : t ∈ rest k s post) :
    t ∈ post ∨ (0 < t.size ∧ t.off = s.off + k ∧ t.stop = s.stop ∧ t.size = s.size - k) := by
  simp only [rest] at h
  split_ifs at h with he
  · exact Or.inl h
  · rcases List.mem_cons.mp h with rfl | h
    · exact Or.inr ⟨by dsimp only; omega, rfl, by simp only [stop]; omega, rfl⟩
    · exact Or.inl h

private theorem covers_rest {k : ℕ} {s : Span} {post : List Span} (hk : k ≤ s.size) (p : ℕ) :
    s.Has p ∨ Covers post p ↔ (Span.mk s.off k).Has p ∨ Covers (rest k s post) p := by
  simp only [rest]
  split_ifs with he
  · simp [Has, stop, he]
  · rw [covers_cons, ← or_assoc]
    refine or_congr_left ?_
    simp only [Has, stop]
    omega

private theorem total_rest {k : ℕ} {s : Span} {post : List Span} (hk : k ≤ s.size) :
    k + total (rest k s post) = s.size + total post := by
  simp only [rest]
  split_ifs with he
  · omega
  · simp only [total_cons]
    omega

private theorem gapped_split {pre post : List Span} {s : Span} (h : Gapped (pre ++ s :: post)) :
    Gapped pre ∧ Gapped post ∧ (∀ t ∈ post, s.stop < t.off) ∧
      (∀ t ∈ pre, t.stop < s.off) ∧ ∀ t ∈ pre, ∀ u ∈ post, t.stop < u.off := by
  obtain ⟨h1, h2, h3⟩ := List.pairwise_append.mp h
  obtain ⟨h4, h5⟩ := List.pairwise_cons.mp h2
  exact ⟨h1, h5, h4, fun t ht => h3 t ht s (by simp), fun t ht u hu => h3 t ht u (by simp [hu])⟩

private theorem gapped_rest {k : ℕ} {pre post : List Span} {s : Span} (hk : k ≤ s.size)
    (h : Gapped (pre ++ s :: post)) : Gapped (pre ++ rest k s post) := by
  obtain ⟨gpre, gpost, gsp, gps, gpp⟩ := gapped_split h
  refine List.pairwise_append.mpr ⟨gpre, ?_, fun t ht u hu => ?_⟩
  · simp only [rest]
    split_ifs with he
    · exact gpost
    · refine List.pairwise_cons.mpr ⟨fun t ht => ?_, gpost⟩
      have := gsp t ht
      simp only [stop] at *
      omega
  · rcases mem_rest hk hu with hu | ⟨-, hu, -, -⟩
    · exact gpp t ht u hu
    · have := gps t ht
      omega

/-- Carving `k` positions from a hole makes them live. -/
theorem Tiling.carved {n k o : ℕ} {holes holes' live : List Span} (h : Tiling n holes live)
    (hk : 0 < k) (hc : carve k holes = some (o, holes')) :
    Tiling n holes' (⟨o, k⟩ :: live) := by
  obtain ⟨pre, s, post, rfl, rfl, hks, rfl⟩ := carve_spec hc
  obtain ⟨-, -, gsp, gps, -⟩ := gapped_split h.holes_gapped
  have hs := h.holes_le s (by simp)
  have hsub : ∀ t ∈ pre ++ rest k s post, t ∈ pre ∨ t ∈ post ∨
      (0 < t.size ∧ t.off = s.off + k ∧ t.stop = s.stop ∧ t.size = s.size - k) := by
    intro t ht
    exact (List.mem_append.mp ht).imp id (mem_rest hks)
  have hnew : ∀ t ∈ pre ++ rest k s post, t.Apart ⟨s.off, k⟩ := by
    intro t ht
    rcases hsub t ht with ht | ht | ⟨-, ht, -, -⟩
    · exact Or.inl (gps t ht).le
    · refine Or.inr ?_
      have := gsp t ht
      simp only [stop] at *
      omega
    · exact Or.inr ht.ge
  change Tiling n (pre ++ rest k s post) (⟨s.off, k⟩ :: live)
  constructor
  · intro t ht
    rcases hsub t ht with ht | ht | ⟨ht, -, -, -⟩
    · exact h.holes_nonempty t (by simp [ht])
    · exact h.holes_nonempty t (by simp [ht])
    · exact ht
  · exact gapped_rest hks h.holes_gapped
  · intro t ht
    rcases hsub t ht with ht | ht | ⟨-, -, ht, -⟩
    · exact h.holes_le t (by simp [ht])
    · exact h.holes_le t (by simp [ht])
    · omega
  · exact List.forall_mem_cons.mpr ⟨hk, h.live_nonempty⟩
  · refine List.pairwise_cons.mpr ⟨fun t ht => ?_, h.live_apart⟩
    have := h.cross_apart s (by simp) t ht
    simp only [Apart, stop] at *
    omega
  · refine List.forall_mem_cons.mpr ⟨?_, h.live_le⟩
    simp only [stop] at *
    omega
  · intro t ht
    refine List.forall_mem_cons.mpr ⟨hnew t ht, fun u hu => ?_⟩
    rcases hsub t ht with ht | ht | ⟨-, ht1, ht2, -⟩
    · exact h.cross_apart t (by simp [ht]) u hu
    · exact h.cross_apart t (by simp [ht]) u hu
    · have := h.cross_apart s (by simp) u hu
      simp only [Apart, stop] at *
      omega
  · intro p hp
    have hcov := h.cover p hp
    rw [covers_append, covers_cons, covers_rest hks] at hcov
    rw [covers_append, covers_cons]
    tauto
  · have hsum := h.sum
    have hr := @total_rest k s post hks
    simp only [total_append, total_cons] at hsum ⊢
    omega

/-- A released span becomes part of the holes, fused with its neighbours. -/
theorem Tiling.released {n : ℕ} {holes live : List Span} {s : Span}
    (h : Tiling n holes (s :: live)) : Tiling n (merge (insert s holes)) live := by
  obtain ⟨hs, hlive⟩ := List.forall_mem_cons.mp h.live_nonempty
  obtain ⟨has, hap⟩ := List.pairwise_cons.mp h.live_apart
  obtain ⟨hsn, hln⟩ := List.forall_mem_cons.mp h.live_le
  have hmem : ∀ t, t ∈ insert s holes ↔ t = s ∨ t ∈ holes := fun t => by
    rw [(insert_perm s holes).mem_iff, List.mem_cons]
  have hsort : Sorted (insert s holes) := insert_sorted hs h.holes_nonempty h.holes_gapped.sorted
    fun t ht => (h.cross_apart t ht s (by simp)).symm
  have hne : Nonempty (merge (insert s holes)) := by
    refine merge_nonempty fun t ht => ?_
    rcases (hmem t).mp ht with rfl | ht
    · exact hs
    · exact h.holes_nonempty t ht
  have hcov : ∀ p, Covers (merge (insert s holes)) p ↔ s.Has p ∨ Covers holes p := by
    intro p
    rw [merge_covers, Covers]
    simp only [hmem, or_and_right, exists_or, exists_eq_left, Covers]
  constructor
  · exact hne
  · exact merge_gapped hsort
  · refine merge_stop_le fun t ht => ?_
    rcases (hmem t).mp ht with rfl | ht
    · exact hsn
    · exact h.holes_le t ht
  · exact hlive
  · exact hap
  · exact hln
  · intro t ht u hu
    -- no position of `t` is live, so the two spans cannot meet
    have hlu := hlive u hu
    have ht0 := hne t ht
    by_contra hno
    simp only [Apart, stop, not_or, not_le] at hno
    have hp : Covers (merge (insert s holes)) (max t.off u.off) :=
      ⟨t, ht, by simp only [Has, stop]; omega⟩
    have hup : u.Has (max t.off u.off) := by simp only [Has, stop]; omega
    rcases (hcov _).mp hp with hp | ⟨v, hv, hvp⟩
    · exact (has u hu).not_has hp hup
    · exact (h.cross_apart v hv u (by simp [hu])).not_has hvp hup
  · intro p hp
    rcases h.cover p hp with hc | hc
    · exact Or.inl ((hcov p).mpr (Or.inr hc))
    · rcases (covers_cons _ _ _).mp hc with hc | hc
      · exact Or.inl ((hcov p).mpr (Or.inl hc))
      · exact Or.inr hc
  · have hsum := h.sum
    rw [merge_total, total_perm (insert_perm s holes)]
    simp only [total_cons] at hsum ⊢
    omega

theorem Tiling.total_live_le {n : ℕ} {holes live : List Span} (h : Tiling n holes live) :
    total live ≤ n := by
  have := h.sum
  omega

/-- Holes are maximal: a run of free positions lies inside a single hole. -/
theorem Tiling.free_run {n o k : ℕ} {holes live : List Span} (h : Tiling n holes live)
    (hk : 0 < k) (hn : o + k ≤ n) (hfree : ∀ p, o ≤ p → p < o + k → ¬ Covers live p) :
    ∃ s ∈ holes, s.off ≤ o ∧ o + k ≤ s.stop := by
  induction k, hk using Nat.le_induction with
  | base =>
    obtain ⟨s, hs, hp⟩ := (h.cover o (by omega)).resolve_right (hfree o le_rfl (by omega))
    exact ⟨s, hs, hp.1, hp.2⟩
  | succ k hk ih =>
    obtain ⟨s, hs, hso, hsk⟩ := ih (by omega) fun p h1 h2 => hfree p h1 (by omega)
    obtain ⟨t, ht, htp⟩ :=
      (h.cover (o + k) (by omega)).resolve_right (hfree (o + k) (by omega) (by omega))
    -- the hole of the next position is the same one: two holes never touch
    have hst : s = t := by
      rcases h.holes_gapped.eq_or_gap hs ht with hg | hg | hg
      · exact hg
      · have := htp.1
        omega
      · have := htp.2
        simp only [stop] at *
        omega
    subst hst
    exact ⟨s, hs, hso, htp.2⟩

/-- First fit over the holes finds a free run exactly when there is one. -/
theorem Tiling.exists_run_iff {n k : ℕ} {holes live : List Span} (h : Tiling n holes live)
    (hk : 0 < k) :
    (∃ s ∈ holes, k ≤ s.size) ↔
      ∃ o, o + k ≤ n ∧ ∀ p, o ≤ p → p < o + k → ¬ Covers live p := by
  constructor
  · rintro ⟨s, hs, hsk⟩
    have hsn := h.holes_le s hs
    refine ⟨s.off, by simp only [stop] at hsn; omega, fun p h1 h2 => ?_⟩
    rintro ⟨t, ht, htp⟩
    exact (h.cross_apart s hs t ht).not_has ⟨h1, by simp only [stop]; omega⟩ htp
  · rintro ⟨o, hn, hfree⟩
    obtain ⟨s, hs, hso, hsk⟩ := h.free_run hk hn hfree
    exact ⟨s, hs, by simp only [stop] at hsk; omega⟩

/-- A free run in a region that continues beyond the segment: inside a hole, beyond the
segment, or from a hole at the end of the segment into what lies beyond it. -/
theorem Tiling.exists_run_within_iff {n k cap : ℕ} {holes live : List Span}
    (h : Tiling n holes live) (hk : 0 < k) (hcap : n ≤ cap) :
    (∃ o, o + k ≤ cap ∧ ∀ p, o ≤ p → p < o + k → ¬ Covers live p) ↔
      (∃ s ∈ holes, k ≤ s.size) ∨ n + k ≤ cap ∨
        ∃ s ∈ holes, s.stop = n ∧ k ≤ s.size + (cap - n) := by
  constructor
  · rintro ⟨o, ho, hfree⟩
    rcases Nat.lt_or_ge n (o + k) with hlt | hle
    · rcases Nat.lt_or_ge o n with hon | hno
      · have hpart : o + (n - o) = n := by omega
        obtain ⟨s, hs, hso, hsn⟩ := h.free_run (o := o) (k := n - o) (by omega) hpart.le
          fun p h1 h2 => hfree p h1 (by omega)
        have hle := h.holes_le s hs
        refine Or.inr (Or.inr ⟨s, hs, by omega, ?_⟩)
        simp only [stop] at hle hsn
        omega
      · exact Or.inr (Or.inl (by omega))
    · exact Or.inl ((h.exists_run_iff hk).mpr ⟨o, hle, hfree⟩)
  · rintro (hs | hn | ⟨s, hs, hsn, hk'⟩)
    · obtain ⟨o, ho, hfree⟩ := (h.exists_run_iff hk).mp hs
      exact ⟨o, ho.trans hcap, hfree⟩
    · refine ⟨n, hn, fun p h1 _ => ?_⟩
      rintro ⟨t, ht, htp⟩
      have := h.live_le t ht
      have := htp.2
      omega
    · refine ⟨s.off, by simp only [stop] at hsn; omega, fun p h1 h2 => ?_⟩
      rintro ⟨t, ht, htp⟩
      have htn := h.live_le t ht
      have hpt := htp.2
      -- below the end of the segment the run lies in the hole
      exact (h.cross_apart s hs t ht).not_has ⟨h1, by omega⟩ htp

end Dee.Span
