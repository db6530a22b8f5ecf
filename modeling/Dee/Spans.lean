import Mathlib

/-! Half-open spans of natural numbers, and segments `[0, n)` that are tiled by
free spans (holes) and live spans. The holes of a tiling are maximal, which makes
first fit over the holes a complete search for a free run. -/
namespace Dee

structure Span where
  off : ℕ
  size : ℕ
  deriving DecidableEq, Repr

namespace Span

def stop (s : Span) : ℕ := s.off + s.size

/-- The position lies in the span. -/
def Has (s : Span) (p : ℕ) : Prop := s.off ≤ p ∧ p < s.stop

def Apart (s t : Span) : Prop := s.stop ≤ t.off ∨ t.stop ≤ s.off

def Covers (l : List Span) (p : ℕ) : Prop := ∃ s ∈ l, s.Has p

def total (l : List Span) : ℕ := (l.map size).sum

/-- Increasing spans with no overlap. -/
def Sorted (l : List Span) : Prop := l.Pairwise fun s t => s.stop ≤ t.off

/-- Increasing spans, each ending strictly before the next begins. -/
def Gapped (l : List Span) : Prop := l.Pairwise fun s t => s.stop < t.off

def Nonempty (l : List Span) : Prop := ∀ s ∈ l, 0 < s.size

theorem Apart.symm {s t : Span} (h : s.Apart t) : t.Apart s := Or.symm h

theorem Apart.not_has {s t : Span} (h : s.Apart t) {p : ℕ} (hs : s.Has p) : ¬ t.Has p := by
  simp only [Apart, Has] at *
  omega

@[simp] theorem covers_nil (p : ℕ) : ¬ Covers [] p := by simp [Covers]

@[simp] theorem covers_cons (s : Span) (l : List Span) (p : ℕ) :
    Covers (s :: l) p ↔ s.Has p ∨ Covers l p := by simp [Covers]

theorem covers_append (l l' : List Span) (p : ℕ) :
    Covers (l ++ l') p ↔ Covers l p ∨ Covers l' p := by
  simp [Covers, or_and_right, exists_or]

@[simp] theorem total_nil : total [] = 0 := rfl

@[simp] theorem total_cons (s : Span) (l : List Span) : total (s :: l) = s.size + total l := by
  simp [total]

theorem total_append (l l' : List Span) : total (l ++ l') = total l + total l' := by
  simp [total]

theorem total_perm {l l' : List Span} (h : l.Perm l') : total l = total l' :=
  (h.map size).sum_eq

theorem total_eq_mul {l : List Span} {k : ℕ} (h : ∀ s ∈ l, s.size = k) :
    total l = l.length * k := by
  induction l with
  | nil => simp
  | cons s l ih =>
    rw [total_cons, h s (by simp), ih fun t ht => h t (by simp [ht]), List.length_cons]
    ring

theorem Gapped.sorted {l : List Span} (h : Gapped l) : Sorted l := h.imp fun h => h.le

theorem Gapped.eq_or_gap {l : List Span} (h : Gapped l) {s t : Span} (hs : s ∈ l) (ht : t ∈ l) :
    s = t ∨ s.stop < t.off ∨ t.stop < s.off := by
  induction l with
  | nil => simp at hs
  | cons u l ih =>
    obtain ⟨hu, hl⟩ := List.pairwise_cons.mp h
    rcases List.mem_cons.mp hs with rfl | hs' <;> rcases List.mem_cons.mp ht with rfl | ht'
    · exact Or.inl rfl
    · exact Or.inr (Or.inl (hu t ht'))
    · exact Or.inr (Or.inr (hu s hs'))
    · exact ih hl hs' ht'

/-- Insert a span before the first one that does not start earlier. -/
def insert (s : Span) (l : List Span) : List Span :=
  l.orderedInsert (fun s t => s.off ≤ t.off) s

theorem insert_perm (s : Span) (l : List Span) : (insert s l).Perm (s :: l) :=
  List.perm_orderedInsert _ s l

/-- Inserting a span that overlaps none of a sorted list keeps it sorted. -/
theorem insert_sorted {s : Span} {l : List Span} (hs : 0 < s.size) (hl : Nonempty l)
    (hsort : Sorted l) (hap : ∀ t ∈ l, s.Apart t) : Sorted (insert s l) := by
  induction l with
  | nil => simp [insert, Sorted]
  | cons t l ih =>
    have ht := hap t (by simp)
    have htp := hl t (by simp)
    obtain ⟨htl, hrest⟩ := List.pairwise_cons.mp hsort
    simp only [insert, List.orderedInsert]
    split_ifs with hle
    · have hst : s.stop ≤ t.off := by
        simp only [Apart, stop] at ht ⊢
        omega
      refine List.pairwise_cons.mpr ⟨fun u hu => ?_, hsort⟩
      rcases List.mem_cons.mp hu with rfl | hu
      · exact hst
      · have := htl u hu
        simp only [stop] at hst this ⊢
        omega
    · have hts : t.stop ≤ s.off := by
        simp only [Apart, stop] at ht ⊢
        omega
      refine List.pairwise_cons.mpr ⟨fun u hu => ?_, ih (fun u hu => hl u (by simp [hu])) hrest
        fun u hu => hap u (by simp [hu])⟩
      rcases List.mem_cons.mp ((insert_perm s l).mem_iff.mp hu) with rfl | hu
      · exact hts
      · exact htl u hu

/-- Fuse the spans that touch, with `last` the one being extended. -/
def mergeFrom (last : Span) : List Span → List Span
  | [] => [last]
  | s :: l =>
    if last.stop = s.off then mergeFrom ⟨last.off, last.size + s.size⟩ l
    else last :: mergeFrom s l

def merge : List Span → List Span
  | [] => []
  | s :: l => mergeFrom s l

private theorem fused_sorted {last s : Span} {l : List Span} (h : Sorted (last :: s :: l))
    (he : last.stop = s.off) : Sorted (⟨last.off, last.size + s.size⟩ :: l) := by
  obtain ⟨h1, h2⟩ := List.pairwise_cons.mp h
  obtain ⟨h3, h4⟩ := List.pairwise_cons.mp h2
  refine List.pairwise_cons.mpr ⟨fun t ht => ?_, h4⟩
  have := h3 t ht
  simp only [stop] at *
  omega

theorem mergeFrom_off_le {last : Span} {l : List Span} (h : Sorted (last :: l)) :
    ∀ t ∈ mergeFrom last l, last.off ≤ t.off := by
  induction l generalizing last with
  | nil => simp [mergeFrom]
  | cons s l ih =>
    intro t ht
    simp only [mergeFrom] at ht
    split_ifs at ht with he
    · exact ih (fused_sorted h he) t ht
    · rcases List.mem_cons.mp ht with rfl | ht
      · exact le_rfl
      · obtain ⟨h1, h2⟩ := List.pairwise_cons.mp h
        have h3 := h1 s (by simp)
        have h4 := ih h2 t ht
        simp only [stop] at h3
        omega

/-- Fusing leaves a gap between any two spans. -/
theorem mergeFrom_gapped {last : Span} {l : List Span} (h : Sorted (last :: l)) :
    Gapped (mergeFrom last l) := by
  induction l generalizing last with
  | nil => simp [mergeFrom, Gapped]
  | cons s l ih =>
    simp only [mergeFrom]
    split_ifs with he
    · exact ih (fused_sorted h he)
    · obtain ⟨h1, h2⟩ := List.pairwise_cons.mp h
      refine List.pairwise_cons.mpr ⟨fun t ht => ?_, ih h2⟩
      have h3 := h1 s (by simp)
      have h4 := mergeFrom_off_le h2 t ht
      omega

theorem mergeFrom_nonempty {last : Span} {l : List Span} (h : Nonempty (last :: l)) :
    Nonempty (mergeFrom last l) := by
  induction l generalizing last with
  | nil => simpa [mergeFrom] using h
  | cons s l ih =>
    simp only [Nonempty, List.forall_mem_cons] at h
    obtain ⟨h1, h2, h3⟩ := h
    simp only [mergeFrom]
    split_ifs with he
    · exact ih (List.forall_mem_cons.mpr ⟨by dsimp only; omega, h3⟩)
    · exact List.forall_mem_cons.mpr ⟨h1, ih (List.forall_mem_cons.mpr ⟨h2, h3⟩)⟩

theorem mergeFrom_covers {last : Span} {l : List Span} (p : ℕ) :
    Covers (mergeFrom last l) p ↔ Covers (last :: l) p := by
  induction l generalizing last with
  | nil => simp [mergeFrom]
  | cons s l ih =>
    simp only [mergeFrom]
    split_ifs with he
    · rw [ih, covers_cons, covers_cons, covers_cons, ← or_assoc]
      refine or_congr_left ?_
      simp only [Has, stop] at *
      omega
    · rw [covers_cons, ih, covers_cons last]

theorem mergeFrom_total (last : Span) (l : List Span) :
    total (mergeFrom last l) = total (last :: l) := by
  induction l generalizing last with
  | nil => simp [mergeFrom]
  | cons s l ih =>
    simp only [mergeFrom]
    split_ifs
    · rw [ih]
      simp [Nat.add_assoc]
    · simp [ih]

theorem mergeFrom_stop_le {last : Span} {l : List Span} {n : ℕ}
    (h : ∀ t ∈ last :: l, t.stop ≤ n) : ∀ t ∈ mergeFrom last l, t.stop ≤ n := by
  induction l generalizing last with
  | nil => simpa [mergeFrom] using h
  | cons s l ih =>
    simp only [List.forall_mem_cons] at h
    obtain ⟨h1, h2, h3⟩ := h
    simp only [mergeFrom]
    split_ifs with he
    · refine ih (List.forall_mem_cons.mpr ⟨?_, h3⟩)
      simp only [stop] at *
      omega
    · exact List.forall_mem_cons.mpr ⟨h1, ih (List.forall_mem_cons.mpr ⟨h2, h3⟩)⟩

/-- A common divisor of all sizes survives fusing. -/
theorem mergeFrom_dvd {last : Span} {l : List Span} {k : ℕ}
    (h : ∀ t ∈ last :: l, k ∣ t.size) : ∀ t ∈ mergeFrom last l, k ∣ t.size := by
  induction l generalizing last with
  | nil => simpa [mergeFrom] using h
  | cons s l ih =>
    simp only [List.forall_mem_cons] at h
    obtain ⟨h1, h2, h3⟩ := h
    simp only [mergeFrom]
    split_ifs with he
    · exact ih (List.forall_mem_cons.mpr ⟨dvd_add h1 h2, h3⟩)
    · exact List.forall_mem_cons.mpr ⟨h1, ih (List.forall_mem_cons.mpr ⟨h2, h3⟩)⟩

theorem merge_gapped {l : List Span} (h : Sorted l) : Gapped (merge l) := by
  cases l with
  | nil => simp [merge, Gapped]
  | cons s l => exact mergeFrom_gapped h

theorem merge_nonempty {l : List Span} (h : Nonempty l) : Nonempty (merge l) := by
  cases l with
  | nil => simpa [merge] using h
  | cons s l => exact mergeFrom_nonempty h

theorem merge_covers (l : List Span) (p : ℕ) : Covers (merge l) p ↔ Covers l p := by
  cases l with
  | nil => rfl
  | cons s l => exact mergeFrom_covers p

theorem merge_total (l : List Span) : total (merge l) = total l := by
  cases l with
  | nil => rfl
  | cons s l => exact mergeFrom_total s l

theorem merge_stop_le {l : List Span} {n : ℕ} (h : ∀ t ∈ l, t.stop ≤ n) :
    ∀ t ∈ merge l, t.stop ≤ n := by
  cases l with
  | nil => simp [merge]
  | cons s l => exact mergeFrom_stop_le h

theorem merge_dvd {l : List Span} {k : ℕ} (h : ∀ t ∈ l, k ∣ t.size) :
    ∀ t ∈ merge l, k ∣ t.size := by
  cases l with
  | nil => simp [merge]
  | cons s l => exact mergeFrom_dvd h

/-- Take `k` positions from the front of the first hole that has them. -/
def carve (k : ℕ) : List Span → Option (ℕ × List Span)
  | [] => none
  | s :: l =>
    if k ≤ s.size then
      some (s.off, if s.size = k then l else ⟨s.off + k, s.size - k⟩ :: l)
    else (carve k l).map fun r => (r.1, s :: r.2)

theorem carve_eq_none {k : ℕ} {l : List Span} : carve k l = none ↔ ∀ s ∈ l, s.size < k := by
  induction l with
  | nil => simp [carve]
  | cons s l ih =>
    simp only [carve]
    split_ifs with h
    · simp [h]
    · simp only [Option.map_eq_none_iff, ih, List.forall_mem_cons]
      exact ⟨fun h' => ⟨by omega, h'⟩, fun h' => h'.2⟩

/-- The carved span and what remains: one hole loses its first `k` positions. -/
theorem carve_spec {k o : ℕ} {l l' : List Span} (h : carve k l = some (o, l')) :
    ∃ pre s post, l = pre ++ s :: post ∧ o = s.off ∧ k ≤ s.size ∧
      l' = pre ++ (if s.size = k then post else ⟨s.off + k, s.size - k⟩ :: post) := by
  induction l generalizing o l' with
  | nil => simp [carve] at h
  | cons s l ih =>
    simp only [carve] at h
    split_ifs at h with hk he
    · cases h
      exact ⟨[], s, l, rfl, rfl, hk, by simp [he]⟩
    · cases h
      exact ⟨[], s, l, rfl, rfl, hk, by simp [he]⟩
    · obtain ⟨⟨o₁, l₁⟩, hc, he⟩ := Option.map_eq_some_iff.mp h
      cases he
      obtain ⟨pre, t, post, rfl, rfl, hks, rfl⟩ := ih hc
      exact ⟨s :: pre, t, post, rfl, rfl, hks, rfl⟩

theorem carve_dvd {k o : ℕ} {l l' : List Span} (hd : ∀ s ∈ l, k ∣ s.size)
    (h : carve k l = some (o, l')) : ∀ s ∈ l', k ∣ s.size := by
  obtain ⟨pre, t, post, rfl, -, hk, rfl⟩ := carve_spec h
  intro s hs
  rcases List.mem_append.mp hs with hs | hs
  · exact hd s (by simp [hs])
  · split_ifs at hs with he
    · exact hd s (by simp [hs])
    · rcases List.mem_cons.mp hs with rfl | hs
      · exact Nat.dvd_sub (hd t (by simp)) dvd_rfl
      · exact hd s (by simp [hs])

end Span
end Dee
