import Mathlib

/-! Launches of independent threads. A thread reads buffers that its launch does not
write and stores at most one value, so only the set of its stores matters. -/
namespace Dee.ThreadLaunch
variable {ι V : Type*}

/-- The threads of `blocks` blocks of `width` threads each. -/
def threads (blocks width : ℕ) : List (ℕ × ℕ) :=
  (List.range blocks).flatMap fun b => (List.range width).map fun t => (b, t)

/-- The addresses stored to, in the order of the stores. -/
def stored (kernel : ι → Option (ℕ × V)) (order : List ι) : List ℕ :=
  (order.filterMap kernel).map Prod.fst

/-- Run the threads of a launch, one after the other. -/
def runThreads (kernel : ι → Option (ℕ × V)) (order : List ι) (buf : ℕ → V) : ℕ → V :=
  order.foldl (fun buf t =>
    match kernel t with
    | none => buf
    | some s => Function.update buf s.1 s.2) buf

theorem threads_linear (blocks width : ℕ) :
    (threads blocks width).map (fun t => t.1 * width + t.2) = List.range (blocks * width) := by
  unfold threads
  induction blocks with
  | zero => simp
  | succ blocks ih =>
    rw [List.range_succ, List.flatMap_append, List.map_append, ih, Nat.succ_mul, List.range_add]
    simp [Function.comp_def]

/-- The numbers of the threads are those below their count. -/
theorem exists_mem_threads {blocks width m : ℕ} :
    (∃ t ∈ threads blocks width, t.1 * width + t.2 = m) ↔ m < blocks * width := by
  rw [← List.mem_range, ← threads_linear, List.mem_map]

theorem mem_stored {kernel : ι → Option (ℕ × V)} {order : List ι} {a : ℕ} :
    a ∈ stored kernel order ↔ ∃ t ∈ order, ∃ v, kernel t = some (a, v) := by
  rw [stored, List.mem_map]
  constructor
  · rintro ⟨s, hs, rfl⟩
    obtain ⟨t, ht, hkernel⟩ := List.mem_filterMap.mp hs
    exact ⟨t, ht, s.2, hkernel⟩
  · rintro ⟨t, ht, v, hkernel⟩
    exact ⟨_, List.mem_filterMap.mpr ⟨t, ht, hkernel⟩, rfl⟩

theorem stored_perm {kernel : ι → Option (ℕ × V)} {order order' : List ι} (h : order.Perm order') :
    (stored kernel order).Perm (stored kernel order') :=
  (h.filterMap kernel).map Prod.fst

/-- When thread `t` has number `f t` and exactly the numbers below `n` store, each to its
own place, a launch stores once to each place below `n`. -/
theorem stored_eq_range {kernel : ι → Option (ℕ × V)} {order : List ι} {f : ι → ℕ} {val : ℕ → V}
    {n m : ℕ} (hmap : order.map f = List.range m) (hle : n ≤ m)
    (hk : ∀ t ∈ order, kernel t = if f t < n then some (f t, val (f t)) else none) :
    stored kernel order = List.range n := by
  have hfilter : order.filterMap kernel =
      (order.map f).filterMap fun i => if i < n then some (i, val i) else none := by
    rw [List.filterMap_map]
    exact List.filterMap_congr hk
  obtain ⟨d, rfl⟩ := Nat.exists_eq_add_of_le hle
  have hlow : (List.range n).filterMap (fun i => if i < n then some (i, val i) else none) =
      (List.range n).map fun i => (i, val i) := by
    rw [← List.filterMap_eq_map]
    apply List.filterMap_congr
    intro i hi
    simp [List.mem_range.mp hi]
  have hhigh : ((List.range d).map (n + ·)).filterMap
      (fun i => if i < n then some (i, val i) else none) = [] := by
    simp
  rw [stored, hfilter, hmap, List.range_add, List.filterMap_append, hlow, hhigh]
  simp [Function.comp_def]

/-- If every store to a place has the same value, the order of the threads is irrelevant. -/
theorem runThreads_apply {kernel : ι → Option (ℕ × V)} {val : ℕ → V} {order : List ι}
    (hval : ∀ t ∈ order, ∀ s, kernel t = some s → s.2 = val s.1) (buf : ℕ → V) (i : ℕ) :
    runThreads kernel order buf i = if i ∈ stored kernel order then val i else buf i := by
  unfold runThreads stored
  induction order generalizing buf with
  | nil => simp
  | cons t order ih =>
    have hrest : ∀ t ∈ order, ∀ s, kernel t = some s → s.2 = val s.1 :=
      fun t ht => hval t (List.mem_cons_of_mem _ ht)
    rw [List.foldl_cons, ih hrest]
    cases hs : kernel t with
    | none => rw [List.filterMap_cons_none hs]
    | some s =>
      have hv := hval t List.mem_cons_self s hs
      simp only [List.filterMap_cons_some hs, List.map_cons, List.mem_cons]
      by_cases hmem : i ∈ (order.filterMap kernel).map Prod.fst
      · rw [if_pos hmem, if_pos (Or.inr hmem)]
      · by_cases hi : i = s.1
        · subst hi
          rw [if_neg hmem, if_pos (Or.inl rfl), ← hv]
          exact Function.update_self ..
        · rw [if_neg hmem, if_neg (not_or.mpr ⟨hi, hmem⟩)]
          exact Function.update_of_ne hi ..

end Dee.ThreadLaunch
