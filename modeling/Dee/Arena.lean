import Dee.SpanTiling

/-! The VRAM arena: one fixed region served by a first-fit free list with
coalescing, backed by a bump pointer. All fields are `size_t` values, so sums and
differences wrap at 64 bits; addresses are natural numbers and 0 is the null pointer. -/
namespace Dee

/-- The failure value `size_t(-1)`. -/
def npos : ℕ := 2 ^ 64 - 1

/-- The conversion to `size_t`. -/
def toSize (x : ℤ) : ℕ := (x % 2 ^ 64).toNat

def szAdd (a b : ℕ) : ℕ := (a + b) % 2 ^ 64

def szSub (a b : ℕ) : ℕ := (a + 2 ^ 64 - b) % 2 ^ 64

theorem szAdd_of_lt {a b : ℕ} (h : a + b < 2 ^ 64) : szAdd a b = a + b := Nat.mod_eq_of_lt h

theorem szSub_of_le {a b : ℕ} (h : b ≤ a) (ha : a < 2 ^ 64) : szSub a b = a - b := by
  have he : a + 2 ^ 64 - b = a - b + 2 ^ 64 := by omega
  rw [szSub, he, Nat.add_mod_right]
  exact Nat.mod_eq_of_lt (by omega)

theorem toSize_natCast {n : ℕ} (h : n < 2 ^ 64) : toSize n = n := by
  rw [toSize, Int.emod_eq_of_lt (Int.natCast_nonneg n) (by exact_mod_cast h), Int.toNat_natCast]

theorem toSize_cases {z : ℤ} (hlo : -2 ^ 64 < z) (hhi : z < 2 ^ 64) :
    0 ≤ z ∧ (toSize z : ℤ) = z ∨ z < 0 ∧ (toSize z : ℤ) = z + 2 ^ 64 := by
  have hcast : (toSize z : ℤ) = z % 2 ^ 64 :=
    Int.toNat_of_nonneg (Int.emod_nonneg _ (by norm_num))
  rw [hcast]
  rcases Int.lt_or_le z 0 with hz | hz
  · right
    rw [← Int.add_emod_right]
    exact ⟨hz, Int.emod_eq_of_lt (by omega) (by omega)⟩
  · exact Or.inl ⟨hz, Int.emod_eq_of_lt hz hhi⟩

theorem szAdd_cases {a b : ℕ} (ha : a < 2 ^ 64) (hb : b < 2 ^ 64) :
    a + b < 2 ^ 64 ∧ szAdd a b = a + b ∨ 2 ^ 64 ≤ a + b ∧ szAdd a b + 2 ^ 64 = a + b := by
  unfold szAdd
  omega

abbrev Hole := Span

/-- The injected region allocator; `none` is an empty `std::function`. -/
structure Backend where
  alloc : Option (ℕ → ℕ)

/-- A host allocator that returns the given address, and null for an empty request. -/
def Backend.host (base : ℕ) : Backend := ⟨some fun n => if n = 0 then 0 else base⟩

structure Arena where
  base : ℕ
  cap : ℕ
  used : ℕ
  /-- the bump pointer's high-water mark -/
  high : ℕ
  /-- the free list `free_`, sorted by offset -/
  holes : List Hole
  deriving DecidableEq, Repr

namespace Arena

/-- A default-constructed arena. -/
def fresh : Arena := ⟨0, 0, 0, 0, []⟩

def freeSpace (a : Arena) : ℕ := szSub a.cap a.used

def init (a : Arena) (capacity : ℕ) (be : Backend) : Bool × Arena :=
  if a.base ≠ 0 then (false, a)
  else
    match be.alloc with
    | none => (false, ⟨0, capacity, 0, 0, []⟩)
    | some f => (f capacity ≠ 0, ⟨f capacity, capacity, 0, 0, []⟩)

/-- The first hole with room is erased or loses its front. -/
def firstFit (bytes : ℕ) : List Hole → Option (ℕ × List Hole)
  | [] => none
  | h :: hs =>
    if bytes ≤ h.size then
      some (h.off, if h.size = bytes then hs else ⟨szAdd h.off bytes, szSub h.size bytes⟩ :: hs)
    else (firstFit bytes hs).map fun r => (r.1, h :: r.2)

def alloc (a : Arena) (bytes : ℕ) : ℕ × Arena :=
  if bytes = 0 then (npos, a)
  else
    match firstFit bytes a.holes with
    | some (off, holes) => (off, { a with holes := holes, used := szAdd a.used bytes })
    | none =>
      if szAdd a.high bytes ≤ a.cap then
        (a.high, { a with high := szAdd a.high bytes, used := szAdd a.used bytes })
      else (npos, a)

/-- The loop of `coalesce`, with the back of the merged vector in hand. -/
def coalesceFrom (last : Hole) : List Hole → List Hole
  | [] => [last]
  | h :: hs =>
    if szAdd last.off last.size = h.off then
      coalesceFrom ⟨last.off, szAdd last.size h.size⟩ hs
    else last :: coalesceFrom h hs

def coalesce : List Hole → List Hole
  | [] => []
  | h :: hs => coalesceFrom h hs

/-- `lower_bound` on the sorted list, then `insert`. -/
def free (a : Arena) (offset bytes : ℕ) : Arena :=
  if offset = npos ∨ bytes = 0 then a
  else { a with holes := coalesce (Span.insert ⟨offset, bytes⟩ a.holes),
                used := szSub a.used bytes }

/-- The arena holds exactly the given live blocks. -/
structure Tiled (a : Arena) (live : List Span) : Prop where
  tiling : Span.Tiling a.high a.holes live
  high_le : a.high ≤ a.cap
  cap_lt : a.cap < 2 ^ 64
  used_eq : a.used = Span.total live

theorem tiled_init (base cap : ℕ) (h : cap < 2 ^ 64) : Tiled ⟨base, cap, 0, 0, []⟩ [] :=
  ⟨Span.tiling_empty, Nat.zero_le _, h, rfl⟩

theorem Tiled.perm {a : Arena} {live live' : List Span} (h : a.Tiled live)
    (hp : live.Perm live') : a.Tiled live' :=
  ⟨h.tiling.perm hp, h.high_le, h.cap_lt, by rw [← Span.total_perm hp]; exact h.used_eq⟩

theorem Tiled.used_le {a : Arena} {live : List Span} (h : a.Tiled live) : a.used ≤ a.cap := by
  have := h.tiling.total_live_le
  have := h.used_eq
  have := h.high_le
  omega

theorem Tiled.freeSpace_eq {a : Arena} {live : List Span} (h : a.Tiled live) :
    a.freeSpace = a.cap - Span.total live := by
  rw [freeSpace, szSub_of_le h.used_le h.cap_lt, h.used_eq]

theorem Tiled.live_stop_le {a : Arena} {live : List Span} (h : a.Tiled live) :
    ∀ s ∈ live, s.stop ≤ a.cap :=
  fun s hs => (h.tiling.live_le s hs).trans h.high_le

theorem firstFit_eq_carve {bytes : ℕ} {l : List Hole} (h : ∀ s ∈ l, s.stop < 2 ^ 64) :
    firstFit bytes l = Span.carve bytes l := by
  induction l with
  | nil => rfl
  | cons s l ih =>
    obtain ⟨hs, hl⟩ := List.forall_mem_cons.mp h
    simp only [Span.stop] at hs
    simp only [firstFit, Span.carve, ih hl]
    split_ifs with hle
    · rfl
    · rw [szAdd_of_lt (by omega), szSub_of_le hle (by omega)]
    · rfl

theorem coalesceFrom_eq_mergeFrom {last : Hole} {l : List Hole} {n : ℕ} (hn : n < 2 ^ 64)
    (hsort : Span.Sorted (last :: l)) (h : ∀ s ∈ last :: l, s.stop ≤ n) :
    coalesceFrom last l = Span.mergeFrom last l := by
  induction l generalizing last with
  | nil => rfl
  | cons s l ih =>
    obtain ⟨h1, h2, h3⟩ := by simpa only [List.forall_mem_cons] using h
    obtain ⟨s1, s2⟩ := List.pairwise_cons.mp hsort
    obtain ⟨s3, s4⟩ := List.pairwise_cons.mp s2
    simp only [Span.stop] at h1 h2
    have hadd : szAdd last.off last.size = last.stop := szAdd_of_lt (by omega)
    simp only [coalesceFrom, Span.mergeFrom, hadd]
    split_ifs with he
    · have hsum : szAdd last.size s.size = last.size + s.size := by
        simp only [Span.stop] at he
        exact szAdd_of_lt (by omega)
      rw [hsum]
      refine ih (List.pairwise_cons.mpr ⟨fun t ht => ?_, s4⟩) (List.forall_mem_cons.mpr ⟨?_, h3⟩)
      · have := s3 t ht
        simp only [Span.stop] at *
        omega
      · simp only [Span.stop] at *
        omega
    · rw [ih s2 (List.forall_mem_cons.mpr ⟨by simpa only [Span.stop] using h2, h3⟩)]

/-- Below the high-water mark no sum of `coalesce` wraps. -/
theorem Tiled.coalesce_eq {a : Arena} {s : Span} {live : List Span} (h : a.Tiled (s :: live)) :
    coalesce (Span.insert s a.holes) = Span.merge (Span.insert s a.holes) := by
  have hsort := Span.insert_sorted (h.tiling.live_nonempty s (by simp)) h.tiling.holes_nonempty
    h.tiling.holes_gapped.sorted fun t ht => (h.tiling.cross_apart t ht s (by simp)).symm
  have hle : ∀ t ∈ Span.insert s a.holes, t.stop ≤ a.high := by
    intro t ht
    rcases List.mem_cons.mp ((Span.insert_perm s a.holes).mem_iff.mp ht) with rfl | ht
    · exact h.tiling.live_le t (by simp)
    · exact h.tiling.holes_le t ht
  cases hl : Span.insert s a.holes with
  | nil => rfl
  | cons t l =>
    rw [hl] at hsort hle
    exact coalesceFrom_eq_mergeFrom (h.high_le.trans_lt h.cap_lt) hsort hle

theorem Tiled.free_eq {a : Arena} {s : Span} {live : List Span} (h : a.Tiled (s :: live)) :
    a.free s.off s.size =
      { a with holes := Span.merge (Span.insert s a.holes), used := Span.total live } := by
  have hs : 0 < s.size := h.tiling.live_nonempty s (by simp)
  have hstop : s.stop ≤ a.high := h.tiling.live_le s (by simp)
  have hhigh := h.high_le
  have hcap := h.cap_lt
  have hne : ¬ (s.off = npos ∨ s.size = 0) := by
    simp only [Span.stop, npos] at *
    omega
  have hused : szSub a.used s.size = Span.total live := by
    have hle := h.used_le
    have hu := h.used_eq
    rw [Span.total_cons] at hu
    rw [szSub_of_le (by omega) (by omega)]
    omega
  rw [Arena.free, if_neg hne, hused, h.coalesce_eq]

/-- Freeing a live block with its own offset and size makes it a free run. -/
theorem Tiled.free {a : Arena} {s : Span} {live : List Span} (h : a.Tiled (s :: live)) :
    (a.free s.off s.size).Tiled live := by
  rw [h.free_eq]
  exact ⟨h.tiling.released, h.high_le, h.cap_lt, rfl⟩

@[simp] theorem free_base (a : Arena) (o n : ℕ) : (a.free o n).base = a.base := by
  unfold Arena.free
  split_ifs <;> rfl

@[simp] theorem free_cap (a : Arena) (o n : ℕ) : (a.free o n).cap = a.cap := by
  unfold Arena.free
  split_ifs <;> rfl

@[simp] theorem free_high (a : Arena) (o n : ℕ) : (a.free o n).high = a.high := by
  unfold Arena.free
  split_ifs <;> rfl

@[simp] theorem alloc_base (a : Arena) (n : ℕ) : (a.alloc n).2.base = a.base := by
  unfold alloc
  split
  · rfl
  · split
    · rfl
    · split <;> rfl

@[simp] theorem alloc_cap (a : Arena) (n : ℕ) : (a.alloc n).2.cap = a.cap := by
  unfold alloc
  split
  · rfl
  · split
    · rfl
    · split <;> rfl

/-- There is room for a request: some hole is large enough, or the bump region is. -/
def Fits (a : Arena) (bytes : ℕ) : Prop :=
  (∃ h ∈ a.holes, bytes ≤ h.size) ∨ a.high + bytes ≤ a.cap

theorem Tiled.firstFit_eq {a : Arena} {live : List Span} (h : a.Tiled live) (bytes : ℕ) :
    firstFit bytes a.holes = Span.carve bytes a.holes :=
  firstFit_eq_carve fun s hs => ((h.tiling.holes_le s hs).trans h.high_le).trans_lt h.cap_lt

/-- Blocks that are multiples of the request leave holes that are multiples of it. -/
theorem Tiled.alloc_holes_dvd {a : Arena} {live : List Span} (h : a.Tiled live) {k : ℕ}
    (hd : ∀ s ∈ a.holes, k ∣ s.size) : ∀ s ∈ (a.alloc k).2.holes, k ∣ s.size := by
  unfold alloc
  split
  · exact hd
  · rw [h.firstFit_eq]
    split
    · rename_i o holes hc
      exact Span.carve_dvd hd hc
    · split <;> exact hd

/-- The bytes in use, counted modulo the word size, are those of the blocks. -/
theorem Tiled.szAdd_used {a : Arena} {live : List Span} (h : a.Tiled live) {s : Span}
    (hle : Span.total (s :: live) ≤ a.cap) : szAdd a.used s.size = Span.total (s :: live) := by
  have hcap := h.cap_lt
  have hu := h.used_eq
  rw [Span.total_cons] at hle ⊢
  rw [szAdd_of_lt (by omega)]
  omega

/-- A request is served by a hole if one is large enough, and else comes to the bump pointer. -/
theorem Tiled.alloc_spec {a : Arena} {live : List Span} (h : a.Tiled live) {bytes : ℕ}
    (hb : 0 < bytes) :
    ((∃ s ∈ a.holes, bytes ≤ s.size) ∧ (a.alloc bytes).1 + bytes ≤ a.high ∧
      (a.alloc bytes).2.Tiled (⟨(a.alloc bytes).1, bytes⟩ :: live)) ∨
    (∀ s ∈ a.holes, s.size < bytes) ∧ a.alloc bytes =
      if szAdd a.high bytes ≤ a.cap then
        (a.high, { a with high := szAdd a.high bytes, used := szAdd a.used bytes })
      else (npos, a) := by
  have hfit := h.firstFit_eq bytes
  cases hc : Span.carve bytes a.holes with
  | some r =>
    obtain ⟨o, holes⟩ := r
    have ha : a.alloc bytes = (o, { a with holes := holes, used := szAdd a.used bytes }) := by
      simp only [alloc, hb.ne', if_false, hfit, hc]
    have ht := h.tiling.carved hb hc
    have hstop : o + bytes ≤ a.high := ht.live_le ⟨o, bytes⟩ (by simp)
    have htot : Span.total (⟨o, bytes⟩ :: live) ≤ a.high := ht.total_live_le
    obtain ⟨pre, s, post, hl, -, hs, -⟩ := Span.carve_spec hc
    refine Or.inl ⟨⟨s, by simp [hl], hs⟩, ?_⟩
    rw [ha]
    exact ⟨hstop, ht, h.high_le, h.cap_lt, h.szAdd_used (htot.trans h.high_le)⟩
  | none =>
    refine Or.inr ⟨Span.carve_eq_none.mp hc, ?_⟩
    simp only [alloc, hb.ne', if_false, hfit, hc]

/-- What a call of `alloc` does as long as a bump of the high-water mark does not wrap. -/
theorem Tiled.alloc_cases {a : Arena} {live : List Span} (h : a.Tiled live) {bytes : ℕ}
    (hb : 0 < bytes) (hw : (∀ s ∈ a.holes, s.size < bytes) → a.high + bytes < 2 ^ 64) :
    (a.Fits bytes ∧ (a.alloc bytes).1 + bytes ≤ a.cap ∧ (a.alloc bytes).1 ≠ npos ∧
      (a.alloc bytes).2.Tiled (⟨(a.alloc bytes).1, bytes⟩ :: live)) ∨
    (¬ a.Fits bytes ∧ a.alloc bytes = (npos, a)) := by
  have hhigh := h.high_le
  have hcap := h.cap_lt
  rcases h.alloc_spec hb with ⟨hfit, hle, ht⟩ | ⟨hholes, ha⟩
  · exact Or.inl ⟨Or.inl hfit, by omega, by simp only [npos]; omega, ht⟩
  · rw [szAdd_of_lt (hw hholes)] at ha
    by_cases hle : a.high + bytes ≤ a.cap
    · have htot : Span.total (⟨a.high, bytes⟩ :: live) ≤ a.high + bytes :=
        (h.tiling.grow hb).total_live_le
      rw [if_pos hle] at ha
      refine Or.inl ⟨Or.inr hle, ?_⟩
      rw [ha]
      refine ⟨hle, by simp only [npos]; omega, h.tiling.grow hb, hle, hcap, ?_⟩
      exact h.szAdd_used (htot.trans hle)
    · rw [if_neg hle] at ha
      refine Or.inr ⟨?_, ha⟩
      rintro (⟨s, hs, hle'⟩ | hle')
      · have := hholes s hs
        omega
      · exact hle hle'

end Arena
end Dee
