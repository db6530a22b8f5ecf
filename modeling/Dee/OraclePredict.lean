import Dee.CountedLoops
import Dee.OracleForward

/-! The prediction of the Oracle: the indices of the experts, sorted by their logits, cut
after `topk`. `std::sort` is whatever returns a sorted permutation. -/
namespace Dee
open CountedLoops

/-! The order of the floats, on bits -/

def isNaN (v : UInt32) : Bool := decide (0x7f800000 < v.toNat % 0x80000000)

/-- The bits as an integer in the order of the floats; the zeros agree. -/
def floatKey (v : UInt32) : ℤ := if v < 0x80000000 then v.toNat else 0x80000000 - v.toNat

/-- `a < b` on floats. -/
def floatLt (a b : UInt32) : Bool := !isNaN a && !isNaN b && decide (floatKey a < floatKey b)

/-- `a <= b` on floats. -/
def floatLe (a b : UInt32) : Bool := !isNaN a && !isNaN b && decide (floatKey a ≤ floatKey b)

/-- Without NaN, what is not smaller is at least as large. -/
theorem floatLt_eq_false_iff {a b : UInt32} (ha : isNaN a = false) (hb : isNaN b = false) :
    floatLt a b = false ↔ floatLe b a = true := by
  simp [floatLt, floatLe, ha, hb]

/-! Sorting with a comparator -/

/-- A strict weak order on the elements of a list, as `std::sort` asks for. -/
structure StrictWeak {α : Type} (lt : α → α → Bool) (l : List α) : Prop where
  irrefl : ∀ a ∈ l, lt a a = false
  trans : ∀ a ∈ l, ∀ b ∈ l, ∀ c ∈ l, lt a b = true → lt b c = true → lt a c = true
  weak : ∀ a ∈ l, ∀ b ∈ l, ∀ c ∈ l, lt a b = false → lt b c = false → lt a c = false

/-- What `std::sort` promises: a permutation without an inversion. -/
def Sorts {α : Type} (sort : (α → α → Bool) → List α → List α) : Prop :=
  ∀ lt l, StrictWeak lt l → (sort lt l).Perm l ∧ (sort lt l).Pairwise fun a b => lt b a = false

/-- A sort of the elements of the list. -/
def sortElements {α : Type} (lt : α → α → Bool) (l : List α) : List α :=
  (l.attach.mergeSort fun a b => !lt b.1 a.1).map Subtype.val

theorem sorts_sortElements {α : Type} : Sorts (@sortElements α) := by
  intro lt l hweak
  have htrans : ∀ a b c : { x // x ∈ l },
      (!lt b.1 a.1) = true → (!lt c.1 b.1) = true → (!lt c.1 a.1) = true := by
    intro a b c hab hbc
    rw [Bool.not_eq_true'] at *
    exact hweak.weak c.1 c.2 b.1 b.2 a.1 a.2 hbc hab
  have htotal : ∀ a b : { x // x ∈ l }, (!lt b.1 a.1 || !lt a.1 b.1) = true := by
    intro a b
    cases hba : lt b.1 a.1 with
    | false => rfl
    | true =>
      cases hab : lt a.1 b.1 with
      | false => rfl
      | true =>
        have haa := hweak.trans a.1 a.2 b.1 b.2 a.1 a.2 hab hba
        rw [hweak.irrefl a.1 a.2] at haa
        cases haa
  constructor
  · have hperm := (List.mergeSort_perm l.attach fun a b => !lt b.1 a.1).map Subtype.val
    rwa [List.attach_map_subtype_val] at hperm
  · rw [sortElements, List.pairwise_map]
    refine (List.pairwise_mergeSort htrans htotal l.attach).imp fun hab => ?_
    rwa [Bool.not_eq_true'] at hab

namespace OracleScheduler

/-- The comparator: a larger logit first. -/
def largerLogit (logits : List UInt32) (a b : ℕ) : Bool :=
  match logits[a]?, logits[b]? with
  | some x, some y => floatLt y x
  | _, _ => false

/-- `predict`; `none` is an index outside a vector. -/
def predict (ops : FloatOps) (sort : (ℕ → ℕ → Bool) → List ℕ → List ℕ) (o : OracleScheduler)
    (layer : ℕ) (hidden : List UInt32) (topk : ℤ) : Option (List ℕ) := do
  let logits ← o.forward ops layer hidden
  let idx := sort (largerLogit logits) (List.range o.E.toNat)
  (List.range (min topk o.E).toNat).mapM fun i => idx[i]?

section Comparator
variable {logits : List UInt32}

theorem largerLogit_eq {a b : ℕ} (ha : a < logits.length) (hb : b < logits.length) :
    largerLogit logits a b = floatLt (logits.getD b 0) (logits.getD a 0) := by
  simp [largerLogit, ha, hb]

theorem getD_not_isNaN (hnan : ∀ v ∈ logits, isNaN v = false) {a : ℕ} (ha : a < logits.length) :
    isNaN (logits.getD a 0) = false := by
  rw [List.getD_eq_getElem _ _ ha]
  exact hnan _ (List.getElem_mem ha)

theorem largerLogit_eq_false_iff (hnan : ∀ v ∈ logits, isNaN v = false) {a b : ℕ}
    (ha : a < logits.length) (hb : b < logits.length) :
    largerLogit logits a b = false ↔ floatLe (logits.getD a 0) (logits.getD b 0) = true := by
  rw [largerLogit_eq ha hb]
  exact floatLt_eq_false_iff (getD_not_isNaN hnan hb) (getD_not_isNaN hnan ha)

/-- Without NaN the comparator is one that `std::sort` accepts. -/
theorem strictWeak_largerLogit (hnan : ∀ v ∈ logits, isNaN v = false) :
    StrictWeak (largerLogit logits) (List.range logits.length) := by
  have hkey : ∀ a ∈ List.range logits.length, ∀ b ∈ List.range logits.length,
      largerLogit logits a b =
        decide (floatKey (logits.getD b 0) < floatKey (logits.getD a 0)) := by
    intro a ha b hb
    have ha := List.mem_range.mp ha
    have hb := List.mem_range.mp hb
    rw [largerLogit_eq ha hb, floatLt, getD_not_isNaN hnan ha, getD_not_isNaN hnan hb]
    rfl
  constructor
  · intro a ha
    rw [hkey a ha a ha]
    simp
  · intro a ha b hb c hc hab hbc
    rw [hkey a ha b hb, decide_eq_true_eq] at hab
    rw [hkey b hb c hc, decide_eq_true_eq] at hbc
    rw [hkey a ha c hc, decide_eq_true_eq]
    exact hbc.trans hab
  · intro a ha b hb c hc hab hbc
    rw [hkey a ha b hb, decide_eq_false_iff_not, not_lt] at hab
    rw [hkey b hb c hc, decide_eq_false_iff_not, not_lt] at hbc
    rw [hkey a ha c hc, decide_eq_false_iff_not, not_lt]
    exact hab.trans hbc

end Comparator

section Predict
variable {ops : FloatOps} {o : OracleScheduler} {layer : ℕ} {hidden logits : List UInt32}
  {sort : (ℕ → ℕ → Bool) → List ℕ → List ℕ}

theorem length_of_mapM {α β : Type} {f : α → Option β} {xs : List α} {ys : List β}
    (h : xs.mapM f = some ys) : ys.length = xs.length := by
  induction xs generalizing ys with
  | nil =>
    cases h
    rfl
  | cons x xs ih =>
    simp only [List.mapM_cons, Option.bind_eq_bind, Option.bind_eq_some_iff, Option.pure_def,
      Option.some.injEq] at h
    obtain ⟨y, -, ys', hys, rfl⟩ := h
    rw [List.length_cons, List.length_cons, ih hys]

theorem linear_length {W b x y : List UInt32} {cols rows : ℤ}
    (h : linear ops W b x cols rows = some y) : (y.length : ℤ) = rows := by
  rw [linear] at h
  split_ifs at h with hrows
  have hlen := length_of_mapM h
  rw [List.length_range] at hlen
  omega

/-- One logit for each expert. -/
theorem forward_length (h : o.forward ops layer hidden = some logits) :
    (logits.length : ℤ) = o.E := by
  simp only [forward, Option.bind_eq_bind, Option.bind_eq_some_iff] at h
  obtain ⟨w, -, h1, -, h2, -, h3⟩ := h
  exact linear_length h3

/-- The loop over the sorted indices stays inside them: it copies a prefix. -/
theorem predict_eq_take (hsort : Sorts sort) (hforward : o.forward ops layer hidden = some logits)
    (hnan : ∀ v ∈ logits, isNaN v = false) (topk : ℤ) :
    o.predict ops sort layer hidden topk = some
      ((sort (largerLogit logits) (List.range logits.length)).take (min topk o.E).toNat) := by
  have hlen := forward_length hforward
  have hE : o.E.toNat = logits.length := by omega
  obtain ⟨hperm, -⟩ := hsort _ _ (strictWeak_largerLogit hnan)
  have hsize := hperm.length_eq
  rw [List.length_range] at hsize
  rw [predict, hforward, Option.bind_eq_bind, Option.bind_some, hE]
  exact mapM_range_getElem? (by omega)

/-- The prediction holds the `topk` experts of the largest logits, the largest first. -/
theorem predict_topk (hsort : Sorts sort) (hforward : o.forward ops layer hidden = some logits)
    (hnan : ∀ v ∈ logits, isNaN v = false) (topk : ℤ) :
    ∃ out, o.predict ops sort layer hidden topk = some out ∧
      (out.length : ℤ) = max 0 (min topk o.E) ∧ out.Nodup ∧ (∀ i ∈ out, (i : ℤ) < o.E) ∧
      out.Pairwise (fun i j => floatLe (logits.getD j 0) (logits.getD i 0) = true) ∧
      ∀ i : ℕ, (i : ℤ) < o.E → i ∉ out →
        ∀ j ∈ out, floatLe (logits.getD i 0) (logits.getD j 0) = true := by
  have hlen := forward_length hforward
  obtain ⟨hperm, hsorted⟩ := hsort _ _ (strictWeak_largerLogit hnan)
  refine ⟨_, predict_eq_take hsort hforward hnan topk, ?_⟩
  generalize sort (largerLogit logits) (List.range logits.length) = idx at hperm hsorted
  generalize hk : (min topk o.E).toNat = k
  have hmem : ∀ i, i ∈ idx ↔ i < logits.length := fun i => by rw [hperm.mem_iff, List.mem_range]
  have hin : ∀ i ∈ idx.take k, i < logits.length := fun i hi =>
    (hmem i).mp (List.mem_of_mem_take hi)
  refine ⟨?_, ?_, ?_, ?_, ?_⟩
  · have hsize := hperm.length_eq
    rw [List.length_range] at hsize
    rw [List.length_take]
    omega
  · exact (hperm.nodup_iff.mpr List.nodup_range).sublist (List.take_sublist k idx)
  · intro i hi
    have hi := hin i hi
    omega
  · refine (hsorted.sublist (List.take_sublist k idx)).imp_of_mem fun hi hj hij => ?_
    exact (largerLogit_eq_false_iff hnan (hin _ hj) (hin _ hi)).mp hij
  · intro i hi hout j hj
    have hi : i < logits.length := by omega
    have hdrop : i ∈ idx.drop k := by
      have hidx := (hmem i).mpr hi
      rw [← List.take_append_drop k idx, List.mem_append] at hidx
      exact hidx.resolve_left hout
    rw [← List.take_append_drop k idx, List.pairwise_append] at hsorted
    exact (largerLogit_eq_false_iff hnan hi (hin j hj)).mp (hsorted.2.2 j hj i hdrop)

end Predict

/-- Sums with zero and products with one, which need no rounding. -/
def exactOps : FloatOps where
  add a b := if a = 0 then b else a
  mul a b := if a = 0x3f800000 then b else if b = 0x3f800000 then a else 0

/-- Three experts; for the hidden vector `[1]` their logits are 1, 3 and 2. -/
def threeExperts : OracleScheduler :=
  ⟨1, 1, 3, [⟨[0x3f800000], [], [0x3f800000], [], [0x3f800000, 0x40400000, 0x40000000], []⟩]⟩

theorem forward_threeExperts : threeExperts.forward exactOps 0 [0x3f800000] =
    some [0x3f800000, 0x40400000, 0x40000000] := by decide

theorem predict_topk_two : ∃ out,
    threeExperts.predict exactOps sortElements 0 [0x3f800000] 2 = some out ∧
      (out.length : ℤ) = max 0 (min 2 3) ∧ out.Nodup ∧ (∀ i ∈ out, (i : ℤ) < 3) ∧
      out.Pairwise (fun i j => floatLe ([0x3f800000, 0x40400000, 0x40000000].getD j 0)
        ([0x3f800000, 0x40400000, 0x40000000].getD i 0) = true) ∧
      ∀ i : ℕ, (i : ℤ) < 3 → i ∉ out → ∀ j ∈ out,
        floatLe ([0x3f800000, 0x40400000, 0x40000000].getD i 0)
          ([0x3f800000, 0x40400000, 0x40000000].getD j 0) = true :=
  predict_topk sorts_sortElements forward_threeExperts (by simp [isNaN]) 2

end OracleScheduler
end Dee
