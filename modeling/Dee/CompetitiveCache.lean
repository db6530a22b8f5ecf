import Dee.RecencyCache
import Mathlib.Data.Finset.Card

/-! The cache that gives up the key used longest ago, against a schedule that knows all
requests and may load what it likes in advance. The keys that only the cache holds pay for its
next misses, a recent key more than an old one. -/
namespace Dee.RecencyCache

variable {K P : Type*} [DecidableEq K]

/-- The sets that a schedule with room for `h` keys holds, one for each request. -/
def Serves (h : ℕ) (us : List K) (held : List (Finset K)) : Prop :=
  List.Forall₂ (fun k C => k ∈ C ∧ C.card ≤ h) us held

/-- The keys that a schedule loads, in advance or not. -/
def loads : Finset K → List (Finset K) → ℕ
  | _, [] => 0
  | C, D :: held => (D \ C).card + loads D held

/-- What the keys outside of `C` pay; the first key of the list pays `w`. -/
def charge (C : Finset K) : ℕ → List K → ℕ
  | _, [] => 0
  | w, k :: l => (if k ∈ C then 0 else w) + charge C (w + 1) l

/-- The keys of a list that a schedule does not hold. -/
def outside (C : Finset K) (l : List K) : ℕ := l.countP (· ∉ C)

section Charge
variable {C D : Finset K} {k : K}

theorem charge_succ (C : Finset K) (w : ℕ) (l : List K) :
    charge C (w + 1) l = charge C w l + outside C l := by
  induction l generalizing w with
  | nil => rfl
  | cons a l ih =>
    simp only [charge, outside, List.countP_cons] at ih ⊢
    rw [ih (w + 1)]
    by_cases ha : a ∈ C
    · simp [ha]
    · simp [ha]
      omega

theorem charge_concat (hk : k ∈ C) (w : ℕ) (l : List K) :
    charge C w (l ++ [k]) = charge C w l := by
  induction l generalizing w with
  | nil => simp [charge, hk]
  | cons a l ih => rw [List.cons_append, charge, charge, ih]

theorem charge_erase_le (C : Finset K) (k : K) (w : ℕ) (l : List K) :
    charge C w (l.erase k) ≤ charge C w l := by
  induction l generalizing w with
  | nil => exact le_rfl
  | cons a l ih =>
    by_cases ha : a = k
    · have hshift := charge_succ C w l
      rw [ha, List.erase_cons_head, charge]
      omega
    · rw [List.erase_cons_tail (by simpa using ha), charge, charge]
      exact Nat.add_le_add_left (ih (w + 1)) _

/-- A key that the schedule gives up begins to pay, but never more than `n`. -/
theorem charge_le_of_give_up {n : ℕ} {l : List K} {w : ℕ} (hw : w + l.length ≤ n + 1) :
    charge D w l ≤ charge C w l + n * l.countP (· ∈ C \ D) := by
  induction l generalizing w with
  | nil => exact Nat.zero_le _
  | cons a l ih =>
    rw [List.length_cons] at hw
    have hrest := ih (w := w + 1) (by omega)
    have hle : w ≤ n := by omega
    simp only [charge, List.countP_cons, Finset.mem_sdiff, decide_eq_true_eq] at hrest ⊢
    rw [Nat.mul_add]
    split_ifs <;> simp_all <;> omega

theorem countP_le_card {l : List K} (hl : l.Nodup) (S : Finset K) :
    l.countP (· ∈ S) ≤ S.card := by
  rw [List.countP_eq_length_filter, ← List.toFinset_card_of_nodup (hl.filter _)]
  refine Finset.card_le_card fun a ha => ?_
  exact of_decide_eq_true (List.mem_filter.mp (List.mem_toFinset.mp ha)).2

/-- A full list that misses a key of the schedule has a key for each of the places by which the
schedule is smaller, and one more. -/
theorem le_outside {l : List K} (hl : l.Nodup) (hk : k ∉ l) (hkC : k ∈ C) {h : ℕ}
    (hC : C.card ≤ h) : l.length + 1 ≤ outside C l + h := by
  have hinside := countP_le_card (hl.append (List.nodup_singleton k)
    (by simpa using fun h => hk h)) C
  rw [List.countP_append] at hinside
  have hsplit := List.length_eq_countP_add_countP (l := l) (fun a => decide (a ∈ C))
  have hone : [k].countP (· ∈ C) = 1 := by simp [hkC]
  simp only [decide_eq_true_eq] at hsplit
  unfold outside
  omega

end Charge

/-- What the invariant keeps: `missed` and `loaded` count the misses of the cache with `n` slots
and the loads of the schedule with `h`. -/
structure Amortized (n h : ℕ) (C : Finset K) (l : List K) (missed loaded : ℕ) : Prop where
  nodup : l.Nodup
  length_le : l.length ≤ n
  paid : (n - h + 1) * missed + charge C (n + 1 - l.length) l + n * C.card ≤
    n * loaded + (n - h + 1) * l.length

theorem amortized_nil (n h : ℕ) : Amortized n h (∅ : Finset K) [] 0 0 :=
  ⟨List.nodup_nil, Nat.zero_le n, by simp [charge]⟩

variable {n h missed loaded : ℕ} {C D : Finset K} {l : List K}

/-- The schedule moves first: a load pays for what it gives up. -/
theorem Amortized.move (hA : Amortized n h C l missed loaded) (D : Finset K) :
    Amortized n h D l missed (loaded + (D \ C).card) := by
  refine ⟨hA.nodup, hA.length_le, ?_⟩
  have hle := hA.length_le
  have hpaid := hA.paid
  have hcharge := charge_le_of_give_up (C := C) (D := D) (n := n) (l := l)
    (w := n + 1 - l.length) (by omega)
  have hgiven := Nat.mul_le_mul_left n (countP_le_card hA.nodup (C \ D))
  have hold := congrArg (n * ·) (Finset.card_sdiff_add_card_inter C D)
  have hnew := congrArg (n * ·) (Finset.card_sdiff_add_card_inter D C)
  rw [Finset.inter_comm] at hnew
  simp only [Nat.mul_add] at hold hnew ⊢
  omega

/-- A hit makes the other keys no younger. -/
theorem Amortized.bump (hA : Amortized n h C l missed loaded) {k : K} (hk : k ∈ C) (hmem : k ∈ l) :
    Amortized n h C (l.erase k ++ [k]) missed loaded := by
  have hpaid := hA.paid
  have hbump := length_bump hmem
  refine ⟨nodup_bump hA.nodup k, hbump.trans_le hA.length_le, ?_⟩
  have herase := charge_erase_le C k (n + 1 - l.length) l
  rw [hbump, charge_concat hk]
  omega

/-- The miss of a cache that is not full is paid by its place. -/
theorem Amortized.fill (hA : Amortized n h C l missed loaded) {k : K} (hk : k ∈ C) (hnew : k ∉ l)
    (hlt : l.length < n) : Amortized n h C (l ++ [k]) (missed + 1) loaded := by
  have hpaid := hA.paid
  have hlen : (l ++ [k]).length = l.length + 1 := by simp
  have hshift := charge_succ C (n - l.length) l
  have hw : n - l.length + 1 = n + 1 - l.length := by omega
  rw [hw] at hshift
  refine ⟨hA.nodup.append (List.nodup_singleton k) (by simpa using fun h => hnew h), by omega, ?_⟩
  rw [hlen, charge_concat hk, Nat.add_sub_add_right, Nat.mul_add, Nat.mul_add]
  omega

/-- The miss of a full cache is paid by the keys that the schedule does not hold: all of them
get older. -/
theorem Amortized.evict {v k : K} {t : List K} (hA : Amortized n h C (v :: t) missed loaded)
    (hk : k ∈ C) (hnew : k ∉ v :: t) (hC : C.card ≤ h) (hle : h ≤ n)
    (hfull : (v :: t).length = n) : Amortized n h C (t ++ [k]) (missed + 1) loaded := by
  have hpaid := hA.paid
  have hout := le_outside hA.nodup hnew hk hC
  have hshift := charge_succ C 1 t
  have hlen : (t ++ [k]).length = n := by
    rw [List.length_append, List.length_singleton]
    exact hfull
  have hone : n + 1 - n = 1 := by omega
  have hcount : outside C (v :: t) = (if v ∈ C then 0 else 1) + outside C t := by
    unfold outside
    by_cases hv : v ∈ C
    · simp [hv]
    · simp [hv, Nat.add_comm]
  rw [hfull, hone, charge] at hpaid
  rw [hfull, hcount] at hout
  refine ⟨(List.nodup_cons.mp hA.nodup).2.append (List.nodup_singleton k)
    (by simpa using fun h => hnew (List.mem_cons_of_mem v h)), hlen.le, ?_⟩
  rw [hlen, hone, charge_concat hk, Nat.mul_add]
  omega

/-- The cache serves a request that the schedule serves as well. -/
theorem Amortized.serve [LinearOrder P] (hA : Amortized n h C l missed loaded) (hn : 0 < n)
    (p : P) {k : K} (hk : k ∈ C) (hC : C.card ≤ h) (hle : h ≤ n) :
    Amortized n h C (step (fun _ => p) n l (.use k)) (missed + if k ∈ l then 0 else 1) loaded := by
  simp only [step]
  by_cases hmem : k ∈ l
  · rw [if_pos hmem, if_pos hmem]
    exact hA.bump hk hmem
  · rw [if_neg hmem, if_neg hmem, makeRoom]
    by_cases hlt : l.length < n
    · rw [if_pos hlt]
      exact hA.fill hk hmem hlt
    · rw [if_neg hlt]
      cases l with
      | nil => exact absurd hn hlt
      | cons v t =>
        have hmin : (v :: t).argmin (fun _ => p) = some v :=
          @argmin_of_split K P _ (fun _ => p) [] t v (by simp) (by simp)
        rw [hmin]
        dsimp only
        rw [List.erase_cons_head]
        exact hA.evict hk hmem hC hle (hA.length_le.antisymm (not_lt.mp hlt))

/-- What the invariant says of the counts alone. -/
theorem Amortized.missed_le (hA : Amortized n h C l missed loaded) :
    (n - h + 1) * missed ≤ n * loaded + (n - h + 1) * n := by
  have hpaid := hA.paid
  have hlen := Nat.mul_le_mul_left (n - h + 1) hA.length_le
  omega

end Dee.RecencyCache
