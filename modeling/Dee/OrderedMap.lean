import Mathlib

/-! A map kept as a list of entries in increasing order of their keys. -/
namespace Dee.OrderedMap
variable {K V : Type*}

/-- The value of the first entry with the key. -/
def find? [DecidableEq K] (k : K) (l : List (K × V)) : Option V :=
  (l.find? fun e => e.1 = k).map Prod.snd

/-- The keys increase along the list. -/
def Sorted [LT K] (l : List (K × V)) : Prop := l.Pairwise fun a b => a.1 < b.1

theorem mem_keys_of_find? [DecidableEq K] {k : K} {v : V} {l : List (K × V)}
    (h : find? k l = some v) : k ∈ l.map Prod.fst := by
  obtain ⟨e, he, -⟩ := Option.map_eq_some_iff.mp h
  have hkey := List.find?_some he
  exact List.mem_map.mpr ⟨e, List.mem_of_find?_eq_some he, of_decide_eq_true hkey⟩

variable [LinearOrder K]

/-- Set the value of a key. -/
def assign (k : K) (v : V) : List (K × V) → List (K × V)
  | [] => [(k, v)]
  | e :: l =>
    if k < e.1 then (k, v) :: e :: l
    else if k = e.1 then (k, v) :: l
    else e :: assign k v l

theorem find?_cons (k : K) (e : K × V) (l : List (K × V)) :
    find? k (e :: l) = if e.1 = k then some e.2 else find? k l := by
  simp only [find?, List.find?_cons]
  by_cases h : e.1 = k <;> simp [h]

theorem find?_assign (k k' : K) (v : V) (l : List (K × V)) :
    find? k' (assign k v l) = if k = k' then some v else find? k' l := by
  induction l with
  | nil => simp [assign, find?]
  | cons e l ih =>
    by_cases hlt : k < e.1
    · rw [assign, if_pos hlt, find?_cons]
    · by_cases heq : k = e.1
      · rw [assign, if_neg hlt, if_pos heq, find?_cons, find?_cons, ← heq]
        split_ifs <;> rfl
      · rw [assign, if_neg hlt, if_neg heq, find?_cons, find?_cons, ih]
        by_cases h : e.1 = k'
        · rw [if_pos h, if_pos h, if_neg fun hk => heq (hk.trans h.symm)]
        · rw [if_neg h, if_neg h]

/-- Set the values of several keys, in their order. -/
def assignAll (l es : List (K × V)) : List (K × V) :=
  es.foldl (fun l e => assign e.1 e.2 l) l

theorem find?_assignAll_of_not_mem {k : K} {es : List (K × V)} (h : k ∉ es.map Prod.fst)
    (l : List (K × V)) : find? k (assignAll l es) = find? k l := by
  induction es generalizing l with
  | nil => rfl
  | cons e es ih =>
    rw [List.map_cons, List.mem_cons, not_or] at h
    have hrest := ih h.2 (assign e.1 e.2 l)
    rw [find?_assign, if_neg (Ne.symm h.1)] at hrest
    exact hrest

theorem mem_keys_of_find?_assignAll {k : K} {v : V} {es : List (K × V)}
    (h : find? k (assignAll [] es) = some v) : k ∈ es.map Prod.fst := by
  by_contra hnot
  rw [find?_assignAll_of_not_mem hnot] at h
  cases h

/-- A key that gets the same value each time has it in the end. -/
theorem find?_assignAll {k : K} {v : V} {es : List (K × V)} (hall : ∀ e ∈ es, e.1 = k → e.2 = v)
    {l : List (K × V)} (h : (∃ e ∈ es, e.1 = k) ∨ find? k l = some v) :
    find? k (assignAll l es) = some v := by
  induction es generalizing l with
  | nil =>
    rcases h with ⟨e, he, -⟩ | h
    · cases he
    · exact h
  | cons e es ih =>
    obtain ⟨he, hes⟩ := List.forall_mem_cons.mp hall
    apply ih hes
    rw [find?_assign]
    by_cases hk : e.1 = k
    · exact Or.inr (by rw [if_pos hk, he hk])
    · rw [if_neg hk]
      refine h.imp_left ?_
      rintro ⟨e', he', hk'⟩
      rcases List.mem_cons.mp he' with rfl | he'
      · exact absurd hk' hk
      · exact ⟨e', he', hk'⟩

theorem find?_assignAll_of_mem {k : K} {v : V} {es : List (K × V)}
    (hnodup : (es.map Prod.fst).Nodup) (h : (k, v) ∈ es) (l : List (K × V)) :
    find? k (assignAll l es) = some v := by
  refine find?_assignAll (fun e he hk => ?_) (Or.inl ⟨_, h, rfl⟩)
  have heq := List.inj_on_of_nodup_map hnodup he h hk
  rw [heq]

/-- Distinct keys keep their values. -/
theorem find?_assignAll_nodup {es : List (K × V)} (hnodup : (es.map Prod.fst).Nodup) (k : K) :
    find? k (assignAll [] es) = find? k es := by
  cases hfind : find? k es with
  | none =>
    apply find?_assignAll_of_not_mem
    intro hk
    obtain ⟨e, he, rfl⟩ := List.mem_map.mp hk
    rw [find?, Option.map_eq_none_iff, List.find?_eq_none] at hfind
    exact hfind e he (decide_eq_true rfl)
  | some v =>
    obtain ⟨e, he, rfl⟩ := Option.map_eq_some_iff.mp hfind
    have hsome := List.find?_some he
    have hkey : e.1 = k := of_decide_eq_true hsome
    exact hkey ▸ find?_assignAll_of_mem hnodup (List.mem_of_find?_eq_some he) []

theorem mem_assign {k : K} {v : V} {e : K × V} {l : List (K × V)} (h : e ∈ assign k v l) :
    e = (k, v) ∨ e ∈ l := by
  induction l with
  | nil => exact Or.inl (List.mem_singleton.mp h)
  | cons a l ih =>
    simp only [assign] at h
    split_ifs at h
    · exact List.mem_cons.mp h
    · rcases List.mem_cons.mp h with h | h
      · exact Or.inl h
      · exact Or.inr (List.mem_cons_of_mem _ h)
    · rcases List.mem_cons.mp h with rfl | h
      · exact Or.inr List.mem_cons_self
      · exact (ih h).imp_right (List.mem_cons_of_mem _)

theorem Sorted.assign {l : List (K × V)} (h : Sorted l) (k : K) (v : V) :
    Sorted (OrderedMap.assign k v l) := by
  induction l with
  | nil => exact List.pairwise_singleton _ _
  | cons e l ih =>
    obtain ⟨hhead, htail⟩ := List.pairwise_cons.mp h
    simp only [OrderedMap.assign]
    split_ifs with hlt heq
    · refine List.pairwise_cons.mpr ⟨fun a ha => ?_, h⟩
      rcases List.mem_cons.mp ha with rfl | ha
      · exact hlt
      · exact hlt.trans (hhead a ha)
    · exact List.pairwise_cons.mpr ⟨fun a ha => heq ▸ hhead a ha, htail⟩
    · refine List.pairwise_cons.mpr ⟨fun a ha => ?_, ih htail⟩
      rcases mem_assign ha with rfl | ha
      · exact lt_of_le_of_ne (not_lt.mp hlt) (Ne.symm heq)
      · exact hhead a ha

theorem Sorted.assignAll {l : List (K × V)} (h : Sorted l) (es : List (K × V)) :
    Sorted (OrderedMap.assignAll l es) := by
  induction es generalizing l with
  | nil => exact h
  | cons e es ih => exact ih (h.assign e.1 e.2)

/-- Each key has one entry. -/
theorem Sorted.find?_eq_some {l : List (K × V)} (h : Sorted l) {k : K} {v : V} :
    find? k l = some v ↔ (k, v) ∈ l := by
  induction l with
  | nil => simp [find?]
  | cons e l ih =>
    obtain ⟨hhead, htail⟩ := List.pairwise_cons.mp h
    rw [find?_cons, List.mem_cons]
    split_ifs with hk
    · subst hk
      constructor
      · intro hv
        cases hv
        exact Or.inl rfl
      · rintro (he | he)
        · rw [← he]
        · exact absurd (hhead _ he) (lt_irrefl _)
    · rw [ih htail]
      constructor
      · exact Or.inr
      · rintro (he | he)
        · exact absurd (by rw [← he]) hk
        · exact he

/-- The size of a map is the number of its keys. -/
theorem Sorted.length_eq {l : List (K × V)} (h : Sorted l) {ks : List K} (hnodup : ks.Nodup)
    (hks : ∀ k, k ∈ ks ↔ ∃ v, find? k l = some v) : l.length = ks.length := by
  have hkeys : (l.map Prod.fst).Nodup :=
    List.pairwise_map.mpr (h.imp fun hab => ne_of_lt hab)
  have hperm : (l.map Prod.fst).Perm ks := by
    refine (List.perm_ext_iff_of_nodup hkeys hnodup).mpr fun k => ?_
    rw [hks, List.mem_map]
    constructor
    · rintro ⟨e, he, rfl⟩
      exact ⟨e.2, h.find?_eq_some.mpr he⟩
    · rintro ⟨v, hv⟩
      exact ⟨_, h.find?_eq_some.mp hv, rfl⟩
  rw [← hperm.length_eq, List.length_map]

/-- A map that is built from the entries of another one, in any order. -/
theorem Sorted.find?_assignAll_perm {W : Type*} {l : List (K × V)} (h : Sorted l) (g : V → W)
    {es : List (K × W)} (hes : es.Perm (l.map fun e => (e.1, g e.2))) (k : K) :
    find? k (OrderedMap.assignAll [] es) = (find? k l).map g := by
  have hkeys : (es.map Prod.fst).Perm (l.map Prod.fst) := by
    have hmap := hes.map Prod.fst
    rwa [List.map_map] at hmap
  have hnodup : (es.map Prod.fst).Nodup :=
    hkeys.nodup_iff.mpr (List.pairwise_map.mpr (h.imp fun hab => ne_of_lt hab))
  cases hfind : find? k l with
  | some v =>
    have hmem : (k, g v) ∈ l.map fun e => (e.1, g e.2) :=
      List.mem_map.mpr ⟨_, h.find?_eq_some.mp hfind, rfl⟩
    exact find?_assignAll_of_mem hnodup (hes.mem_iff.mpr hmem) []
  | none =>
    refine find?_assignAll_of_not_mem (fun hk => ?_) []
    obtain ⟨e, he, rfl⟩ := List.mem_map.mp (hkeys.mem_iff.mp hk)
    have hsome := h.find?_eq_some.mpr he
    rw [hfind] at hsome
    cases hsome

end Dee.OrderedMap
