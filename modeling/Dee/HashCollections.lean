import Dee.UnorderedMap

/-! Sets and dictionaries over the hash map. A set may be iterated in any order; a
dictionary keeps the order in which its keys were first inserted. -/
namespace Dee

/-- New entries come last. -/
def IterationOrder.insertion (K V : Type*) : IterationOrder K V where
  rehash _ l := match l with
    | [] => []
    | e :: l => l ++ [e]
  perm _ l := by
    cases l with
    | nil => exact .nil
    | cons e l => exact List.perm_append_singleton e l

namespace UnorderedMap
variable {K V : Type*} [DecidableEq K]

/-- The empty dictionary. -/
def dict (K V : Type*) : UnorderedMap K V := empty (.insertion K V)

theorem find?_eq_some_or_none (m : UnorderedMap K V) (k : K) :
    m.find? k = none ∨ ∃ v, m.find? k = some v := by
  cases m.find? k with
  | none => exact Or.inl rfl
  | some v => exact Or.inr ⟨v, rfl⟩

theorem assign_of_find? {m : UnorderedMap K V} {k : K} {w : V} (h : m.find? k = some w) (v : V) :
    m.assign k v = m.modify k fun _ => v := by
  rw [assign, dif_neg]
  exact fun hno => hno _ (find?_eq_some.mp h) rfl

/-- What a key is bound to after an assignment, whether or not it was bound before. -/
theorem find?_set (m : UnorderedMap K V) (k : K) (v : V) (k' : K) :
    (m.assign k v).find? k' = if k' = k then some v else m.find? k' := by
  rcases m.find?_eq_some_or_none k with h | ⟨w, h⟩
  · exact find?_assign v h k'
  · rw [assign_of_find? h, find?_modify]
    by_cases hk : k' = k
    · subst hk
      simp [h]
    · simp [hk]

/-- Counting one more under a key adds one to the total. -/
theorem sum_assign_succ (m : UnorderedMap K ℕ) (k : K) :
    ((m.assign k ((m.find? k).getD 0 + 1)).entries.map Prod.snd).sum =
      (m.entries.map Prod.snd).sum + 1 := by
  rcases m.find?_eq_some_or_none k with h | ⟨n, h⟩
  · rw [h, ((assign_perm h).map Prod.snd).sum_eq]
    simp [Nat.add_comm]
  · have hmem := find?_eq_some.mp h
    have hperm := perm_erase hmem
    have hrest : (m.erase k).entries.map (fun e => if e.1 = k then (e.1, n + 1) else e) =
        (m.erase k).entries := by
      rw [List.map_congr_left fun e he => if_neg (mem_erase.mp he).2, List.map_id']
    rw [h, assign_of_find? h, Option.getD_some, modify,
      ((hperm.map fun e : K × ℕ => if e.1 = k then (e.1, n + 1) else e).map Prod.snd).sum_eq,
      (hperm.map Prod.snd).sum_eq]
    simp only [List.map_cons, if_true, hrest, List.sum_cons]
    omega

end UnorderedMap

/-- A set whose iteration order is not specified. -/
abbrev UnorderedSet (α : Type*) := UnorderedMap α Unit

namespace UnorderedSet
variable {α : Type*} [DecidableEq α]

omit [DecidableEq α] in
/-- The members in iteration order. -/
def members (s : UnorderedSet α) : List α := s.entries.map Prod.fst

omit [DecidableEq α] in
theorem members_nodup (s : UnorderedSet α) : s.members.Nodup := s.keys_nodup

def add (s : UnorderedSet α) (a : α) : UnorderedSet α := s.assign a ()

def discard (s : UnorderedSet α) (a : α) : UnorderedSet α := s.erase a

theorem mem_members {s : UnorderedSet α} {a : α} : a ∈ s.members ↔ s.find? a = some () := by
  rw [UnorderedMap.find?_eq_some, members, List.mem_map]
  constructor
  · rintro ⟨⟨b, u⟩, h, rfl⟩
    exact h
  · exact fun h => ⟨_, h, rfl⟩

@[simp] theorem mem_add {s : UnorderedSet α} {a b : α} :
    b ∈ (s.add a).members ↔ b = a ∨ b ∈ s.members := by
  rw [mem_members, mem_members, add, UnorderedMap.find?_set]
  split_ifs with h <;> simp [h]

@[simp] theorem mem_discard {s : UnorderedSet α} {a b : α} :
    b ∈ (s.discard a).members ↔ b ∈ s.members ∧ b ≠ a := by
  rw [mem_members, mem_members, discard, UnorderedMap.find?_erase]
  split_ifs with h <;> simp [h]

theorem add_perm {s : UnorderedSet α} {a : α} (h : a ∉ s.members) :
    (s.add a).members.Perm (a :: s.members) := by
  have hnone : s.find? a = none := by
    rcases s.find?_eq_some_or_none a with hn | ⟨u, hu⟩
    · exact hn
    · exact absurd (mem_members.mpr hu) h
  exact (UnorderedMap.assign_perm hnone).map Prod.fst

theorem discard_perm {s : UnorderedSet α} {a : α} (h : a ∈ s.members) :
    s.members.Perm (a :: (s.discard a).members) :=
  (UnorderedMap.perm_erase (UnorderedMap.find?_eq_some.mp (mem_members.mp h))).map Prod.fst

theorem length_add {s : UnorderedSet α} {a : α} (h : a ∉ s.members) :
    (s.add a).members.length = s.members.length + 1 := by
  simpa using (add_perm h).length_eq

theorem length_discard {s : UnorderedSet α} {a : α} (h : a ∈ s.members) :
    (s.discard a).members.length + 1 = s.members.length := by
  simpa using (discard_perm h).length_eq.symm

end UnorderedSet
end Dee
