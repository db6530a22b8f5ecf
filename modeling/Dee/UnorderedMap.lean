import Mathlib

/-! A hash map whose iteration order is not specified. The entries are kept in
their present iteration order; inserting a new key may reorder all of them, by an
arbitrary function of the number of insertions so far, and every other operation
keeps the order of what remains. -/
namespace Dee

/-- How a hash map orders its entries after its `n`-th insertion. -/
structure IterationOrder (K V : Type*) where
  rehash : ℕ → List (K × V) → List (K × V)
  perm : ∀ n l, (rehash n l).Perm l

/-- New entries come first and nothing is ever reordered. -/
def IterationOrder.newestFirst (K V : Type*) : IterationOrder K V :=
  ⟨fun _ l => l, fun _ _ => .refl _⟩

structure UnorderedMap (K V : Type*) where
  entries : List (K × V)
  keys_nodup : (entries.map Prod.fst).Nodup
  inserts : ℕ
  order : IterationOrder K V

namespace UnorderedMap
variable {K V : Type*} [DecidableEq K]

omit [DecidableEq K] in
theorem entry_unique (m : UnorderedMap K V) {k : K} {v w : V}
    (hv : (k, v) ∈ m.entries) (hw : (k, w) ∈ m.entries) : v = w := by
  have h := List.inj_on_of_nodup_map m.keys_nodup hv hw rfl
  exact congrArg Prod.snd h

omit [DecidableEq K] in
theorem entries_nodup (m : UnorderedMap K V) : m.entries.Nodup := m.keys_nodup.of_map

def empty (order : IterationOrder K V) : UnorderedMap K V := ⟨[], by simp, 0, order⟩

def find? (m : UnorderedMap K V) (k : K) : Option V :=
  (m.entries.find? (fun e => e.1 = k)).map Prod.snd

theorem find?_eq_some {m : UnorderedMap K V} {k : K} {v : V} :
    m.find? k = some v ↔ (k, v) ∈ m.entries := by
  constructor
  · intro h
    obtain ⟨⟨k', v'⟩, he, rfl⟩ := Option.map_eq_some_iff.mp h
    have hk := List.find?_some he
    simp only [decide_eq_true_eq] at hk
    subst hk
    exact List.mem_of_find?_eq_some he
  · intro h
    cases hf : m.entries.find? (fun e => e.1 = k) with
    | none => simpa using List.find?_eq_none.mp hf (k, v) h
    | some e =>
      have hk := List.find?_some hf
      simp only [decide_eq_true_eq] at hk
      have hm : (k, e.2) ∈ m.entries := hk ▸ List.mem_of_find?_eq_some hf
      simp [find?, hf, m.entry_unique hm h]

theorem find?_eq_none {m : UnorderedMap K V} {k : K} :
    m.find? k = none ↔ ∀ e ∈ m.entries, e.1 ≠ k := by
  simp [find?]

/-- Write through the address of a stored value. -/
def modify (m : UnorderedMap K V) (k : K) (f : V → V) : UnorderedMap K V where
  entries := m.entries.map fun e => if e.1 = k then (e.1, f e.2) else e
  keys_nodup := by
    have h : ((m.entries.map fun e => if e.1 = k then (e.1, f e.2) else e).map Prod.fst) =
        m.entries.map Prod.fst := by
      rw [List.map_map]
      exact List.map_congr_left fun e _ => by
        dsimp only [Function.comp]
        split_ifs <;> rfl
    rw [h]
    exact m.keys_nodup
  inserts := m.inserts
  order := m.order

def erase (m : UnorderedMap K V) (k : K) : UnorderedMap K V where
  entries := m.entries.filter fun e => e.1 ≠ k
  keys_nodup := m.keys_nodup.sublist (List.filter_sublist.map _)
  inserts := m.inserts
  order := m.order

omit [DecidableEq K] in
/-- Insertion of a key that is not present. -/
def insertNew (m : UnorderedMap K V) (k : K) (v : V) (h : ∀ e ∈ m.entries, e.1 ≠ k) :
    UnorderedMap K V where
  entries := m.order.rehash m.inserts ((k, v) :: m.entries)
  keys_nodup := by
    rw [((m.order.perm _ _).map Prod.fst).nodup_iff, List.map_cons, List.nodup_cons]
    refine ⟨fun hm => ?_, m.keys_nodup⟩
    obtain ⟨e, he, hk⟩ := List.mem_map.mp hm
    exact h e he hk
  inserts := m.inserts + 1
  order := m.order

/-- The assignment `m[k] = v`. -/
def assign (m : UnorderedMap K V) (k : K) (v : V) : UnorderedMap K V :=
  if h : ∀ e ∈ m.entries, e.1 ≠ k then m.insertNew k v h else m.modify k fun _ => v

def clear (m : UnorderedMap K V) : UnorderedMap K V where
  entries := []
  keys_nodup := by simp
  inserts := m.inserts
  order := m.order

theorem mem_modify {m : UnorderedMap K V} {k k' : K} {f : V → V} {v : V} :
    (k', v) ∈ (m.modify k f).entries ↔
      ∃ w, (k', w) ∈ m.entries ∧ v = if k' = k then f w else w := by
  simp only [modify, List.mem_map]
  constructor
  · rintro ⟨⟨k₀, w⟩, hm, he⟩
    split_ifs at he with hk
    · cases he
      exact ⟨w, hm, (if_pos hk).symm⟩
    · cases he
      exact ⟨v, hm, (if_neg hk).symm⟩
  · rintro ⟨w, hm, rfl⟩
    refine ⟨(k', w), hm, ?_⟩
    dsimp only
    split_ifs <;> rfl

/-- Writing through an address just before erasing the key leaves no trace. -/
theorem erase_modify (m : UnorderedMap K V) (k : K) (f : V → V) :
    (m.modify k f).erase k = m.erase k := by
  have h : (m.entries.map fun e => if e.1 = k then (e.1, f e.2) else e).filter
      (fun e => e.1 ≠ k) = m.entries.filter fun e => e.1 ≠ k := by
    induction m.entries with
    | nil => rfl
    | cons e l ih =>
      simp only [ne_eq, decide_not] at ih
      by_cases hk : e.1 = k <;> simp [hk, ih]
  simp only [erase, modify, h]

theorem mem_erase {m : UnorderedMap K V} {k : K} {e : K × V} :
    e ∈ (m.erase k).entries ↔ e ∈ m.entries ∧ e.1 ≠ k := by
  simp [erase, List.mem_filter]

theorem assign_perm {m : UnorderedMap K V} {k : K} {v : V} (h : m.find? k = none) :
    (m.assign k v).entries.Perm ((k, v) :: m.entries) := by
  have hk := find?_eq_none.mp h
  simp only [assign, dif_pos hk, insertNew]
  exact m.order.perm _ _

theorem mem_assign {m : UnorderedMap K V} {k : K} {v : V} (h : m.find? k = none) {e : K × V} :
    e ∈ (m.assign k v).entries ↔ e = (k, v) ∨ e ∈ m.entries := by
  rw [(assign_perm h).mem_iff, List.mem_cons]

/-- Erasing a stored key removes exactly its entry. -/
theorem perm_erase {m : UnorderedMap K V} {k : K} {v : V} (h : (k, v) ∈ m.entries) :
    m.entries.Perm ((k, v) :: (m.erase k).entries) := by
  classical
  refine (List.perm_ext_iff_of_nodup m.entries_nodup ?_).mpr fun e => ?_
  · refine List.nodup_cons.mpr ⟨fun hm => (mem_erase.mp hm).2 rfl, (m.erase k).entries_nodup⟩
  · rw [List.mem_cons, mem_erase]
    constructor
    · intro he
      by_cases hk : e.1 = k
      · left
        have hm : (k, e.2) ∈ m.entries := hk ▸ he
        rw [← m.entry_unique hm h, ← hk]
      · exact Or.inr ⟨he, hk⟩
    · rintro (rfl | he)
      · exact h
      · exact he.1

theorem length_erase {m : UnorderedMap K V} {k : K} {v : V} (h : (k, v) ∈ m.entries) :
    (m.erase k).entries.length + 1 = m.entries.length := by
  simpa using (perm_erase h).length_eq.symm

theorem length_assign {m : UnorderedMap K V} {k : K} {v : V} (h : m.find? k = none) :
    (m.assign k v).entries.length = m.entries.length + 1 := by
  simpa using (assign_perm h).length_eq

theorem find?_erase (m : UnorderedMap K V) (k k' : K) :
    (m.erase k).find? k' = if k' = k then none else m.find? k' := by
  refine Option.ext fun v => ?_
  split_ifs with hk <;> simp [find?_eq_some, mem_erase, hk]

theorem find?_modify (m : UnorderedMap K V) (k k' : K) (f : V → V) :
    (m.modify k f).find? k' = if k' = k then (m.find? k').map f else m.find? k' := by
  refine Option.ext fun v => ?_
  rw [find?_eq_some, mem_modify]
  split_ifs with hk
  · simp only [Option.map_eq_some_iff, find?_eq_some, @eq_comm _ v]
  · simp [find?_eq_some]

theorem find?_assign {m : UnorderedMap K V} {k : K} (v : V) (h : m.find? k = none) (k' : K) :
    (m.assign k v).find? k' = if k' = k then some v else m.find? k' := by
  refine Option.ext fun w => ?_
  rw [find?_eq_some, mem_assign h]
  split_ifs with hk
  · subst hk
    have hno : (k', w) ∉ m.entries := fun hm => find?_eq_none.mp h _ hm rfl
    simp [hno, eq_comm]
  · simp [hk, find?_eq_some]

omit [DecidableEq K] in
/-- The finite map that a hash map represents, through a view of its values. -/
def view {W : Type*} (m : UnorderedMap K V) (g : V → W) : Finmap fun _ : K => W :=
  (⟨m.entries.map fun e => ⟨e.1, g e.2⟩, by
    rw [List.NodupKeys, List.keys, List.map_map]
    exact m.keys_nodup⟩ : AList fun _ : K => W).toFinmap

theorem lookup_view {W : Type*} (m : UnorderedMap K V) (g : V → W) (k : K) :
    (m.view g).lookup k = (m.find? k).map g := by
  refine Option.ext fun w => ?_
  rw [view, Finmap.lookup_toFinmap, AList.lookup, ← Option.mem_def,
    List.mem_dlookup_iff (AList.nodupKeys _), List.mem_map, Option.map_eq_some_iff]
  constructor
  · rintro ⟨⟨k', v⟩, hm, he⟩
    cases he
    exact ⟨v, find?_eq_some.mpr hm, rfl⟩
  · rintro ⟨v, hv, rfl⟩
    exact ⟨(k, v), find?_eq_some.mp hv, rfl⟩

omit [DecidableEq K] in
theorem card_keys_view {W : Type*} (m : UnorderedMap K V) (g : V → W) :
    (m.view g).keys.card = m.entries.length := by
  rw [view, Finmap.keys]
  simp [Multiset.keys]

theorem view_assign {W : Type*} {m : UnorderedMap K V} {k : K} (v : V) (h : m.find? k = none)
    (g : V → W) : (m.assign k v).view g = (m.view g).insert k (g v) := by
  refine Finmap.ext_lookup fun k' => ?_
  rw [lookup_view, find?_assign v h]
  by_cases hk : k' = k
  · subst hk
    simp
  · rw [if_neg hk, Finmap.lookup_insert_of_ne _ hk, lookup_view]

theorem view_erase {W : Type*} (m : UnorderedMap K V) (k : K) (g : V → W) :
    (m.erase k).view g = (m.view g).erase k := by
  refine Finmap.ext_lookup fun k' => ?_
  rw [lookup_view, find?_erase]
  by_cases hk : k' = k
  · subst hk
    simp
  · rw [if_neg hk, Finmap.lookup_erase_ne hk, lookup_view]

theorem view_modify {W : Type*} {m : UnorderedMap K V} {k : K} {v : V} (f : V → V)
    (h : m.find? k = some v) (g : V → W) :
    (m.modify k f).view g = (m.view g).insert k (g (f v)) := by
  refine Finmap.ext_lookup fun k' => ?_
  rw [lookup_view, find?_modify]
  by_cases hk : k' = k
  · subst hk
    simp [h]
  · rw [if_neg hk, Finmap.lookup_insert_of_ne _ hk, lookup_view]

@[simp] theorem length_modify (m : UnorderedMap K V) (k : K) (f : V → V) :
    (m.modify k f).entries.length = m.entries.length := by
  simp [modify]

end UnorderedMap
end Dee
