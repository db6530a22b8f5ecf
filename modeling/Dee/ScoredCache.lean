import Mathlib

/-! The specification of a cache with a fixed number of slots: a finite map from
keys to a time of last use and a priority, and a clock. A new key takes a free slot
if there is one and otherwise replaces a key of lowest score, where ties may be
broken either way. -/
namespace Dee.ScoredCache

structure State (K : Type*) where
  clock : ℤ
  entries : Finmap fun _ : K => ℤ × ℤ

inductive Op (K : Type*)
  | use (k : K) (priority : ℤ)
  | touch (k : K)

variable {K : Type*} [DecidableEq K]

def score (weight : ℤ) (v : ℤ × ℤ) : ℤ := v.1 + v.2 * weight

def State.empty : State K := ⟨0, ∅⟩

/-- The key is stamped with the next tick. -/
def State.stamp (s : State K) (m : Finmap fun _ : K => ℤ × ℤ) (k : K) (priority : ℤ) : State K :=
  ⟨s.clock + 1, m.insert k (s.clock + 1, priority)⟩

/-- `v` has the lowest score among the cached keys. -/
def State.Minimal (weight : ℤ) (s : State K) (v : K) : Prop :=
  ∃ a, s.entries.lookup v = some a ∧
    ∀ u b, s.entries.lookup u = some b → score weight a ≤ score weight b

inductive Step (weight : ℤ) (slots : ℕ) : State K → Op K → State K → Prop
  | hit {s k p} : k ∈ s.entries → Step weight slots s (.use k p) (s.stamp s.entries k p)
  | fill {s k p} : k ∉ s.entries → s.entries.keys.card < slots →
      Step weight slots s (.use k p) (s.stamp s.entries k p)
  | replace {s k p v} : k ∉ s.entries → s.entries.keys.card = slots → s.Minimal weight v →
      Step weight slots s (.use k p) (s.stamp (s.entries.erase v) k p)
  | touchHit {s k a} : s.entries.lookup k = some a →
      Step weight slots s (.touch k) (s.stamp s.entries k a.2)
  | touchMiss {s k} : k ∉ s.entries → Step weight slots s (.touch k) s

end Dee.ScoredCache
