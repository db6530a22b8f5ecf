import Dee.ByteMemory
import Dee.VramCacheRuns

/-! The streaming layer on the mock backend: an ordered queue of transfers that are
copied into VRAM when compute waits for them. A source pointer carries the unchanging
bytes it points at. Queue positions are natural numbers here: the queue with the `int`
positions of the source is `AsyncPrefetcher.IntQueue`, and the two are the same while
fewer than `2 ^ 31` transfers are queued (`IntQueue.run_eq`). -/
namespace Dee
open ByteMemory GuardedRuns

abbrev HostPtr := ByteMemory.HostPtr UInt8

structure Transfer where
  key : ExpertKey
  dst : ℕ
  src : HostPtr
  nbytes : ℕ
  done : Bool
  abandoned : Bool

namespace Transfer

/-- The guard of the copy in `drain_until`. -/
def pending (t : Transfer) : Bool :=
  !t.done && !t.abandoned && decide (t.src.addr ≠ 0) && decide (t.dst ≠ 0)

def finish (t : Transfer) : Transfer := if t.pending then { t with done := true } else t

def copy (t : Transfer) : Copy UInt8 := ⟨t.dst, t.src.bytes, t.nbytes⟩

end Transfer

structure PrefetchStats where
  issued : ℕ
  waited : ℕ
  fallbacks : ℕ
  deriving DecidableEq, Repr

structure AsyncPrefetcher where
  cache : VramCacheManager
  vram : ℕ → UInt8
  inflight : List Transfer
  keyToIdx : UInt64 → Option ℕ
  nextId : ℕ
  stats : PrefetchStats

namespace AsyncPrefetcher

/-- A prefetcher over a cache and the memory its arena lies in. -/
def fresh (cache : VramCacheManager) (vram : ℕ → UInt8) : AsyncPrefetcher :=
  ⟨cache, vram, [], fun _ => none, 0, ⟨0, 0, 0⟩⟩

/-- `((size_t)(uint32_t)layer << 32) ^ (size_t)(uint32_t)expert` -/
def packKey (k : ExpertKey) : UInt64 :=
  (k.layer.toUInt32.toUInt64 <<< 32) ^^^ k.expert.toUInt32.toUInt64

def findInflight (p : AsyncPrefetcher) (k : ExpertKey) : Option ℕ := p.keyToIdx (packKey k)

def push (p : AsyncPrefetcher) (t : Transfer) : AsyncPrefetcher :=
  { p with
    inflight := p.inflight ++ [t]
    keyToIdx := Function.update p.keyToIdx (packKey t.key) (some p.inflight.length)
    nextId := p.nextId + 1
    stats := { p.stats with issued := p.stats.issued + 1 } }

def prefetch (p : AsyncPrefetcher) (k : ExpertKey) (src : HostPtr) (nbytes : ℕ) (priority : ℤ) :
    ℤ × AsyncPrefetcher :=
  let r := p.cache.ensure k nbytes priority
  let p₁ := { p with cache := r.2 }
  if r.1 = false then (-1, p₁)
  else
    let dst := r.2.data k
    if dst = 0 then (-1, p₁)
    else (p.nextId, p₁.push ⟨k, dst, src, nbytes, false, false⟩)

/-- The loop of `drain_until` over the first `n` transfers of the queue. -/
def drainFirst : ℕ → List Transfer → (ℕ → UInt8) → List Transfer × (ℕ → UInt8)
  | 0, ts, vram => (ts, vram)
  | _ + 1, [], vram => ([], vram)
  | n + 1, t :: ts, vram =>
    let r := if t.pending then
        ({ t with done := true }, memcpy vram t.dst t.src.bytes t.nbytes)
      else (t, vram)
    let rest := drainFirst n ts r.2
    (r.1 :: rest.1, rest.2)

/-- Copy in submission order up to position `idx`, inclusive. -/
def drainUntil (p : AsyncPrefetcher) (idx : ℤ) : AsyncPrefetcher :=
  let r := drainFirst (idx + 1).toNat p.inflight p.vram
  { p with inflight := r.1, vram := r.2 }

def wait (p : AsyncPrefetcher) (k : ExpertKey) : Bool × AsyncPrefetcher :=
  let p₁ := { p with stats := { p.stats with waited := p.stats.waited + 1 } }
  match p₁.findInflight k with
  | none => (false, { p₁ with stats := { p₁.stats with fallbacks := p₁.stats.fallbacks + 1 } })
  | some idx =>
    let p₂ := p₁.drainUntil idx
    (p₂.inflight[idx]?.any Transfer.done, p₂)

def synchronizeAll (p : AsyncPrefetcher) : AsyncPrefetcher :=
  p.drainUntil ((p.inflight.length : ℤ) - 1)

def reset (p : AsyncPrefetcher) : AsyncPrefetcher :=
  { p with inflight := [], keyToIdx := fun _ => none }

/-- `cache.touch`, which the engine calls between the waits. -/
def touch (p : AsyncPrefetcher) (k : ExpertKey) : AsyncPrefetcher :=
  { p with cache := p.cache.touch k }

inductive Op
  | prefetch (k : ExpertKey) (src : HostPtr) (nbytes : ℕ) (priority : ℤ)
  | wait (k : ExpertKey)
  | synchronizeAll
  | reset
  | touch (k : ExpertKey)

def step (p : AsyncPrefetcher) : Op → AsyncPrefetcher
  | .prefetch k src n pr => (p.prefetch k src n pr).2
  | .wait k => (p.wait k).2
  | .synchronizeAll => p.synchronizeAll
  | .reset => p.reset
  | .touch k => p.touch k

theorem packKey_toNat (k : ExpertKey) : (packKey k).toNat =
    (k.layer.toUInt32.toNat * 2 ^ 32) ^^^ k.expert.toUInt32.toNat := by
  have h := k.layer.toUInt32.toNat_lt
  have h32 : UInt64.toNat 32 % 64 = 32 := rfl
  simp only [packKey, UInt64.toNat_xor, UInt64.toNat_shiftLeft, UInt32.toNat_toUInt64,
    Nat.shiftLeft_eq, h32]
  congr 1
  exact Nat.mod_eq_of_lt (by omega)

/-- The key of the index map determines the expert: the two halves do not overlap. -/
theorem packKey_injective : Function.Injective packKey := by
  intro ⟨a, b⟩ ⟨c, d⟩ h
  have hn := congrArg UInt64.toNat h
  simp only [packKey_toNat] at hn
  have hb := b.toUInt32.toNat_lt
  have hd := d.toUInt32.toNat_lt
  have hlow := congrArg (· % 2 ^ 32) hn
  have hhigh := congrArg (· / 2 ^ 32) hn
  simp only [Nat.xor_mod_two_pow, Nat.mul_mod_left, Nat.zero_xor, Nat.mod_eq_of_lt hb,
    Nat.mod_eq_of_lt hd] at hlow
  simp only [Nat.xor_div_two_pow, Nat.mul_div_cancel _ (show 0 < 2 ^ 32 by decide),
    Nat.div_eq_of_lt hb, Nat.div_eq_of_lt hd, Nat.xor_zero] at hhigh
  have hac : a = c :=
    Int32.toBitVec_inj.mp (congrArg UInt32.toBitVec (UInt32.toNat_inj.mp hhigh))
  have hbd : b = d :=
    Int32.toBitVec_inj.mp (congrArg UInt32.toBitVec (UInt32.toNat_inj.mp hlow))
  rw [hac, hbd]

@[simp] theorem finish_key (t : Transfer) : t.finish.key = t.key := by
  unfold Transfer.finish
  split_ifs <;> rfl

@[simp] theorem finish_src (t : Transfer) : t.finish.src = t.src := by
  unfold Transfer.finish
  split_ifs <;> rfl

@[simp] theorem finish_dst (t : Transfer) : t.finish.dst = t.dst := by
  unfold Transfer.finish
  split_ifs <;> rfl

@[simp] theorem finish_nbytes (t : Transfer) : t.finish.nbytes = t.nbytes := by
  unfold Transfer.finish
  split_ifs <;> rfl

/-- Draining a prefix finishes its transfers and touches no other. -/
theorem drainFirst_getElem? (n : ℕ) (ts : List Transfer) (vram : ℕ → UInt8) (i : ℕ) :
    (drainFirst n ts vram).1[i]? = ts[i]?.map fun t => if i < n then t.finish else t := by
  induction n generalizing ts vram i with
  | zero => simp [drainFirst]
  | succ n ih =>
    cases ts with
    | nil => simp [drainFirst]
    | cons t ts =>
      cases i with
      | zero =>
        simp only [drainFirst, Transfer.finish, List.getElem?_cons_zero, Nat.zero_lt_succ, if_true,
          Option.map_some]
        split_ifs <;> rfl
      | succ i => simp only [drainFirst, List.getElem?_cons_succ, ih, Nat.succ_lt_succ_iff]

theorem drainFirst_length (n : ℕ) (ts : List Transfer) (vram : ℕ → UInt8) :
    (drainFirst n ts vram).1.length = ts.length := by
  induction n generalizing ts vram with
  | zero => rfl
  | succ n ih =>
    cases ts with
    | nil => rfl
    | cons t ts => simp only [drainFirst, List.length_cons, ih]

/-- In memory it runs the copies that were pending, in submission order. -/
theorem drainFirst_vram (n : ℕ) (ts : List Transfer) (vram : ℕ → UInt8) :
    (drainFirst n ts vram).2 =
      runCopies vram (((ts.take n).filter Transfer.pending).map Transfer.copy) := by
  induction n generalizing ts vram with
  | zero => simp [drainFirst]
  | succ n ih =>
    cases ts with
    | nil => simp [drainFirst]
    | cons t ts =>
      simp only [drainFirst, ih, List.take_succ_cons, List.filter_cons]
      split_ifs
      · rfl
      · rfl

@[simp] theorem wait_cache (p : AsyncPrefetcher) (k : ExpertKey) :
    (p.wait k).2.cache = p.cache := by
  unfold wait
  dsimp only
  split <;> rfl

/-- The two outcomes of `prefetch`: no slot and no transfer, or one more transfer. -/
theorem prefetch_cases (p : AsyncPrefetcher) (k : ExpertKey) (src : HostPtr) (n : ℕ) (pr : ℤ) :
    (((p.cache.ensure k n pr).1 = false ∨ (p.cache.ensure k n pr).2.data k = 0) ∧
      p.prefetch k src n pr = (-1, { p with cache := (p.cache.ensure k n pr).2 })) ∨
    ((p.cache.ensure k n pr).1 = true ∧ (p.cache.ensure k n pr).2.data k ≠ 0 ∧
      p.prefetch k src n pr = ((p.nextId : ℤ), ({ p with cache := (p.cache.ensure k n pr).2 }).push
        ⟨k, (p.cache.ensure k n pr).2.data k, src, n, false, false⟩)) := by
  unfold prefetch
  cases he : (p.cache.ensure k n pr).1 with
  | false => exact Or.inl ⟨Or.inl rfl, by simp [he]⟩
  | true =>
    by_cases hd : (p.cache.ensure k n pr).2.data k = 0
    · exact Or.inl ⟨Or.inr hd, by simp [he, hd]⟩
    · exact Or.inr ⟨rfl, hd, by simp [he, hd]⟩

theorem prefetch_cache (p : AsyncPrefetcher) (k : ExpertKey) (src : HostPtr) (n : ℕ) (pr : ℤ) :
    (p.prefetch k src n pr).2.cache = (p.cache.ensure k n pr).2 := by
  rcases p.prefetch_cases k src n pr with ⟨-, he⟩ | ⟨-, -, he⟩
  · rw [he]
  · rw [he]
    rfl

end AsyncPrefetcher
end Dee
