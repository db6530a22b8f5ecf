import Dee.Arena
import Dee.ByteText
import Dee.OrderedMap
import Dee.TracedReads

/-! The reader of the Oracle archives: a ZIP archive with one pickle and numbered storage
buffers. The end record is searched backwards, the central directory is walked entry by
entry, and each buffer becomes a tensor named after its number. An `int` is an integer in
its range; sums of file offsets stay far below 64 bits. -/
namespace Dee
open ByteText LittleEndian OrderedMap

/-- A file in memory. What lies beyond its end is arbitrary. -/
structure RawFile where
  size : ℕ
  bytes : ℕ → UInt8
  size_lt : size < 2 ^ 63

/-- How zlib's `inflate` leaves a raw deflate stream. -/
inductive Inflated
  | streamEnd (out : List UInt8)
  | error
  /-- The input ends first: `Z_BUF_ERROR` at every further call. -/
  | starved

structure PtTensor where
  name : String
  storage : ℤ
  offset : ℕ
  shape : List ℤ
  ndim : ℤ
  dtype : ℤ
  deriving DecidableEq, Repr

def PtTensor.nbytes (t : PtTensor) : ℕ :=
  t.shape.foldl (fun n d => n * toSize d % 2 ^ 64) 1 * 4 % 2 ^ 64

structure PtLoader where
  err : String
  buffers : List (ℤ × List UInt8)
  tensors : List (String × PtTensor)
  pklBytes : List UInt8

/-- `std::atoi`; out of range it does what `strtol` and a cast do. -/
def atoi (s : List Char) : ℤ :=
  let s := s.dropWhile fun c => c = ' ' || 9 ≤ c.toNat && c.toNat ≤ 13
  let (neg, ds) := match s with
    | [] => (false, [])
    | c :: cs => if c = '-' then (true, cs) else if c = '+' then (false, cs) else (false, c :: cs)
  let n : ℤ := Nat.ofDigitChars 10 (ds.takeWhile Char.isDigit) 0
  (max (-2 ^ 63) (min (2 ^ 63 - 1) (if neg then -n else n))).bmod (2 ^ 32)

/-- The number that digits spell. -/
theorem atoi_digits {ds : List Char} (hne : ds ≠ []) (hall : ∀ c ∈ ds, c.isDigit = true)
    (hlt : Nat.ofDigitChars 10 ds 0 < 2 ^ 31) : atoi ds = Nat.ofDigitChars 10 ds 0 := by
  obtain ⟨c, cs, hcs⟩ := List.exists_cons_of_ne_nil hne
  have hc := hall c (by simp [hcs])
  have hspace : c ≠ ' ' := ne_of_isDigit hc (by decide)
  have hlow := (toNat_of_isDigit hc).1
  have hminus : c ≠ '-' := ne_of_isDigit hc (by decide)
  have hplus : c ≠ '+' := ne_of_isDigit hc (by decide)
  have hdrop : ds.dropWhile (fun c => c = ' ' || 9 ≤ c.toNat && c.toNat ≤ 13) = ds := by
    rw [hcs, List.dropWhile_cons, if_neg]
    simp [hspace]
    omega
  have htake : ds.takeWhile Char.isDigit = ds := List.takeWhile_eq_self_iff.mpr hall
  unfold atoi
  simp only [hdrop]
  rw [hcs] at htake hlt ⊢
  simp only [if_neg hminus, if_neg hplus, htake, Bool.false_eq_true, if_false]
  rw [min_eq_right (by omega), max_eq_right (by omega)]
  exact Int.bmod_eq_of_le (by omega) (by omega)

namespace PtLoader

def fresh : PtLoader := ⟨"", [], [], []⟩

/-- The pickle bytes and the last error survive. -/
def close (l : PtLoader) : PtLoader := { l with buffers := [], tensors := [] }

section Zip
variable (inflate : List UInt8 → Inflated) (f : RawFile)

def isEocd (i : ℕ) : Traced Bool := do
  if (← Traced.byte f.bytes i) ≠ 0x50 then pure false
  else if (← Traced.byte f.bytes (szAdd i 1)) ≠ 0x4b then pure false
  else if (← Traced.byte f.bytes (szAdd i 2)) ≠ 0x05 then pure false
  else pure ((← Traced.byte f.bytes (szAdd i 3)) = 0x06)

/-- The search for the end record; its index is a `size_t` and counts down past 0. -/
def scanEocd : ℕ → ℕ → Traced (Option ℕ)
  | 0, _ => pure none
  | k + 1, i =>
    if szAdd i 22 ≤ f.size then do
      if ← isEocd f i then pure (some i) else scanEocd k (szSub i 1)
    else pure (some npos)

/-- What an entry holds, by its method; `none` for a method that is not known. -/
def readContent (method : UInt16) (off comp : ℕ) : Traced (Option Inflated) :=
  if method = 0 then do
    let bs ← Traced.bytes f.bytes off comp
    pure (some (.streamEnd bs))
  else if method = 8 then do
    let bs ← Traced.bytes f.bytes off comp
    pure (some (inflate bs))
  else pure none

def pklName : List UInt8 := toBytes "oracle/data.pkl"

def dataPrefix : List UInt8 := toBytes "oracle/data/"

/-- Keep the content of an entry under its name. `none` is a call that never returns. -/
def store (l : PtLoader) (name : List UInt8) : Option Inflated → Option (Bool × PtLoader)
  | none => some (true, l)
  | some .starved => none
  | some .error =>
    some (false, { l with err := "inflate failed for " ++
      if name = pklName then "data.pkl" else ofBytes name })
  | some (.streamEnd out) =>
    if name = pklName then some (true, { l with pklBytes := out })
    else
      let idx := atoi (ofBytes (name.drop dataPrefix.length)).toList
      some (true, { l with buffers := assign idx out l.buffers })

/-- The loop body of `parse_zip` behind the central fields of an entry. -/
def readEntry (method : UInt16) (comp : ℕ) (name : List UInt8) (lho : ℕ) (l : PtLoader) :
    Traced (Option (Bool × PtLoader)) :=
  if f.size < lho + 30 then pure (some (true, l))
  else do
    let lnlen ← Traced.half f.bytes (lho + 26)
    let lelen ← Traced.half f.bytes (lho + 28)
    let off := lho + 30 + lnlen.toNat + lelen.toNat
    if f.size < off + comp then pure (some (true, l))
    else if name = pklName ∨ dataPrefix <+: name then do
      let content ← readContent inflate f method off comp
      pure (store l name content)
    else pure (some (true, l))

/-- The walk over the central directory, from the entry at `p` on. -/
def walk : ℕ → ℕ → PtLoader → Traced (Option (Bool × PtLoader))
  | 0, _, l => pure (some (true, l))
  | k + 1, p, l =>
    if f.size < p + 46 then pure (some (true, l))
    else do
      let method ← Traced.half f.bytes (p + 10)
      let comp ← Traced.word f.bytes (p + 20)
      let _uncomp ← Traced.word f.bytes (p + 24)
      let nlen ← Traced.half f.bytes (p + 28)
      let elen ← Traced.half f.bytes (p + 30)
      let clen ← Traced.half f.bytes (p + 32)
      let name ← Traced.bytes f.bytes (p + 46) nlen.toNat
      let lho ← Traced.word f.bytes (p + 42)
      match ← readEntry inflate f method comp.toNat name lho.toNat l with
      | some (true, l) => walk k (p + (46 + nlen.toNat + elen.toNat + clen.toNat)) l
      | r => pure r

end Zip

/-! The pickle -/

def byteAt (d : List UInt8) (i : ℕ) : UInt8 := d.getD i 0

def readBinunicode (d : List UInt8) (pos : ℕ) : Option (List UInt8) :=
  if d.length ≤ pos then none
  else if byteAt d pos = 0x58 then
    if d.length < pos + 5 then none
    else
      let len := (readWord (byteAt d) (pos + 1)).toNat
      if d.length < pos + 5 + len then none else some ((d.drop (pos + 5)).take len)
  else if byteAt d pos = 0x8c then
    if d.length < pos + 2 then none
    else
      let len := (byteAt d (pos + 1)).toNat
      if d.length < pos + 2 + len then none else some ((d.drop (pos + 2)).take len)
  else none

def kLocalNames (i : ℕ) : String :=
  match i with
  | 0 => "net.0.weight"
  | 1 => "net.0.bias"
  | 2 => "net.2.weight"
  | 3 => "net.2.bias"
  | 4 => "net.4.weight"
  | _ => "net.4.bias"

def localShape (i : ℕ) : List ℤ :=
  match i with
  | 0 => [256, 2048]
  | 2 | 4 => [256, 256]
  | _ => [256]

/-- A tensor name of the pickle, and the storage key found behind it. -/
structure Found where
  name : String
  storage : ℤ
  deriving DecidableEq, Repr

def isTensorName (s : List UInt8) : Bool :=
  decide (toBytes "net." <+: s) &&
    (decide (toBytes ".weight" <:+: s) || decide (toBytes ".bias" <:+: s))

/-- The search for a storage key at the next `k` places from `j` on. -/
def findStorage (d : List UInt8) : ℕ → ℕ → ℤ
  | 0, _ => -1
  | k + 1, j =>
    match readBinunicode d j with
    | none => findStorage d k (j + 1)
    | some key =>
      if key ≠ [] ∧ (ofBytes key).toList.all Char.isDigit then atoi (ofBytes key).toList
      else findStorage d k (j + 1)

/-- How far the scan goes past a string: the sum is an `uint32_t`. -/
def advance (d : List UInt8) (i : ℕ) (s : List UInt8) : ℕ :=
  if byteAt d i = 0x58 then (5 + s.length) % 2 ^ 32 else 2 + s.length

/-- The scan for tensor names from `i` on. `none` is a scan that stays at one place. -/
def scanNames (d : List UInt8) (i : ℕ) : Option (List Found) :=
  if _h : i < d.length then
    match readBinunicode d i with
    | none => scanNames d (i + 1)
    | some s =>
      if _h : advance d i s = 0 then none
      else
        match scanNames d (i + advance d i s) with
        | none => none
        | some rest =>
          if isTensorName s then
            some (⟨ofBytes s, findStorage d (min d.length (i + 200) - (i + 1)) (i + 1)⟩ :: rest)
          else some rest
  else some []
termination_by d.length - i
decreasing_by
  · omega
  · omega

def found (pkl : List UInt8) : Option (List Found) :=
  scanNames pkl (if 1 < pkl.length ∧ byteAt pkl 0 = 0x80 then 2 else 0)

def tensorName (G : ℕ) : String := "layers." ++ toString (G / 6) ++ "." ++ kLocalNames (G % 6)

def tensorOf (G : ℕ) : PtTensor :=
  ⟨tensorName G, G, 0, localShape (G % 6), (localShape (G % 6)).length, 0⟩

/-- The scanned pair contradicts the table of names. -/
def Mismatch (numStorage : ℕ) (x : Found) : Bool :=
  decide (0 ≤ x.storage) && decide (x.storage < numStorage) &&
    decide (kLocalNames (x.storage % 6).toNat ≠ x.name)

/-- Whether the pickle is accepted; `none` when its scan never ends. -/
def parsePickle (l : PtLoader) (pkl : List UInt8) : Option (Bool × PtLoader) :=
  let numStorage := l.buffers.length
  let l := { l with
    tensors := assignAll l.tensors ((List.range numStorage).map fun G =>
      (tensorName G, tensorOf G)) }
  match found pkl with
  | none => none
  | some names =>
    match names.find? (Mismatch numStorage) with
    | none => some (true, l)
    | some x =>
      let err := "oracle tensor order mismatch at storage " ++ toString x.storage ++
        ": expected " ++ kLocalNames (x.storage % 6).toNat ++ " but pickle says " ++ x.name
      some (false, { l with err := err })

section Open
variable (inflate : List UInt8 → Inflated) (l : PtLoader) (f : RawFile)

def parseZip : Traced (Option (Bool × PtLoader)) := do
  match ← scanEocd f (f.size + 2) (if 22 ≤ f.size then f.size - 22 else 0) with
  | none => pure none
  | some eocd =>
    if eocd = npos then pure (some (false, { l with err := "not a ZIP (no EOCD)" }))
    else do
      let cdOffset ← Traced.word f.bytes (szAdd eocd 16)
      let cdCount ← Traced.half f.bytes (szAdd eocd 10)
      match ← walk inflate f cdCount.toNat cdOffset.toNat l with
      | some (true, l) =>
        pure (if l.pklBytes ≠ [] then parsePickle l l.pklBytes else some (true, l))
      | r => pure r

def openFile : Traced (Option (Bool × PtLoader)) :=
  let l := l.close
  if f.size = 0 then pure (some (false, { l with err := "cannot read file" }))
  else if f.size < 4 then pure (some (false, { l with err := "not a ZIP (bad magic)" }))
  else do
    let b₀ ← Traced.byte f.bytes 0
    let b₁ ← if b₀ = 0x50 then Traced.byte f.bytes 1 else pure 0
    if b₀ ≠ 0x50 ∨ b₁ ≠ 0x4b then pure (some (false, { l with err := "not a ZIP (bad magic)" }))
    else do
      match ← parseZip inflate l f with
      | some (true, l) => pure (some (decide (l.tensors ≠ []), l))
      | r => pure r

end Open

/-- The words of a vector that received `n` bytes from `off` on. -/
def floats (b : List UInt8) (off n : ℕ) : List UInt32 :=
  (List.range (n / 4)).map fun i => readWord (byteAt b) (off + 4 * i)

def readTensor (l : PtLoader) (name : String) : Option (List UInt32) :=
  match find? name l.tensors with
  | none => none
  | some t =>
    match find? t.storage l.buffers with
    | none => none
    | some b =>
      if b.length < szAdd t.offset t.nbytes then
        if t.offset ≠ 0 ∧ t.nbytes ≤ b.length then some (floats b 0 t.nbytes) else none
      else some (floats b t.offset t.nbytes)

end PtLoader
end Dee
