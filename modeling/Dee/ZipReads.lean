import Dee.PtLoader

/-! Where the ZIP reader reads. Its backward search has no lower end, and the name of a
central entry is taken with the length that the entry claims; every other read is checked. -/
namespace Dee
open ByteText LittleEndian

namespace RawFile
variable (f : RawFile)

def half (a : ℕ) : ℕ := (readHalf f.bytes a).toNat

def word (a : ℕ) : ℕ := (readWord f.bytes a).toNat

def slice (a n : ℕ) : List UInt8 := (List.range n).map fun i => f.bytes (a + i)

/-- Where the content of the entry with this local header starts. -/
def dataOffset (lho : ℕ) : ℕ := lho + 30 + f.half (lho + 26) + f.half (lho + 28)

/-- The four bytes of the signature of an end record. -/
def EndSignature (i : ℕ) : Prop :=
  f.bytes i = 0x50 ∧ f.bytes (i + 1) = 0x4b ∧ f.bytes (i + 2) = 0x05 ∧ f.bytes (i + 3) = 0x06

/-- The last end record of the file. -/
structure LastEndRecord (e : ℕ) : Prop where
  inside : e + 22 ≤ f.size
  signature : f.EndSignature e
  last : ∀ i, e < i → i + 22 ≤ f.size → ¬ f.EndSignature i

end RawFile

namespace PtLoader
variable {inflate : List UInt8 → Inflated} {f : RawFile}

theorem isEocd_spec {i : ℕ} (hi : i + 22 ≤ f.size) :
    ((isEocd f i).value = true ↔ f.EndSignature i) ∧ Traced.Within f.size (isEocd f i) := by
  have hlt := f.size_lt
  have h1 : szAdd i 1 = i + 1 := szAdd_of_lt (by omega)
  have h2 : szAdd i 2 = i + 2 := szAdd_of_lt (by omega)
  have h3 : szAdd i 3 = i + 3 := szAdd_of_lt (by omega)
  unfold isEocd RawFile.EndSignature
  simp only [h1, h2, h3, Traced.value_bind, Traced.value_byte, Traced.within_bind, Traced.within_byte]
  by_cases hb0 : f.bytes i = 0x50
  · by_cases hb1 : f.bytes (i + 1) = 0x4b
    · by_cases hb2 : f.bytes (i + 2) = 0x05
      · simp [hb0, hb1, hb2]
        exact ⟨decide_eq_true_iff, by omega, by omega, by omega, by omega⟩
      · simp [hb0, hb1, hb2]
        omega
    · simp [hb0, hb1]
      omega
  · simp [hb0]
    omega

/-- The search finds the last end record that is not above `i`. -/
theorem scanEocd_found {e i k : ℕ} (he : f.EndSignature e) (hle : e ≤ i)
    (hi : i + 22 ≤ f.size) (hlast : ∀ j, e < j → j ≤ i → ¬ f.EndSignature j)
    (hk : i < k + e) :
    (scanEocd f k i).value = some e ∧ Traced.Within f.size (scanEocd f k i) := by
  have hlt := f.size_lt
  induction k generalizing i with
  | zero => omega
  | succ k ih =>
    obtain ⟨hvalue, hwithin⟩ := isEocd_spec hi
    have hadd : szAdd i 22 = i + 22 := szAdd_of_lt (by omega)
    rw [scanEocd, if_pos (by omega), Traced.value_bind, Traced.within_bind]
    by_cases heq : e = i
    · subst heq
      rw [if_pos (hvalue.mpr he)]
      exact ⟨rfl, hwithin, Traced.within_pure _ _⟩
    · have hno : ¬ (isEocd f i).value = true := fun h =>
        hlast i (by omega) le_rfl (hvalue.mp h)
      have hsub : szSub i 1 = i - 1 := szSub_of_le (by omega) (by omega)
      rw [if_neg hno, hsub]
      obtain ⟨h1, h2⟩ := ih (i := i - 1) (by omega) (by omega)
        (fun j hj hji => hlast j hj (by omega)) (by omega)
      exact ⟨h1, hwithin, h2⟩

/-- Without an end record the search goes on below index 0. -/
theorem scanEocd_lost {i k : ℕ} (hi : i + 22 ≤ f.size)
    (hno : ∀ j ≤ i, ¬ f.EndSignature j) (hk : i + 2 ≤ k) :
    ¬ Traced.Within f.size (scanEocd f k i) := by
  have hlt := f.size_lt
  induction i generalizing k with
  | zero =>
    obtain ⟨k, rfl⟩ := Nat.exists_eq_add_of_le' (by omega : 2 ≤ k)
    have hfirst : ¬ (isEocd f 0).value = true := fun h =>
      hno 0 le_rfl ((isEocd_spec hi).1.mp h)
    have hadd : szAdd 0 22 = 22 := szAdd_of_lt (by omega)
    have hbelow : szSub 0 1 = npos := by norm_num [szSub, npos]
    have hwrap : szAdd npos 22 = 21 := by norm_num [szAdd, npos]
    rw [scanEocd, if_pos (by omega), Traced.within_bind, if_neg hfirst, hbelow, scanEocd,
      if_pos (by omega), Traced.within_bind]
    rintro ⟨-, hread, -⟩
    have hindex : npos < f.size := hread npos (by simp [isEocd, Bind.bind, Traced.byte])
    simp only [npos] at hindex
    omega
  | succ i ih =>
    obtain ⟨k, rfl⟩ := Nat.exists_eq_add_of_le' (by omega : 1 ≤ k)
    have hstep : ¬ (isEocd f (i + 1)).value = true := fun h =>
      hno (i + 1) le_rfl ((isEocd_spec hi).1.mp h)
    have hadd : szAdd (i + 1) 22 = i + 1 + 22 := szAdd_of_lt (by omega)
    have hsub : szSub (i + 1) 1 = i := szSub_of_le (by omega) (by omega)
    rw [scanEocd, if_pos (by omega), Traced.within_bind, if_neg hstep, hsub, not_and]
    intro _
    exact ih (by omega) (fun j hj => hno j (by omega)) (by omega)

/-- The search always comes to an end: at most 22 steps lie below index 0. -/
theorem scanEocd_ne_none {i k : ℕ} (hi : i < 2 ^ 64) (hk : (i + 23) % 2 ^ 64 < k) :
    (scanEocd f k i).value ≠ none := by
  have hlt := f.size_lt
  induction k generalizing i with
  | zero => omega
  | succ k ih =>
    rw [scanEocd]
    split_ifs with hin
    · rw [Traced.value_bind]
      split_ifs
      · simp
      · unfold szAdd at hin
        apply ih <;> unfold szSub <;> omega
    · simp

theorem search_ends (f : RawFile) :
    (scanEocd f (f.size + 2) (if 22 ≤ f.size then f.size - 22 else 0)).value ≠ none := by
  have hlt := f.size_lt
  split_ifs with h
  · exact scanEocd_ne_none (by omega) (by omega)
  · have hadd : szAdd 0 22 = 22 := szAdd_of_lt (by omega)
    rw [scanEocd, if_neg (by omega)]
    simp

/-- An entry that ends the walk: a deflate stream that `inflate` does not finish. -/
def EntryEnds (inflate : List UInt8 → Inflated) (f : RawFile) (method : UInt16) (comp : ℕ)
    (name : List UInt8) (lho : ℕ) : Prop :=
  lho + 30 ≤ f.size ∧ f.dataOffset lho + comp ≤ f.size ∧
    (name = pklName ∨ dataPrefix <+: name) ∧ method = 8 ∧
      ∀ out, inflate (f.slice (f.dataOffset lho) comp) ≠ .streamEnd out

theorem store_streamEnd (l : PtLoader) (name : List UInt8) (out : List UInt8) :
    ∃ l', store l name (some (.streamEnd out)) = some (true, l') := by
  simp only [store]
  split_ifs <;> exact ⟨_, rfl⟩

theorem readContent_spec (inflate : List UInt8 → Inflated) {f : RawFile} (method : UInt16)
    {off comp : ℕ} (h : off + comp ≤ f.size)
    (l : PtLoader) (name : List UInt8) :
    Traced.Within f.size (readContent inflate f method off comp) ∧
      ((∃ l', store l name (readContent inflate f method off comp).value = some (true, l')) ↔
        ¬ (method = 8 ∧ ∀ out, inflate (f.slice off comp) ≠ .streamEnd out)) := by
  unfold readContent
  split_ifs with h0 h8
  · have hne : ¬ method = 8 := by
      subst h0
      decide
    rw [Traced.within_bind, Traced.within_bytes]
    exact ⟨⟨Or.inr h, Traced.within_pure _ _⟩,
      ⟨fun _ hends => hne hends.1, fun _ => store_streamEnd _ _ _⟩⟩
  · rw [Traced.within_bind, Traced.within_bytes, Traced.value_bind, Traced.value_bytes,
      Traced.value_pure]
    refine ⟨⟨Or.inr h, Traced.within_pure _ _⟩, ?_⟩
    change (∃ l', store l name (some (inflate (f.slice off comp))) = some (true, l')) ↔ _
    cases hout : inflate (f.slice off comp) with
    | streamEnd out =>
      exact ⟨fun _ hends => hends.2 out rfl, fun _ => store_streamEnd _ _ _⟩
    | error => simp [store, h8]
    | starved => simp [store, h8]
  · exact ⟨Traced.within_pure _ _, fun _ hends => h8 hends.1, fun _ => ⟨l, rfl⟩⟩

theorem readEntry_spec (inflate : List UInt8 → Inflated) (f : RawFile) (method : UInt16) (comp : ℕ) (name : List UInt8) (lho : ℕ)
    (l : PtLoader) :
    Traced.Within f.size (readEntry inflate f method comp name lho l) ∧
      ((∃ l', (readEntry inflate f method comp name lho l).value = some (true, l')) ↔
        ¬ EntryEnds inflate f method comp name lho) := by
  unfold readEntry
  by_cases hlho : f.size < lho + 30
  · rw [if_pos hlho]
    exact ⟨Traced.within_pure _ _, fun _ hends => absurd hends.1 hlho.not_ge, fun _ => ⟨l, rfl⟩⟩
  rw [if_neg hlho]
  have hoff : lho + 30 + (readHalf f.bytes (lho + 26)).toNat +
      (readHalf f.bytes (lho + 28)).toNat = f.dataOffset lho := rfl
  simp only [Traced.within_bind, Traced.within_half, Traced.value_bind, Traced.value_half, hoff]
  by_cases hcomp : f.size < f.dataOffset lho + comp
  · rw [if_pos hcomp]
    exact ⟨⟨by omega, by omega, Traced.within_pure _ _⟩,
      fun _ hends => absurd hends.2.1 hcomp.not_ge, fun _ => ⟨l, rfl⟩⟩
  rw [if_neg hcomp]
  by_cases hname : name = pklName ∨ dataPrefix <+: name
  · obtain ⟨hwithin, hvalue⟩ := readContent_spec inflate method (not_lt.mp hcomp) l name
    rw [if_pos hname, Traced.within_bind, Traced.value_bind, Traced.value_pure, hvalue]
    refine ⟨⟨by omega, by omega, hwithin, Traced.within_pure _ _⟩, ?_⟩
    simp only [EntryEnds, not_lt.mp hlho, not_lt.mp hcomp, hname, true_and]
  · rw [if_neg hname]
    exact ⟨⟨by omega, by omega, Traced.within_pure _ _⟩, fun _ hends => hname hends.2.2.1,
      fun _ => ⟨l, rfl⟩⟩

/-- The names of the central entries that the walk comes to lie in the file. -/
def DirectoryInside (inflate : List UInt8 → Inflated) (f : RawFile) : ℕ → ℕ → Prop
  | 0, _ => True
  | k + 1, p => p + 46 ≤ f.size →
      p + 46 + f.half (p + 28) ≤ f.size ∧
        (¬ EntryEnds inflate f (readHalf f.bytes (p + 10)) (f.word (p + 20))
            (f.slice (p + 46) (f.half (p + 28))) (f.word (p + 42)) →
          DirectoryInside inflate f k
            (p + (46 + f.half (p + 28) + f.half (p + 30) + f.half (p + 32))))

theorem walk_within_iff (k p : ℕ) (l : PtLoader) :
    Traced.Within f.size (walk inflate f k p l) ↔ DirectoryInside inflate f k p := by
  induction k generalizing p l with
  | zero => simp [walk, DirectoryInside]
  | succ k ih =>
    by_cases hp : f.size < p + 46
    · simp only [walk, if_pos hp, Traced.within_pure, DirectoryInside, hp.not_ge, false_implies]
    obtain ⟨hentry, hvalue⟩ := readEntry_spec inflate f
      (readHalf f.bytes (p + 10)) (f.word (p + 20)) (f.slice (p + 46) (f.half (p + 28)))
      (f.word (p + 42)) l
    simp only [walk, if_neg hp, DirectoryInside, not_lt.mp hp, true_implies, Traced.within_bind,
      Traced.within_half, Traced.within_word, Traced.within_bytes, Traced.value_half,
      Traced.value_word, Traced.value_bytes]
    simp only [RawFile.half, RawFile.word, RawFile.slice] at hentry hvalue ⊢
    rw [← hvalue]
    generalize readEntry inflate f _ _ _ _ l = r at hentry ⊢
    by_cases hgo : ∃ l', r.value = some (true, l')
    · obtain ⟨l', hl'⟩ := hgo
      simp only [hl', ih]
      constructor
      · rintro ⟨-, -, -, -, -, -, hname, -, -, hrest⟩
        exact ⟨by omega, fun _ => hrest⟩
      · rintro ⟨hname, hrest⟩
        exact ⟨by omega, by omega, by omega, by omega, by omega, by omega, by omega, trivial, hentry,
          hrest ⟨l', rfl⟩⟩
    · constructor
      · rintro ⟨-, -, -, -, -, -, hname, -, -, -⟩
        exact ⟨by omega, fun h => absurd h hgo⟩
      · rintro ⟨hname, -⟩
        refine ⟨by omega, by omega, by omega, by omega, by omega, by omega, by omega, trivial,
          hentry, ?_⟩
        split
        · next l' hl' => exact absurd ⟨l', hl'⟩ hgo
        · exact Traced.within_pure _ _

/-- The end record lies in the file, and so do the names of the entries that follow from
it; or the file is too short for the search to start. -/
def ReadsInside (inflate : List UInt8 → Inflated) (f : RawFile) : Prop :=
  f.size < 22 ∨ ∃ e, f.LastEndRecord e ∧
    DirectoryInside inflate f (f.half (e + 10)) (f.word (e + 16))

theorem exists_lastEndRecord {i : ℕ} (hi : i + 22 ≤ f.size) (h : f.EndSignature i) :
    ∃ e, f.LastEndRecord e := by
  classical
  have hspec := Nat.findGreatest_spec (P := fun j => j + 22 ≤ f.size ∧ f.EndSignature j)
    (by omega : i ≤ f.size) ⟨hi, h⟩
  refine ⟨_, hspec.1, hspec.2, fun j hj hjs hsig => ?_⟩
  exact Nat.findGreatest_is_greatest hj (by omega) ⟨hjs, hsig⟩

/-- Behind the end record the reader walks over the central directory. -/
theorem parseZip_of_endRecord (inflate : List UInt8 → Inflated) {f : RawFile} {e : ℕ} (he : f.LastEndRecord e) (l : PtLoader) :
    (Traced.Within f.size (parseZip inflate l f) ↔
      Traced.Within f.size (walk inflate f (f.half (e + 10)) (f.word (e + 16)) l)) ∧
    (parseZip inflate l f).value =
      match (walk inflate f (f.half (e + 10)) (f.word (e + 16)) l).value with
      | some (true, l) => if l.pklBytes ≠ [] then parsePickle l l.pklBytes else some (true, l)
      | r => r := by
  have hlt := f.size_lt
  have hin := he.inside
  obtain ⟨hvalue, hwithin⟩ := scanEocd_found (k := f.size + 2) he.signature
    (by omega : e ≤ f.size - 22) (by omega) (fun j hj hji => he.last j hj (by omega)) (by omega)
  have hne : e ≠ npos := by
    unfold npos
    omega
  have hoffset : szAdd e 16 = e + 16 := szAdd_of_lt (by omega)
  have hcount : szAdd e 10 = e + 10 := szAdd_of_lt (by omega)
  simp only [parseZip, if_pos (by omega : 22 ≤ f.size), Traced.within_bind, Traced.value_bind,
    hvalue, hwithin, true_and, if_neg hne, hoffset, hcount, Traced.within_word, Traced.within_half,
    Traced.value_word, Traced.value_half]
  simp only [RawFile.half, RawFile.word]
  generalize walk inflate f _ _ l = r
  constructor
  · constructor
    · intro h
      exact h.2.2.1
    · intro h
      refine ⟨by omega, by omega, h, ?_⟩
      split <;> exact Traced.within_pure _ _
  · rcases r.value with _ | ⟨_ | _, l'⟩ <;> rfl

/-- The reader stays in the file exactly when the end record and these names do. -/
theorem parseZip_within_iff (inflate : List UInt8 → Inflated) (l : PtLoader) (f : RawFile) :
    Traced.Within f.size (parseZip inflate l f) ↔ ReadsInside inflate f := by
  have hlt := f.size_lt
  by_cases hsize : f.size < 22
  · have hadd : szAdd 0 22 = 22 := szAdd_of_lt (by omega)
    have hscan : scanEocd f (f.size + 2) 0 = pure (some npos) := by
      rw [scanEocd, if_neg (by omega)]
    unfold parseZip
    rw [if_neg hsize.not_ge, hscan]
    exact ⟨fun _ => Or.inl hsize, fun _ => by simp⟩
  by_cases hsig : ∃ i, i + 22 ≤ f.size ∧ f.EndSignature i
  · obtain ⟨i, hi, hsig⟩ := hsig
    obtain ⟨e, he⟩ := exists_lastEndRecord hi hsig
    constructor
    · intro h
      have hwalk := (parseZip_of_endRecord inflate he l).1.mp h
      exact Or.inr ⟨e, he, (walk_within_iff _ _ l).mp hwalk⟩
    · rintro (h | ⟨e', he', h⟩)
      · exact absurd h hsize
      · exact (parseZip_of_endRecord inflate he' l).1.mpr ((walk_within_iff _ _ l).mpr h)
  · have hlost := scanEocd_lost (f := f) (k := f.size + 2) (by omega : f.size - 22 + 22 ≤ f.size)
      (fun j hj hj' => hsig ⟨j, by omega, hj'⟩) (by omega)
    unfold parseZip
    rw [if_pos (not_lt.mp hsize), Traced.within_bind]
    constructor
    · intro h
      exact absurd h.1 hlost
    · rintro (h | ⟨e, he, -⟩)
      · exact absurd h hsize
      · exact absurd ⟨e, he.inside, he.signature⟩ hsig

/-- A file of 22 bytes without an end record. -/
def noEndRecord : RawFile where
  size := 22
  bytes := fun i => [0x50, 0x4b].getD i 0
  size_lt := by decide

/-- A central entry whose name is one byte longer than the file. -/
def truncatedName : RawFile where
  size := 46
  bytes := fun i => ([0x50, 0x4b] ++ List.replicate 22 0 ++ [0x50, 0x4b, 0x05, 0x06, 1, 0] ++
    List.replicate 4 0 ++ [1, 0] : List UInt8).getD i 0
  size_lt := by decide

/-- The reader leaves both files: below index 0 in one, past the end in the other. -/
theorem parseZip_leaves_file :
    ¬ Traced.Within noEndRecord.size (parseZip (fun _ => .error) fresh noEndRecord) ∧
      ¬ Traced.Within truncatedName.size (parseZip (fun _ => .error) fresh truncatedName) := by
  decide

end PtLoader
end Dee
