import Dee.ZipReads

/-! Archives that hold a pickle and the storages of an Oracle. The walk over the central
directory keeps the pickle and every storage under its number, whatever the order of the
entries and however each is compressed. -/
namespace Dee
open ByteText LittleEndian OrderedMap PtLoader

/-- An entry of an archive, and what it holds. -/
structure ArchiveEntry where
  name : List UInt8
  content : List UInt8
  deriving DecidableEq

/-- The loader looks into the entry. -/
def ArchiveEntry.Kept (x : ArchiveEntry) : Prop := x.name = pklName ∨ dataPrefix <+: x.name

/-- The data behind a local header, stored or deflated. -/
def RawFile.HoldsData (f : RawFile) (inflate : List UInt8 → Inflated) (method : UInt16)
    (comp lho : ℕ) (content : List UInt8) : Prop :=
  lho + 30 ≤ f.size ∧ f.dataOffset lho + comp ≤ f.size ∧
    (method = 0 ∧ f.slice (f.dataOffset lho) comp = content ∨
      method = 8 ∧ inflate (f.slice (f.dataOffset lho) comp) = .streamEnd content)

/-- The central entry at `p` lies in the file, and so does what the loader looks into. -/
structure RawFile.EntryAt (f : RawFile) (inflate : List UInt8 → Inflated) (p : ℕ)
    (x : ArchiveEntry) : Prop where
  inside : p + 46 + f.half (p + 28) ≤ f.size
  name : f.slice (p + 46) (f.half (p + 28)) = x.name
  data : x.Kept → f.HoldsData inflate (readHalf f.bytes (p + 10)) (f.word (p + 20))
    (f.word (p + 42)) x.content

/-- The central directory from `p` on has these entries. -/
def RawFile.Directory (f : RawFile) (inflate : List UInt8 → Inflated) :
    ℕ → List ArchiveEntry → Prop
  | _, [] => True
  | p, x :: xs => f.EntryAt inflate p x ∧
      f.Directory inflate (p + (46 + f.half (p + 28) + f.half (p + 30) + f.half (p + 32))) xs

/-- `oracle/data/G` -/
def storageName (G : ℕ) : List UInt8 := toBytes ("oracle/data/" ++ toString G)

/-- An archive without a comment, with a pickle, the `n` storages, and entries that are
none of the Oracle's. -/
structure OracleArchive (inflate : List UInt8 → Inflated) (f : RawFile) (n : ℕ)
    (storage : ℕ → List UInt8) (pkl : List UInt8) (entries : List ArchiveEntry) : Prop where
  size : 22 ≤ f.size
  magic : f.bytes 0 = 0x50 ∧ f.bytes 1 = 0x4b
  endRecord : f.EndSignature (f.size - 22)
  count : f.half (f.size - 22 + 10) = entries.length
  directory : f.Directory inflate (f.word (f.size - 22 + 16)) entries
  pickle : ⟨pklName, pkl⟩ ∈ entries
  storages : ∀ G < n, ⟨storageName G, storage G⟩ ∈ entries
  others : ∀ x ∈ entries, x.Kept →
    x = ⟨pklName, pkl⟩ ∨ ∃ G < n, x = ⟨storageName G, storage G⟩

namespace PtLoader
variable {inflate : List UInt8 → Inflated} {f : RawFile}

/-- The number in the name of a storage. -/
def storageIndex (name : List UInt8) : ℤ := atoi (ofBytes (name.drop dataPrefix.length)).toList

/-- What the loader keeps of an entry. -/
def keep (l : PtLoader) (x : ArchiveEntry) : PtLoader :=
  if x.name = pklName then { l with pklBytes := x.content }
  else if dataPrefix <+: x.name then
    { l with buffers := assign (storageIndex x.name) x.content l.buffers }
  else l

theorem keep_of_not_kept {x : ArchiveEntry} (h : ¬ x.Kept) (l : PtLoader) : keep l x = l := by
  rw [ArchiveEntry.Kept, not_or] at h
  rw [keep, if_neg h.1, if_neg h.2]

theorem store_kept {x : ArchiveEntry} (h : x.Kept) (l : PtLoader) :
    store l x.name (some (.streamEnd x.content)) = some (true, keep l x) := by
  unfold store keep
  by_cases hpkl : x.name = pklName
  · simp only [if_pos hpkl]
  · simp only [if_neg hpkl, if_pos (h.resolve_left hpkl)]
    rfl

theorem readEntry_holds {method : UInt16} {comp lho : ℕ} {x : ArchiveEntry}
    (h : x.Kept → f.HoldsData inflate method comp lho x.content) (l : PtLoader) :
    (readEntry inflate f method comp x.name lho l).value = some (true, keep l x) := by
  unfold readEntry
  have hoff : lho + 30 + (readHalf f.bytes (lho + 26)).toNat +
      (readHalf f.bytes (lho + 28)).toNat = f.dataOffset lho := rfl
  by_cases hkept : x.Kept
  · obtain ⟨hlho, hcomp, hdata⟩ := h hkept
    rw [if_neg hlho.not_gt]
    simp only [Traced.value_bind, Traced.value_half, hoff, if_neg hcomp.not_gt]
    have hname : x.name = pklName ∨ dataPrefix <+: x.name := hkept
    rw [if_pos hname, Traced.value_bind, Traced.value_pure, ← store_kept hkept]
    congr 1
    unfold readContent
    rcases hdata with ⟨rfl, hdata⟩ | ⟨rfl, hdata⟩
    · rw [← hdata]
      rfl
    · rw [← hdata]
      rfl
  · have hname : ¬ (x.name = pklName ∨ dataPrefix <+: x.name) := hkept
    rw [keep_of_not_kept hkept]
    by_cases hlho : f.size < lho + 30
    · rw [if_pos hlho]
      rfl
    · rw [if_neg hlho]
      simp only [Traced.value_bind, if_neg hname]
      split_ifs <;> rfl

/-- The walk keeps the entries one by one. -/
theorem walk_directory {p : ℕ} {entries : List ArchiveEntry}
    (h : f.Directory inflate p entries) (l : PtLoader) :
    (walk inflate f entries.length p l).value = some (true, entries.foldl keep l) := by
  induction entries generalizing p l with
  | nil => rfl
  | cons x xs ih =>
    obtain ⟨hx, hxs⟩ := h
    have hin := hx.inside
    have hentry := readEntry_holds hx.data l
    simp only [List.length_cons, walk, if_neg (by omega : ¬ f.size < p + 46), Traced.value_bind,
      Traced.value_half, Traced.value_word, Traced.value_bytes]
    rw [← hx.name] at hentry
    simp only [RawFile.half, RawFile.word, RawFile.slice] at hentry
    rw [hentry]
    exact ih hxs _

/-! The names of the storages -/

theorem atoi_toDigits {n : ℕ} (h : n < 2 ^ 31) : atoi (Nat.toDigits 10 n) = n := by
  have hvalue : Nat.ofDigitChars 10 (Nat.toDigits 10 n) 0 = n := Nat.ofDigitChars_ten_toDigits
  rw [atoi_digits Nat.toDigits_ne_nil (isDigit_toDigits n) (by omega), hvalue]

theorem storageName_eq (G : ℕ) : storageName G = dataPrefix ++ toBytes (toString G) :=
  toBytes_append _ _

theorem prefix_storageName (G : ℕ) : dataPrefix <+: storageName G := by
  rw [storageName_eq]
  exact List.prefix_append _ _

theorem storageName_ne_pklName (G : ℕ) : storageName G ≠ pklName := by
  intro h
  have hno : ¬ dataPrefix <+: pklName := by decide
  exact hno (h ▸ prefix_storageName G)

theorem ofBytes_digits (n : ℕ) : ofBytes (toBytes (toString n)) = toString n := by
  apply ofBytes_toBytes
  rw [toList_toString]
  exact ascii_toDigits n

theorem storageIndex_storageName {G : ℕ} (h : G < 2 ^ 31) : storageIndex (storageName G) = G := by
  rw [storageIndex, storageName_eq, List.drop_left, ofBytes_digits, toList_toString,
    atoi_toDigits h]

theorem storageName_injective : Function.Injective storageName := by
  intro a b h
  rw [storageName_eq, storageName_eq] at h
  have hdigits := congrArg ofBytes (List.append_cancel_left h)
  rw [ofBytes_digits, ofBytes_digits] at hdigits
  exact toDigits_injective (by rw [← toList_toString, hdigits, toList_toString])

/-! What the walk keeps -/

/-- The buffer that an entry sets. -/
def storageOf (x : ArchiveEntry) : Option (ℤ × List UInt8) :=
  if x.name ≠ pklName ∧ dataPrefix <+: x.name then some (storageIndex x.name, x.content) else none

theorem keep_cases (l : PtLoader) (x : ArchiveEntry) :
    (x.name = pklName ∧ storageOf x = none ∧ keep l x = { l with pklBytes := x.content }) ∨
      (x.name ≠ pklName ∧ ∃ b, storageOf x = some b ∧
        keep l x = { l with buffers := assign b.1 b.2 l.buffers }) ∨
      (x.name ≠ pklName ∧ storageOf x = none ∧ keep l x = l) := by
  unfold keep storageOf
  by_cases hpkl : x.name = pklName
  · simp [hpkl]
  · by_cases hpre : dataPrefix <+: x.name <;> simp [hpkl, hpre]

/-- A run over the entries sets the buffers, and the pickle bytes of the last pickle. -/
theorem foldl_keep (entries : List ArchiveEntry) (l : PtLoader) :
    entries.foldl keep l = { l with
      buffers := assignAll l.buffers (entries.filterMap storageOf)
      pklBytes := (entries.foldl keep l).pklBytes } := by
  induction entries generalizing l with
  | nil => rfl
  | cons x xs ih =>
    rw [List.foldl_cons, ih (keep l x)]
    obtain ⟨-, hx, hkeep⟩ | ⟨-, b, hx, hkeep⟩ | ⟨-, hx, hkeep⟩ := keep_cases l x
    · rw [List.filterMap_cons_none hx, hkeep]
    · rw [List.filterMap_cons_some hx, hkeep]
      rfl
    · rw [List.filterMap_cons_none hx, hkeep]

theorem foldl_keep_pklBytes {pkl : List UInt8} {entries : List ArchiveEntry}
    (hall : ∀ x ∈ entries, x.name = pklName → x.content = pkl) {l : PtLoader}
    (h : (∃ x ∈ entries, x.name = pklName) ∨ l.pklBytes = pkl) :
    (entries.foldl keep l).pklBytes = pkl := by
  induction entries generalizing l with
  | nil =>
    rcases h with ⟨x, hx, -⟩ | h
    · cases hx
    · exact h
  | cons x xs ih =>
    obtain ⟨hx, hxs⟩ := List.forall_mem_cons.mp hall
    apply ih hxs
    obtain ⟨hname, -, hkeep⟩ | ⟨hname, b, -, hkeep⟩ | ⟨hname, -, hkeep⟩ := keep_cases l x
    · exact Or.inr (by rw [hkeep, hx hname])
    all_goals
      rw [hkeep]
      refine h.imp_left ?_
      rintro ⟨y, hy, hyname⟩
      rcases List.mem_cons.mp hy with rfl | hy
      · exact absurd hyname hname
      · exact ⟨y, hy, hyname⟩

theorem storageOf_storage {storage : ℕ → List UInt8} {G : ℕ} (hG : G < 2 ^ 31) :
    storageOf ⟨storageName G, storage G⟩ = some ((G : ℤ), storage G) := by
  rw [storageOf, if_pos ⟨storageName_ne_pklName G, prefix_storageName G⟩,
    storageIndex_storageName hG]

/-- The loader holds these storages and no other buffer. -/
structure Holds (l : PtLoader) (n : ℕ) (storage : ℕ → List UInt8) : Prop where
  buffer : ∀ G < n, find? (G : ℤ) l.buffers = some (storage G)
  count : l.buffers.length = n

end PtLoader

namespace OracleArchive
variable {inflate : List UInt8 → Inflated} {f : RawFile} {n : ℕ} {storage : ℕ → List UInt8}
  {pkl : List UInt8} {entries : List ArchiveEntry}

/-- Different storages are different entries, and the end record counts them in 16 bits. -/
theorem count_lt (h : OracleArchive inflate f n storage pkl entries) : n < 2 ^ 16 := by
  have hnodup : ((List.range n).map fun G => (⟨storageName G, storage G⟩ : ArchiveEntry)).Nodup :=
    List.nodup_range.map fun a b hab => storageName_injective (congrArg ArchiveEntry.name hab)
  have hsub : ((List.range n).map fun G => (⟨storageName G, storage G⟩ : ArchiveEntry)) ⊆
      entries := by
    intro x hx
    obtain ⟨G, hG, rfl⟩ := List.mem_map.mp hx
    exact h.storages G (List.mem_range.mp hG)
  have hlen := (List.subperm_of_subset hnodup hsub).length_le
  rw [List.length_map, List.length_range] at hlen
  have hlt := (readHalf f.bytes (f.size - 22 + 10)).toNat_lt
  have hcount := h.count
  unfold RawFile.half at hcount
  omega

/-- The buffers that the entries set are the storages. -/
theorem mem_filterMap (h : OracleArchive inflate f n storage pkl entries)
    (b : ℤ × List UInt8) :
    b ∈ entries.filterMap storageOf ↔ ∃ G < n, b = ((G : ℤ), storage G) := by
  have hlt := h.count_lt
  rw [List.mem_filterMap]
  constructor
  · rintro ⟨x, hx, hxb⟩
    have hkept : x.name ≠ pklName ∧ dataPrefix <+: x.name := by
      unfold storageOf at hxb
      split_ifs at hxb with hname
      exact hname
    rcases h.others x hx (Or.inr hkept.2) with rfl | ⟨G, hG, rfl⟩
    · exact absurd rfl hkept.1
    · rw [storageOf_storage (by omega)] at hxb
      cases hxb
      exact ⟨G, hG, rfl⟩
  · rintro ⟨G, hG, rfl⟩
    exact ⟨_, h.storages G hG, storageOf_storage (by omega)⟩

theorem holds (h : OracleArchive inflate f n storage pkl entries) {l : PtLoader}
    (hl : l.buffers = assignAll [] (entries.filterMap storageOf)) : Holds l n storage := by
  have hbuffer : ∀ G < n, find? (G : ℤ) l.buffers = some (storage G) := by
    intro G hG
    rw [hl]
    refine find?_assignAll (fun b hb hkey => ?_)
      (Or.inl ⟨_, (h.mem_filterMap _).mpr ⟨G, hG, rfl⟩, rfl⟩)
    obtain ⟨G', hG', rfl⟩ := (h.mem_filterMap b).mp hb
    rw [Int.natCast_inj.mp hkey]
  refine ⟨hbuffer, ?_⟩
  have hsorted : Sorted l.buffers := by
    rw [hl]
    exact Sorted.assignAll List.Pairwise.nil _
  have hnodup : ((List.range n).map fun G : ℕ => (G : ℤ)).Nodup :=
    List.nodup_range.map Nat.cast_injective
  rw [hsorted.length_eq hnodup fun k => ?_, List.length_map, List.length_range]
  constructor
  · intro hk
    obtain ⟨G, hG, rfl⟩ := List.mem_map.mp hk
    exact ⟨_, hbuffer G (List.mem_range.mp hG)⟩
  · rintro ⟨v, hv⟩
    rw [hl] at hv
    obtain ⟨b, hb, rfl⟩ := List.mem_map.mp (mem_keys_of_find?_assignAll hv)
    obtain ⟨G, hG, rfl⟩ := (h.mem_filterMap b).mp hb
    exact List.mem_map.mpr ⟨G, List.mem_range.mpr hG, rfl⟩

theorem lastEndRecord (h : OracleArchive inflate f n storage pkl entries) :
    f.LastEndRecord (f.size - 22) := by
  have hsize := h.size
  exact ⟨by omega, h.endRecord, fun i hi hin => by omega⟩

/-- The walk ends with the storages and the pickle. -/
theorem walk_value (h : OracleArchive inflate f n storage pkl entries) :
    ∃ l, (walk inflate f (f.half (f.size - 22 + 10)) (f.word (f.size - 22 + 16)) fresh).value =
        some (true, l) ∧ Holds l n storage ∧ l.tensors = [] ∧ l.pklBytes = pkl := by
  have hkeep := foldl_keep entries fresh
  refine ⟨entries.foldl keep fresh, ?_, ?_, ?_, ?_⟩
  · rw [h.count]
    exact walk_directory h.directory fresh
  · apply h.holds
    rw [hkeep]
    rfl
  · rw [hkeep]
    rfl
  · refine foldl_keep_pklBytes (fun x hx hname => ?_) (Or.inl ⟨_, h.pickle, rfl⟩)
    rcases h.others x hx (Or.inl hname) with rfl | ⟨G, -, rfl⟩
    · rfl
    · exact absurd hname (storageName_ne_pklName G)

end OracleArchive
end Dee
