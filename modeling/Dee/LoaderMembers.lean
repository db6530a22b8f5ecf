import Dee.OracleLoad

/-! The members of an archive. The walk over the central directory is a run over its
members, each taken with what its data inflates to: the storages and the pickle bytes that a
loader has after the walk follow from them and from the pickle bytes left from before. -/
namespace Dee
open ByteText LittleEndian OrderedMap PtLoader

/-- A member of an archive that the loader looks into. -/
structure Member where
  name : List UInt8
  data : Inflated
  kept : name = pklName ∨ dataPrefix <+: name

namespace RawFile
variable (inflate : List UInt8 → Inflated) (f : RawFile)

/-- What the loader sees of a central entry with these fields. -/
def memberAt (method : UInt16) (comp : ℕ) (name : List UInt8) (lho : ℕ) : Option Member :=
  if h : lho + 30 ≤ f.size ∧ f.dataOffset lho + comp ≤ f.size ∧
      (name = pklName ∨ dataPrefix <+: name) then
    if method = 0 then some ⟨name, .streamEnd (f.slice (f.dataOffset lho) comp), h.2.2⟩
    else if method = 8 then some ⟨name, inflate (f.slice (f.dataOffset lho) comp), h.2.2⟩
    else none
  else none

/-- The members among the next `k` central entries from `p` on. -/
def membersFrom : ℕ → ℕ → List Member
  | 0, _ => []
  | k + 1, p =>
    if f.size < p + 46 then []
    else
      (f.memberAt inflate (readHalf f.bytes (p + 10)) (f.word (p + 20))
        (f.slice (p + 46) (f.half (p + 28))) (f.word (p + 42))).toList ++
      membersFrom k (p + (46 + f.half (p + 28) + f.half (p + 30) + f.half (p + 32)))

/-- The members of an archive; `none` for a file without the magic or without an end record. -/
def members : Option (List Member) :=
  if f.size < 4 ∨ f.bytes 0 ≠ 0x50 ∨ f.bytes 1 ≠ 0x4b then none
  else
    match (scanEocd f (f.size + 2) (if 22 ≤ f.size then f.size - 22 else 0)).value with
    | none => none
    | some eocd =>
      if eocd = npos then none
      else some (f.membersFrom inflate (f.half (szAdd eocd 10)) (f.word (szAdd eocd 16)))

end RawFile

/-- The contents of the members, when each of them can be inflated. -/
def contents : List Member → Option (List ArchiveEntry)
  | [] => some []
  | m :: ms =>
    match m.data, contents ms with
    | .streamEnd out, some es => some (⟨m.name, out⟩ :: es)
    | _, _ => none

/-- The pickle bytes that a loader has after the members, up to one that is not inflated. -/
def pickleLeft (old : List UInt8) : List Member → List UInt8
  | [] => old
  | m :: ms =>
    match m.data with
    | .streamEnd out => pickleLeft (if m.name = pklName then out else old) ms
    | _ => old

namespace RawFile
variable (inflate : List UInt8 → Inflated) (f : RawFile)

/-- What the loader keeps of a file that it reads to the end of its directory. -/
def entries : Option (List ArchiveEntry) := (f.members inflate).bind contents

/-- The pickle bytes that a loader has after the file. -/
def pickleAfter (old : List UInt8) : List UInt8 :=
  match f.members inflate with
  | none => old
  | some ms => pickleLeft old ms

end RawFile

/-- The storages among the entries. -/
def storages (es : List ArchiveEntry) : List (ℤ × List UInt8) :=
  assignAll [] (es.filterMap storageOf)

namespace PtLoader
variable {inflate : List UInt8 → Inflated} {f : RawFile}

/-- Keep the members one after the other. -/
def storeAll : List Member → PtLoader → Option (Bool × PtLoader)
  | [], l => some (true, l)
  | m :: ms, l =>
    match store l m.name (some m.data) with
    | some (true, l) => storeAll ms l
    | r => r

theorem readEntry_value (method : UInt16) (comp : ℕ) (name : List UInt8) (lho : ℕ)
    (l : PtLoader) : (readEntry inflate f method comp name lho l).value =
      storeAll (f.memberAt inflate method comp name lho).toList l := by
  have hoff : lho + 30 + (readHalf f.bytes (lho + 26)).toNat +
      (readHalf f.bytes (lho + 28)).toNat = f.dataOffset lho := rfl
  unfold readEntry RawFile.memberAt
  by_cases hlho : f.size < lho + 30
  · rw [if_pos hlho, dif_neg fun h => absurd h.1 hlho.not_ge]
    rfl
  rw [if_neg hlho]
  simp only [Traced.value_bind, Traced.value_half, hoff]
  by_cases hcomp : f.size < f.dataOffset lho + comp
  · rw [if_pos hcomp, dif_neg fun h => absurd h.2.1 hcomp.not_ge]
    rfl
  rw [if_neg hcomp]
  by_cases hname : name = pklName ∨ dataPrefix <+: name
  · rw [if_pos hname, dif_pos ⟨not_lt.mp hlho, not_lt.mp hcomp, hname⟩, Traced.value_bind,
      Traced.value_pure]
    have hlast : ∀ m : Member, store l m.name (some m.data) = storeAll [m] l := by
      intro m
      rw [storeAll]
      rcases store l m.name (some m.data) with _ | ⟨_ | _, l'⟩ <;> rfl
    unfold readContent
    split_ifs
    · exact hlast ⟨name, .streamEnd (f.slice (f.dataOffset lho) comp), hname⟩
    · exact hlast ⟨name, inflate (f.slice (f.dataOffset lho) comp), hname⟩
    · rfl
  · rw [if_neg hname, dif_neg fun h => hname h.2.2]
    rfl

theorem storeAll_append (ms ms' : List Member) (l : PtLoader) :
    storeAll (ms ++ ms') l =
      match storeAll ms l with
      | some (true, l) => storeAll ms' l
      | r => r := by
  induction ms generalizing l with
  | nil => rfl
  | cons m ms ih =>
    rw [List.cons_append, storeAll, storeAll]
    rcases store l m.name (some m.data) with _ | ⟨_ | _, l'⟩
    · rfl
    · rfl
    · exact ih l'

/-- The walk is a run over the members. -/
theorem walk_value (k p : ℕ) (l : PtLoader) :
    (walk inflate f k p l).value = storeAll (f.membersFrom inflate k p) l := by
  induction k generalizing p l with
  | zero => rfl
  | succ k ih =>
    rw [walk, RawFile.membersFrom]
    by_cases hp : f.size < p + 46
    · rw [if_pos hp, if_pos hp]
      rfl
    rw [if_neg hp, if_neg hp, storeAll_append]
    simp only [Traced.value_bind, Traced.value_half, Traced.value_word, Traced.value_bytes]
    rw [← readEntry_value]
    simp only [RawFile.half, RawFile.word, RawFile.slice]
    generalize readEntry inflate f _ _ _ _ l = r
    rcases r.value with _ | ⟨_ | _, l'⟩
    · rfl
    · rfl
    · exact ih _ l'

/-! The outcome of an `open` -/

/-- What `open` does once the walk has come to its end. -/
def finish (l : PtLoader) : Option (Bool × PtLoader) :=
  match if l.pklBytes ≠ [] then parsePickle l l.pklBytes else some (true, l) with
  | some (true, l) => some (decide (l.tensors ≠ []), l)
  | r => r

theorem openFile_of_magic (hsize : ¬ f.size < 4) (hp : f.bytes 0 = 0x50) (hk : f.bytes 1 = 0x4b)
    (l : PtLoader) : (openFile inflate l f).value =
      match (parseZip inflate l.close f).value with
      | some (true, l) => some (decide (l.tensors ≠ []), l)
      | r => r := by
  unfold openFile
  rw [if_neg (by omega), if_neg hsize]
  simp only [Traced.value_bind, Traced.value_byte, hp, hk, if_true, ne_eq, not_true_eq_false,
    or_self, if_false]
  rcases (parseZip inflate l.close f).value with _ | ⟨_ | _, l'⟩ <;> rfl

theorem openFile_of_no_magic (h : f.size < 4 ∨ f.bytes 0 ≠ 0x50 ∨ f.bytes 1 ≠ 0x4b)
    (l : PtLoader) :
    ∃ err, (openFile inflate l f).value = some (false, { l.close with err := err }) := by
  unfold openFile
  by_cases hzero : f.size = 0
  · rw [if_pos hzero]
    exact ⟨_, rfl⟩
  by_cases hsize : f.size < 4
  · rw [if_neg hzero, if_pos hsize]
    exact ⟨_, rfl⟩
  rw [if_neg hzero, if_neg hsize]
  by_cases hp : f.bytes 0 = 0x50
  · have hk : f.bytes 1 ≠ 0x4b := (h.resolve_left hsize).resolve_left (not_not.mpr hp)
    refine ⟨"not a ZIP (bad magic)", ?_⟩
    simp [hp, hk]
  · refine ⟨"not a ZIP (bad magic)", ?_⟩
    simp [hp]

/-- Without members the file is refused at once. -/
theorem openFile_of_no_members (h : f.members inflate = none) (l : PtLoader) :
    ∃ err, (openFile inflate l f).value = some (false, { l.close with err := err }) := by
  unfold RawFile.members at h
  by_cases hmagic : f.size < 4 ∨ f.bytes 0 ≠ 0x50 ∨ f.bytes 1 ≠ 0x4b
  · exact openFile_of_no_magic hmagic l
  · rw [if_neg hmagic] at h
    simp only [not_or, not_not] at hmagic
    rw [openFile_of_magic hmagic.1 hmagic.2.1 hmagic.2.2]
    cases hscan : (scanEocd f (f.size + 2) (if 22 ≤ f.size then f.size - 22 else 0)).value with
    | none => exact absurd hscan (search_ends f)
    | some eocd =>
      have hlost : eocd = npos := by
        by_contra hne
        simp only [hscan, if_neg hne, reduceCtorEq] at h
      refine ⟨"not a ZIP (no EOCD)", ?_⟩
      simp only [parseZip, Traced.value_bind, hscan, if_pos hlost, Traced.value_pure]

/-- With members the file is read as its members say. -/
theorem openFile_of_members {ms : List Member} (h : f.members inflate = some ms) (l : PtLoader) :
    (openFile inflate l f).value =
      match storeAll ms l.close with
      | some (true, l) => finish l
      | r => r := by
  unfold RawFile.members at h
  by_cases hmagic : f.size < 4 ∨ f.bytes 0 ≠ 0x50 ∨ f.bytes 1 ≠ 0x4b
  · rw [if_pos hmagic] at h
    cases h
  rw [if_neg hmagic] at h
  simp only [not_or, not_not] at hmagic
  rw [openFile_of_magic hmagic.1 hmagic.2.1 hmagic.2.2]
  cases hscan : (scanEocd f (f.size + 2) (if 22 ≤ f.size then f.size - 22 else 0)).value with
  | none =>
    rw [hscan] at h
    cases h
  | some eocd =>
    simp only [hscan] at h
    split_ifs at h with hlost
    simp only [parseZip, Traced.value_bind, hscan, if_neg hlost, Traced.value_word,
      Traced.value_half]
    have hwalk := @walk_value inflate f (f.half (szAdd eocd 10)) (f.word (szAdd eocd 16)) l.close
    rw [Option.some.inj h] at hwalk
    rw [← hwalk]
    simp only [RawFile.half, RawFile.word]
    generalize walk inflate f _ _ l.close = r
    rcases r.value with _ | ⟨_ | _, l'⟩ <;> rfl

/-! What the members leave behind -/

theorem tensors_keep (l : PtLoader) (x : ArchiveEntry) : (keep l x).tensors = l.tensors := by
  obtain ⟨-, -, hkeep⟩ | ⟨-, b, -, hkeep⟩ | ⟨-, -, hkeep⟩ := keep_cases l x <;> rw [hkeep]

theorem pklBytes_keep (l : PtLoader) (x : ArchiveEntry) :
    (keep l x).pklBytes = if x.name = pklName then x.content else l.pklBytes := by
  obtain ⟨hname, -, hkeep⟩ | ⟨hname, b, -, hkeep⟩ | ⟨hname, -, hkeep⟩ := keep_cases l x
  · rw [hkeep, if_pos hname]
  · rw [hkeep, if_neg hname]
  · rw [hkeep, if_neg hname]

theorem store_member {m : Member} {out : List UInt8} (h : m.data = .streamEnd out)
    (l : PtLoader) : store l m.name (some m.data) = some (true, keep l ⟨m.name, out⟩) := by
  rw [h]
  exact @store_kept ⟨m.name, out⟩ m.kept l

theorem storeAll_contents {ms : List Member} {es : List ArchiveEntry}
    (h : contents ms = some es) (l : PtLoader) : storeAll ms l = some (true, es.foldl keep l) := by
  induction ms generalizing es l with
  | nil =>
    cases h
    rfl
  | cons m ms ih =>
    rw [contents] at h
    split at h
    · next out rest hdata hrest =>
      cases h
      rw [storeAll, store_member hdata]
      exact ih hrest _
    · cases h

/-- A member that is not inflated ends the run, with the tensors as they were. -/
theorem storeAll_broken {ms : List Member} (h : contents ms = none) :
    (∀ l, storeAll ms l = none) ∨
      ∀ l, ∃ l', storeAll ms l = some (false, l') ∧ l'.tensors = l.tensors := by
  induction ms with
  | nil => cases h
  | cons m ms ih =>
    cases hdata : m.data with
    | starved =>
      refine Or.inl fun l => ?_
      rw [storeAll, hdata]
      rfl
    | error =>
      refine Or.inr fun l => ?_
      rw [storeAll, hdata]
      exact ⟨_, rfl, rfl⟩
    | streamEnd out =>
      have hms : contents ms = none := by
        rw [contents, hdata] at h
        cases hrest : contents ms with
        | none => rfl
        | some es =>
          rw [hrest] at h
          cases h
      refine (ih hms).imp (fun hnone l => ?_) (fun hfalse l => ?_)
      · rw [storeAll, store_member hdata]
        exact hnone _
      · obtain ⟨l', hl', htensors⟩ := hfalse (keep l ⟨m.name, out⟩)
        rw [storeAll, store_member hdata]
        exact ⟨l', hl', htensors.trans (tensors_keep _ _)⟩

theorem storeAll_pklBytes {ms : List Member} {l l' : PtLoader} {b : Bool}
    (h : storeAll ms l = some (b, l')) : l'.pklBytes = pickleLeft l.pklBytes ms := by
  induction ms generalizing l with
  | nil =>
    cases h
    rfl
  | cons m ms ih =>
    cases hdata : m.data with
    | starved =>
      rw [storeAll, hdata] at h
      cases h
    | error =>
      rw [storeAll, hdata] at h
      cases h
      rw [pickleLeft, hdata]
    | streamEnd out =>
      rw [storeAll, store_member hdata] at h
      rw [ih h, pklBytes_keep, pickleLeft, hdata]

theorem foldl_keep_close {ms : List Member} {es : List ArchiveEntry}
    (h : contents ms = some es) (l : PtLoader) :
    es.foldl keep l.close = ⟨l.err, storages es, [], pickleLeft l.pklBytes ms⟩ := by
  have hbytes := storeAll_pklBytes (storeAll_contents h l.close)
  rw [foldl_keep, hbytes]
  rfl

/-! The outcome by the entries -/

/-- A file whose directory is not read to its end leaves no tensors, if `open` returns. -/
theorem openFile_of_no_entries (h : f.entries inflate = none) :
    (∀ l, (openFile inflate l f).value = none) ∨
      ∀ l, ∃ l', (openFile inflate l f).value = some (false, l') ∧ l'.tensors = [] := by
  unfold RawFile.entries at h
  cases hmembers : f.members inflate with
  | none =>
    refine Or.inr fun l => ?_
    obtain ⟨err, hopen⟩ := openFile_of_no_members hmembers l
    exact ⟨_, hopen, rfl⟩
  | some ms =>
    rw [hmembers, Option.bind_some] at h
    simp only [openFile_of_members hmembers]
    refine (storeAll_broken h).imp (fun hnone l => ?_) (fun hfalse l => ?_)
    · rw [hnone]
    · obtain ⟨l', hstore, htensors⟩ := hfalse l.close
      rw [hstore]
      exact ⟨l', rfl, htensors⟩

/-- Otherwise the storages of the file and the pickle bytes decide. -/
theorem openFile_of_entries {es : List ArchiveEntry} (h : f.entries inflate = some es)
    (l : PtLoader) : (openFile inflate l f).value =
      finish ⟨l.err, storages es, [], f.pickleAfter inflate l.pklBytes⟩ := by
  obtain ⟨ms, hmembers, hcontents⟩ := Option.bind_eq_some_iff.mp h
  rw [openFile_of_members hmembers, storeAll_contents hcontents, foldl_keep_close hcontents]
  simp only [RawFile.pickleAfter, hmembers]

theorem pickleLeft_contents {ms : List Member} {es : List ArchiveEntry}
    (h : contents ms = some es) :
    ((∃ x ∈ es, x.name = pklName) → ∀ old old', pickleLeft old ms = pickleLeft old' ms) ∧
      ((∀ x ∈ es, x.name ≠ pklName) → ∀ old, pickleLeft old ms = old) := by
  induction ms generalizing es with
  | nil =>
    cases h
    simp [pickleLeft]
  | cons m ms ih =>
    rw [contents] at h
    split at h
    · next out rest hdata hrest =>
      cases h
      obtain ⟨hsome, hnone⟩ := ih hrest
      simp only [pickleLeft, hdata]
      by_cases hname : m.name = pklName
      · simp [hname]
      · simp only [List.mem_cons, exists_eq_or_imp, forall_eq_or_imp, hname, false_or, if_false,
          ne_eq, not_false_eq_true, true_and]
        exact ⟨hsome, hnone⟩
    · cases h

/-- A pickle among the entries replaces the one from before. -/
theorem pickleAfter_entries {es : List ArchiveEntry} (h : f.entries inflate = some es) :
    ((∃ x ∈ es, x.name = pklName) →
      ∀ old old', f.pickleAfter inflate old = f.pickleAfter inflate old') ∧
    ((∀ x ∈ es, x.name ≠ pklName) → ∀ old, f.pickleAfter inflate old = old) := by
  obtain ⟨ms, hmembers, hcontents⟩ := Option.bind_eq_some_iff.mp h
  simp only [RawFile.pickleAfter, hmembers]
  exact pickleLeft_contents hcontents

end PtLoader
end Dee
