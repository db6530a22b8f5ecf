import Dee.OracleArchive
import Dee.PickleScan

/-! Loading the Oracle: the archive is opened, its layers are counted by their first
tensor, and the six tensors of each layer are read. An archive that holds the storages of
`L` layers, in whatever order and compression, loads as these layers. -/
namespace Dee
open ByteText LittleEndian OrderedMap PtLoader

structure OracleLayerWeights where
  w0 : List UInt32
  b0 : List UInt32
  w2 : List UInt32
  b2 : List UInt32
  w4 : List UInt32
  b4 : List UInt32
  deriving DecidableEq, Repr

structure OracleScheduler where
  D : ℤ
  H : ℤ
  E : ℤ
  layers : List OracleLayerWeights

namespace OracleScheduler

def numLayers (o : OracleScheduler) : ℕ := o.layers.length

/-- The loop that probes for layers, from layer `L` on. -/
def countLayers (tensors : List (String × PtTensor)) : ℕ → ℕ → Option ℕ
  | 0, _ => none
  | k + 1, L =>
    if (find? ("layers." ++ toString L ++ ".net.0.weight") tensors).isSome then
      countLayers tensors k (L + 1)
    else some L

def loadLayer (loader : PtLoader) (l : ℕ) : Option OracleLayerWeights := do
  let base := "layers." ++ toString l ++ "."
  let w0 ← loader.readTensor (base ++ "net.0.weight")
  let b0 ← loader.readTensor (base ++ "net.0.bias")
  let w2 ← loader.readTensor (base ++ "net.2.weight")
  let b2 ← loader.readTensor (base ++ "net.2.bias")
  let w4 ← loader.readTensor (base ++ "net.4.weight")
  let b4 ← loader.readTensor (base ++ "net.4.bias")
  return ⟨w0, b0, w2, b2, w4, b4⟩

def loadLayers (loader : PtLoader) : List ℕ → Except String (List OracleLayerWeights)
  | [] => .ok []
  | l :: ls =>
    match loadLayer loader l with
    | none => .error ("missing tensor for layer " ++ toString l)
    | some w =>
      match loadLayers loader ls with
      | .error err => .error err
      | .ok ws => .ok (w :: ws)

/-- `load`: the loaded Oracle, or what `error()` then says; `none` when it never returns. -/
def load (inflate : List UInt8 → Inflated) (f : RawFile) (D H E : ℤ) :
    Option (Except String OracleScheduler) :=
  match (PtLoader.openFile inflate .fresh f).value with
  | none => none
  | some (false, loader) => some (.error ("PtLoader: " ++ loader.err))
  | some (true, loader) =>
    match countLayers loader.tensors (loader.tensors.length + 1) 0 with
    | none => none
    | some L =>
      if L = 0 then some (.error "no layers found in oracle.pt")
      else
        match loadLayers loader (List.range L) with
        | .error err => some (.error err)
        | .ok layers => some (.ok ⟨D, H, E, layers⟩)

end OracleScheduler

namespace PtLoader
variable {l : PtLoader} {n : ℕ} {storage : ℕ → List UInt8}

/-! The names of the tensors -/

theorem kLocalNames_inj {i j : ℕ} (hi : i < 6) (hj : j < 6) (h : kLocalNames i = kLocalNames j) :
    i = j := by
  have hall : ∀ a < 6, ∀ b < 6, kLocalNames a = kLocalNames b → a = b := by decide
  exact hall i hi j hj h

theorem toList_tensorName (G : ℕ) :
    (tensorName G).toList =
      "layers.".toList ++ (Nat.toDigits 10 (G / 6) ++ '.' :: (kLocalNames (G % 6)).toList) := by
  simp [tensorName, String.toList_append]

/-- The layer of a tensor name is its digits, up to the dot. -/
theorem tensorName_injective : Function.Injective tensorName := by
  intro a b h
  have hlist := congrArg String.toList h
  rw [toList_tensorName, toList_tensorName] at hlist
  have hrest := List.append_cancel_left hlist
  have hdot : ∀ G, ∀ c ∈ ('.' :: (kLocalNames (G % 6)).toList).head?, c.isDigit = false := by simp
  obtain ⟨htakea, hdropa⟩ := takeWhile_append_of_all (isDigit_toDigits (a / 6)) (hdot a)
  obtain ⟨htakeb, hdropb⟩ := takeWhile_append_of_all (isDigit_toDigits (b / 6)) (hdot b)
  have hdiv : a / 6 = b / 6 := by
    apply toDigits_injective
    rw [← htakea, hrest, htakeb]
  have hnames : '.' :: (kLocalNames (a % 6)).toList = '.' :: (kLocalNames (b % 6)).toList := by
    rw [← hdropa, hrest, hdropb]
  have hmod : a % 6 = b % 6 :=
    kLocalNames_inj (by omega) (by omega) (String.toList_inj.mp (List.cons.inj hnames).2)
  omega

/-- The tensors of the first `n` storages, under their names. -/
def canonical (n : ℕ) : List (String × PtTensor) :=
  (List.range n).map fun G => (tensorName G, tensorOf G)

/-- The scan of the pickle ends and finds each name at its place among `n` storages. -/
def NamesMatch (n : ℕ) (pkl : List UInt8) : Prop :=
  ∃ names, found pkl = some names ∧ ∀ x ∈ names, Mismatch n x = false

theorem parsePickle_accepts {pkl : List UInt8} (h : NamesMatch l.buffers.length pkl) :
    parsePickle l pkl =
      some (true, { l with tensors := assignAll l.tensors (canonical l.buffers.length) }) := by
  obtain ⟨names, hfound, hmatch⟩ := h
  have hnone : names.find? (Mismatch l.buffers.length) = none :=
    List.find?_eq_none.mpr fun x hx => by simp [hmatch x hx]
  simp only [parsePickle, hfound, hnone]
  rfl

theorem map_fst_canonical (n : ℕ) : (canonical n).map Prod.fst = (List.range n).map tensorName := by
  rw [canonical, List.map_map]
  rfl

theorem nodup_canonical (n : ℕ) : ((canonical n).map Prod.fst).Nodup := by
  rw [map_fst_canonical]
  exact List.nodup_range.map tensorName_injective

theorem find?_canonical (n G : ℕ) :
    find? (tensorName G) (assignAll [] (canonical n)) =
      if G < n then some (tensorOf G) else none := by
  split_ifs with hG
  · exact find?_assignAll_of_mem (nodup_canonical n)
      (List.mem_map.mpr ⟨G, List.mem_range.mpr hG, rfl⟩) []
  · have hnot : tensorName G ∉ (canonical n).map Prod.fst := by
      rw [map_fst_canonical, List.mem_map]
      rintro ⟨G', hG', hname⟩
      rw [tensorName_injective hname] at hG'
      exact hG (List.mem_range.mp hG')
    rw [find?_assignAll_of_not_mem hnot]
    rfl

/-- The loader has the tensors of `n` storages, and the storages. -/
structure Loaded (l : PtLoader) (n : ℕ) (storage : ℕ → List UInt8) : Prop
    extends Holds l n storage where
  tensors : l.tensors = assignAll [] (canonical n)

theorem Loaded.find?_tensorName (h : Loaded l n storage) (G : ℕ) :
    find? (tensorName G) l.tensors = if G < n then some (tensorOf G) else none := by
  rw [h.tensors, find?_canonical]

theorem Loaded.length_tensors (h : Loaded l n storage) : l.tensors.length = n := by
  have hsorted : Sorted l.tensors := by
    rw [h.tensors]
    exact Sorted.assignAll List.Pairwise.nil _
  have hnodup : ((List.range n).map tensorName).Nodup := List.nodup_range.map tensorName_injective
  rw [hsorted.length_eq hnodup fun k => ?_, List.length_map, List.length_range]
  constructor
  · intro hk
    obtain ⟨G, hG, rfl⟩ := List.mem_map.mp hk
    exact ⟨_, by rw [h.find?_tensorName, if_pos (List.mem_range.mp hG)]⟩
  · rintro ⟨t, ht⟩
    rw [h.tensors] at ht
    rw [← map_fst_canonical]
    exact mem_keys_of_find?_assignAll ht

/-! Opening and reading -/

theorem openFile_archive {inflate : List UInt8 → Inflated} {f : RawFile} {pkl : List UInt8}
    {entries : List ArchiveEntry} (h : OracleArchive inflate f n storage pkl entries)
    (hn : 0 < n) (hpkl : pkl ≠ []) (hmatch : NamesMatch n pkl) :
    ∃ l, (openFile inflate fresh f).value = some (true, l) ∧ Loaded l n storage := by
  obtain ⟨l, hwalk, hholds, htensors, hbytes⟩ := h.walk_value
  have hparse := (parseZip_of_endRecord inflate h.lastEndRecord fresh).2
  rw [hwalk] at hparse
  simp only [hbytes, if_pos hpkl] at hparse
  rw [parsePickle_accepts (by rwa [hholds.count]), htensors, hholds.count] at hparse
  have hloaded : Loaded { l with tensors := assignAll [] (canonical n) } n storage :=
    ⟨⟨hholds.buffer, hholds.count⟩, rfl⟩
  refine ⟨_, ?_, hloaded⟩
  have hne : assignAll [] (canonical n) ≠ [] := by
    intro hnil
    have hlen := hloaded.length_tensors
    simp only [hnil, List.length_nil] at hlen
    omega
  have hsize := h.size
  have hclose : fresh.close = fresh := rfl
  unfold openFile
  rw [hclose, if_neg (by omega), if_neg (by omega)]
  simp only [Traced.value_bind, Traced.value_byte, h.magic.1, h.magic.2, if_true, ne_eq,
    not_true_eq_false, or_self, if_false, hparse, Traced.value_pure, hne, not_false_eq_true,
    decide_true]

/-- The bytes of a storage, by its place in the layer. -/
def storageBytes (i : ℕ) : ℕ :=
  match i with
  | 0 => 256 * 2048 * 4
  | 2 | 4 => 256 * 256 * 4
  | _ => 256 * 4

theorem nbytes_tensorOf (G : ℕ) : (tensorOf G).nbytes = storageBytes (G % 6) := by
  have hall : ∀ i < 6, (localShape i).foldl (fun n d => n * toSize d % 2 ^ 64) 1 * 4 % 2 ^ 64 =
      storageBytes i := by decide
  exact hall (G % 6) (by omega)

/-- The floats of a storage. -/
def floatsOf (b : List UInt8) : List UInt32 := floats b 0 b.length

theorem Loaded.readTensor (h : Loaded l n storage)
    (hsize : ∀ G < n, (storage G).length = storageBytes (G % 6)) {G : ℕ} (hG : G < n) :
    PtLoader.readTensor l (tensorName G) = some (floatsOf (storage G)) := by
  have htensor := h.find?_tensorName G
  rw [if_pos hG] at htensor
  have hbuffer : find? (tensorOf G).storage l.buffers = some (storage G) := h.buffer G hG
  have hlen : (storage G).length = (tensorOf G).nbytes := by rw [hsize G hG, nbytes_tensorOf]
  have hneed : szAdd (tensorOf G).offset (tensorOf G).nbytes = (storage G).length := by
    have hlt : (tensorOf G).nbytes < 2 ^ 64 := Nat.mod_lt _ (by decide)
    have hzero : (tensorOf G).offset = 0 := rfl
    rw [hlen, hzero, szAdd_of_lt (by omega), Nat.zero_add]
  simp only [PtLoader.readTensor, htensor, hbuffer, hneed, lt_irrefl, if_false]
  rw [floatsOf, hlen]
  rfl

end PtLoader

namespace OracleScheduler
variable {l : PtLoader} {L : ℕ} {storage : ℕ → List UInt8}

/-- The six storages of a layer, in the order of the exporter. -/
def layerOf (storage : ℕ → List UInt8) (l : ℕ) : OracleLayerWeights where
  w0 := floatsOf (storage (6 * l))
  b0 := floatsOf (storage (6 * l + 1))
  w2 := floatsOf (storage (6 * l + 2))
  b2 := floatsOf (storage (6 * l + 3))
  w4 := floatsOf (storage (6 * l + 4))
  b4 := floatsOf (storage (6 * l + 5))

theorem tensorName_layer (l : ℕ) {i : ℕ} (hi : i < 6) :
    tensorName (6 * l + i) = "layers." ++ toString l ++ "." ++ kLocalNames i := by
  have hdiv : (6 * l + i) / 6 = l := by omega
  have hmod : (6 * l + i) % 6 = i := by omega
  rw [tensorName, hdiv, hmod]

theorem probe_eq (i : ℕ) : "layers." ++ toString i ++ ".net.0.weight" = tensorName (6 * i) := by
  rw [← Nat.add_zero (6 * i), tensorName_layer i (by decide), String.append_assoc,
    String.append_assoc, String.append_assoc]
  rfl

theorem find?_of_countLayers_eq_none {tensors : List (String × PtTensor)} {k i : ℕ}
    (h : countLayers tensors k i = none) :
    ∀ j < k, tensorName (6 * (i + j)) ∈ tensors.map Prod.fst := by
  induction k generalizing i with
  | zero =>
    intro j hj
    omega
  | succ k ih =>
    rw [countLayers, probe_eq] at h
    split_ifs at h with hfound
    intro j hj
    rcases Nat.eq_zero_or_pos j with rfl | hpos
    · obtain ⟨t, ht⟩ := Option.isSome_iff_exists.mp hfound
      exact mem_keys_of_find? ht
    · have hnext := ih h (j - 1) (by omega)
      have hplace : i + 1 + (j - 1) = i + j := by omega
      rwa [hplace] at hnext

/-- The loop that counts the layers ends: more layers than tensors cannot have names. -/
theorem countLayers_ne_none (tensors : List (String × PtTensor)) :
    countLayers tensors (tensors.length + 1) 0 ≠ none := by
  intro h
  have hsub : ((List.range (tensors.length + 1)).map fun i => tensorName (6 * i)) ⊆
      tensors.map Prod.fst := by
    intro name hname
    obtain ⟨i, hi, rfl⟩ := List.mem_map.mp hname
    have hmem := find?_of_countLayers_eq_none h i (List.mem_range.mp hi)
    rwa [Nat.zero_add] at hmem
  have hnodup : ((List.range (tensors.length + 1)).map fun i => tensorName (6 * i)).Nodup :=
    List.nodup_range.map fun a b hab => by
      have hsix := tensorName_injective hab
      omega
  have hlen := (List.subperm_of_subset hnodup hsub).length_le
  rw [List.length_map, List.length_map, List.length_range] at hlen
  omega

/-- The probes succeed up to the last layer. -/
theorem countLayers_loaded (h : Loaded l (6 * L) storage) {k i : ℕ} (hi : i ≤ L)
    (hk : L < k + i) : countLayers l.tensors k i = some L := by
  induction k generalizing i with
  | zero => omega
  | succ k ih =>
    rw [countLayers, probe_eq, h.find?_tensorName]
    by_cases hlast : i = L
    · subst hlast
      rw [if_neg (lt_irrefl _)]
      rfl
    · rw [if_pos (by omega : 6 * i < 6 * L)]
      exact ih (by omega) (by omega)

theorem loadLayer_loaded (h : Loaded l (6 * L) storage)
    (hsize : ∀ G < 6 * L, (storage G).length = storageBytes (G % 6)) {i : ℕ} (hi : i < L) :
    loadLayer l i = some (layerOf storage i) := by
  have hread : ∀ j < 6, l.readTensor ("layers." ++ toString i ++ "." ++ kLocalNames j) =
      some (floatsOf (storage (6 * i + j))) := by
    intro j hj
    rw [← tensorName_layer i hj]
    exact h.readTensor hsize (by omega)
  have h0 := hread 0 (by decide)
  have h1 := hread 1 (by decide)
  have h2 := hread 2 (by decide)
  have h3 := hread 3 (by decide)
  have h4 := hread 4 (by decide)
  have h5 := hread 5 (by decide)
  simp only [kLocalNames] at h0 h1 h2 h3 h4 h5
  simp only [loadLayer, h0, h1, h2, h3, h4, h5, Option.bind_eq_bind, Option.bind_some]
  rfl

theorem loadLayers_loaded (h : Loaded l (6 * L) storage)
    (hsize : ∀ G < 6 * L, (storage G).length = storageBytes (G % 6)) {ls : List ℕ}
    (hls : ∀ i ∈ ls, i < L) : loadLayers l ls = .ok (ls.map (layerOf storage)) := by
  induction ls with
  | nil => rfl
  | cons i ls ih =>
    obtain ⟨hi, hrest⟩ := List.forall_mem_cons.mp hls
    rw [loadLayers, loadLayer_loaded h hsize hi, ih hrest]
    rfl

/-- An archive of `L` layers loads as these layers. -/
theorem load_archive {inflate : List UInt8 → Inflated} {f : RawFile} {pkl : List UInt8}
    {entries : List ArchiveEntry} (hL : 1 ≤ L)
    (harchive : OracleArchive inflate f (6 * L) storage pkl entries)
    (hsize : ∀ G < 6 * L, (storage G).length = storageBytes (G % 6)) (hpkl : pkl ≠ [])
    (hmatch : NamesMatch (6 * L) pkl) :
    ∃ o, load inflate f 2048 256 256 = some (.ok o) ∧ o.numLayers = L ∧
      ∀ l < L, o.layers[l]? = some (layerOf storage l) := by
  obtain ⟨loader, hopen, hloaded⟩ := openFile_archive harchive (by omega) hpkl hmatch
  have hcount : countLayers loader.tensors (loader.tensors.length + 1) 0 = some L := by
    rw [hloaded.length_tensors]
    exact countLayers_loaded hloaded (Nat.zero_le _) (by omega)
  have hlayers : loadLayers loader (List.range L) = .ok ((List.range L).map (layerOf storage)) :=
    loadLayers_loaded hloaded hsize fun i hi => List.mem_range.mp hi
  refine ⟨⟨2048, 256, 256, (List.range L).map (layerOf storage)⟩, ?_, ?_, fun l hl => ?_⟩
  · simp only [load, hopen, hcount, hlayers, if_neg (by omega : ¬ L = 0)]
  · simp [numLayers]
  · simp [hl]

/-! An archive of one layer: its storages share one run of zeros, its pickle is deflated. -/

def numberBytes (k n : ℕ) : List UInt8 := (List.range k).map fun i => UInt8.ofNat (n / 256 ^ i)

/-- A deflate stream of one stored block. -/
def deflateStored (content : List UInt8) : List UInt8 :=
  1 :: numberBytes 2 content.length ++ numberBytes 2 (65535 - content.length) ++ content

def inflateStored : List UInt8 → Inflated
  | 1 :: a :: b :: _ :: _ :: content => .streamEnd (content.take (a.toNat + 256 * b.toNat))
  | _ => .error

def localHeader : List UInt8 := [0x50, 0x4b, 3, 4] ++ List.replicate 26 0

def centralEntry (method : UInt8) (comp lho : ℕ) (name : List UInt8) : List UInt8 :=
  [0x50, 0x4b, 1, 2] ++ List.replicate 6 0 ++ [method] ++ List.replicate 9 0 ++
    numberBytes 4 comp ++ numberBytes 4 comp ++ numberBytes 2 name.length ++
    List.replicate 12 0 ++ numberBytes 4 lho ++ name

/-- One name and its storage key. -/
def onePickle : List UInt8 :=
  0x58 :: numberBytes 4 12 ++ toBytes "net.0.weight" ++ 0x58 :: numberBytes 4 1 ++ toBytes "0"

def zeroStorage (G : ℕ) : List UInt8 := List.replicate (storageBytes (G % 6)) 0

def oneLayerEntries : List ArchiveEntry :=
  ⟨pklName, onePickle⟩ :: (List.range 6).map fun G => ⟨storageName G, zeroStorage G⟩

/-- The pickle and the header of the storages end at 88, the zeros at 2097240. -/
def oneLayerFile : RawFile where
  size := 2097677
  bytes := fun i =>
    if i < 88 then (localHeader ++ deflateStored onePickle ++ localHeader).getD i 0
    else if i < 2097240 then 0
    else (centralEntry 8 28 0 pklName ++
      (List.range 6).flatMap (fun G => centralEntry 0 (storageBytes G) 58 (storageName G)) ++
      [0x50, 0x4b, 5, 6] ++ List.replicate 6 0 ++ numberBytes 2 7 ++ numberBytes 4 415 ++
      numberBytes 4 2097240 ++ [0, 0]).getD (i - 2097240) 0
  size_lt := by decide

theorem slice_zeros {n : ℕ} (h : n ≤ 2097152) : oneLayerFile.slice 88 n = List.replicate n 0 := by
  refine List.eq_replicate_iff.mpr ⟨by simp [RawFile.slice], fun b hb => ?_⟩
  obtain ⟨i, hi, rfl⟩ := List.mem_map.mp hb
  have hlt := List.mem_range.mp hi
  simp only [oneLayerFile, if_neg (by omega : ¬ 88 + i < 88), if_pos (by omega : 88 + i < 2097240)]

theorem entryAt_pickle :
    oneLayerFile.EntryAt inflateStored 2097240 ⟨pklName, onePickle⟩ where
  inside := by decide
  name := by decide
  data := fun _ => ⟨by decide, by decide,
    Or.inr ⟨by decide, by
      have hslice : oneLayerFile.slice (oneLayerFile.dataOffset (oneLayerFile.word (2097240 + 42)))
          (oneLayerFile.word (2097240 + 20)) = deflateStored onePickle := by decide
      rw [hslice]
      rfl⟩⟩

/-- The fields of the entry of a storage. -/
theorem storage_fields : ∀ G < 6,
    oneLayerFile.half (2097301 + 59 * G + 28) = 13 ∧
      oneLayerFile.half (2097301 + 59 * G + 30) = 0 ∧
      oneLayerFile.half (2097301 + 59 * G + 32) = 0 ∧
      oneLayerFile.slice (2097301 + 59 * G + 46) 13 = storageName G ∧
      readHalf oneLayerFile.bytes (2097301 + 59 * G + 10) = 0 ∧
      oneLayerFile.word (2097301 + 59 * G + 20) = storageBytes G ∧
      oneLayerFile.word (2097301 + 59 * G + 42) = 58 := by
  decide

theorem entryAt_storage {G : ℕ} (hG : G < 6) :
    oneLayerFile.EntryAt inflateStored (2097301 + 59 * G) ⟨storageName G, zeroStorage G⟩ := by
  obtain ⟨hnlen, -, -, hname, hmethod, hcomp, hlho⟩ := storage_fields G hG
  have hoff : oneLayerFile.dataOffset 58 = 88 := by decide
  have hbytes : storageBytes G ≤ 2097152 := by
    have hall : ∀ i < 6, storageBytes i ≤ 2097152 := by decide
    exact hall G hG
  have hsize : oneLayerFile.size = 2097677 := rfl
  refine ⟨by omega, by rw [hnlen, hname], fun _ => ?_⟩
  rw [hmethod, hcomp, hlho]
  refine ⟨by omega, by omega, Or.inl ⟨rfl, ?_⟩⟩
  rw [hoff, slice_zeros hbytes, zeroStorage, Nat.mod_eq_of_lt hG]

/-- The entries of the last `k` storages. -/
theorem directory_storages {k : ℕ} (hk : k ≤ 6) :
    oneLayerFile.Directory inflateStored (2097301 + 59 * (6 - k))
      ((List.range' (6 - k) k).map fun G => ⟨storageName G, zeroStorage G⟩) := by
  induction k with
  | zero => trivial
  | succ k ih =>
    obtain ⟨hnlen, helen, hclen, -⟩ := storage_fields (6 - (k + 1)) (by omega)
    have hnext : 6 - (k + 1) + 1 = 6 - k := by omega
    rw [List.range'_succ, List.map_cons, hnext]
    refine ⟨entryAt_storage (by omega), ?_⟩
    rw [hnlen, helen, hclen]
    have hplace : 2097301 + 59 * (6 - (k + 1)) + (46 + 13 + 0 + 0) = 2097301 + 59 * (6 - k) := by
      omega
    rw [hplace]
    exact ih (by omega)

theorem oneLayer_archive :
    OracleArchive inflateStored oneLayerFile 6 zeroStorage onePickle oneLayerEntries where
  size := by decide
  magic := by decide
  endRecord := by
    unfold RawFile.EndSignature
    decide +kernel
  count := by decide +kernel
  directory := by
    have hoffset : oneLayerFile.word (oneLayerFile.size - 22 + 16) = 2097240 := by decide +kernel
    have hnext : 2097240 + (46 + oneLayerFile.half (2097240 + 28) +
        oneLayerFile.half (2097240 + 30) + oneLayerFile.half (2097240 + 32)) = 2097301 := by
      decide
    rw [hoffset]
    refine ⟨entryAt_pickle, ?_⟩
    rw [hnext, List.range_eq_range']
    exact directory_storages le_rfl
  pickle := List.mem_cons_self
  storages := fun G hG => List.mem_cons_of_mem _
    (List.mem_map.mpr ⟨G, List.mem_range.mpr hG, rfl⟩)
  others := by
    intro x hx _
    rcases List.mem_cons.mp hx with rfl | hx
    · exact Or.inl rfl
    · obtain ⟨G, hG, rfl⟩ := List.mem_map.mp hx
      exact Or.inr ⟨G, List.mem_range.mp hG, rfl⟩

theorem found_onePickle : found onePickle = some [⟨"net.0.weight", 0⟩] := by
  let ops : List StringOp :=
    [⟨false, toBytes "net.0.weight", by decide⟩, ⟨false, toBytes "0", by decide⟩]
  have henc : onePickle = encodeOps ops := by decide
  have hstep : InStep ops := by
    unfold InStep
    decide
  have hnames : namesOf ops = [⟨"net.0.weight", 0⟩] := by decide
  rw [henc, found_encode hstep, hnames]

theorem load_archive_one : ∃ o, load inflateStored oneLayerFile 2048 256 256 = some (.ok o) ∧
    o.numLayers = 1 ∧ ∀ l < 1, o.layers[l]? = some (layerOf zeroStorage l) :=
  load_archive le_rfl oneLayer_archive (fun _ _ => List.length_replicate) (by decide)
    ⟨_, found_onePickle, by decide⟩

end OracleScheduler
end Dee
