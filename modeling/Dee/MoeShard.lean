import Dee.ShardFile
import Dee.TensorNames
import Dee.StagingTypes

/-! The generated MoE shard and the way of its weights: from the patterns of the generator
into the file, through header, mapping and resolver into the staging table. An expert is
staged as the pattern that was written for it, cut to BF16. A float32 is its bit pattern. -/
namespace Dee
open ByteText LittleEndian TensorResolver GuardedRuns

/-- BF16 by truncation. -/
def f32ToBf16 (u : UInt32) : UInt16 := (u >>> 16 &&& 0xFFFF).toUInt16

theorem toNat_f32ToBf16 (u : UInt32) : (f32ToBf16 u).toNat = u.toNat / 2 ^ 16 := by
  have hlt := u.toNat_lt
  have h16 : (16 : UInt32).toNat % 32 = 16 := rfl
  have hmask : (0xFFFF : UInt32).toNat = 2 ^ 16 - 1 := rfl
  simp only [f32ToBf16, UInt32.toNat_toUInt16, UInt32.toNat_and, UInt32.toNat_shiftRight, h16,
    hmask, Nat.and_two_pow_sub_one_eq_mod, Nat.shiftRight_eq_div_pow]
  omega

/-- Back in float32, the lower half is lost. -/
theorem toNat_bf16ToF32_f32ToBf16 (u : UInt32) :
    (bf16ToF32 (f32ToBf16 u)).toNat = u.toNat / 2 ^ 16 * 2 ^ 16 := by
  have hlt := u.toNat_lt
  have h16 : (16 : UInt32).toNat % 32 = 16 := rfl
  simp only [bf16ToF32, UInt32.toNat_shiftLeft, UInt16.toNat_toUInt32, toNat_f32ToBf16, h16,
    Nat.shiftLeft_eq]
  omega

namespace MoeShard

/-- The numbers that fill a weight, again and again. -/
structure Pattern where
  values : List UInt32
  values_ne : values ≠ []

/-- The number that weight `i` gets. -/
def Pattern.value (p : Pattern) (i : ℕ) : UInt32 :=
  p.values.getD (i % p.values.length) 0

/-- The number as it comes back: its lower half is cleared. -/
def Pattern.cut (p : Pattern) (i : ℕ) : ℕ := (p.value i).toNat / 2 ^ 16 * 2 ^ 16

/-- The two bytes of a half word. -/
def halfBytes (h : UInt16) : List UInt8 := [UInt8.ofNat h.toNat, UInt8.ofNat (h.toNat / 256)]

/-- The pattern as often as it fits, and the rest of it. -/
def weightBytes (p : Pattern) (nElems : ℕ) : List UInt8 :=
  let pb := p.values.flatMap fun v => halfBytes (f32ToBf16 v)
  (List.replicate (nElems / p.values.length) pb).flatten ++ pb.take (nElems % p.values.length * 2)

/-- What the generator is told: the dimensions of an expert, their number, and a pattern for
each projection of the first three experts and of the others. -/
structure Config where
  hidden : ℕ
  inter : ℕ
  numExperts : ℕ
  hidden_pos : 0 < hidden
  inter_pos : 0 < inter
  hidden_lt : hidden < 2 ^ 31
  inter_lt : inter < 2 ^ 31
  numExperts_lt : numExperts < 2 ^ 31
  canon : Kind → Pattern
  filler : Kind → Pattern

namespace Config
variable (g : Config)

/-- The elements of one weight. -/
def elems : ℕ := g.hidden * g.inter

/-- The pattern of a projection of expert `e`. -/
def pattern (e : ℕ) (kind : Kind) : Pattern := if e < 3 then g.canon kind else g.filler kind

/-- The blob `[gate | up | down]` of an expert. -/
def blob (e : ℕ) : List UInt8 :=
  weightBytes (g.pattern e .gateProj) g.elems ++ weightBytes (g.pattern e .upProj) g.elems ++
    weightBytes (g.pattern e .downProj) g.elems

/-- The slice of the blob that is a projection. -/
def slice (e : ℕ) : Kind → List UInt8
  | .gateProj => (g.blob e).take (g.elems * 2)
  | .upProj => ((g.blob e).take (2 * g.elems * 2)).drop (g.elems * 2)
  | .downProj => ((g.blob e).take (3 * g.elems * 2)).drop (2 * g.elems * 2)

def shape : Kind → List Int64
  | .downProj => [Int64.ofNat g.hidden, Int64.ofNat g.inter]
  | _ => [Int64.ofNat g.inter, Int64.ofNat g.hidden]

end Config

def name (layer expert : ℕ) (kind : Kind) : String :=
  "model.language_model.layers." ++ toString layer ++ ".mlp.experts." ++ toString expert ++ "." ++
    kind.text ++ ".weight"

theorem toString_toInt_ofNat {n : ℕ} (h : n < 2 ^ 31) :
    toString (Int32.ofNat n).toInt = toString n := by
  rw [Int32.toInt_ofNat_of_lt h]
  rfl

/-- The generator and the resolver name an expert alike. -/
theorem name_eq_expertTensorName {layer expert : ℕ} (hl : layer < 2 ^ 31) (he : expert < 2 ^ 31)
    (kind : Kind) :
    name layer expert kind = expertTensorName (Int32.ofNat layer) (Int32.ofNat expert) kind := by
  unfold name expertTensorName
  rw [toString_toInt_ofNat hl, toString_toInt_ofNat he]

/-! Patterns -/

theorem length_halfBytes (h : UInt16) : (halfBytes h).length = 2 := rfl

theorem getElem?_flatMap_pairs {α β : Type*} (f : α → List β) (hf : ∀ a, (f a).length = 2)
    (l : List α) (i j : ℕ) (hj : j < 2) :
    (l.flatMap f)[2 * i + j]? = l[i]?.bind fun a => (f a)[j]? := by
  induction l generalizing i with
  | nil => simp
  | cons a l ih =>
    rw [List.flatMap_cons]
    cases i with
    | zero =>
      rw [List.getElem?_append_left (by rw [hf]; omega)]
      simp
    | succ i =>
      rw [List.getElem?_append_right (by rw [hf]; omega), hf,
        show 2 * (i + 1) + j - 2 = 2 * i + j by omega, ih]
      simp

theorem getElem?_flatten_replicate {α : Type*} (l : List α) (q i : ℕ) (hi : i < q * l.length) :
    (List.replicate q l).flatten[i]? = l[i % l.length]? := by
  induction q generalizing i with
  | zero => omega
  | succ q ih =>
    rw [List.replicate_succ, List.flatten_cons]
    rcases Nat.lt_or_ge i l.length with hlt | hge
    · rw [List.getElem?_append_left hlt, Nat.mod_eq_of_lt hlt]
    · rw [List.getElem?_append_right hge, ih _ (by rw [Nat.succ_mul] at hi; omega),
        Nat.mod_eq_sub_mod hge]

/-- The numbers of a weight: the pattern again and again. -/
def cycled (p : Pattern) (n : ℕ) : List UInt32 :=
  (List.replicate (n / p.values.length) p.values).flatten ++ p.values.take (n % p.values.length)

theorem Pattern.length_pos (p : Pattern) : 0 < p.values.length :=
  List.length_pos_iff.mpr p.values_ne

theorem length_cycled (p : Pattern) (n : ℕ) : (cycled p n).length = n := by
  have hmod := Nat.mod_lt n p.length_pos
  rw [cycled, List.length_append, List.length_flatten, List.map_replicate, List.sum_replicate,
    List.length_take, min_eq_left hmod.le, smul_eq_mul, Nat.mul_comm, Nat.div_add_mod]

theorem getElem?_cycled (p : Pattern) {n i : ℕ} (hi : i < n) :
    (cycled p n)[i]? = some (p.value i) := by
  have hpos := p.length_pos
  have hmod := Nat.mod_lt i hpos
  have hvalue : p.values[i % p.values.length]? = some (p.value i) := by
    rw [Pattern.value, List.getD_eq_getElem _ _ hmod, List.getElem?_eq_getElem hmod]
  have hlen : (List.replicate (n / p.values.length) p.values).flatten.length =
      n / p.values.length * p.values.length := by
    rw [List.length_flatten, List.map_replicate, List.sum_replicate, smul_eq_mul]
  rw [cycled]
  rcases Nat.lt_or_ge i (n / p.values.length * p.values.length) with hlt | hge
  · rw [List.getElem?_append_left (hlen ▸ hlt), getElem?_flatten_replicate _ _ _ hlt, hvalue]
  · -- in the rest, which is a start of the pattern
    have hsub : i - n / p.values.length * p.values.length = i % p.values.length := by
      have hdiv : i / p.values.length = n / p.values.length := by
        apply le_antisymm (Nat.div_le_div_right hi.le)
        exact (Nat.le_div_iff_mul_le hpos).mpr hge
      rw [← hdiv, Nat.mod_eq_sub_div_mul]
    have hrest : i % p.values.length < n % p.values.length := by
      have hn := Nat.div_add_mod' n p.values.length
      omega
    rw [List.getElem?_append_right (hlen ▸ hge), hlen, hsub, List.getElem?_take, if_pos hrest,
      hvalue]

theorem weightBytes_eq (p : Pattern) (n : ℕ) :
    weightBytes p n = (cycled p n).flatMap fun v => halfBytes (f32ToBf16 v) := by
  have htake : ∀ (l : List UInt32) (r : ℕ),
      (l.flatMap fun v => halfBytes (f32ToBf16 v)).take (r * 2) =
        (l.take r).flatMap fun v => halfBytes (f32ToBf16 v) := by
    intro l r
    induction l generalizing r with
    | nil => simp
    | cons v l ih =>
      cases r with
      | zero => rfl
      | succ r =>
        rw [List.flatMap_cons, List.take_succ_cons, List.flatMap_cons, ← ih r, Nat.succ_mul]
        rfl
  have hrep : ∀ q : ℕ, ((List.replicate q p.values).flatten.flatMap fun v =>
      halfBytes (f32ToBf16 v)) =
        (List.replicate q (p.values.flatMap fun v => halfBytes (f32ToBf16 v))).flatten := by
    intro q
    induction q with
    | zero => rfl
    | succ q ih =>
      rw [List.replicate_succ, List.flatten_cons, List.flatMap_append, ih, List.replicate_succ,
        List.flatten_cons]
  rw [weightBytes, cycled, List.flatMap_append, hrep, htake]

theorem length_weightBytes (p : Pattern) (n : ℕ) : (weightBytes p n).length = 2 * n := by
  rw [weightBytes_eq, List.length_flatMap]
  simp only [length_halfBytes, List.map_const', List.sum_replicate, length_cycled, smul_eq_mul]
  exact Nat.mul_comm n 2

/-- The bytes of weight `i`. -/
theorem getElem?_weightBytes (p : Pattern) {n i : ℕ} (hi : i < n) {j : ℕ} (hj : j < 2) :
    (weightBytes p n)[2 * i + j]? = (halfBytes (f32ToBf16 (p.value i)))[j]? := by
  rw [weightBytes_eq, getElem?_flatMap_pairs _ (fun _ => rfl) _ _ _ hj, getElem?_cycled p hi]
  rfl

/-- A half word is read back from its two bytes. -/
theorem readHalf_halfBytes {mem : ℕ → UInt8} {a : ℕ} {h : UInt16}
    (h0 : some (mem a) = (halfBytes h)[0]?) (h1 : some (mem (a + 1)) = (halfBytes h)[1]?) :
    readHalf mem a = h := by
  have hlt := h.toNat_lt
  have e0 : mem a = UInt8.ofNat h.toNat := Option.some.inj h0
  have e1 : mem (a + 1) = UInt8.ofNat (h.toNat / 256) := Option.some.inj h1
  apply UInt16.toNat_inj.mp
  simp only [readHalf, e0, e1, UInt8.toNat_ofNat', UInt16.toNat_ofNat']
  omega

/-! Tensors -/

namespace Config
variable (g : Config)

theorem elems_pos : 0 < g.elems := Nat.mul_pos g.hidden_pos g.inter_pos

/-- The slices of the blob are the three weights. -/
theorem slice_eq (e : ℕ) (kind : Kind) :
    g.slice e kind = weightBytes (g.pattern e kind) g.elems := by
  have hlen := fun kind => length_weightBytes (g.pattern e kind) g.elems
  have hgate : g.elems * 2 = (weightBytes (g.pattern e .gateProj) g.elems).length := by
    rw [hlen]
    omega
  have hup : 2 * g.elems * 2 = (weightBytes (g.pattern e .gateProj) g.elems ++
      weightBytes (g.pattern e .upProj) g.elems).length := by
    rw [List.length_append, hlen, hlen]
    omega
  have hall : 3 * g.elems * 2 = (g.blob e).length := by
    rw [blob, List.length_append, List.length_append, hlen, hlen, hlen]
    omega
  cases kind with
  | gateProj => rw [slice, blob, List.append_assoc, hgate, List.take_left]
  | upProj => rw [slice, blob, hup, List.take_left, hgate, List.drop_left]
  | downProj => rw [slice, hall, List.take_length, blob, hup, List.drop_left]

theorem length_slice (e : ℕ) (kind : Kind) : (g.slice e kind).length = 2 * g.elems := by
  rw [slice_eq, length_weightBytes]

end Config

theorem name_printable (layer expert : ℕ) (kind : Kind) :
    ∀ c ∈ (name layer expert kind).toList, 32 ≤ c.toNat ∧ c.toNat < 127 ∧ c ≠ '"' ∧ c ≠ '\\' := by
  have hprefix : ∀ c ∈ "model.language_model.layers.".toList,
      32 ≤ c.toNat ∧ c.toNat < 127 ∧ c ≠ '"' ∧ c ≠ '\\' := by simp
  have hmiddle : ∀ c ∈ ".mlp.experts.".toList,
      32 ≤ c.toNat ∧ c.toNat < 127 ∧ c ≠ '"' ∧ c ≠ '\\' := by simp
  have hkind : ∀ c ∈ kind.text.toList,
      32 ≤ c.toNat ∧ c.toNat < 127 ∧ c ≠ '"' ∧ c ≠ '\\' := by
    cases kind <;> simp [Kind.text]
  intro c hc
  unfold name at hc
  simp only [String.toList_append, List.mem_append] at hc
  rcases hc with (((((hc | hc) | hc) | hc) | hc) | hc) | hc
  · exact hprefix c hc
  · exact printable_toString layer c hc
  · exact hmiddle c hc
  · exact printable_toString expert c hc
  · obtain rfl : c = '.' := by simpa using hc
    simp
  · exact hkind c hc
  · revert c
    simp

theorem name_ne_metadata (layer expert : ℕ) (kind : Kind) :
    name layer expert kind ≠ "__metadata__" := by
  intro h
  have hhead := congrArg (fun s : String => s.toList.head?) h
  unfold name at hhead
  simp [String.toList_append] at hhead

namespace Config
variable (g : Config)

theorem bf16_known : DType.BF16 ≠ .UNKNOWN := by decide

def tensor (e : ℕ) (kind : Kind) : Tensor where
  name := MoeShard.name 0 e kind
  dtype := .BF16
  shape := g.shape kind
  content := g.slice e kind
  name_printable := name_printable 0 e kind
  name_ne := name_ne_metadata 0 e kind
  dtype_ne := bf16_known
  content_ne := by
    have := g.elems_pos
    exact List.ne_nil_of_length_pos (by rw [g.length_slice]; omega)

/-- The tensors in the order in which they are written. -/
def tensors : List Tensor :=
  (List.range g.numExperts).flatMap fun e =>
    [g.tensor e .gateProj, g.tensor e .upProj, g.tensor e .downProj]

theorem mem_tensors {t : Tensor} :
    t ∈ g.tensors ↔ ∃ e < g.numExperts, ∃ kind, t = g.tensor e kind := by
  simp only [tensors, List.mem_flatMap, List.mem_range, List.mem_cons, List.not_mem_nil, or_false]
  constructor
  · rintro ⟨e, he, rfl | rfl | rfl⟩
    · exact ⟨e, he, _, rfl⟩
    · exact ⟨e, he, _, rfl⟩
    · exact ⟨e, he, _, rfl⟩
  · rintro ⟨e, he, kind, rfl⟩
    refine ⟨e, he, ?_⟩
    cases kind with
    | gateProj => exact Or.inl rfl
    | upProj => exact Or.inr (Or.inl rfl)
    | downProj => exact Or.inr (Or.inr rfl)

/-- The resolver finds an expert under the name that the generator wrote. -/
theorem tensor_name {e : ℕ} (he : e < g.numExperts) (kind : Kind) :
    (g.tensor e kind).name = expertTensorName 0 (Int32.ofNat e) kind :=
  name_eq_expertTensorName (by decide) (he.trans g.numExperts_lt) kind

theorem ofNat_inj {e e' : ℕ} (he : e < 2 ^ 31) (he' : e' < 2 ^ 31)
    (h : Int32.ofNat e = Int32.ofNat e') : e = e' := by
  have hint := congrArg Int32.toInt h
  rw [Int32.toInt_ofNat_of_lt he, Int32.toInt_ofNat_of_lt he'] at hint
  exact_mod_cast hint

theorem nodup_names : (g.tensors.map Tensor.name).Nodup := by
  rw [tensors, List.map_flatMap, List.nodup_flatMap]
  have hlt := g.numExperts_lt
  refine ⟨fun e he => ?_, ?_⟩
  · have he := List.mem_range.mp he
    have hne : ∀ kind kind', kind ≠ kind' → (g.tensor e kind).name ≠ (g.tensor e kind').name := by
      intro kind kind' hkind hname
      rw [g.tensor_name he, g.tensor_name he] at hname
      exact hkind (expertTensorName_inj hname).2.2
    simp [hne]
  · refine List.nodup_range.pairwise_of_forall_ne fun e he e' he' hne => ?_
    have he := List.mem_range.mp he
    have he' := List.mem_range.mp he'
    have hnames : ∀ kind kind', (g.tensor e' kind).name ≠ (g.tensor e kind').name := by
      intro kind kind' hname
      rw [g.tensor_name he', g.tensor_name he] at hname
      exact hne (ofNat_inj (he.trans hlt) (he'.trans hlt) (expertTensorName_inj hname).2.1.symm)
    simp [Function.onFun, hnames]

end Config

/-! The way through the file -/

section Staging
variable {F : Type*} {stod : String → Option F} {g : Config} {f : MappedFile} {m : WeightMmap}

theorem lookup_tensor (hf : f.Exposes (shardBytes g.tensors))
    (hm : (WeightMmap.openFile stod f).value = .ok (true, m)) {e : ℕ} (he : e < g.numExperts)
    (kind : Kind) :
    (g.tensor e kind).IsView (m.lookup (expertTensorName 0 (Int32.ofNat e) kind)) := by
  rw [← g.tensor_name he]
  exact isView_lookup hf g.nodup_names hm (g.mem_tensors.mpr ⟨e, he, kind, rfl⟩)

theorem lookup_other (hf : f.Exposes (shardBytes g.tensors))
    (hm : (WeightMmap.openFile stod f).value = .ok (true, m)) {x : Int32}
    (hx : ∀ e < g.numExperts, x ≠ Int32.ofNat e) (kind : Kind) :
    (m.lookup (expertTensorName 0 x kind)).ok = false := by
  have hno : expertTensorName 0 x kind ∉ g.tensors.map Tensor.name := by
    intro hmem
    obtain ⟨t, ht, hname⟩ := List.mem_map.mp hmem
    obtain ⟨e, he, kind', rfl⟩ := g.mem_tensors.mp ht
    rw [g.tensor_name he] at hname
    exact hx e he (expertTensorName_inj hname).2.1.symm
  have hview := WeightMmap.lookup_openFile hm (expertTensorName 0 x kind)
  rw [entryOf_shard_none hf hno] at hview
  rw [hview]
  rfl

/-- A view of a written weight decodes to its pattern. -/
theorem decode_tensor {e : ℕ} {kind : Kind} {v : TensorView} (h : (g.tensor e kind).IsView v)
    {i : ℕ} (hi : i < g.elems) : (v.decode i).toNat = (g.pattern e kind).cut i := by
  have hbyte : ∀ j < 2, some (v.data.bytes (2 * i + j)) =
      (halfBytes (f32ToBf16 ((g.pattern e kind).value i)))[j]? := by
    intro j hj
    have hlt : 2 * i + j < (g.tensor e kind).content.length := by
      show 2 * i + j < (g.slice e kind).length
      rw [g.length_slice]
      omega
    rw [h.bytes _ hlt, ← List.getElem?_eq_getElem hlt, ← getElem?_weightBytes _ hi hj, ← g.slice_eq]
    rfl
  have hread := readHalf_halfBytes (hbyte 0 (by decide)) (hbyte 1 (by decide))
  rw [TensorView.decode, Nat.mul_comm i 2, Pattern.cut, ← toNat_bf16ToF32_f32ToBf16]
  exact congrArg (fun h => (bf16ToF32 h).toNat) hread

/-! The engine on the generated shard -/

/-- The engine has only this shard, and took the dimensions of its experts from it. -/
structure Opened (g : Config) (m : WeightMmap) (e : Engine F) : Prop where
  shards : e.shards = [m]
  inter : e.inter = g.inter
  hidden : e.hidden = g.hidden
  blobElems : e.blobElems = 3 * g.elems

theorem Config.elems_lt (g : Config) : g.elems < 2 ^ 62 := by
  have hlt : g.hidden * g.inter < 2 ^ 31 * 2 ^ 31 := Nat.mul_lt_mul'' g.hidden_lt g.inter_lt
  rw [Config.elems]
  omega

theorem toInt_natCast {n : ℕ} (h : n < 2 ^ 31) : toInt (n : ℤ) = n := by
  unfold toInt
  rw [Int.bmod_eq_of_le] <;> omega

/-- What `get_staging` gives for an expert of the shard, whatever has been staged. -/
theorem getStaging_tensor (hf : f.Exposes (shardBytes g.tensors))
    (hm : (WeightMmap.openFile stod f).value = .ok (true, m)) {e : Engine F} (h : Opened g m e)
    (hs : e.StagingInv) {n : ℕ} (hn : n < g.numExperts)
    (env : Platform F) :
    ∃ p, (e.getStaging env (Int32.ofNat n)).1 = some p ∧ ∀ i < g.elems,
      (readWord p.bytes (4 * i)).toNat = (g.pattern n .gateProj).cut i ∧
      (readWord p.bytes (4 * (g.elems + i))).toNat = (g.pattern n .upProj).cut i ∧
      (readWord p.bytes (4 * (2 * g.elems + i))).toNat = (g.pattern n .downProj).cut i := by
  have hview : ∀ kind, (g.tensor n kind).IsView (e.view 0 (Int32.ofNat n) kind) := by
    intro kind
    have hv := lookup_tensor hf hm hn kind
    rw [Engine.view, h.shards, resolveExpert_cons, if_pos hv.ok]
    exact hv
  have hsize : toSize (e.inter * e.hidden) = g.elems := by
    have hlt := g.elems_lt
    rw [Config.elems] at hlt
    rw [h.inter, h.hidden, ← Nat.cast_mul, Nat.mul_comm, toSize_natCast (by omega), Config.elems]
  have hpos : 0 < g.elems := Nat.mul_pos g.hidden_pos g.inter_pos
  have hget : (e.getStaging env (Int32.ofNat n)).1 =
      some (Engine.blobPtr env (Int32.ofNat n) (e.layerBlob 0 (Int32.ofNat n))) := by
    rw [Engine.getStaging_of_resolves hs fun kind => (hview kind).ok, Engine.blobData, h.blobElems,
      if_neg (by omega)]
  refine ⟨_, hget, fun i hi => ?_⟩
  obtain ⟨hgate, hup, hdown⟩ := e.layerBlob_decodes (Int32.ofNat n) (hsize.symm ▸ hi)
  rw [hsize] at hup hdown
  simp only [Engine.blobPtr, readWord_wordBytes]
  rw [hgate, hup, hdown]
  exact ⟨decode_tensor (hview .gateProj) hi, decode_tensor (hview .upProj) hi,
    decode_tensor (hview .downProj) hi⟩

theorem getStaging_other (hf : f.Exposes (shardBytes g.tensors))
    (hm : (WeightMmap.openFile stod f).value = .ok (true, m)) {e : Engine F} (h : Opened g m e)
    (hs : e.StagingInv) {x : Int32} (hx : ∀ n < g.numExperts, x ≠ Int32.ofNat n)
    (env : Platform F) : (e.getStaging env x).1 = none := by
  have hno : ¬ e.Resolves 0 x := by
    intro hr
    have hok := hr .gateProj
    rw [Engine.view, h.shards, resolveExpert_none (by simpa using lookup_other hf hm hx _)] at hok
    cases hok
  rw [Engine.getStaging_of_not_resolves hs hno]

variable [Field F] [LinearOrder F] {env : Platform F} {files : EngineFiles F}
  {cfg : EngineConfig} {o : Oracle F}

omit [LinearOrder F] in
theorem initCache_succeeds {e : Engine F} (hbase : e.cache.arena.base = 0)
    (hcuda : cfg.useCuda = false) (hmalloc : ∀ n, env.malloc n ≠ 0) :
    ∃ e', e.initCache env cfg = (true, e') ∧ Engine.SameSetup e e' := by
  have hcache : ∀ budget, (e.cache.init budget ⟨some env.malloc⟩).1 = true := by
    intro budget
    simp only [VramCacheManager.init, Arena.init, hbase, ne_eq, not_true_eq_false, if_false]
    exact decide_eq_true (hmalloc budget)
  unfold Engine.initCache
  simp only [hcuda, hcache, Bool.false_eq_true, if_false, if_true]
  exact ⟨_, rfl, rfl, rfl, rfl, rfl, rfl, rfl, rfl⟩

omit [LinearOrder F] in
/-- The engine starts on the generated shard. -/
theorem init_opened (order : VramCacheManager.Order) (vram : ℕ → UInt8)
    (hf : f.Exposes (shardBytes g.tensors)) (hne : 0 < g.numExperts)
    (hm : (WeightMmap.openFile stod f).value = .ok (true, m)) (hshard : files.shard = some m)
    (horacle : files.oracle g.hidden = some o) (hhidden : cfg.hidden = g.hidden)
    (hcuda : cfg.useCuda = false) (hmalloc : ∀ n, env.malloc n ≠ 0) :
    ∃ e, (Engine.fresh order vram).init env files cfg = (true, e) ∧ Opened g m e := by
  have hview := lookup_tensor hf hm hne .gateProj
  have hgate : ∀ e : Engine F, e.shards = [m] →
      e.view (e.availLayer 0) 0 .gateProj =
        m.lookup (expertTensorName 0 (Int32.ofNat 0) .gateProj) := by
    intro e he
    rw [Engine.availLayer_zero, Engine.view, he, resolveExpert_cons]
    exact if_pos hview.ok
  have hshape : (m.lookup (expertTensorName 0 (Int32.ofNat 0) .gateProj)).shape =
      [(g.inter : ℤ), (g.hidden : ℤ)] := by
    have hi := g.inter_lt
    have hh := g.hidden_lt
    rw [hview.shape]
    simp only [Config.tensor, Config.shape, List.map_cons, List.map_nil]
    rw [Int64.toInt_ofNat_of_lt (by omega), Int64.toInt_ofNat_of_lt (by omega)]
  unfold Engine.init
  rw [hshard]
  dsimp only
  unfold Engine.initDims
  dsimp only
  rw [hgate _ rfl, if_pos hview.ok, hshape]
  dsimp only
  rw [toInt_natCast g.hidden_lt, toInt_natCast g.inter_lt]
  rw [if_neg (by rw [hhidden]; exact not_not.mpr rfl)]
  unfold Engine.initOracle
  simp only [Engine.withDims, horacle]
  have helems : toSize (3 * (g.inter : ℤ) * g.hidden) = 3 * g.elems := by
    have hlt := g.elems_lt
    have hcast : 3 * (g.inter : ℤ) * g.hidden = (3 * g.elems : ℕ) := by
      rw [Config.elems]
      push_cast
      ring
    rw [hcast, toSize_natCast (by omega)]
  refine (initCache_succeeds ?_ hcuda hmalloc).imp fun e h =>
    ⟨h.1, h.2.shards, h.2.inter, h.2.hidden, h.2.blobElems.trans helems⟩
  rfl

/-- From the generator to the staging table: the generated shard is opened, an engine starts
on it, and after every run each expert of the shard is staged as the three patterns written
for it, cut to BF16; no other expert is staged. A blob of fewer than `2 ^ 61` numbers can be
made. -/
theorem run_stages_patterns (stod : String → Option F) (hf : f.Exposes (shardBytes g.tensors))
    (hne : 0 < g.numExperts) :
    ∃ m, (WeightMmap.openFile stod f).value = .ok (true, m) ∧
      ∀ (env : Platform F) (files : EngineFiles F) (o : Oracle F) (cfg : EngineConfig)
        (order : VramCacheManager.Order) (vram : ℕ → UInt8),
        files.shard = some m → files.oracle g.hidden = some o → cfg.hidden = g.hidden →
        cfg.useCuda = false → (∀ n, env.malloc n ≠ 0) →
        ∃ e₀, (Engine.fresh order vram).init env files cfg = (true, e₀) ∧
          ∀ ops : List (Engine.Op F),
            let e := run (Engine.step env) e₀ ops
            (3 * g.elems < 2 ^ 61 → e.BlobFits) ∧
            (∀ n < g.numExperts, ∃ p, (e.getStaging env (Int32.ofNat n)).1 = some p ∧
              ∀ i < g.elems,
                (readWord p.bytes (4 * i)).toNat = (g.pattern n .gateProj).cut i ∧
                (readWord p.bytes (4 * (g.elems + i))).toNat = (g.pattern n .upProj).cut i ∧
                (readWord p.bytes (4 * (2 * g.elems + i))).toNat =
                  (g.pattern n .downProj).cut i) ∧
            ∀ x, (∀ n < g.numExperts, x ≠ Int32.ofNat n) → (e.getStaging env x).1 = none := by
  obtain ⟨m, hm⟩ := hf.opens stod
  refine ⟨m, hm, fun env files o cfg order vram hshard horacle hhidden hcuda hmalloc => ?_⟩
  obtain ⟨e₀, hinit, hopened⟩ :=
    init_opened order vram hf hne hm hshard horacle hhidden hcuda hmalloc
  refine ⟨e₀, hinit, fun ops => ?_⟩
  have hr := Engine.run_reached hinit ops
  have hrun : Opened g m (run (Engine.step env) e₀ ops) := ⟨hr.setup.shards.trans hopened.shards,
    hr.setup.inter.trans hopened.inter, hr.setup.hidden.trans hopened.hidden,
    hr.setup.blobElems.trans hopened.blobElems⟩
  exact ⟨fun hlt => hrun.blobElems.trans_lt hlt,
    fun n hn => getStaging_tensor hf hm hrun hr.staging hn env,
    fun x hx => getStaging_other hf hm hrun hr.staging hx env⟩

end Staging

section Tiny

/-- One expert of one weight each: 0.5, 1 and 1.5. -/
def oneExpert : Config where
  hidden := 1
  inter := 1
  numExperts := 1
  hidden_pos := by decide
  inter_pos := by decide
  hidden_lt := by decide
  inter_lt := by decide
  numExperts_lt := by decide
  canon
    | .gateProj => ⟨[0x3F000000], by decide⟩
    | .upProj => ⟨[0x3F800000], by decide⟩
    | .downProj => ⟨[0x3FC00000], by decide⟩
  filler := fun _ => ⟨[0], by decide⟩

def oneExpertFile : MappedFile := .ofList (shardBytes oneExpert.tensors) (by decide +kernel)

/-- After a layer has run, expert 0 is staged as its three numbers. -/
theorem run_stages_patterns_one :
    ∃ (m : WeightMmap) (e₀ : Engine ℝ) (p : HostPtr),
      (WeightMmap.openFile (fun _ => (none : Option ℝ)) oneExpertFile).value = .ok (true, m) ∧
      (Engine.fresh (.newestFirst _ _) fun _ => 0).init Engine.hostPlatform
        ⟨some m, fun _ => some ⟨2, fun _ _ _ => [0]⟩⟩ ⟨1, 1, 2, 12, false, 1⟩ = (true, e₀) ∧
      (run (Engine.step Engine.hostPlatform) e₀ [.forwardLayer 0 fun _ => 1]).Returns
        Engine.hostPlatform (Int32.ofNat 0) p ∧
      (readWord p.bytes 0).toNat = 0x3F000000 ∧ (readWord p.bytes 4).toNat = 0x3F800000 ∧
      (readWord p.bytes 8).toNat = 0x3FC00000 := by
  obtain ⟨m, hm, hall⟩ := run_stages_patterns (g := oneExpert) (f := oneExpertFile)
    (fun _ => (none : Option ℝ)) (MappedFile.exposes_ofList _ _) (by decide)
  obtain ⟨e₀, hinit, hrun⟩ := hall Engine.hostPlatform ⟨some m, fun _ => some ⟨2, fun _ _ _ => [0]⟩⟩
    ⟨2, fun _ _ _ => [0]⟩ ⟨1, 1, 2, 12, false, 1⟩ (.newestFirst _ _) (fun _ => 0) rfl rfl rfl rfl
    (fun _ => (by decide : 1048576 ≠ 0))
  obtain ⟨hfits, hstaged, -⟩ := hrun [.forwardLayer 0 fun _ => 1]
  obtain ⟨p, hp, hwords⟩ := hstaged 0 (by decide)
  obtain ⟨hgate, hup, hdown⟩ := hwords 0 (by decide)
  exact ⟨m, e₀, p, hm, hinit, ⟨hfits (by decide), hp⟩, hgate, hup, hdown⟩

end Tiny

end MoeShard
end Dee
