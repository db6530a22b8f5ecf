import Dee.LoaderState
import Dee.SwiGlu

/-! The dimensions of the Oracle. `load` takes them from its caller and the weights from an
archive whose tensors have fixed shapes; `forward` walks over the weights with the strides
of the caller. Only at the dimensions of the exporter do they agree. -/
namespace Dee
open ByteText OrderedMap PtLoader

def hasText (s text : String) : Bool := decide (text.toList <:+: s.toList)

/-- The parametric table of shapes; it has no case for the output layer. -/
def oracleTensorShape (localName : String) (D H _E : ℤ) : List ℤ :=
  let isBias := hasText localName "bias"
  let isFirst := hasText localName "net.0."
  if isBias then [if isFirst then H else H]
  else if isFirst then [H, D]
  else [H, H]

/-- `v > 0.f ? v : 0.f` on the bits of a float. -/
def relu (v : UInt32) : UInt32 := if 0 < v ∧ v ≤ 0x7f800000 then v else 0

/-- The float operations, on bits. -/
structure FloatOps where
  add : UInt32 → UInt32 → UInt32
  mul : UInt32 → UInt32 → UInt32

/-- The bias of an output; `none` is an index outside the vector. -/
def biasAt (b : List UInt32) (o : ℕ) : Option UInt32 := if b = [] then some 0 else b[o]?

/-- The inner loop of `linear`; `none` is an index outside a vector. -/
def weightedSum (ops : FloatOps) (W x : List UInt32) (cols o : ℕ) : Option UInt32 :=
  (List.range cols).foldlM (fun s j => do
    let w ← W[o * cols + j]?
    let v ← x[j]?
    some (ops.add s (ops.mul w v))) 0

def linearRow (ops : FloatOps) (W b x : List UInt32) (cols o : ℕ) : Option UInt32 := do
  let acc ← biasAt b o
  let s ← weightedSum ops W x cols o
  some (ops.add s acc)

/-- `y = W * x + b`; a negative size is none of a vector. -/
def linear (ops : FloatOps) (W b x : List UInt32) (cols rows : ℤ) : Option (List UInt32) :=
  if rows < 0 then none
  else (List.range rows.toNat).mapM (linearRow ops W b x cols.toNat)

/-- `forward`; `none` is an index outside a vector. -/
def OracleScheduler.forward (ops : FloatOps) (o : OracleScheduler) (layer : ℕ)
    (hidden : List UInt32) : Option (List UInt32) := do
  let w ← o.layers[layer]?
  let h1 ← linear ops w.w0 w.b0 hidden o.D o.H
  let h1 := h1.map relu
  let h2 ← linear ops w.w2 w.b2 h1 o.H o.H
  let h2 := h2.map relu
  linear ops w.w4 w.b4 h2 o.H o.E

/-! The strides of `linear` -/

section Linear
variable {ops : FloatOps} {W b x : List UInt32} {cols rows : ℕ}

theorem foldlM_some {α β : Type} {f : β → α → Option β} {xs : List α}
    (h : ∀ s, ∀ a ∈ xs, ∃ s', f s a = some s') (s : β) : ∃ s', xs.foldlM f s = some s' := by
  induction xs generalizing s with
  | nil => exact ⟨s, rfl⟩
  | cons a xs ih =>
    obtain ⟨ha, hxs⟩ := List.forall_mem_cons.mp fun a ha s => h s a ha
    obtain ⟨s₁, hs₁⟩ := ha s
    obtain ⟨s₂, hs₂⟩ := ih (fun s a ha => hxs a ha s) s₁
    exact ⟨s₂, by rw [List.foldlM_cons, hs₁]; exact hs₂⟩

theorem mapM_some {α β : Type} {f : α → Option β} {xs : List α}
    (h : ∀ a ∈ xs, ∃ y, f a = some y) : ∃ ys, xs.mapM f = some ys ∧ ys.length = xs.length := by
  induction xs with
  | nil => exact ⟨[], rfl, rfl⟩
  | cons a xs ih =>
    obtain ⟨ha, hxs⟩ := List.forall_mem_cons.mp h
    obtain ⟨y, hy⟩ := ha
    obtain ⟨ys, hys, hlen⟩ := ih hxs
    refine ⟨y :: ys, ?_, by rw [List.length_cons, List.length_cons, hlen]⟩
    rw [List.mapM_cons, hy, hys]
    rfl

theorem weightedSum_some (hW : W.length = rows * cols) (hx : x.length = cols) {o : ℕ}
    (ho : o < rows) : ∃ s, weightedSum ops W x cols o = some s := by
  refine foldlM_some (fun s j hj => ?_) 0
  have hj := List.mem_range.mp hj
  have hcell : o * cols + j < W.length := by
    rw [hW]
    exact cell_lt ho hj
  rw [List.getElem?_eq_getElem hcell, List.getElem?_eq_getElem (by omega : j < x.length)]
  exact ⟨_, rfl⟩

theorem biasAt_some (hb : b.length = rows) {o : ℕ} (ho : o < rows) :
    ∃ acc, biasAt b o = some acc := by
  rw [biasAt]
  split_ifs
  · exact ⟨0, rfl⟩
  · exact ⟨_, List.getElem?_eq_getElem (by omega)⟩

/-- With these lengths every index of `linear` is inside its vector. -/
theorem linear_some (hW : W.length = rows * cols) (hb : b.length = rows) (hx : x.length = cols) :
    ∃ y, linear ops W b x cols rows = some y ∧ y.length = rows := by
  have hrow : ∀ o ∈ List.range rows, ∃ y, linearRow ops W b x cols o = some y := by
    intro o ho
    have ho := List.mem_range.mp ho
    obtain ⟨acc, hacc⟩ := @biasAt_some b rows hb o ho
    obtain ⟨s, hs⟩ := @weightedSum_some ops W x cols rows hW hx o ho
    exact ⟨ops.add s acc, by rw [linearRow, hacc, hs]; rfl⟩
  obtain ⟨y, hy, hlen⟩ := mapM_some hrow
  refine ⟨y, ?_, by rw [hlen, List.length_range]⟩
  rw [linear, if_neg (by omega), Int.toNat_natCast, Int.toNat_natCast, hy]

end Linear

/-! The weights of a loaded Oracle -/

/-- A weight vector of a layer, by its place. -/
def OracleLayerWeights.vector (w : OracleLayerWeights) (i : ℕ) : List UInt32 :=
  match i with
  | 0 => w.w0
  | 1 => w.b0
  | 2 => w.w2
  | 3 => w.b2
  | 4 => w.w4
  | _ => w.b4

/-- The length that the strides of `forward` ask for. -/
def layerSize (D H E : ℤ) (i : ℕ) : ℤ :=
  match i with
  | 0 => H * D
  | 2 => H * H
  | 4 => E * H
  | 1 | 3 => H
  | _ => E

namespace PtLoader
variable {inflate : List UInt8 → Inflated} {f : RawFile} {l : PtLoader}

/-- The tensors of an open loader are those of its storages. -/
theorem openFile_true (h : (openFile inflate fresh f).value = some (true, l)) :
    ∃ n, l.tensors = assignAll [] (canonical n) := by
  cases hentries : f.entries inflate with
  | none =>
    obtain hnone | hfalse := openFile_of_no_entries hentries
    · rw [hnone] at h
      cases h
    · obtain ⟨l', hopen, -⟩ := hfalse fresh
      rw [hopen] at h
      cases h
  | some es =>
    rw [openFile_of_entries hentries] at h
    obtain ⟨-, hfinish⟩ | ⟨-, -, hfinish⟩ | ⟨-, names, -, accepted, err, -, hfinish⟩ :=
      finish_cases fresh.err (storages es) (f.pickleAfter inflate fresh.pklBytes)
    · rw [hfinish] at h
      cases h
    · rw [hfinish] at h
      cases h
    · rw [hfinish] at h
      cases h
      exact ⟨_, rfl⟩

theorem length_readTensor {n G : ℕ} (htensors : l.tensors = assignAll [] (canonical n))
    {ws : List UInt32} (h : l.readTensor (tensorName G) = some ws) :
    ws.length = storageBytes (G % 6) / 4 := by
  rw [readTensor, htensors, find?_canonical] at h
  by_cases hG : G < n
  · rw [if_pos hG] at h
    have hlen : ∀ b off, (floats b off (tensorOf G).nbytes).length = storageBytes (G % 6) / 4 := by
      intro b off
      rw [floats, List.length_map, List.length_range, nbytes_tensorOf]
    cases hbuffer : find? (tensorOf G).storage l.buffers with
    | none => simp only [hbuffer, reduceCtorEq] at h
    | some b =>
      simp only [hbuffer] at h
      split_ifs at h <;> cases h <;> exact hlen _ _
  · rw [if_neg hG] at h
    cases h

end PtLoader

namespace OracleScheduler
variable {inflate : List UInt8 → Inflated} {f : RawFile} {D H E : ℤ} {o : OracleScheduler}

/-- The vectors of a layer have the lengths of the exporter. -/
theorem loadLayer_lengths {loader : PtLoader} {n l : ℕ} {w : OracleLayerWeights}
    (htensors : loader.tensors = assignAll [] (canonical n)) (h : loadLayer loader l = some w) :
    ∀ i < 6, (w.vector i).length = storageBytes i / 4 := by
  have hread : ∀ i < 6, ∀ ws,
      loader.readTensor ("layers." ++ toString l ++ "." ++ kLocalNames i) = some ws →
        ws.length = storageBytes i / 4 := by
    intro i hi ws hws
    rw [← tensorName_layer l hi] at hws
    have hmod : (6 * l + i) % 6 = i := by omega
    rw [← hmod]
    exact length_readTensor htensors hws
  simp only [loadLayer, Option.bind_eq_bind, Option.bind_eq_some_iff, Option.pure_def,
    Option.some.injEq] at h
  obtain ⟨w0, h0, b0, h1, w2, h2, b2, h3, w4, h4, b4, h5, rfl⟩ := h
  intro i hi
  interval_cases i
  · exact hread 0 (by decide) _ h0
  · exact hread 1 (by decide) _ h1
  · exact hread 2 (by decide) _ h2
  · exact hread 3 (by decide) _ h3
  · exact hread 4 (by decide) _ h4
  · exact hread 5 (by decide) _ h5

theorem loadLayers_eq_ok {loader : PtLoader} {ls : List ℕ} {ws : List OracleLayerWeights}
    (h : loadLayers loader ls = .ok ws) :
    ws.length = ls.length ∧ ∀ w ∈ ws, ∃ l, loadLayer loader l = some w := by
  induction ls generalizing ws with
  | nil =>
    cases h
    exact ⟨rfl, by simp⟩
  | cons l ls ih =>
    rw [loadLayers] at h
    cases hlayer : loadLayer loader l with
    | none => simp only [hlayer, reduceCtorEq] at h
    | some w =>
      cases hrest : loadLayers loader ls with
      | error err => simp only [hlayer, hrest, reduceCtorEq] at h
      | ok rest =>
        simp only [hlayer, hrest] at h
        cases h
        obtain ⟨hlen, hall⟩ := ih hrest
        exact ⟨by rw [List.length_cons, List.length_cons, hlen],
          List.forall_mem_cons.mpr ⟨⟨l, hlayer⟩, hall⟩⟩

theorem load_eq_ok_iff : load inflate f D H E = some (.ok o) ↔
    ∃ loader L layers, (PtLoader.openFile inflate .fresh f).value = some (true, loader) ∧
      countLayers loader.tensors (loader.tensors.length + 1) 0 = some L ∧ L ≠ 0 ∧
      loadLayers loader (List.range L) = .ok layers ∧ o = ⟨D, H, E, layers⟩ := by
  constructor
  · intro h
    unfold load at h
    rcases hopen : (PtLoader.openFile inflate .fresh f).value with _ | ⟨_ | _, loader⟩
    · simp only [hopen, reduceCtorEq] at h
    · simp only [hopen, Option.some.injEq, reduceCtorEq] at h
    simp only [hopen] at h
    cases hcount : countLayers loader.tensors (loader.tensors.length + 1) 0 with
    | none => simp only [hcount, reduceCtorEq] at h
    | some L =>
      simp only [hcount] at h
      split_ifs at h with hL
      · simp at h
      · cases hlayers : loadLayers loader (List.range L) with
        | error err => simp only [hlayers, Option.some.injEq, reduceCtorEq] at h
        | ok layers =>
          simp only [hlayers, Option.some.injEq, Except.ok.injEq] at h
          exact ⟨loader, L, layers, rfl, hcount, hL, hlayers, h.symm⟩
  · rintro ⟨loader, L, layers, hopen, hcount, hL, hlayers, rfl⟩
    simp only [load, hopen, hcount, if_neg hL, hlayers]

/-- A loaded Oracle keeps the dimensions of its caller and has the lengths of the exporter. -/
theorem load_lengths (h : load inflate f D H E = some (.ok o)) :
    o.D = D ∧ o.H = H ∧ o.E = E ∧ o.layers ≠ [] ∧
      ∀ w ∈ o.layers, ∀ i < 6, (w.vector i).length = storageBytes i / 4 := by
  obtain ⟨loader, L, layers, hopen, -, hL, hlayers, rfl⟩ := load_eq_ok_iff.mp h
  obtain ⟨n, htensors⟩ := openFile_true hopen
  obtain ⟨hlen, hall⟩ := loadLayers_eq_ok hlayers
  refine ⟨rfl, rfl, rfl, fun hnil => ?_, fun w hw => ?_⟩
  · have hnone : layers = [] := hnil
    rw [hnone, List.length_range] at hlen
    exact hL hlen.symm
  · obtain ⟨l, hlayer⟩ := hall w hw
    exact loadLayer_lengths htensors hlayer

/-- The other dimensions load as well. -/
theorem load_dimensions (h : load inflate f D H E = some (.ok o)) (D' H' E' : ℤ) :
    load inflate f D' H' E' = some (.ok ⟨D', H', E', o.layers⟩) := by
  obtain ⟨loader, L, layers, hopen, hcount, hL, hlayers, rfl⟩ := load_eq_ok_iff.mp h
  exact load_eq_ok_iff.mpr ⟨loader, L, layers, hopen, hcount, hL, hlayers, rfl⟩

/-- The weights fit the dimensions of the caller, in the layers, in `forward` and in the
parametric table. -/
structure MatchesDimensions (ops : FloatOps) (D H E : ℤ) (o : OracleScheduler) : Prop where
  lengths : ∀ w ∈ o.layers, ∀ i < 6, ((w.vector i).length : ℤ) = layerSize D H E i
  forward : ∀ l < o.numLayers, ∀ hidden : List UInt32, (hidden.length : ℤ) = D →
    ∃ logits, o.forward ops l hidden = some logits ∧ (logits.length : ℤ) = E
  table : ∀ i < 6, (oracleTensorShape (kLocalNames i) D H E).prod = layerSize D H E i

theorem forward_some {ops : FloatOps} {D H E : ℕ} {o : OracleScheduler}
    (hD : o.D = D) (hH : o.H = H) (hE : o.E = E) {l : ℕ} {w : OracleLayerWeights}
    (hl : o.layers[l]? = some w)
    (hlen : ∀ i < 6, ((w.vector i).length : ℤ) = layerSize D H E i) {hidden : List UInt32}
    (hhidden : hidden.length = D) :
    ∃ logits, o.forward ops l hidden = some logits ∧ logits.length = E := by
  have h0 := hlen 0 (by decide)
  have h1 := hlen 1 (by decide)
  have h2 := hlen 2 (by decide)
  have h3 := hlen 3 (by decide)
  have h4 := hlen 4 (by decide)
  have h5 := hlen 5 (by decide)
  simp only [OracleLayerWeights.vector, layerSize] at h0 h1 h2 h3 h4 h5
  norm_cast at h0 h1 h2 h3 h4 h5
  obtain ⟨y1, hy1, hlen1⟩ := @linear_some ops _ _ _ _ _ h0 h1 hhidden
  obtain ⟨y2, hy2, hlen2⟩ := @linear_some ops _ _ (y1.map relu) _ _ h2 h3
    ((List.length_map _).trans hlen1)
  obtain ⟨y3, hy3, hlen3⟩ := @linear_some ops _ _ (y2.map relu) _ _ h4 h5
    ((List.length_map _).trans hlen2)
  refine ⟨y3, ?_, hlen3⟩
  simp only [OracleScheduler.forward, hl, hD, hH, hE, hy1, hy2, hy3, Option.bind_eq_bind,
    Option.bind_some]

/-- A loaded Oracle matches the dimensions of its caller exactly when they are those of the
exporter. -/
theorem load_matches_iff (h : load inflate f D H E = some (.ok o)) (ops : FloatOps) :
    o.MatchesDimensions ops D H E ↔ D = 2048 ∧ H = 256 ∧ E = 256 := by
  obtain ⟨hD, hH, hE, hne, hlen⟩ := load_lengths h
  constructor
  · intro hmatch
    obtain ⟨w, ws, hlayers⟩ := List.exists_cons_of_ne_nil hne
    have hw : w ∈ o.layers := by simp [hlayers]
    have hsize : ∀ i < 6, ((storageBytes i / 4 : ℕ) : ℤ) = layerSize D H E i := by
      intro i hi
      rw [← hlen w hw i hi]
      exact hmatch.lengths w hw i hi
    have h0 : (524288 : ℤ) = H * D := hsize 0 (by decide)
    have h1 : (256 : ℤ) = H := hsize 1 (by decide)
    have h5 : (256 : ℤ) = E := hsize 5 (by decide)
    subst h1
    exact ⟨by omega, rfl, h5.symm⟩
  · rintro ⟨rfl, rfl, rfl⟩
    have hfit : ∀ w ∈ o.layers, ∀ i < 6,
        ((w.vector i).length : ℤ) = layerSize 2048 256 256 i := by
      intro w hw i hi
      rw [hlen w hw i hi]
      have hall : ∀ i < 6, ((storageBytes i / 4 : ℕ) : ℤ) = layerSize 2048 256 256 i := by decide
      exact hall i hi
    refine ⟨hfit, fun l hl hidden hhidden => ?_, by decide⟩
    have hget := List.getElem?_eq_getElem hl
    obtain ⟨logits, hforward, hlogits⟩ := @forward_some ops 2048 256 256 o hD hH hE l _ hget
      (hfit _ (List.getElem_mem hl)) hidden (by exact_mod_cast hhidden)
    exact ⟨logits, hforward, by exact_mod_cast hlogits⟩

theorem load_matches_one : ∃ o, load inflateStored oneLayerFile 2048 256 256 = some (.ok o) ∧
    (o.MatchesDimensions ⟨fun _ _ => 0, fun _ _ => 0⟩ 2048 256 256 ↔
      (2048 : ℤ) = 2048 ∧ (256 : ℤ) = 256 ∧ (256 : ℤ) = 256) := by
  obtain ⟨o, hload, -⟩ := load_archive_one
  exact ⟨o, hload, load_matches_iff hload _⟩

/-- The archive of one layer loads for hidden vectors of length 4096. -/
theorem load_mismatch : ¬ ∀ (inflate : List UInt8 → Inflated) (f : RawFile) (D H E : ℤ)
    (o : OracleScheduler) (ops : FloatOps), 1 ≤ D → 1 ≤ H → 1 ≤ E →
      load inflate f D H E = some (.ok o) → o.MatchesDimensions ops D H E := by
  intro h
  obtain ⟨o, hload, -⟩ := load_archive_one
  have hload' := load_dimensions hload 4096 256 256
  obtain ⟨-, -, -, hne, hlen⟩ := load_lengths hload'
  obtain ⟨w, ws, hlayers⟩ := List.exists_cons_of_ne_nil hne
  have hw : w ∈ o.layers := by
    have hcons : o.layers = w :: ws := hlayers
    simp [hcons]
  have hmatch := h inflateStored oneLayerFile 4096 256 256 _ ⟨fun _ _ => 0, fun _ _ => 0⟩
    (by decide) (by decide) (by decide) hload'
  have hsize := hmatch.lengths w hw 0 (by decide)
  rw [hlen w hw 0 (by decide)] at hsize
  exact absurd hsize (by decide)

end OracleScheduler
end Dee
