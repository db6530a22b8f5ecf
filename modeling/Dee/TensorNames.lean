import Dee.ByteText
import Dee.WeightMmap

/-! The resolver of expert tensors. The canonical name of a tensor fits its buffer and
determines layer, expert and projection, so a view that is found is the requested one. -/
namespace Dee
open ByteText

namespace ByteText
variable {α : Type*}

/-- A decimal integer. -/
def intText (z : ℤ) : List Char :=
  if 0 ≤ z then Nat.toDigits 10 z.toNat else '-' :: Nat.toDigits 10 (-z).toNat

theorem toList_toString_int (z : ℤ) : (toString z).toList = intText z := by
  rw [Int.toString_eq_repr, Int.repr_eq_if, intText]
  split_ifs
  · exact Nat.toList_repr
  · rw [String.toList_append, Nat.toList_repr]
    rfl

theorem mem_intText {z : ℤ} {c : Char} (h : c ∈ intText z) : c = '-' ∨ c.isDigit = true := by
  unfold intText at h
  split_ifs at h
  · exact Or.inr (isDigit_toDigits _ c h)
  · rcases List.mem_cons.mp h with rfl | h
    · exact Or.inl rfl
    · exact Or.inr (isDigit_toDigits _ c h)

/-- The digits of a number are printable. -/
theorem printable_toString (n : ℕ) : ∀ c ∈ (toString n).toList,
    32 ≤ c.toNat ∧ c.toNat < 127 ∧ c ≠ '"' ∧ c ≠ '\\' := by
  intro c hc
  rw [show toString n = toString (n : ℤ) from rfl, toList_toString_int] at hc
  rcases mem_intText hc with rfl | hdigit
  · decide
  · have h0 : '0'.toNat = 48 := rfl
    have h9 : '9'.toNat = 57 := rfl
    obtain ⟨hlo, hhi⟩ := Char.isDigit_iff_toNat.mp hdigit
    refine ⟨by omega, by omega, ?_, ?_⟩
    · rintro rfl
      cases hdigit
    · rintro rfl
      cases hdigit

/-- No number starts with the sign of another one. -/
theorem toDigits_ne_minus (n m : ℕ) : Nat.toDigits 10 n ≠ '-' :: Nat.toDigits 10 m := by
  intro h
  have hdigit := isDigit_toDigits n '-' (by simp [h])
  cases hdigit

theorem intText_injective : Function.Injective intText := by
  intro a b h
  unfold intText at h
  split_ifs at h with ha hb hb
  · have := toDigits_injective h
    omega
  · exact absurd h (toDigits_ne_minus _ _)
  · exact absurd h.symm (toDigits_ne_minus _ _)
  · have := toDigits_injective (List.cons.inj h).2
    omega

theorem length_intText_le {z : ℤ} (hlo : -2 ^ 31 ≤ z) (hhi : z < 2 ^ 31) :
    (intText z).length ≤ 11 := by
  unfold intText
  split_ifs
  · have := Nat.toDigits_length 10 z.toNat 10 (by decide) (by omega)
    omega
  · have := Nat.toDigits_length 10 (-z).toNat 10 (by decide) (by omega)
    rw [List.length_cons]
    omega

/-- Texts without a separator are read off in front of it. -/
theorem append_cons_inj {xs ys rest rest' : List α} {c : α} (hx : c ∉ xs) (hy : c ∉ ys)
    (h : xs ++ c :: rest = ys ++ c :: rest') : xs = ys ∧ rest = rest' := by
  induction xs generalizing ys with
  | nil =>
    cases ys with
    | nil => exact ⟨rfl, (List.cons.inj h).2⟩
    | cons y ys => exact absurd (List.cons.inj h).1 fun he => hy (by simp [he])
  | cons x xs ih =>
    cases ys with
    | nil => exact absurd (List.cons.inj h).1 fun he => hx (by simp [he])
    | cons y ys =>
      obtain ⟨rfl, htail⟩ := List.cons.inj h
      obtain ⟨rfl, hrest⟩ := ih (fun hc => hx (by simp [hc])) (fun hc => hy (by simp [hc])) htail
      exact ⟨rfl, hrest⟩

end ByteText

namespace TensorResolver

/-- What `snprintf` leaves in a buffer, as the string up to its terminator. -/
def snprintf (size : ℕ) (text : String) : String := String.ofList (text.toList.take (size - 1))

/-- `register_shard` ignores the null pointer. -/
def registerShard (shards : List WeightMmap) (mmap : Option WeightMmap) : List WeightMmap :=
  match mmap with
  | none => shards
  | some sh => shards ++ [sh]

/-! Names -/

/-- The name by its parts, with a dot behind each number. -/
theorem toList_expertTensorName (layer expert : Int32) (kind : Kind) :
    (expertTensorName layer expert kind).toList =
      "model.language_model.layers.".toList ++ (intText layer.toInt ++
        '.' :: ("mlp.experts.".toList ++ (intText expert.toInt ++
          '.' :: (kind.text ++ ".weight").toList))) := by
  have hmiddle : ".mlp.experts.".toList = '.' :: "mlp.experts.".toList := by decide
  have hdot : ".".toList = ['.'] := by decide
  unfold expertTensorName
  rw [String.toList_append, String.toList_append, String.toList_append, String.toList_append,
    String.toList_append, String.toList_append, toList_toString_int, toList_toString_int, hmiddle,
    hdot]
  simp only [List.append_assoc, List.cons_append, List.nil_append]
  rw [String.toList_append]

theorem dot_not_mem_intText (z : ℤ) : '.' ∉ intText z := by
  intro h
  rcases mem_intText h with hdot | hdot <;> cases hdot

theorem kindText_injective {kind kind' : Kind}
    (h : (kind.text ++ ".weight").toList = (kind'.text ++ ".weight").toList) : kind = kind' := by
  cases kind <;> cases kind' <;> first | rfl | exact absurd h (by decide)

/-- The name determines what it names. -/
theorem expertTensorName_inj {layer layer' expert expert' : Int32} {kind kind' : Kind}
    (h : expertTensorName layer expert kind = expertTensorName layer' expert' kind') :
    layer = layer' ∧ expert = expert' ∧ kind = kind' := by
  have hlist := congrArg String.toList h
  rw [toList_expertTensorName, toList_expertTensorName] at hlist
  obtain ⟨hlayer, hrest⟩ := append_cons_inj (dot_not_mem_intText _) (dot_not_mem_intText _)
    (List.append_cancel_left hlist)
  obtain ⟨hexpert, hkind⟩ := append_cons_inj (dot_not_mem_intText _) (dot_not_mem_intText _)
    (List.append_cancel_left hrest)
  exact ⟨Int32.toInt_inj.mp (intText_injective hlayer),
    Int32.toInt_inj.mp (intText_injective hexpert), kindText_injective hkind⟩

/-- At most 80 characters. -/
theorem length_expertTensorName_le (layer expert : Int32) (kind : Kind) :
    (expertTensorName layer expert kind).toList.length ≤ 80 := by
  have hlayer := length_intText_le layer.le_toInt layer.toInt_lt
  have hexpert := length_intText_le expert.le_toInt expert.toInt_lt
  have hprefix : "model.language_model.layers.".toList.length = 28 := by decide
  have hmiddle : "mlp.experts.".toList.length = 12 := by decide
  have hkind : (kind.text ++ ".weight").toList.length ≤ 16 := by cases kind <;> decide
  rw [toList_expertTensorName]
  simp only [List.length_append, List.length_cons, hprefix, hmiddle]
  omega

/-- The buffer of 256 bytes does not cut the name. -/
theorem snprintf_expertTensorName (layer expert : Int32) (kind : Kind) :
    snprintf 256 (expertTensorName layer expert kind) = expertTensorName layer expert kind := by
  have hlen := length_expertTensorName_le layer expert kind
  rw [snprintf, List.take_of_length_le (by omega), String.ofList_toList]

/-! The search -/

theorem foldl_registerShard (shards : List WeightMmap) (mmaps : List (Option WeightMmap)) :
    mmaps.foldl registerShard shards = shards ++ mmaps.filterMap id := by
  induction mmaps generalizing shards with
  | nil => simp
  | cons mmap mmaps ih =>
    rw [List.foldl_cons, ih]
    cases mmap with
    | none => rfl
    | some sh => simp [registerShard]

/-- One round of the loop over the shards. -/
theorem resolveExpert_cons (sh : WeightMmap) (shards : List WeightMmap) (layer expert : Int32)
    (kind : Kind) : resolveExpert (sh :: shards) layer expert kind =
      if (sh.lookup (expertTensorName layer expert kind)).ok = true then
        sh.lookup (expertTensorName layer expert kind)
      else resolveExpert shards layer expert kind := by
  simp only [resolveExpert, List.find?_cons]
  split_ifs with hok
  · rw [hok]
  · rw [Bool.not_eq_true] at hok
    rw [hok]

theorem resolveExpert_first {pre post : List WeightMmap} {sh : WeightMmap} {layer expert : Int32}
    {kind : Kind} (hpre : ∀ s ∈ pre, (s.lookup (expertTensorName layer expert kind)).ok = false)
    (hok : (sh.lookup (expertTensorName layer expert kind)).ok = true) :
    resolveExpert (pre ++ sh :: post) layer expert kind =
      sh.lookup (expertTensorName layer expert kind) := by
  induction pre with
  | nil => rw [List.nil_append, resolveExpert_cons, if_pos hok]
  | cons s pre ih =>
    obtain ⟨hs, hpre⟩ := List.forall_mem_cons.mp hpre
    rw [List.cons_append, resolveExpert_cons, hs, if_neg (by decide), ih hpre]

theorem resolveExpert_none {shards : List WeightMmap} {layer expert : Int32} {kind : Kind}
    (h : ∀ s ∈ shards, (s.lookup (expertTensorName layer expert kind)).ok = false) :
    resolveExpert shards layer expert kind = .empty := by
  induction shards with
  | nil => rfl
  | cons s shards ih =>
    obtain ⟨hs, hshards⟩ := List.forall_mem_cons.mp h
    rw [resolveExpert_cons, hs, if_neg (by decide), ih hshards]

/-- A view that is ok is one of a tensor of that name. -/
theorem resolveExpert_ok {shards : List WeightMmap} {layer expert : Int32} {kind : Kind}
    (h : (resolveExpert shards layer expert kind).ok = true) :
    ∃ sh ∈ shards, ∃ t, sh.tensors (expertTensorName layer expert kind) = some t ∧
      resolveExpert shards layer expert kind =
        sh.lookup (expertTensorName layer expert kind) := by
  induction shards with
  | nil => cases h
  | cons s shards ih =>
    rw [resolveExpert_cons] at h ⊢
    split_ifs at h ⊢ with hok
    · refine ⟨s, by simp, ?_⟩
      cases ht : s.tensors (expertTensorName layer expert kind) with
      | none =>
        rw [WeightMmap.lookup, ht] at hok
        cases hok
      | some t => exact ⟨t, rfl, rfl⟩
    · obtain ⟨sh, hsh, ht⟩ := ih h
      exact ⟨sh, by simp [hsh], ht⟩

/-- For every sequence of registered shards: the resolver answers with the first shard whose
lookup of the name is ok, the name is not cut, and no other request has it. -/
theorem resolveExpert_exact (mmaps : List (Option WeightMmap)) (layer expert : Int32)
    (kind : Kind) :
    let shards := mmaps.foldl registerShard []
    let name := snprintf 256 (expertTensorName layer expert kind)
    let view := resolveExpert shards layer expert kind
    shards = mmaps.filterMap id ∧
    (∀ pre sh post, shards = pre ++ sh :: post → (∀ s ∈ pre, (s.lookup name).ok = false) →
      (sh.lookup name).ok = true → view = sh.lookup name) ∧
    ((∀ sh ∈ shards, (sh.lookup name).ok = false) → view.ok = false) ∧
    (view.ok = true → ∃ sh ∈ shards, ∃ t, sh.tensors name = some t ∧ view = sh.lookup name) ∧
    name = expertTensorName layer expert kind ∧
    ∀ layer' expert' kind', snprintf 256 (expertTensorName layer' expert' kind') = name →
      layer' = layer ∧ expert' = expert ∧ kind' = kind := by
  simp only [snprintf_expertTensorName]
  refine ⟨foldl_registerShard [] mmaps, fun pre sh post heq hpre hok => ?_, fun hno => ?_,
    resolveExpert_ok, trivial, fun _ _ _ => expertTensorName_inj⟩
  · rw [heq]
    exact resolveExpert_first hpre hok
  · rw [resolveExpert_none hno]
    rfl

end TensorResolver
end Dee
