import Mathlib

/-! Texts as bytes, one for each character, and the decimal numerals in them. -/
namespace Dee.ByteText

/-- A text from its bytes. -/
def ofBytes (bs : List UInt8) : String := String.ofList (bs.map fun b => Char.ofNat b.toNat)

/-- The bytes of a text. -/
def toBytes (text : String) : List UInt8 := text.toList.map fun c => UInt8.ofNat c.toNat

theorem length_toBytes (text : String) : (toBytes text).length = text.length := by
  rw [toBytes, List.length_map, String.length_toList]

theorem toBytes_append (s t : String) : toBytes (s ++ t) = toBytes s ++ toBytes t := by
  rw [toBytes, String.toList_append, List.map_append, toBytes, toBytes]

def Ascii (cs : List Char) : Prop := ∀ c ∈ cs, c.toNat < 128

/-- A text of ASCII characters is recovered from its bytes. -/
theorem ofBytes_toBytes {text : String} (h : Ascii text.toList) : ofBytes (toBytes text) = text := by
  have hmap : (toBytes text).map (fun b => Char.ofNat b.toNat) = text.toList := by
    rw [toBytes, List.map_map]
    refine (List.map_congr_left fun c hc => ?_).trans (List.map_id _)
    have hlt := h c hc
    simp only [Function.comp, UInt8.toNat_ofNat', Nat.mod_eq_of_lt (by omega : c.toNat < 2 ^ 8),
      Char.ofNat_toNat, id]
  rw [ofBytes, hmap, String.ofList_toList]

theorem Ascii.cons {c : Char} {cs : List Char} (hc : c.toNat < 128) (h : Ascii cs) :
    Ascii (c :: cs) := List.forall_mem_cons.mpr ⟨hc, h⟩

theorem Ascii.append {cs ds : List Char} (h : Ascii cs) (h' : Ascii ds) : Ascii (cs ++ ds) :=
  List.forall_mem_append.mpr ⟨h, h'⟩

theorem takeWhile_append_of_all {p : Char → Bool} {cs rest : List Char} (h : ∀ c ∈ cs, p c = true)
    (hrest : ∀ c ∈ rest.head?, p c = false) :
    (cs ++ rest).takeWhile p = cs ∧ (cs ++ rest).dropWhile p = rest := by
  rw [List.takeWhile_append_of_pos h, List.dropWhile_append_of_pos h]
  cases rest with
  | nil => simp
  | cons c rest => simp [hrest c rfl]

theorem isDigit_toDigits (n : ℕ) : ∀ c ∈ Nat.toDigits 10 n, c.isDigit = true :=
  fun _ hc => Nat.isDigit_of_mem_toDigits (by decide) (by decide) hc

theorem toNat_of_isDigit {c : Char} (h : c.isDigit = true) : 48 ≤ c.toNat ∧ c.toNat ≤ 57 := by
  simp only [Char.isDigit, Bool.and_eq_true, decide_eq_true_eq] at h
  exact ⟨UInt32.le_iff_toNat_le.mp h.1, UInt32.le_iff_toNat_le.mp h.2⟩

theorem ascii_toDigits (n : ℕ) : Ascii (Nat.toDigits 10 n) := by
  intro c hc
  have hrange := toNat_of_isDigit (isDigit_toDigits n c hc)
  omega

theorem toDigits_injective : Function.Injective (Nat.toDigits 10) := by
  intro a b h
  rw [← Nat.ofDigitChars_ten_toDigits (n := a), h, Nat.ofDigitChars_ten_toDigits]

theorem toList_toString (n : ℕ) : (toString n).toList = Nat.toDigits 10 n := Nat.toList_repr

theorem ne_of_isDigit {c d : Char} (h : c.isDigit = true) (hd : d.isDigit = false) : c ≠ d := by
  intro he
  rw [he, hd] at h
  cases h

end Dee.ByteText
