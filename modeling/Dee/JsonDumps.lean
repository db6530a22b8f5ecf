import Dee.JsonGrammar

/-! Strings between the shard writers and the reader. The writers print a string with
`json.dumps`, in ASCII; the reader undoes the escapes of one letter except `\b` and `\f`, and
takes a `\u` for the letter `u` and four more letters. -/
namespace Dee.Json
open Dee.Json.Parser

/-! The encoder -/

/-- The letter of an escape. -/
def escapeLetter (c : Char) : Option Char :=
  if c = '"' then some '"'
  else if c = '\\' then some '\\'
  else if c = '\n' then some 'n'
  else if c = '\r' then some 'r'
  else if c = '\t' then some 't'
  else if c = Char.ofNat 12 then some 'f'
  else if c = Char.ofNat 8 then some 'b'
  else none

/-- `{0:04x}` -/
def fourHex (k : ℕ) : List Char :=
  [Nat.digitChar (k / 4096), Nat.digitChar (k / 256 % 16), Nat.digitChar (k / 16 % 16),
    Nat.digitChar (k % 16)]

/-- The surrogates of a character beyond `0x10000`. -/
def highSurrogate (k : ℕ) : ℕ := 0xD800 + (k - 0x10000) / 1024

def lowSurrogate (k : ℕ) : ℕ := 0xDC00 + (k - 0x10000) % 1024

def dumpsChar (c : Char) : List Char :=
  match escapeLetter c with
  | some e => ['\\', e]
  | none =>
    if 32 ≤ c.toNat ∧ c.toNat ≤ 126 then [c]
    else if c.toNat < 0x10000 then '\\' :: 'u' :: fourHex c.toNat
    else '\\' :: 'u' :: (fourHex (highSurrogate c.toNat) ++
      '\\' :: 'u' :: fourHex (lowSurrogate c.toNat))

/-- `json.dumps` on a string. -/
def dumps (s : String) : List Char := quoted (s.toList.flatMap dumpsChar)

/-- The bytes of a string, each as a character. -/
def utf8Text (s : String) : List Char := s.toList.flatMap fun c => utf8 c.toNat

/-! What the reader makes of it -/

/-- The reader restores the character. -/
def Decodes (c : Char) : Prop :=
  32 ≤ c.toNat ∧ c.toNat ≤ 126 ∨ c = '\n' ∨ c = '\r' ∨ c = '\t'

instance (c : Char) : Decidable (Decodes c) := inferInstanceAs (Decidable (_ ∨ _ ∨ _ ∨ _))

def readChar (c : Char) : List Char :=
  match escapeLetter c with
  | some e => [escape e]
  | none =>
    if 32 ≤ c.toNat ∧ c.toNat ≤ 126 then [c]
    else if c.toNat < 0x10000 then 'u' :: fourHex c.toNat
    else 'u' :: (fourHex (highSurrogate c.toNat) ++ 'u' :: fourHex (lowSurrogate c.toNat))

theorem escapeLetter_cases (c : Char) :
    (∃ e, escapeLetter c = some e ∧ (e, c) ∈ escapes) ∨
      escapeLetter c = none ∧ c ≠ '"' ∧ c ≠ '\\' ∧ c ≠ '\n' ∧ c ≠ '\r' ∧ c ≠ '\t' := by
  unfold escapeLetter
  split_ifs with h1 h2 h3 h4 h5 h6 h7
  · exact Or.inl ⟨_, rfl, by simp [escapes, h1]⟩
  · exact Or.inl ⟨_, rfl, by simp [escapes, h2]⟩
  · exact Or.inl ⟨_, rfl, by simp [escapes, h3]⟩
  · exact Or.inl ⟨_, rfl, by simp [escapes, h4]⟩
  · exact Or.inl ⟨_, rfl, by simp [escapes, h5]⟩
  · exact Or.inl ⟨_, rfl, by simp [escapes, h6]⟩
  · exact Or.inl ⟨_, rfl, by simp [escapes, h7]⟩
  · exact Or.inr ⟨rfl, h1, h2, h3, h4, h5⟩

theorem hexDigit_digitChar {d : ℕ} (h : d < 16) : hexDigit (Nat.digitChar d) = some d := by
  have hall : ∀ d < 16, hexDigit (Nat.digitChar d) = some d := by decide
  exact hall d h

/-- Four digits are read as the number that they print. -/
theorem hex4_fourHex {k : ℕ} (h : k < 0x10000) : hex4 (fourHex k) = some k := by
  have hvalue : ((0 * 16 + k / 4096) * 16 + k / 256 % 16) * 16 + k / 16 % 16 = k / 16 := by omega
  simp only [hex4, fourHex, List.length_cons, List.length_nil, List.mapM_cons, List.mapM_nil,
    hexDigit_digitChar (by omega : k / 4096 < 16), hexDigit_digitChar (by omega : k / 256 % 16 < 16),
    hexDigit_digitChar (by omega : k / 16 % 16 < 16), hexDigit_digitChar (by omega : k % 16 < 16)]
  simp
  omega

/-! One character -/

theorem utf8_ascii {c : Char} (h : c.toNat ≤ 127) : utf8 c.toNat = [c] := by
  have hsize : c.utf8Size = 1 := Char.utf8Size_eq_one_iff.mpr (UInt32.le_iff_toNat_le.mpr h)
  have hbyte : c.val.toUInt8.toNat = c.toNat := by
    rw [UInt32.toNat_toUInt8]
    exact Nat.mod_eq_of_lt (Nat.lt_of_le_of_lt h (by norm_num))
  rw [utf8, Char.ofNat_toNat, String.utf8EncodeChar_eq_singleton hsize, List.map_cons, List.map_nil,
    hbyte, Char.ofNat_toNat]

theorem utf8_length_le (k : ℕ) : (utf8 k).length ≤ 4 := by
  rw [utf8, List.length_map, String.length_utf8EncodeChar]
  exact Char.utf8Size_le_four _

theorem escapes_ascii {e c : Char} (h : (e, c) ∈ escapes) : c.toNat ≤ 127 := by
  have hall : ∀ p ∈ escapes, p.2.toNat ≤ 127 := by decide
  exact hall (e, c) h

theorem toNat_not_surrogate (c : Char) :
    (c.toNat < 0xD800 ∨ 0xE000 ≤ c.toNat) ∧ c.toNat < 0x110000 := by
  have hvalid : c.toNat < 0xD800 ∨ 0xDFFF < c.toNat ∧ c.toNat < 0x110000 := c.valid
  omega

theorem highSurrogate_range {k : ℕ} (hlarge : ¬k < 0x10000) (h : k < 0x110000) :
    0xD800 ≤ highSurrogate k ∧ highSurrogate k < 0xDC00 := by
  unfold highSurrogate
  omega

theorem lowSurrogate_range (k : ℕ) : 0xDC00 ≤ lowSurrogate k ∧ lowSurrogate k < 0xE000 := by
  unfold lowSurrogate
  omega

theorem surrogates_value {k : ℕ} (hlarge : ¬k < 0x10000) :
    0x10000 + 1024 * (highSurrogate k - 0xD800) + (lowSurrogate k - 0xDC00) = k := by
  unfold highSurrogate lowSurrogate
  omega

/-! The literal in the grammar and in the reader -/

/-- In the JSON grammar the literal of a character stands for its bytes. -/
theorem jsonBody_dumpsChar (c : Char) {cs out : List Char} (h : JsonBody cs out) :
    JsonBody (dumpsChar c ++ cs) (utf8 c.toNat ++ out) := by
  obtain ⟨hvalid, hbound⟩ := toNat_not_surrogate c
  rcases escapeLetter_cases c with ⟨e, he, hmem⟩ | ⟨hnone, hquote, hslash, -⟩
  · rw [dumpsChar, he, utf8_ascii (escapes_ascii hmem)]
    exact .escape hmem h
  · simp only [dumpsChar, hnone]
    split_ifs with hprint hsmall
    · rw [utf8_ascii (by omega)]
      exact .plain hprint.1 hquote hslash h
    · exact .unicode (hex4_fourHex hsmall) hvalid h
    · have hhigh := highSurrogate_range hsmall hbound
      have hlow := lowSurrogate_range c.toNat
      have hpair := JsonBody.surrogates (hex4_fourHex (by omega : highSurrogate c.toNat < 0x10000))
        hhigh (hex4_fourHex (by omega : lowSurrogate c.toNat < 0x10000)) hlow h
      rw [surrogates_value hsmall] at hpair
      simpa only [List.cons_append, List.append_assoc] using hpair

theorem jsonBody_dumps (s : String) : JsonBody (s.toList.flatMap dumpsChar) (utf8Text s) := by
  unfold utf8Text
  induction s.toList with
  | nil => exact .nil
  | cons c cs ih =>
    rw [List.flatMap_cons, List.flatMap_cons]
    exact jsonBody_dumpsChar c ih

example : dumps (String.ofList ['\n', Char.ofNat 0x1F600]) = "\"\\n\\ud83d\\ude00\"".toList := by
  decide

theorem readerBody_dumpsChar (c : Char) : ReaderBody (dumpsChar c) (readChar c) := by
  rcases escapeLetter_cases c with ⟨e, he, hmem⟩ | ⟨hnone, hquote, hslash, -⟩
  · rw [dumpsChar, readChar, he]
    exact .escape e .nil
  · simp only [dumpsChar, readChar, hnone]
    split_ifs with hprint hsmall
    · exact .plain hquote hslash .nil
    · exact .escape 'u' (readerBody_hex4 (hex4_fourHex hsmall))
    · have hhigh := highSurrogate_range hsmall (toNat_not_surrogate c).2
      have hlow := lowSurrogate_range c.toNat
      exact .escape 'u' ((readerBody_hex4 (hex4_fourHex (by omega))).append
        (.escape 'u' (readerBody_hex4 (hex4_fourHex (by omega)))))

theorem readerBody_dumps (cs : List Char) :
    ReaderBody (cs.flatMap dumpsChar) (cs.flatMap readChar) := by
  induction cs with
  | nil => exact .nil
  | cons c cs ih =>
    rw [List.flatMap_cons, List.flatMap_cons]
    exact (readerBody_dumpsChar c).append ih

/-- The reader ends behind the closing quote, whatever the string. -/
theorem parseString_dumps (s : String) (rest : List Char) (e : Bool) :
    parseString ⟨dumps s ++ rest, e⟩ = (String.ofList (s.toList.flatMap readChar), ⟨rest, e⟩) :=
  parseString_body (readerBody_dumps s.toList) rest e

/-! Which characters are restored -/

section Pointwise
variable {α β : Type*} {f g : α → List β}

theorem flatMap_length_le (hle : ∀ a, (g a).length ≤ (f a).length) (as : List α) :
    (as.flatMap g).length ≤ (as.flatMap f).length := by
  induction as with
  | nil => exact le_rfl
  | cons a as ih =>
    rw [List.flatMap_cons, List.flatMap_cons, List.length_append, List.length_append]
    exact Nat.add_le_add (hle a) ih

/-- No part can make up for a longer one. -/
theorem flatMap_eq_iff (hle : ∀ a, (g a).length ≤ (f a).length) (as : List α) :
    as.flatMap f = as.flatMap g ↔ ∀ a ∈ as, f a = g a := by
  induction as with
  | nil => simp
  | cons a as ih =>
    rw [List.flatMap_cons, List.flatMap_cons, List.forall_mem_cons, ← ih]
    constructor
    · intro h
      have htotal := congrArg List.length h
      rw [List.length_append, List.length_append] at htotal
      have hhead := hle a
      have htail := flatMap_length_le hle as
      exact List.append_inj h (by omega)
    · rintro ⟨hhead, htail⟩
      rw [hhead, htail]

end Pointwise

/-- A character is read as its bytes, or as more than its bytes. -/
theorem readChar_cases (c : Char) :
    (readChar c).length = 1 ∧ utf8 c.toNat = [c] ∧ (readChar c = [c] ↔ Decodes c) ∨
      5 ≤ (readChar c).length ∧ ¬Decodes c := by
  rcases escapeLetter_cases c with ⟨e, he, hmem⟩ | ⟨hnone, -, -, hn, hr, ht⟩
  · have hall : ∀ p ∈ escapes, (escape p.1 = p.2 ↔ Decodes p.2) := by decide
    refine Or.inl ⟨?_, utf8_ascii (escapes_ascii hmem), ?_⟩
    · simp only [readChar, he, List.length_singleton]
    · simp only [readChar, he, List.cons.injEq, and_true]
      exact hall (e, c) hmem
  · by_cases hprint : 32 ≤ c.toNat ∧ c.toNat ≤ 126
    · have hread : readChar c = [c] := by simp only [readChar, hnone, if_pos hprint]
      rw [hread]
      exact Or.inl ⟨rfl, utf8_ascii (by omega), iff_of_true rfl (Or.inl hprint)⟩
    · have hnot : ¬Decodes c := by
        rintro (hrange | rfl | rfl | rfl)
        · exact hprint hrange
        · exact hn rfl
        · exact hr rfl
        · exact ht rfl
      refine Or.inr ⟨?_, hnot⟩
      simp only [readChar, hnone, if_neg hprint]
      split_ifs
      · exact le_rfl
      · simp only [List.length_cons, List.length_append, fourHex]
        omega

theorem utf8_length_le_readChar (c : Char) : (utf8 c.toNat).length ≤ (readChar c).length := by
  rcases readChar_cases c with ⟨hlen, hbytes, -⟩ | ⟨hlen, -⟩
  · rw [hlen, hbytes, List.length_singleton]
  · exact (utf8_length_le _).trans (by omega)

theorem readChar_eq_utf8 (c : Char) : readChar c = utf8 c.toNat ↔ Decodes c := by
  rcases readChar_cases c with ⟨-, hbytes, hiff⟩ | ⟨hlen, hnot⟩
  · rw [hbytes]
    exact hiff
  · refine iff_of_false (fun h => ?_) hnot
    have hbytes := utf8_length_le c.toNat
    rw [h] at hlen
    omega

theorem utf8Text_of_decodes {s : String} (h : ∀ c ∈ s.toList, Decodes c) :
    String.ofList (utf8Text s) = s := by
  have hbytes : ∀ c ∈ s.toList, utf8 c.toNat = [c] := fun c hc => by
    rcases readChar_cases c with ⟨-, hbytes, -⟩ | ⟨-, hnot⟩
    · exact hbytes
    · exact absurd (h c hc) hnot
  have hlist : utf8Text s = s.toList.flatMap fun c => [c] := List.flatMap_congr hbytes
  rw [hlist, List.flatMap_singleton', String.ofList_toList]

/-- The literal that is printed stands for the string in JSON. It is read back as that string
exactly when each of its characters is printable ASCII, a line feed, a carriage return or a
tab; no two of those collide. -/
theorem parseString_dumps_iff (rest : List Char) (e : Bool) :
    (∀ s, ∃ body, dumps s = quoted body ∧ JsonBody body (utf8Text s)) ∧
    (∀ s, parseString ⟨dumps s ++ rest, e⟩ = (String.ofList (utf8Text s), ⟨rest, e⟩) ↔
      ∀ c ∈ s.toList, Decodes c) ∧
      Set.InjOn (fun s => (parseString ⟨dumps s ++ rest, e⟩).1)
        {s | ∀ c ∈ s.toList, Decodes c} := by
  have hiff : ∀ s, parseString ⟨dumps s ++ rest, e⟩ = (String.ofList (utf8Text s), ⟨rest, e⟩) ↔
      ∀ c ∈ s.toList, Decodes c := by
    intro s
    have hpointwise := flatMap_eq_iff utf8_length_le_readChar s.toList
    simp only [readChar_eq_utf8] at hpointwise
    rw [parseString_dumps, Prod.mk.injEq, and_iff_left rfl, String.ofList_inj]
    exact hpointwise
  refine ⟨fun s => ⟨_, rfl, jsonBody_dumps s⟩, hiff, fun s hs s' hs' h => ?_⟩
  simp only [(hiff s).mpr hs, (hiff s').mpr hs'] at h
  rwa [utf8Text_of_decodes hs, utf8Text_of_decodes hs'] at h

/-- A backspace is printed as `\b` and read as the letter, and so collides with it. -/
theorem parseString_backspace :
    (parseString ⟨dumps (String.ofList [Char.ofNat 8]), false⟩ ≠
      (String.ofList (utf8Text (String.ofList [Char.ofNat 8])), ⟨[], false⟩)) ∧
    (parseString ⟨dumps (String.ofList [Char.ofNat 8]), false⟩).1 =
      (parseString ⟨dumps "b", false⟩).1 := by
  have hread := fun s => parseString_dumps s [] false
  simp only [List.append_nil] at hread
  rw [hread, hread, ne_eq, Prod.mk.injEq, and_iff_left rfl, String.ofList_inj, String.ofList_inj]
  decide

end Dee.Json
