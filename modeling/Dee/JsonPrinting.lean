import Dee.JsonTokens

/-! The reader undoes printing: it takes tokens that denote a value, whatever white space
stands between them, as that value and stops right behind them. -/
namespace Dee.Json
open ByteText OrderedMap Dee.Json.Parser
variable {F : Type*} {stod : String → Option F}

/-! White space -/

theorem skipWs_append {ws : List Char} (hws : ws.all isspace = true) {c : Char}
    (hc : isspace c = false) (cs : List Char) (e : Bool) :
    Parser.skipWs ⟨ws ++ c :: cs, e⟩ = ⟨c :: cs, e⟩ := by
  rw [Parser.skipWs, (takeWhile_append_of_all (List.all_eq_true.mp hws) (by simpa using hc)).2]

theorem parseValue_skipWs (n : ℕ) (p : Parser) :
    parseValue stod n p.skipWs = parseValue stod n p := by
  have hskip : p.skipWs.skipWs = p.skipWs := by
    simp [Parser.skipWs, List.dropWhile_idempotent]
  cases n with
  | zero => rfl
  | succ n => simp only [parseValue, hskip]

theorem not_isNumberChar_of_isspace {c : Char} (h : isspace c = true) : isNumberChar c = false := by
  cases hc : isNumberChar c with
  | false => rfl
  | true =>
    simp only [isNumberChar, Bool.or_eq_true, decide_eq_true_eq] at hc
    rcases hc with ((((hc | rfl) | rfl) | rfl) | rfl) | rfl
    · rw [isspace_of_isDigit hc] at h
      cases h
    all_goals exact absurd h (by decide)

namespace Spaced
variable {sp : Char → Bool} {rest cs : List Char} {t : Token} {ts ts' : List Token}

theorem cons_iff : Spaced sp rest (t :: ts) cs ↔
    ∃ ws text, ws.all sp = true ∧ cs = ws ++ (t.text ++ text) ∧ Spaced sp rest ts text := by
  constructor
  · intro h
    cases h with
    | cons hws h => exact ⟨_, _, hws, rfl, h⟩
  · rintro ⟨ws, text, hws, rfl, h⟩
    exact .cons hws h

theorem append (h : Spaced sp rest (ts ++ ts') cs) :
    ∃ mid, Spaced sp mid ts cs ∧ Spaced sp rest ts' mid := by
  induction ts generalizing cs with
  | nil => exact ⟨cs, .nil, h⟩
  | cons t ts ih =>
    rw [List.cons_append, cons_iff] at h
    obtain ⟨ws, text, hws, rfl, h⟩ := h
    obtain ⟨mid, hmid, hrest⟩ := ih h
    exact ⟨mid, .cons hws hmid, hrest⟩

theorem length_le (h : Spaced sp rest ts cs) : rest.length ≤ cs.length := by
  induction h with
  | nil => exact le_rfl
  | cons hws h ih =>
    simp only [List.length_append]
    omega

/-- A structural character comes next, behind white space. -/
theorem mark_inv {c : Char} (h : Spaced sp rest (.mark c :: ts) cs) :
    ∃ ws text, ws.all sp = true ∧ cs = ws ++ c :: text ∧ Spaced sp rest ts text := by
  obtain ⟨ws, text, hws, hcs, h⟩ := cons_iff.mp h
  exact ⟨ws, text, hws, hcs, h⟩

end Spaced

theorem stops_append {ws cs : List Char} (hws : ws.all isspace = true) (h : Stops cs) :
    Stops (ws ++ cs) := by
  cases ws with
  | nil => exact h
  | cons c ws =>
    rw [List.all_cons, Bool.and_eq_true] at hws
    exact stops_cons (not_isNumberChar_of_isspace hws.1) _

/-! One token -/

theorem parseBool_text (b : Bool) (rest : List Char) (e : Bool) :
    parseBool (F := F) ⟨boolText b ++ rest, e⟩ = (.bool b, ⟨rest, e⟩) := by
  cases b <;> simp [parseBool, boolText]

theorem parseValue_bool (b : Bool) (n : ℕ) (rest : List Char) :
    parseValue stod (n + 1) ⟨boolText b ++ rest, false⟩ = .ok (.bool b, ⟨rest, false⟩) := by
  have hws : Parser.skipWs ⟨boolText b ++ rest, false⟩ = ⟨boolText b ++ rest, false⟩ := by
    cases b
    · exact skipWs_cons (c := 'f') (by decide) _ _
    · exact skipWs_cons (c := 't') (by decide) _ _
  have hpeek : peek ⟨boolText b ++ rest, false⟩ = if b then 't' else 'f' := by
    cases b <;> rfl
  rw [parseValue]
  simp only [hws, hpeek, parseBool_text]
  cases b <;> simp

theorem parseValue_numeral {c : Char} (hc : c = '-' ∨ c.isDigit = true) (n : ℕ)
    (cs : List Char) : parseValue stod (n + 1) ⟨c :: cs, false⟩ =
      parseNumber stod ⟨c :: cs, false⟩ := by
  have hne : ∀ d : Char, d ≠ '-' → d.isDigit = false → c ≠ d := by
    intro d hd hdigit
    rcases hc with rfl | hc
    · exact hd.symm
    · exact ne_of_isDigit hc hdigit
  have hspace : isspace c = false := by
    rcases hc with rfl | hc
    · decide
    · exact isspace_of_isDigit hc
  have hws : Parser.skipWs ⟨c :: cs, false⟩ = ⟨c :: cs, false⟩ := skipWs_cons hspace _ _
  have hpeek : peek ⟨c :: cs, false⟩ = c := rfl
  have hword : ¬ (c = 't' ∨ c = 'f') :=
    not_or.mpr ⟨hne 't' (by decide) (by decide), hne 'f' (by decide) (by decide)⟩
  rw [parseValue]
  simp only [hws, hpeek, if_neg (hne '\x7b' (by decide) (by decide)),
    if_neg (hne '[' (by decide) (by decide)), if_neg (hne '"' (by decide) (by decide)),
    if_neg hword, if_pos hc]

theorem parseValue_number {m : Number} (hm : m.Valid) (n : ℕ) (rest : List Char) :
    parseValue stod (n + 1) ⟨m.text ++ rest, false⟩ =
      parseNumber stod ⟨m.text ++ rest, false⟩ := by
  obtain ⟨c, hhead, hc⟩ := m.text_head hm
  obtain ⟨cs, hcs⟩ := List.head?_eq_some_iff.mp hhead
  rw [hcs]
  exact parseValue_numeral hc n _

/-! The loops -/

theorem arrayLoop_step {pv : Parser → Except Throw (Value F × Parser)} {p : Parser} {v : Value F}
    {ws rest : List Char} {c : Char} (hval : pv p = .ok (v, ⟨ws ++ c :: rest, false⟩))
    (hws : ws.all isspace = true) (hc : isspace c = false) (k : ℕ) (arr : List (Value F)) :
    arrayLoop pv (k + 1) arr p =
      if c = ',' then arrayLoop pv k (arr ++ [v]) ⟨rest, false⟩
      else if c = ']' then .ok (.array (arr ++ [v]), ⟨rest, false⟩)
      else .ok (.array (arr ++ [v]), ⟨c :: rest, true⟩) := by
  have hskip : Parser.skipWs ⟨ws ++ c :: rest, false⟩ = ⟨c :: rest, false⟩ :=
    skipWs_append hws hc _ _
  simp only [arrayLoop, hval, hskip]
  rfl

theorem objectLoop_step {pv : Parser → Except Throw (Value F × Parser)}
    {body key ws₀ ws₁ ws₂ text rest : List Char} {v : Value F} {c : Char}
    (hkey : ReaderBody body key) (hws₀ : ws₀.all isspace = true) (hws₁ : ws₁.all isspace = true)
    (hval : pv ⟨text, false⟩ = .ok (v, ⟨ws₂ ++ c :: rest, false⟩))
    (hws₂ : ws₂.all isspace = true) (hc : isspace c = false) (k : ℕ)
    (obj : List (String × Value F)) :
    objectLoop pv (k + 1) obj ⟨ws₀ ++ (quoted body ++ (ws₁ ++ ':' :: text)), false⟩ =
      if c = ',' then objectLoop pv k (assign (String.ofList key) v obj) ⟨rest, false⟩
      else if c = '\x7d' then .ok (.object (assign (String.ofList key) v obj), ⟨rest, false⟩)
      else .ok (.object (assign (String.ofList key) v obj), ⟨c :: rest, true⟩) := by
  have hskip₀ : Parser.skipWs ⟨ws₀ ++ (quoted body ++ (ws₁ ++ ':' :: text)), false⟩ =
      ⟨quoted body ++ (ws₁ ++ ':' :: text), false⟩ :=
    skipWs_append hws₀ (c := '"') (by decide) _ _
  have hquote : peek ⟨quoted body ++ (ws₁ ++ ':' :: text), false⟩ = '"' := rfl
  have hskip₁ : Parser.skipWs ⟨ws₁ ++ ':' :: text, false⟩ = ⟨':' :: text, false⟩ :=
    skipWs_append hws₁ (by decide) _ _
  have hcolon : peek ⟨':' :: text, false⟩ = ':' := rfl
  have hskip₂ : Parser.skipWs ⟨ws₂ ++ c :: rest, false⟩ = ⟨c :: rest, false⟩ :=
    skipWs_append hws₂ hc _ _
  simp only [objectLoop, hskip₀, hquote, parseString_body hkey, hskip₁, hcolon, Parser.next,
    List.tail_cons, hval, hskip₂]
  rfl

/-- A value starts with a token that closes nothing. -/
theorem Denotes.head {d : Dialect} {ts : List Token} {v : Value F} (h : Denotes stod d ts v) :
    ∃ t ts', ts = t :: ts' ∧ ∃ c ∈ t.text.head?, isspace c = false ∧ c ≠ ']' := by
  cases h with
  | null => exact ⟨_, _, rfl, 'n', rfl, by decide⟩
  | bool b =>
    cases b
    · exact ⟨_, _, rfl, 'f', rfl, by decide⟩
    · exact ⟨_, _, rfl, 't', rfl, by decide⟩
  | number hn =>
    obtain ⟨c, hc, hd⟩ := Number.text_head hn
    refine ⟨_, _, rfl, c, hc, ?_⟩
    rcases hd with rfl | hd
    · decide
    · exact ⟨isspace_of_isDigit hd, ne_of_isDigit hd (by decide)⟩
  | str => exact ⟨_, _, rfl, '"', rfl, by decide⟩
  | emptyArray => exact ⟨_, _, rfl, '[', rfl, by decide⟩
  | array => exact ⟨_, _, rfl, '[', rfl, by decide⟩
  | emptyObject => exact ⟨_, _, rfl, '\x7b', rfl, by decide⟩
  | object => exact ⟨_, _, rfl, '\x7b', rfl, by decide⟩

theorem Elements.head {d : Dialect} {ts : List Token} {vs : List (Value F)}
    (h : Elements stod d ts vs) :
    ∃ t ts', ts = t :: ts' ∧ ∃ c ∈ t.text.head?, isspace c = false ∧ c ≠ ']' := by
  cases h with
  | one h => exact h.head
  | more h hs =>
    obtain ⟨t, ts', rfl, ht⟩ := h.head
    exact ⟨t, _, rfl, ht⟩

theorem Members.head {d : Dialect} {ts : List Token} {es : List (String × Value F)}
    (h : Members stod d ts es) : ∃ body ts', ts = .string body :: ts' := by
  cases h with
  | one => exact ⟨_, _, rfl⟩
  | more => exact ⟨_, _, rfl⟩

/-- Skipping white space before a token. -/
theorem Spaced.skipWs {rest cs : List Char} {t : Token} {ts : List Token} {d : Char}
    (h : Spaced isspace rest (t :: ts) cs)
    (ht : ∃ c ∈ t.text.head?, isspace c = false ∧ c ≠ d) :
    ∃ c text, Parser.skipWs ⟨cs, false⟩ = ⟨c :: text, false⟩ ∧ c ≠ d ∧
      Spaced isspace rest (t :: ts) (c :: text) ∧ (c :: text).length ≤ cs.length := by
  obtain ⟨ws, text, hws, rfl, htext⟩ := Spaced.cons_iff.mp h
  obtain ⟨c, hhead, hspace, hd⟩ := ht
  obtain ⟨cs', hcs⟩ := List.head?_eq_some_iff.mp hhead
  have hspaced : Spaced isspace rest (t :: ts) (t.text ++ text) :=
    Spaced.cons_iff.mpr ⟨[], text, rfl, rfl, htext⟩
  rw [hcs, List.cons_append] at hspaced ⊢
  exact ⟨c, cs' ++ text, skipWs_append hws hspace _ _, hd, hspaced, by simp⟩

/-! The reader on tokens that denote a value -/

theorem parseValue_spaced {ws : List Char} (hws : ws.all isspace = true) {c : Char}
    (hc : isspace c = false) (n : ℕ) (cs : List Char) :
    parseValue stod n ⟨ws ++ c :: cs, false⟩ = parseValue stod n ⟨c :: cs, false⟩ := by
  rw [← parseValue_skipWs, skipWs_append hws hc]

mutual

theorem Denotes.parse {ts : List Token} {v : Value F} (h : Denotes stod readerDialect ts v)
    {rest cs : List Char} {n : ℕ} (hs : Spaced isspace rest ts cs) (hstop : Stops rest)
    (hn : cs.length < n) : parseValue stod n ⟨cs, false⟩ = .ok (v, ⟨rest, false⟩) := by
  obtain ⟨n, rfl⟩ := Nat.exists_eq_succ_of_ne_zero (by omega : n ≠ 0)
  match h with
  | .null h => exact h.elim
  | .bool b =>
    obtain ⟨ws, text, hws, rfl, hend⟩ := Spaced.cons_iff.mp hs
    cases hend
    have hbool : parseValue stod (n + 1) ⟨boolText b ++ rest, false⟩ = _ :=
      parseValue_bool b n rest
    cases b <;> exact (parseValue_spaced hws (by decide) _ _).trans hbool
  | .number hm hv =>
    obtain ⟨ws, text, hws, rfl, hend⟩ := Spaced.cons_iff.mp hs
    cases hend
    obtain ⟨c, hhead, hd⟩ := Number.text_head hm
    have hspace : isspace c = false := by
      rcases hd with rfl | hd
      · decide
      · exact isspace_of_isDigit hd
    obtain ⟨cs, hcs⟩ := List.head?_eq_some_iff.mp hhead
    have hnumber := (parseValue_number hm n rest).trans
      ((Number.parseNumber_text hm hstop false _ _).mpr ⟨hv, rfl⟩)
    simp only [Token.text, hcs, List.cons_append] at hnumber ⊢
    exact (parseValue_spaced hws hspace _ _).trans hnumber
  | .str hb =>
    obtain ⟨ws, text, hws, rfl, hend⟩ := Spaced.cons_iff.mp hs
    cases hend
    exact (parseValue_spaced hws (c := '"') (by decide) _ _).trans (parseValue_string hb n rest)
  | .emptyArray =>
    obtain ⟨ws, text, hws, rfl, hinner⟩ := hs.mark_inv
    obtain ⟨ws', rest', hws', rfl, hend⟩ := hinner.mark_inv
    cases hend
    rw [parseValue_spaced hws (by decide), parseValue_bracket, parseArray]
    simp [Parser.next, skipWs_append hws' (by decide : isspace ']' = false), peek]
  | .array h =>
    obtain ⟨ws, text, hws, rfl, hinner⟩ := hs.mark_inv
    obtain ⟨t, ts', rfl, ht⟩ := h.head
    obtain ⟨c, text', hskip, hc, hitems, hlen⟩ := Spaced.skipWs hinner ht
    rw [List.length_append, List.length_cons] at hn
    have hloop := Elements.parse h hitems (by omega : (c :: text').length < n)
      (Nat.lt_succ_self _) []
    rw [parseValue_spaced hws (by decide), parseValue_bracket, parseArray]
    simp only [Parser.next, List.tail_cons, hskip, peek, List.headD_cons, if_neg hc, hloop,
      List.nil_append]
  | .emptyObject =>
    obtain ⟨ws, text, hws, rfl, hinner⟩ := hs.mark_inv
    obtain ⟨ws', rest', hws', rfl, hend⟩ := hinner.mark_inv
    cases hend
    rw [parseValue_spaced hws (by decide), parseValue_brace, parseObject]
    simp [Parser.next, skipWs_append hws' (by decide : isspace '\x7d' = false), peek]
  | .object h =>
    obtain ⟨ws, text, hws, rfl, hinner⟩ := hs.mark_inv
    obtain ⟨body, ts', rfl⟩ := h.head
    obtain ⟨c, text', hskip, hc, hitems, hlen⟩ :=
      Spaced.skipWs (d := '\x7d') hinner ⟨'"', rfl, by decide⟩
    rw [List.length_append, List.length_cons] at hn
    have hloop := Members.parse h hitems (by omega : (c :: text').length < n)
      (Nat.lt_succ_self _) []
    rw [parseValue_spaced hws (by decide), parseValue_brace, parseObject]
    simp only [Parser.next, List.tail_cons, hskip, peek, List.headD_cons, if_neg hc, hloop]
termination_by (n, 0)

theorem Elements.parse {ts : List Token} {vs : List (Value F)}
    (h : Elements stod readerDialect ts vs) {rest cs : List Char} {n k : ℕ}
    (hs : Spaced isspace rest (ts ++ [.mark ']']) cs) (hn : cs.length < n) (hk : cs.length < k)
    (arr : List (Value F)) :
    arrayLoop (parseValue stod n) k arr ⟨cs, false⟩ = .ok (.array (arr ++ vs), ⟨rest, false⟩) := by
  obtain ⟨k, rfl⟩ := Nat.exists_eq_succ_of_ne_zero (by omega : k ≠ 0)
  match h with
  | .one h =>
    obtain ⟨mid, hitem, hend⟩ := hs.append
    obtain ⟨ws, text, hws, rfl, hstop⟩ := hend.mark_inv
    cases hstop
    have hval := Denotes.parse h hitem (stops_append hws (stops_cons (by decide) rest)) hn
    rw [arrayLoop_step hval hws (by decide)]
    simp
  | .more h hmore =>
    rw [List.append_assoc] at hs
    obtain ⟨mid, hitem, hend⟩ := hs.append
    have hlen := hitem.length_le
    obtain ⟨ws, text, hws, rfl, hrest⟩ := hend.mark_inv
    rw [List.length_append, List.length_cons] at hlen
    have hval := Denotes.parse h hitem (stops_append hws (stops_cons (by decide) text)) hn
    rw [arrayLoop_step hval hws (by decide), if_pos rfl,
      Elements.parse hmore hrest (by omega) (by omega)]
    simp
termination_by (n, k)

theorem Members.parse {ts : List Token} {es : List (String × Value F)}
    (h : Members stod readerDialect ts es) {rest cs : List Char} {n k : ℕ}
    (hs : Spaced isspace rest (ts ++ [.mark '\x7d']) cs) (hn : cs.length < n)
    (hk : cs.length < k) (obj : List (String × Value F)) :
    objectLoop (parseValue stod n) k obj ⟨cs, false⟩ =
      .ok (.object (assignAll obj es), ⟨rest, false⟩) := by
  obtain ⟨k, rfl⟩ := Nat.exists_eq_succ_of_ne_zero (by omega : k ≠ 0)
  match h with
  | .one hkey h =>
    obtain ⟨ws₀, text₀, hws₀, rfl, hafter⟩ := Spaced.cons_iff.mp hs
    obtain ⟨ws₁, text, hws₁, rfl, hvalue⟩ := hafter.mark_inv
    obtain ⟨mid, hitem, hend⟩ := hvalue.append
    obtain ⟨ws₂, rest', hws₂, rfl, hstop⟩ := hend.mark_inv
    cases hstop
    simp only [List.length_append, List.length_cons] at hn
    have hval := Denotes.parse h hitem (stops_append hws₂ (stops_cons (by decide) rest))
      (by omega : text.length < n)
    exact objectLoop_step hkey hws₀ hws₁ hval hws₂ (by decide) k obj
  | .more hkey h hmore =>
    obtain ⟨ws₀, text₀, hws₀, rfl, hafter⟩ := Spaced.cons_iff.mp hs
    obtain ⟨ws₁, text, hws₁, rfl, hvalue⟩ := hafter.mark_inv
    simp only [List.append_eq, List.append_assoc] at hvalue
    obtain ⟨mid, hitem, hend⟩ := hvalue.append
    have hlen := hitem.length_le
    obtain ⟨ws₂, rest', hws₂, rfl, hrest⟩ := hend.mark_inv
    simp only [List.length_append, List.length_cons] at hn hk hlen
    have hval := Denotes.parse h hitem (stops_append hws₂ (stops_cons (by decide) rest'))
      (by omega : text.length < n)
    refine (objectLoop_step hkey hws₀ hws₁ hval hws₂ (by decide) k obj).trans ?_
    rw [if_pos rfl]
    exact Members.parse hmore hrest (by omega) (by omega) _
termination_by (n, k)

end

/-! Printing -/

/-- A quote and a backslash are escaped. -/
def escapeBody : List Char → List Char
  | [] => []
  | c :: cs =>
    if c = '"' ∨ c = '\\' then '\\' :: c :: escapeBody cs else c :: escapeBody cs

theorem readerBody_escapeBody (cs : List Char) : ReaderBody (escapeBody cs) cs := by
  induction cs with
  | nil => exact .nil
  | cons c cs ih =>
    rw [escapeBody]
    split_ifs with hc
    · have hescape : escape c = c := by
        rcases hc with rfl | rfl <;> decide
      have hbody := ReaderBody.escape c ih
      rwa [hescape] at hbody
    · rw [not_or] at hc
      exact .plain hc.1 hc.2 ih

theorem head?_toDigits {n : ℕ} (hn : 0 < n) : (Nat.toDigits 10 n).head? ≠ some '0' := by
  induction n using Nat.strong_induction_on with
  | _ n ih =>
    rw [Nat.toDigits_eq_if (by decide)]
    split_ifs with hlt
    · interval_cases n <;> decide
    · have hne : Nat.toDigits 10 (n / 10) ≠ [] := Nat.toDigits_ne_nil
      rw [List.head?_append_of_ne_nil _ hne]
      exact ih (n / 10) (by omega) (by omega)

/-- An integer as a number token. -/
def Number.ofInt (z : ℤ) : Number := ⟨decide (z < 0), Nat.toDigits 10 z.natAbs, none, none⟩

theorem Number.valid_ofInt (z : ℤ) : (Number.ofInt z).Valid := by
  refine ⟨⟨⟨Nat.toDigits_ne_nil, isDigit_toDigits _⟩, fun h => ?_⟩, by simp [ofInt], by simp [ofInt]⟩
  have hz : z.natAbs = 0 := by
    by_contra hpos
    exact head?_toDigits (Nat.pos_of_ne_zero hpos) h
  simp only [ofInt, hz, Nat.toDigits_zero]

theorem Number.value_ofInt (i : Int64) :
    (Number.ofInt i.toInt).value stod = some (.int i) := by
  have hlo := i.le_toInt
  have hhi := i.toInt_lt
  have hvalue : (Number.ofInt i.toInt).toInt = i.toInt := by
    simp only [ofInt, toInt, Nat.ofDigitChars_ten_toDigits]
    split_ifs with hz
    · have := of_decide_eq_true hz
      omega
    · have := of_decide_eq_false (Bool.eq_false_of_not_eq_true hz)
      omega
  have hrange : -2 ^ 63 ≤ i.toInt ∧ i.toInt < 2 ^ 63 := ⟨hlo, hhi⟩
  rw [value, if_pos ⟨rfl, rfl⟩, hvalue, if_pos hrange, Int64.ofInt_toInt]

namespace Value

/-- The tokens that a value is printed as; a float has no exact text. -/
def tokens : Value F → List Token
  | null => [.word "null".toList]
  | bool b => [.word (boolText b)]
  | int i => [.number (Number.ofInt i.toInt).text]
  | float _ => []
  | str s => [.string (escapeBody s.toList)]
  | array arr => .mark '[' :: (elementTokens arr ++ [.mark ']'])
  | object obj => .mark '\x7b' :: (memberTokens obj ++ [.mark '\x7d'])
where
  elementTokens : List (Value F) → List Token
    | [] => []
    | [v] => v.tokens
    | v :: w :: vs => v.tokens ++ .mark ',' :: elementTokens (w :: vs)
  memberTokens : List (String × Value F) → List Token
    | [] => []
    | [(key, v)] => .string (escapeBody key.toList) :: .mark ':' :: v.tokens
    | (key, v) :: e :: es =>
      .string (escapeBody key.toList) :: .mark ':' :: (v.tokens ++ .mark ',' :: memberTokens (e :: es))

/-- The value is built from objects with distinct keys, arrays, booleans, integers and
strings. -/
def Printable : Value F → Prop
  | null => False
  | float _ => False
  | array arr => elementsPrintable arr
  | object obj => (obj.map Prod.fst).Nodup ∧ membersPrintable obj
  | _ => True
where
  elementsPrintable : List (Value F) → Prop
    | [] => True
    | v :: vs => v.Printable ∧ elementsPrintable vs
  membersPrintable : List (String × Value F) → Prop
    | [] => True
    | (_, v) :: es => v.Printable ∧ membersPrintable es

/-- The value with the members of its objects as a map. -/
def asMap : Value F → Value F
  | array arr => .array (elementsAsMap arr)
  | object obj => .object (assignAll [] (membersAsMap obj))
  | v => v
where
  elementsAsMap : List (Value F) → List (Value F)
    | [] => []
    | v :: vs => v.asMap :: elementsAsMap vs
  membersAsMap : List (String × Value F) → List (String × Value F)
    | [] => []
    | (key, v) :: es => (key, v.asMap) :: membersAsMap es

mutual

theorem denotes_tokens : (v : Value F) → v.Printable →
    Denotes stod readerDialect v.tokens v.asMap
  | null, h => h.elim
  | bool b, _ => .bool b
  | int i, _ => .number (Number.valid_ofInt _) (Number.value_ofInt i)
  | float _, h => h.elim
  | str s, _ => by
    have hstr : Denotes stod readerDialect [.string (escapeBody s.toList)]
        (.str (String.ofList s.toList)) := .str (readerBody_escapeBody s.toList)
    rwa [String.ofList_toList] at hstr
  | array [], _ => .emptyArray
  | array (v :: vs), h => .array (elements_tokens (v :: vs) (by simp) h)
  | object [], _ => .emptyObject
  | object (e :: es), h => .object (members_tokens (e :: es) (by simp) h.2)

theorem elements_tokens : (vs : List (Value F)) → vs ≠ [] → Printable.elementsPrintable vs →
    Elements stod readerDialect (tokens.elementTokens vs) (asMap.elementsAsMap vs)
  | [], hne, _ => (hne rfl).elim
  | [v], _, h => .one (denotes_tokens v h.1)
  | v :: w :: vs, _, h => .more (denotes_tokens v h.1) (elements_tokens (w :: vs) (by simp) h.2)

theorem members_tokens : (es : List (String × Value F)) → es ≠ [] →
    Printable.membersPrintable es →
    Members stod readerDialect (tokens.memberTokens es) (asMap.membersAsMap es)
  | [], hne, _ => (hne rfl).elim
  | [(key, v)], _, h => by
    have hone := Members.one (readerBody_escapeBody key.toList) (denotes_tokens v h.1)
      (d := readerDialect)
    rwa [String.ofList_toList] at hone
  | (key, v) :: e :: es, _, h => by
    have hmore := Members.more (readerBody_escapeBody key.toList) (denotes_tokens v h.1)
      (members_tokens (e :: es) (by simp) h.2) (d := readerDialect)
    rwa [String.ofList_toList] at hmore

end

theorem membersAsMap_eq (es : List (String × Value F)) :
    asMap.membersAsMap es = es.map fun e => (e.1, e.2.asMap) := by
  induction es with
  | nil => rfl
  | cons e es ih => rw [asMap.membersAsMap, ih, List.map_cons]

/-- The map holds each member under its key, and nothing else. -/
theorem find_asMap {obj : List (String × Value F)} (h : (Value.object obj).Printable)
    (key : String) : (Value.object obj).asMap.find key = (find? key obj).map asMap := by
  have hkeys : (obj.map fun e => (e.1, e.2.asMap)).map Prod.fst = obj.map Prod.fst := by
    rw [List.map_map]
    rfl
  have hnodup : ((obj.map fun e => (e.1, e.2.asMap)).map Prod.fst).Nodup := by
    rw [hkeys]
    exact h.1
  rw [asMap, membersAsMap_eq, Value.find, find?_assignAll_nodup hnodup, find?, List.find?_map,
    Option.map_map, find?, Option.map_map]
  rfl

/-- A printed value is read back, with the members of its objects under their keys. -/
theorem parse_printed {v : Value F} (hv : v.Printable) {ws text : List Char}
    (hws : ws.all isspace = true) (htext : Spaced isspace ws v.tokens text) :
    parse stod (String.ofList text) = .ok (v.asMap, true) ∧
      ∀ obj, v = .object obj → ∀ key, v.asMap.find key = (find? key obj).map asMap := by
  have hnil : Stops [] := by simp [Stops]
  have hstop := stops_append hws hnil
  rw [List.append_nil] at hstop
  have hdenotes : Denotes stod readerDialect v.tokens v.asMap := denotes_tokens v hv
  constructor
  · rw [parse, String.toList_ofList, hdenotes.parse htext hstop (Nat.lt_succ_self _)]
    rfl
  · rintro obj rfl key
    exact find_asMap hv key

/-- An object with an escaped key, white space between its tokens. -/
theorem parse_printed_escapes : parse (fun _ => (none : Option ℕ))
    (String.ofList "\n\x7b \"\\\"\":\t[-5 ,true] \x7d ".toList) =
      .ok (.object [("\"", .array [.int (-5), .bool true])], true) := by
  have hv : (Value.object [("\"", .array [.int (-5), .bool true])] : Value ℕ).Printable :=
    ⟨by decide, ⟨trivial, trivial, trivial⟩, trivial⟩
  refine (parse_printed hv (rfl : [' '].all isspace = true) ?_).1
  refine Spaced.cons_iff.mpr ⟨['\n'], _, rfl, rfl, ?_⟩
  refine Spaced.cons_iff.mpr ⟨[' '], _, rfl, rfl, ?_⟩
  refine Spaced.cons_iff.mpr ⟨[], _, rfl, rfl, ?_⟩
  refine Spaced.cons_iff.mpr ⟨['\t'], _, rfl, rfl, ?_⟩
  refine Spaced.cons_iff.mpr ⟨[], _, rfl, rfl, ?_⟩
  refine Spaced.cons_iff.mpr ⟨[' '], _, rfl, rfl, ?_⟩
  refine Spaced.cons_iff.mpr ⟨[], _, rfl, rfl, ?_⟩
  refine Spaced.cons_iff.mpr ⟨[], _, rfl, rfl, ?_⟩
  refine Spaced.cons_iff.mpr ⟨[' '], _, rfl, rfl, ?_⟩
  exact .nil

end Value

end Dee.Json
