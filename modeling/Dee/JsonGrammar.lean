import Dee.JsonPrinting

/-! What the reader accepts, against the JSON grammar. A string need not end, a number follows
no grammar, `\b`, `\f` and `\u` are not decoded, and nothing looks behind the value; the
commas, colons and brackets are those of the grammar. -/
namespace Dee.Json
open OrderedMap Dee.Json.Parser
variable {F : Type*} {stod : String → Option F}

/-! The grammar -/

def jsonSpace (c : Char) : Bool := c = ' ' || c = '\t' || c = '\n' || c = '\r'

def hexDigit (c : Char) : Option ℕ :=
  if c.isDigit then some (c.toNat - 48)
  else if 97 ≤ c.toNat ∧ c.toNat ≤ 102 then some (c.toNat - 87)
  else if 65 ≤ c.toNat ∧ c.toNat ≤ 70 then some (c.toNat - 55)
  else none

/-- The number of four hexadecimal digits. -/
def hex4 (cs : List Char) : Option ℕ :=
  if cs.length = 4 then (cs.mapM hexDigit).map fun ds => ds.foldl (fun k d => 16 * k + d) 0
  else none

/-- The bytes of a character, each as a character. -/
def utf8 (k : ℕ) : List Char :=
  (String.utf8EncodeChar (Char.ofNat k)).map fun b => Char.ofNat b.toNat

/-- The escapes of one letter, and what they stand for. -/
def escapes : List (Char × Char) :=
  [('"', '"'), ('\\', '\\'), ('/', '/'), ('b', Char.ofNat 8), ('f', Char.ofNat 12), ('n', '\n'),
    ('r', '\r'), ('t', '\t')]

/-- What stands between the quotes of a string, and the bytes that it denotes. -/
inductive JsonBody : List Char → List Char → Prop
  | nil : JsonBody [] []
  | plain {c : Char} {cs out : List Char} (hc : 32 ≤ c.toNat) (hquote : c ≠ '"')
      (hslash : c ≠ '\\') (h : JsonBody cs out) : JsonBody (c :: cs) (c :: out)
  | escape {e c : Char} {cs out : List Char} (he : (e, c) ∈ escapes) (h : JsonBody cs out) :
      JsonBody ('\\' :: e :: cs) (c :: out)
  | unicode {ds cs out : List Char} {k : ℕ} (hk : hex4 ds = some k)
      (hsurrogate : k < 0xD800 ∨ 0xE000 ≤ k) (h : JsonBody cs out) :
      JsonBody ('\\' :: 'u' :: (ds ++ cs)) (utf8 k ++ out)
  | surrogates {ds ds' cs out : List Char} {k l : ℕ} (hk : hex4 ds = some k)
      (hhigh : 0xD800 ≤ k ∧ k < 0xDC00) (hl : hex4 ds' = some l) (hlow : 0xDC00 ≤ l ∧ l < 0xE000)
      (h : JsonBody cs out) :
      JsonBody ('\\' :: 'u' :: (ds ++ '\\' :: 'u' :: (ds' ++ cs)))
        (utf8 (0x10000 + 1024 * (k - 0xD800) + (l - 0xDC00)) ++ out)

def jsonDialect : Dialect := ⟨JsonBody, True⟩

def marks : List Char := ['\x7b', '\x7d', '[', ']', ',', ':']

/-- The token is one of JSON. -/
def Token.Lexical : Token → Prop
  | mark c => c ∈ marks
  | word cs => cs = "null".toList ∨ ∃ b, cs = boolText b
  | number cs => ∃ n : Number, n.Valid ∧ cs = n.text
  | string body => ∃ out, JsonBody body out

/-- The text is a sequence of JSON tokens, each number as long as possible. -/
inductive Lexed : List Token → List Char → Prop
  | nil {ws : List Char} (hws : ws.all jsonSpace = true) : Lexed [] ws
  | cons {ws text : List Char} {t : Token} {ts : List Token} (hws : ws.all jsonSpace = true)
      (ht : t.Lexical) (hmax : ∀ cs, t = .number cs → Stops text) (h : Lexed ts text) :
      Lexed (t :: ts) (ws ++ (t.text ++ text))

/-- The text is one JSON value, and this is the value. -/
def IsJson (stod : String → Option F) (text : String) (v : Value F) : Prop :=
  ∃ ts, Lexed ts text.toList ∧ Denotes stod jsonDialect ts v

/-! White space -/

theorem isspace_of_jsonSpace {c : Char} (h : jsonSpace c = true) : isspace c = true := by
  simp only [jsonSpace, Bool.or_eq_true, decide_eq_true_eq] at h
  rcases h with ((rfl | rfl) | rfl) | rfl <;> decide

theorem all_isspace {ws : List Char} (h : ws.all jsonSpace = true) : ws.all isspace = true := by
  rw [List.all_eq_true] at h ⊢
  exact fun c hc => isspace_of_jsonSpace (h c hc)

theorem Lexed.spaced {ts : List Token} {text : List Char} (h : Lexed ts text) :
    ∃ ws, ws.all isspace = true ∧ Spaced isspace ws ts text := by
  induction h with
  | nil hws => exact ⟨_, all_isspace hws, .nil⟩
  | cons hws ht hmax h ih =>
    obtain ⟨ws, hall, hspaced⟩ := ih
    exact ⟨ws, hall, .cons (all_isspace hws) hspaced⟩

/-! Strings -/

theorem ReaderBody.append {cs out cs' out' : List Char} (h : ReaderBody cs out)
    (h' : ReaderBody cs' out') : ReaderBody (cs ++ cs') (out ++ out') := by
  induction h with
  | nil => exact h'
  | plain hquote hslash h ih => exact .plain hquote hslash ih
  | escape e h ih => exact .escape e ih

/-- Digits need no escape. -/
theorem readerBody_of_mapM {cs : List Char} {ds : List ℕ} (h : cs.mapM hexDigit = some ds) :
    ReaderBody cs cs := by
  induction cs generalizing ds with
  | nil => exact .nil
  | cons c cs ih =>
    simp only [List.mapM_cons, Option.bind_eq_bind, Option.bind_eq_some_iff] at h
    obtain ⟨d, hc, ds', hcs, -⟩ := h
    refine .plain ?_ ?_ (ih hcs)
    · rintro rfl
      cases (by decide : hexDigit '"' = none).symm.trans hc
    · rintro rfl
      cases (by decide : hexDigit '\\' = none).symm.trans hc

theorem readerBody_hex4 {cs : List Char} {k : ℕ} (h : hex4 cs = some k) : ReaderBody cs cs := by
  unfold hex4 at h
  split_ifs at h
  obtain ⟨ds, hds, -⟩ := Option.map_eq_some_iff.mp h
  exact readerBody_of_mapM hds

/-- The reader finds the end of every JSON string. -/
theorem JsonBody.readerBody {body out : List Char} (h : JsonBody body out) :
    ∃ out', ReaderBody body out' := by
  induction h with
  | nil => exact ⟨_, .nil⟩
  | plain hc hquote hslash h ih =>
    obtain ⟨out', ih⟩ := ih
    exact ⟨_, .plain hquote hslash ih⟩
  | escape he h ih =>
    obtain ⟨out', ih⟩ := ih
    exact ⟨_, .escape _ ih⟩
  | unicode hk hsurrogate h ih =>
    obtain ⟨out', ih⟩ := ih
    exact ⟨_, .escape 'u' ((readerBody_hex4 hk).append ih)⟩
  | surrogates hk hhigh hl hlow h ih =>
    obtain ⟨out', ih⟩ := ih
    exact ⟨_, .escape 'u' ((readerBody_hex4 hk).append
      (.escape 'u' ((readerBody_hex4 hl).append ih)))⟩

/-! The error flag is never cleared -/

section Errors

/-- A call that starts with the flag set ends with it set. -/
def KeepsError (pv : Parser → Except Throw (Value F × Parser)) : Prop :=
  ∀ p v q, pv p = .ok (v, q) → p.error = true → q.error = true

variable {pv : Parser → Except Throw (Value F × Parser)} {p q : Parser} {v : Value F}

/-- One turn of the loop of an array that returns. -/
theorem arrayLoop_cases {k : ℕ} {arr : List (Value F)}
    (h : arrayLoop pv (k + 1) arr p = .ok (v, q)) :
    ∃ val p', pv p = .ok (val, p') ∧
      (p'.skipWs.peek = ',' ∧ arrayLoop pv k (arr ++ [val]) p'.skipWs.next = .ok (v, q) ∨
        v = .array (arr ++ [val]) ∧
          (p'.skipWs.peek = ']' ∧ q = p'.skipWs.next ∨ q = p'.skipWs.fail)) := by
  simp only [arrayLoop] at h
  cases hx : pv p with
  | error t =>
    rw [hx] at h
    cases h
  | ok r =>
    rw [hx] at h
    dsimp only at h
    refine ⟨r.1, r.2, rfl, ?_⟩
    split_ifs at h with hcomma hclose
    · exact Or.inl ⟨hcomma, h⟩
    · cases h
      exact Or.inr ⟨rfl, Or.inl ⟨hclose, rfl⟩⟩
    · cases h
      exact Or.inr ⟨rfl, Or.inr rfl⟩

/-- One turn of the loop of an object that returns; the first case has no key or no colon. -/
theorem objectLoop_cases {k : ℕ} {obj : List (String × Value F)}
    (h : objectLoop pv (k + 1) obj p = .ok (v, q)) :
    v = .object obj ∧ q.error = true ∨
      p.skipWs.peek = '"' ∧ p.skipWs.parseString.2.skipWs.peek = ':' ∧
        ∃ val p', pv p.skipWs.parseString.2.skipWs.next = .ok (val, p') ∧
          (p'.skipWs.peek = ',' ∧ objectLoop pv k (assign p.skipWs.parseString.1 val obj)
              p'.skipWs.next = .ok (v, q) ∨
            v = .object (assign p.skipWs.parseString.1 val obj) ∧
              (p'.skipWs.peek = '\x7d' ∧ q = p'.skipWs.next ∨ q = p'.skipWs.fail)) := by
  simp only [objectLoop] at h
  split_ifs at h with hquote hcolon
  · cases h
    exact Or.inl ⟨rfl, rfl⟩
  · cases h
    exact Or.inl ⟨rfl, rfl⟩
  refine Or.inr ⟨not_not.mp hquote, not_not.mp hcolon, ?_⟩
  cases hx : pv p.skipWs.parseString.2.skipWs.next with
  | error t =>
    rw [hx] at h
    cases h
  | ok r =>
    rw [hx] at h
    dsimp only at h
    refine ⟨r.1, r.2, rfl, ?_⟩
    split_ifs at h with hcomma hclose
    · exact Or.inl ⟨hcomma, h⟩
    · cases h
      exact Or.inr ⟨rfl, Or.inl ⟨hclose, rfl⟩⟩
    · cases h
      exact Or.inr ⟨rfl, Or.inr rfl⟩

theorem arrayLoop_error (hpv : KeepsError pv) {k : ℕ} {arr : List (Value F)}
    (h : arrayLoop pv k arr p = .ok (v, q)) (hp : p.error = true) : q.error = true := by
  induction k generalizing arr p with
  | zero => cases h
  | succ k ih =>
    obtain ⟨val, p', hval, hturn⟩ := arrayLoop_cases h
    have hp' := hpv p val p' hval hp
    rcases hturn with ⟨-, hloop⟩ | ⟨-, ⟨-, rfl⟩ | rfl⟩
    · exact ih hloop hp'
    · exact hp'
    · rfl

theorem objectLoop_error (hpv : KeepsError pv) {k : ℕ} {obj : List (String × Value F)}
    (h : objectLoop pv k obj p = .ok (v, q)) (hp : p.error = true) : q.error = true := by
  induction k generalizing obj p with
  | zero => cases h
  | succ k ih =>
    rcases objectLoop_cases h with ⟨-, hq⟩ | ⟨-, -, val, p', hval, hturn⟩
    · exact hq
    have hp' := hpv _ val p' hval hp
    rcases hturn with ⟨-, hloop⟩ | ⟨-, ⟨-, rfl⟩ | rfl⟩
    · exact ih hloop hp'
    · exact hp'
    · rfl

/-- A turn in an array that ends without the flag. -/
theorem arrayLoop_clean (hpv : KeepsError pv) {k : ℕ} {arr : List (Value F)}
    (h : arrayLoop pv (k + 1) arr p = .ok (v, q)) (hq : q.error = false) :
    ∃ val rest, pv p = .ok (val, ⟨rest, false⟩) ∧
      ((Parser.skipWs ⟨rest, false⟩).peek = ',' ∧
          arrayLoop pv k (arr ++ [val]) (Parser.skipWs ⟨rest, false⟩).next = .ok (v, q) ∨
        (Parser.skipWs ⟨rest, false⟩).peek = ']' ∧ v = .array (arr ++ [val]) ∧
          q = (Parser.skipWs ⟨rest, false⟩).next) := by
  obtain ⟨val, ⟨rest, e⟩, hval, hturn⟩ := arrayLoop_cases h
  have hclean : e = false := by
    by_contra he
    rw [Bool.not_eq_false] at he
    rcases hturn with ⟨-, hloop⟩ | ⟨-, ⟨-, rfl⟩ | rfl⟩
    · exact Bool.false_ne_true (hq.symm.trans (arrayLoop_error hpv hloop he))
    · exact Bool.false_ne_true (hq.symm.trans he)
    · cases hq
  subst hclean
  refine ⟨val, rest, hval, ?_⟩
  rcases hturn with hmore | ⟨hv, ⟨hclose, hlast⟩ | rfl⟩
  · exact Or.inl hmore
  · exact Or.inr ⟨hclose, hv, hlast⟩
  · cases hq

/-- A turn in an object that ends without the flag. -/
theorem objectLoop_clean (hpv : KeepsError pv) {k : ℕ} {obj : List (String × Value F)}
    (h : objectLoop pv (k + 1) obj p = .ok (v, q)) (hq : q.error = false) :
    p.skipWs.peek = '"' ∧ p.skipWs.parseString.2.skipWs.peek = ':' ∧
      ∃ val rest, pv p.skipWs.parseString.2.skipWs.next = .ok (val, ⟨rest, false⟩) ∧
        ((Parser.skipWs ⟨rest, false⟩).peek = ',' ∧
            objectLoop pv k (assign p.skipWs.parseString.1 val obj)
              (Parser.skipWs ⟨rest, false⟩).next = .ok (v, q) ∨
          (Parser.skipWs ⟨rest, false⟩).peek = '\x7d' ∧
            v = .object (assign p.skipWs.parseString.1 val obj) ∧
              q = (Parser.skipWs ⟨rest, false⟩).next) := by
  rcases objectLoop_cases h with ⟨-, hbad⟩ | ⟨hquote, hcolon, val, ⟨rest, e⟩, hval, hturn⟩
  · exact absurd (hq.symm.trans hbad) Bool.false_ne_true
  have hclean : e = false := by
    by_contra he
    rw [Bool.not_eq_false] at he
    rcases hturn with ⟨-, hloop⟩ | ⟨-, ⟨-, rfl⟩ | rfl⟩
    · exact Bool.false_ne_true (hq.symm.trans (objectLoop_error hpv hloop he))
    · exact Bool.false_ne_true (hq.symm.trans he)
    · cases hq
  subst hclean
  refine ⟨hquote, hcolon, val, rest, hval, ?_⟩
  rcases hturn with hmore | ⟨hv, ⟨hclose, hlast⟩ | rfl⟩
  · exact Or.inl hmore
  · exact Or.inr ⟨hclose, hv, hlast⟩
  · cases hq

theorem numberText_error (p : Parser) : p.numberText.2.error = p.error := by
  unfold numberText
  split_ifs <;> rfl

theorem parseValue_error (n : ℕ) : KeepsError (parseValue stod n) := by
  induction n with
  | zero =>
    intro p v q h
    cases h
  | succ n ih =>
    intro p v q h hp
    simp only [parseValue] at h
    split_ifs at h
    · simp only [parseObject] at h
      split_ifs at h
      · cases h
        exact hp
      · exact objectLoop_error ih h hp
    · simp only [parseArray] at h
      split_ifs at h
      · cases h
        exact hp
      · exact arrayLoop_error ih h hp
    · cases h
      exact hp
    · have hq : (parseBool (F := F) p.skipWs).2 = q := congrArg Prod.snd (Except.ok.inj h)
      rw [← hq]
      unfold parseBool
      split_ifs
      · exact hp
      · exact hp
      · rfl
    · simp only [parseNumber] at h
      split_ifs at h
      · split at h
        · cases h
        · cases h
          exact (numberText_error _).trans hp
      · split at h
        · cases h
        · cases h
          exact (numberText_error _).trans hp
    · cases h
      rfl

end Errors

/-! The next token -/

theorem mem_marks {c : Char} :
    c ∈ marks ↔ c = '\x7b' ∨ c = '\x7d' ∨ c = '[' ∨ c = ']' ∨ c = ',' ∨ c = ':' := by
  simp [marks]

theorem of_mem_marks {c : Char} (h : c ∈ marks) :
    isspace c = false ∧ c.isDigit = false ∧ c ≠ '"' ∧ c ≠ '-' ∧ c ≠ 'n' ∧ c ≠ 't' ∧ c ≠ 'f' := by
  rcases mem_marks.mp h with rfl | rfl | rfl | rfl | rfl | rfl <;> decide

/-- The first character tells what a token is. -/
theorem Token.Lexical.head {t : Token} (h : t.Lexical) :
    ∃ c cs, t.text = c :: cs ∧ isspace c = false ∧ (c ∈ marks → t = .mark c) ∧
      (c = '"' → ∃ body, t = .string body) := by
  cases t with
  | mark c =>
    obtain ⟨hspace, -, hquote, -⟩ := of_mem_marks h
    exact ⟨c, [], rfl, hspace, fun _ => rfl, fun hc => absurd hc hquote⟩
  | word cs =>
    have hfirst : ∃ c ds, cs = c :: ds ∧ (c = 'n' ∨ c = 't' ∨ c = 'f') := by
      rcases h with rfl | ⟨b, rfl⟩
      · exact ⟨'n', _, rfl, by decide⟩
      · cases b
        · exact ⟨'f', _, rfl, by decide⟩
        · exact ⟨'t', _, rfl, by decide⟩
    obtain ⟨c, ds, rfl, hc⟩ := hfirst
    refine ⟨c, ds, rfl, ?_, fun hmark => ?_, ?_⟩
    · rcases hc with rfl | rfl | rfl <;> decide
    · obtain ⟨-, -, -, -, hn, ht, hf⟩ := of_mem_marks hmark
      simp [hn, ht, hf] at hc
    · rintro rfl
      simp at hc
  | number cs =>
    obtain ⟨n, hn, rfl⟩ := h
    obtain ⟨c, hc, hd⟩ := Number.text_head hn
    obtain ⟨ds, hds⟩ := List.head?_eq_some_iff.mp hc
    refine ⟨c, ds, hds, ?_, fun hmark => ?_, ?_⟩
    · rcases hd with rfl | hd
      · decide
      · exact isspace_of_isDigit hd
    · obtain ⟨-, hdigit, -, hminus, -⟩ := of_mem_marks hmark
      simp [hdigit, hminus] at hd
    · rintro rfl
      simp at hd
  | string body => exact ⟨'"', _, rfl, by decide, fun h => absurd rfl (of_mem_marks h).2.2.1,
      fun _ => ⟨body, rfl⟩⟩

namespace Lexed
variable {ts : List Token} {cs : List Char}

/-- Behind white space the text ends or starts with the next token. -/
theorem skipWs (h : Lexed ts cs) (e : Bool) :
    ts = [] ∧ Parser.skipWs ⟨cs, e⟩ = ⟨[], e⟩ ∨
      ∃ t ts' text, ts = t :: ts' ∧ Parser.skipWs ⟨cs, e⟩ = ⟨t.text ++ text, e⟩ ∧ t.Lexical ∧
        (∀ cs, t = .number cs → Stops text) ∧ Lexed ts' text := by
  cases h with
  | nil hws =>
    left
    refine ⟨rfl, ?_⟩
    have hall := all_isspace hws
    rw [List.all_eq_true] at hall
    simp only [Parser.skipWs, Parser.mk.injEq, and_true]
    exact List.dropWhile_eq_nil_iff.mpr hall
  | cons hws ht hmax h =>
    obtain ⟨c, text, hcs, hspace, -⟩ := ht.head
    refine Or.inr ⟨_, _, _, rfl, ?_, ht, hmax, h⟩
    rw [hcs, List.cons_append]
    exact skipWs_append (all_isspace hws) hspace _ _

theorem afterWs (h : Lexed ts cs) (e : Bool) : Lexed ts (Parser.skipWs ⟨cs, e⟩).rest := by
  rcases h.skipWs e with ⟨rfl, hskip⟩ | ⟨t, ts', text, rfl, hskip, ht, hmax, hrest⟩
  · rw [hskip]
    exact .nil rfl
  · have hlexed : Lexed (t :: ts') ([] ++ (t.text ++ text)) := .cons rfl ht hmax hrest
    rwa [hskip]

theorem of_peek_mark (h : Lexed ts cs) {e : Bool} {c : Char}
    (hpeek : (Parser.skipWs ⟨cs, e⟩).peek = c) (hc : c ∈ marks) :
    ∃ ts' text, ts = .mark c :: ts' ∧ Parser.skipWs ⟨cs, e⟩ = ⟨c :: text, e⟩ ∧
      Lexed ts' text := by
  rcases h.skipWs e with ⟨-, hskip⟩ | ⟨t, ts', text, rfl, hskip, ht, -, hrest⟩
  · rw [hskip] at hpeek
    subst hpeek
    exact absurd hc (by decide : Char.ofNat 0 ∉ marks)
  · obtain ⟨d, ds, hds, -, hmark, -⟩ := ht.head
    rw [hskip, hds] at hpeek
    have hd : d = c := hpeek
    subst hd
    obtain rfl := hmark hc
    exact ⟨ts', text, rfl, hskip, hrest⟩

theorem of_peek_quote (h : Lexed ts cs) {e : Bool}
    (hpeek : (Parser.skipWs ⟨cs, e⟩).peek = '"') :
    ∃ body key ts' text, ts = .string body :: ts' ∧
      Parser.skipWs ⟨cs, e⟩ = ⟨quoted body ++ text, e⟩ ∧ ReaderBody body key ∧
        Lexed ts' text := by
  rcases h.skipWs e with ⟨-, hskip⟩ | ⟨t, ts', text, rfl, hskip, ht, -, hrest⟩
  · rw [hskip] at hpeek
    cases hpeek
  · obtain ⟨d, ds, hds, -, -, hstring⟩ := ht.head
    rw [hskip, hds] at hpeek
    obtain ⟨body, rfl⟩ := hstring hpeek
    obtain ⟨out, hbody⟩ := ht
    obtain ⟨key, hkey⟩ := hbody.readerBody
    exact ⟨body, key, ts', text, rfl, hskip, hkey, hrest⟩

end Lexed

/-! What is read without an error -/

/-- What `pv` takes off a sequence of JSON tokens denotes its value. -/
def TakesValue (stod : String → Option F) (pv : Parser → Except Throw (Value F × Parser)) :
    Prop :=
  ∀ cs ts v q, Lexed ts cs → pv ⟨cs, false⟩ = .ok (v, q) → q.error = false →
    ∃ ts₁ ts₂, ts = ts₁ ++ ts₂ ∧ Denotes stod readerDialect ts₁ v ∧ Lexed ts₂ q.rest

section Loops
variable {pv : Parser → Except Throw (Value F × Parser)} {cs : List Char} {ts : List Token}
  {v : Value F} {q : Parser}

theorem arrayLoop_elements (hpv : TakesValue stod pv) (herr : KeepsError pv) {k : ℕ}
    {arr : List (Value F)} (h : Lexed ts cs) (hx : arrayLoop pv k arr ⟨cs, false⟩ = .ok (v, q))
    (hq : q.error = false) :
    ∃ vs ts₁ ts₂, ts = ts₁ ++ .mark ']' :: ts₂ ∧ Elements stod readerDialect ts₁ vs ∧
      v = .array (arr ++ vs) ∧ Lexed ts₂ q.rest := by
  induction k generalizing arr cs ts with
  | zero => cases hx
  | succ k ih =>
    obtain ⟨val, rest, hval, hturn⟩ := arrayLoop_clean herr hx hq
    obtain ⟨ts₁, ts₂, rfl, hdenotes, hrest⟩ := hpv _ _ _ _ h hval rfl
    rcases hturn with ⟨hcomma, hloop⟩ | ⟨hclose, rfl, rfl⟩
    · obtain ⟨ts', text, rfl, hskip, hnext⟩ := hrest.of_peek_mark hcomma (by decide)
      rw [hskip] at hloop
      obtain ⟨vs, ts₃, ts₄, rfl, helements, hv, hlast⟩ := ih hnext hloop
      refine ⟨val :: vs, ts₁ ++ .mark ',' :: ts₃, ts₄, by simp, .more hdenotes helements, ?_,
        hlast⟩
      rw [hv, List.append_assoc]
      rfl
    · obtain ⟨ts', text, rfl, hskip, hnext⟩ := hrest.of_peek_mark hclose (by decide)
      rw [hskip]
      exact ⟨[val], ts₁, ts', rfl, .one hdenotes, rfl, hnext⟩

theorem objectLoop_members (hpv : TakesValue stod pv) (herr : KeepsError pv) {k : ℕ}
    {obj : List (String × Value F)} (h : Lexed ts cs)
    (hx : objectLoop pv k obj ⟨cs, false⟩ = .ok (v, q)) (hq : q.error = false) :
    ∃ es ts₁ ts₂, ts = ts₁ ++ .mark '\x7d' :: ts₂ ∧ Members stod readerDialect ts₁ es ∧
      v = .object (assignAll obj es) ∧ Lexed ts₂ q.rest := by
  induction k generalizing obj cs ts with
  | zero => cases hx
  | succ k ih =>
    obtain ⟨hquote, hcolon, val, rest, hval, hturn⟩ := objectLoop_clean herr hx hq
    obtain ⟨body, key, ts', text, rfl, hskip, hkey, hafter⟩ := h.of_peek_quote hquote
    rw [hskip, parseString_body hkey] at hcolon hval hturn
    dsimp only at hcolon hval hturn
    obtain ⟨ts'', text', rfl, hskip', hvalue⟩ := hafter.of_peek_mark hcolon (by decide)
    rw [hskip'] at hval
    obtain ⟨ts₁, ts₂, rfl, hdenotes, hrest⟩ := hpv _ _ _ _ hvalue hval rfl
    rcases hturn with ⟨hcomma, hloop⟩ | ⟨hclose, rfl, rfl⟩
    · obtain ⟨ts₃, text'', rfl, hskip, hnext⟩ := hrest.of_peek_mark hcomma (by decide)
      rw [hskip] at hloop
      obtain ⟨es, ts₄, ts₅, rfl, hmembers, hv, hlast⟩ := ih hnext hloop
      exact ⟨(String.ofList key, val) :: es, _, ts₅, by simp, .more hkey hdenotes hmembers,
        hv, hlast⟩
    · obtain ⟨ts₃, text'', rfl, hskip, hnext⟩ := hrest.of_peek_mark hclose (by decide)
      rw [hskip]
      exact ⟨[(String.ofList key, val)], _, ts₃, rfl, .one hkey hdenotes, rfl, hnext⟩

theorem parseArray_elements (hpv : TakesValue stod pv) (herr : KeepsError pv) (h : Lexed ts cs)
    (hx : parseArray pv ⟨'[' :: cs, false⟩ = .ok (v, q)) (hq : q.error = false) :
    ∃ ts₁ ts₂, .mark '[' :: ts = ts₁ ++ ts₂ ∧ Denotes stod readerDialect ts₁ v ∧
      Lexed ts₂ q.rest := by
  have hnext : Parser.next ⟨'[' :: cs, false⟩ = ⟨cs, false⟩ := rfl
  simp only [parseArray, hnext] at hx
  split_ifs at hx with hclose
  · obtain ⟨ts', text, rfl, hskip, hrest⟩ := h.of_peek_mark hclose (by decide)
    rw [hskip] at hx
    cases hx
    exact ⟨[.mark '[', .mark ']'], ts', rfl, .emptyArray, hrest⟩
  · obtain ⟨vs, ts₁, ts₂, rfl, helements, rfl, hrest⟩ :=
      arrayLoop_elements hpv herr (h.afterWs false) hx hq
    exact ⟨_, ts₂, by simp, .array helements, hrest⟩

theorem parseObject_members (hpv : TakesValue stod pv) (herr : KeepsError pv) (h : Lexed ts cs)
    (hx : parseObject pv ⟨'\x7b' :: cs, false⟩ = .ok (v, q)) (hq : q.error = false) :
    ∃ ts₁ ts₂, .mark '\x7b' :: ts = ts₁ ++ ts₂ ∧ Denotes stod readerDialect ts₁ v ∧
      Lexed ts₂ q.rest := by
  have hnext : Parser.next ⟨'\x7b' :: cs, false⟩ = ⟨cs, false⟩ := rfl
  simp only [parseObject, hnext] at hx
  split_ifs at hx with hclose
  · obtain ⟨ts', text, rfl, hskip, hrest⟩ := h.of_peek_mark hclose (by decide)
    rw [hskip] at hx
    cases hx
    exact ⟨[.mark '\x7b', .mark '\x7d'], ts', rfl, .emptyObject, hrest⟩
  · obtain ⟨es, ts₁, ts₂, rfl, hmembers, rfl, hrest⟩ :=
      objectLoop_members hpv herr (h.afterWs false) hx hq
    exact ⟨_, ts₂, by simp, .object hmembers, hrest⟩

end Loops

theorem parseValue_other {c : Char} (hspace : isspace c = false)
    (hc : c = 'n' ∨ c = '\x7d' ∨ c = ']' ∨ c = ',' ∨ c = ':') (n : ℕ) (cs : List Char) :
    parseValue stod (n + 1) ⟨c :: cs, false⟩ = .ok (.null, ⟨c :: cs, true⟩) := by
  have hpeek : peek ⟨c :: cs, false⟩ = c := rfl
  rw [parseValue]
  simp only [skipWs_cons hspace, hpeek]
  rcases hc with rfl | rfl | rfl | rfl | rfl <;> rfl

theorem takesValue_parseValue (n : ℕ) : TakesValue stod (parseValue stod n) := by
  induction n with
  | zero =>
    intro cs ts v q _ hx
    cases hx
  | succ n ih =>
    intro cs ts v q h hx hq
    rw [← parseValue_skipWs] at hx
    rcases h.skipWs false with ⟨rfl, hskip⟩ | ⟨t, ts', text, rfl, hskip, ht, hmax, hrest⟩
    · rw [hskip] at hx
      cases hx
      cases hq
    rw [hskip] at hx
    cases t with
    | mark c =>
      have hspace := (of_mem_marks ht).1
      rcases mem_marks.mp ht with rfl | rfl | rfl | rfl | rfl | rfl
      · exact parseObject_members ih (parseValue_error n) hrest
          ((parseValue_brace n text).symm.trans hx) hq
      · cases (parseValue_other hspace (by simp) n text).symm.trans hx
        cases hq
      · exact parseArray_elements ih (parseValue_error n) hrest
          ((parseValue_bracket n text).symm.trans hx) hq
      all_goals
        cases (parseValue_other hspace (by simp) n text).symm.trans hx
        cases hq
    | word cs =>
      rcases ht with rfl | ⟨b, rfl⟩
      · have hnull : parseValue stod (n + 1) ⟨'n' :: ("ull".toList ++ text), false⟩ =
            .ok (v, q) := hx
        cases (parseValue_other (by decide) (by simp) n _).symm.trans hnull
        cases hq
      · have hbool := (parseValue_bool b n text).symm.trans hx
        cases hbool
        exact ⟨_, ts', rfl, .bool b, hrest⟩
    | number cs =>
      obtain ⟨m, hm, rfl⟩ := ht
      have hnumber := (parseValue_number hm n text).symm.trans hx
      obtain ⟨hv, rfl⟩ := (Number.parseNumber_text hm (hmax _ rfl) false v q).mp hnumber
      exact ⟨_, ts', rfl, .number hm hv, hrest⟩
    | string body =>
      obtain ⟨out, hbody⟩ := ht
      obtain ⟨key, hkey⟩ := hbody.readerBody
      have hstr := (parseValue_string hkey n text).symm.trans hx
      cases hstr
      exact ⟨_, ts', rfl, .str hkey, hrest⟩

/-! Where a value ends -/

/-- By how much a token opens more brackets than it closes. -/
def Token.nesting : Token → ℤ
  | mark c => if c = '[' ∨ c = '\x7b' then 1 else if c = ']' ∨ c = '\x7d' then -1 else 0
  | _ => 0

def nesting (ts : List Token) : ℤ := (ts.map Token.nesting).sum

@[simp] theorem nesting_nil : nesting [] = 0 := rfl

@[simp] theorem nesting_cons (t : Token) (ts : List Token) :
    nesting (t :: ts) = t.nesting + nesting ts := by
  simp [nesting]

@[simp] theorem nesting_append (ts ts' : List Token) :
    nesting (ts ++ ts') = nesting ts + nesting ts' := by
  simp [nesting]

/-- All brackets are closed at the end only. -/
def ClosesAtEnd (ts : List Token) : Prop :=
  ∀ ts₁ ts₂, ts = ts₁ ++ ts₂ → ts₁ ≠ [] → nesting ts₁ = 0 → ts₂ = []

/-- No more brackets are closed than were opened before, and all in the end. -/
structure Balanced (ts : List Token) : Prop where
  total : nesting ts = 0
  nonneg : ∀ ts₁ ts₂, ts = ts₁ ++ ts₂ → 0 ≤ nesting ts₁

theorem Balanced.append {ts ts' : List Token} (h : Balanced ts) (h' : Balanced ts') :
    Balanced (ts ++ ts') := by
  refine ⟨by simp [h.total, h'.total], fun ts₁ ts₂ heq => ?_⟩
  rcases List.append_eq_append_iff.mp heq with ⟨us, rfl, hus⟩ | ⟨us, hus, -⟩
  · have hnonneg := h'.nonneg us ts₂ hus
    simp only [nesting_append, h.total]
    omega
  · exact h.nonneg ts₁ us hus

theorem Balanced.cons {t : Token} (ht : t.nesting = 0) {ts : List Token} (h : Balanced ts) :
    Balanced (t :: ts) := by
  refine ⟨by simp [ht, h.total], fun ts₁ ts₂ heq => ?_⟩
  rcases List.cons_eq_append_iff.mp heq with ⟨rfl, -⟩ | ⟨us, rfl, hus⟩
  · exact le_rfl
  · have hnonneg := h.nonneg us ts₂ hus
    simp only [nesting_cons, ht]
    omega

/-- Brackets around closed brackets close at the end only. -/
theorem Balanced.enclose {ts : List Token} (h : Balanced ts) {o c : Token} (ho : o.nesting = 1)
    (hc : c.nesting = -1) : Balanced (o :: (ts ++ [c])) ∧ ClosesAtEnd (o :: (ts ++ [c])) := by
  have hpart : ∀ us ts₂, ts ++ [c] = us ++ ts₂ → ts₂ ≠ [] → 0 ≤ nesting us := by
    intro us ts₂ hus hne
    rcases List.append_eq_append_iff.mp hus with ⟨vs, rfl, hvs⟩ | ⟨vs, hvs, -⟩
    · have hvs' : vs = [] := by
        cases vs with
        | nil => rfl
        | cons v vs => simp [hne] at hvs
      rw [hvs', List.append_nil]
      exact h.total.ge
    · exact h.nonneg us vs hvs
  have htotal : nesting (o :: (ts ++ [c])) = 0 := by simp [ho, hc, h.total]
  refine ⟨⟨htotal, fun ts₁ ts₂ heq => ?_⟩, fun ts₁ ts₂ heq hne hzero => ?_⟩
  · rcases List.cons_eq_append_iff.mp heq with ⟨rfl, -⟩ | ⟨us, rfl, hus⟩
    · exact le_rfl
    · by_cases hrest : ts₂ = []
      · rw [hrest, List.append_nil] at heq
        rw [← heq, htotal]
      · have hnonneg := hpart us ts₂ hus hrest
        rw [nesting_cons, ho]
        omega
  · rcases List.cons_eq_append_iff.mp heq with ⟨rfl, -⟩ | ⟨us, rfl, hus⟩
    · exact absurd rfl hne
    · by_contra hrest
      have hnonneg := hpart us ts₂ hus hrest
      rw [nesting_cons, ho] at hzero
      omega

/-- A token without brackets. -/
theorem Balanced.single {t : Token} (ht : t.nesting = 0) : Balanced [t] ∧ ClosesAtEnd [t] := by
  have hnil : Balanced [] := ⟨rfl, fun ts₁ ts₂ heq => by
    rw [(List.nil_eq_append_iff.mp heq).1, nesting_nil]⟩
  refine ⟨hnil.cons ht, fun ts₁ ts₂ heq hne _ => ?_⟩
  rcases List.cons_eq_append_iff.mp heq with ⟨rfl, -⟩ | ⟨us, -, hus⟩
  · exact absurd rfl hne
  · exact (List.nil_eq_append_iff.mp hus).2

mutual

theorem Denotes.balanced {d : Dialect} {ts : List Token} {v : Value F}
    (h : Denotes stod d ts v) : Balanced ts ∧ ClosesAtEnd ts := by
  have hnil : Balanced [] := ⟨rfl, fun ts₁ ts₂ heq => by
    rw [(List.nil_eq_append_iff.mp heq).1, nesting_nil]⟩
  match h with
  | .null _ => exact Balanced.single rfl
  | .bool b => exact Balanced.single rfl
  | .number _ _ => exact Balanced.single rfl
  | .str _ => exact Balanced.single rfl
  | .emptyArray => exact hnil.enclose rfl rfl
  | .array h => exact (Elements.balanced h).enclose rfl rfl
  | .emptyObject => exact hnil.enclose rfl rfl
  | .object h => exact (Members.balanced h).enclose rfl rfl

theorem Elements.balanced {d : Dialect} {ts : List Token} {vs : List (Value F)}
    (h : Elements stod d ts vs) : Balanced ts := by
  match h with
  | .one h => exact (Denotes.balanced h).1
  | .more h hs => exact (Denotes.balanced h).1.append ((Elements.balanced hs).cons rfl)

theorem Members.balanced {d : Dialect} {ts : List Token} {es : List (String × Value F)}
    (h : Members stod d ts es) : Balanced ts := by
  match h with
  | .one _ h => exact ((Denotes.balanced h).1.cons rfl).cons rfl
  | .more _ h hs =>
    exact (((Denotes.balanced h).1.append ((Members.balanced hs).cons rfl)).cons rfl).cons rfl

end

theorem Denotes.ne_nil {d : Dialect} {ts : List Token} {v : Value F} (h : Denotes stod d ts v) :
    ts ≠ [] := by
  obtain ⟨t, ts', rfl, -⟩ := h.head
  exact List.cons_ne_nil _ _

/-! The whole text -/

/-- Reading a backslash as the reader does gives the value of JSON. -/
def EscapesAgree (stod : String → Option F) (ts : List Token) : Prop :=
  ∀ v, Denotes stod readerDialect ts v → Denotes stod jsonDialect ts v

mutual

theorem Denotes.redial {d d' : Dialect} {ts : List Token} {v : Value F}
    (h : Denotes stod d ts v) (hnull : d.null → d'.null)
    (hbody : ∀ body out, .string body ∈ ts → d.body body out → d'.body body out) :
    Denotes stod d' ts v := by
  match h with
  | .null h => exact .null (hnull h)
  | .bool b => exact .bool b
  | .number hn hv => exact .number hn hv
  | .str h => exact .str (hbody _ _ (by simp) h)
  | .emptyArray => exact .emptyArray
  | .array h => exact .array (Elements.redial h hnull fun b o hb => hbody b o (by simp [hb]))
  | .emptyObject => exact .emptyObject
  | .object h => exact .object (Members.redial h hnull fun b o hb => hbody b o (by simp [hb]))

theorem Elements.redial {d d' : Dialect} {ts : List Token} {vs : List (Value F)}
    (h : Elements stod d ts vs) (hnull : d.null → d'.null)
    (hbody : ∀ body out, .string body ∈ ts → d.body body out → d'.body body out) :
    Elements stod d' ts vs := by
  match h with
  | .one h => exact .one (Denotes.redial h hnull hbody)
  | .more h hs =>
    exact .more (Denotes.redial h hnull fun b o hb => hbody b o (by simp [hb]))
      (Elements.redial hs hnull fun b o hb => hbody b o (by simp [hb]))

theorem Members.redial {d d' : Dialect} {ts : List Token} {es : List (String × Value F)}
    (h : Members stod d ts es) (hnull : d.null → d'.null)
    (hbody : ∀ body out, .string body ∈ ts → d.body body out → d'.body body out) :
    Members stod d' ts es := by
  match h with
  | .one hk h =>
    exact .one (hbody _ _ (by simp) hk)
      (Denotes.redial h hnull fun b o hb => hbody b o (by simp [hb]))
  | .more hk h hs =>
    exact .more (hbody _ _ (by simp) hk)
      (Denotes.redial h hnull fun b o hb => hbody b o (by simp [hb]))
      (Members.redial hs hnull fun b o hb => hbody b o (by simp [hb]))

end

theorem ReaderBody.unique {body out out' : List Char} (h : ReaderBody body out)
    (h' : ReaderBody body out') : out = out' :=
  congrArg Prod.fst ((scanString_body h []).symm.trans (scanString_body h' []))

/-- Strings without `\b`, `\f` and `\u` are read as JSON reads them. -/
theorem escapesAgree_of_common {ts : List Token}
    (h : ∀ body, .string body ∈ ts → ∃ out, ReaderBody body out ∧ JsonBody body out) :
    EscapesAgree stod ts := by
  refine fun v hv => hv.redial (fun hnull => hnull.elim) fun body out hmem hout => ?_
  obtain ⟨out', hreader, hjson⟩ := h body hmem
  rwa [hout.unique hreader]

theorem parse_tokens {ts : List Token} {text : String} {v : Value F}
    (h : parse stod text = .ok (v, true)) (hts : Lexed ts text.toList) (hend : ClosesAtEnd ts) :
    Denotes stod readerDialect ts v := by
  unfold parse at h
  cases hx : parseValue stod (text.toList.length + 1) ⟨text.toList, false⟩ with
  | error t =>
    rw [hx] at h
    cases h
  | ok r =>
    obtain ⟨w, q⟩ := r
    rw [hx] at h
    simp only [Except.ok.injEq, Prod.mk.injEq, Bool.not_eq_true'] at h
    obtain ⟨rfl, hq⟩ := h
    obtain ⟨ts₁, ts₂, rfl, hdenotes, -⟩ := takesValue_parseValue _ _ _ _ _ hts hx hq
    obtain rfl := hend ts₁ ts₂ rfl hdenotes.ne_nil hdenotes.balanced.1.total
    rwa [List.append_nil]

theorem stops_of_all {ws : List Char} (hws : ws.all isspace = true) : Stops ws := by
  have hstop := stops_append hws (by simp [Stops] : Stops [])
  rwa [List.append_nil] at hstop

/-- What the tokens of the whole text denote for the reader is what it answers. -/
theorem parse_of_denotes {ts : List Token} {text : String} {v : Value F}
    (hts : Lexed ts text.toList) (h : Denotes stod readerDialect ts v) :
    parse stod text = .ok (v, true) := by
  obtain ⟨ws, hws, hspaced⟩ := hts.spaced
  rw [parse, h.parse hspaced (stops_of_all hws) (Nat.lt_succ_self _)]
  rfl

/-- An accepted text is JSON for the answered value exactly when it consists of JSON tokens,
its last token closes its first value, and its escapes are read as JSON reads them. -/
theorem isJson_iff {text : String} {v : Value F} (h : parse stod text = .ok (v, true)) :
    IsJson stod text v ↔
      ∃ ts, Lexed ts text.toList ∧ ClosesAtEnd ts ∧ EscapesAgree stod ts := by
  constructor
  · rintro ⟨ts, hts, hdenotes⟩
    refine ⟨ts, hts, hdenotes.balanced.2, fun w hw => ?_⟩
    have hparse := (parse_of_denotes hts hw).symm.trans h
    cases hparse
    exact hdenotes
  · rintro ⟨ts, hts, hend, hagree⟩
    exact ⟨ts, hts, hagree v (parse_tokens h hts hend)⟩

/-- Three tokens, of which the last closes the first. -/
theorem isJson_iff_array :
    IsJson (fun _ => (none : Option ℕ)) "[true]" (.array [.bool true]) := by
  refine (isJson_iff rfl).mpr ⟨[.mark '[', .word (boolText true), .mark ']'], ?_, ?_,
    escapesAgree_of_common fun body hbody => by simp at hbody⟩
  · have hopen : '[' ∈ marks := by decide
    have hclose : ']' ∈ marks := by decide
    have hword : Token.Lexical (.word (boolText true)) := Or.inr ⟨true, rfl⟩
    have hspace : ([] : List Char).all jsonSpace = true := rfl
    exact .cons hspace hopen (fun cs hcs => by cases hcs) <|
      .cons hspace hword (fun cs hcs => by cases hcs) <|
      .cons hspace hclose (fun cs hcs => by cases hcs) (.nil rfl)
  · intro ts₁ ts₂ hts hne hnesting
    rcases ts₁ with _ | ⟨a, _ | ⟨b, _ | ⟨c, ts₁⟩⟩⟩ <;>
      simp only [List.cons_append, List.nil_append, List.cons.injEq] at hts
    · exact absurd rfl hne
    · obtain ⟨rfl, -⟩ := hts
      cases hnesting
    · obtain ⟨rfl, rfl, -⟩ := hts
      cases hnesting
    · obtain ⟨-, -, -, hnil⟩ := hts
      exact (List.append_eq_nil_iff.mp hnil.symm).2

/-- A lone quote is accepted as the empty string. -/
theorem parse_accepts_open_string : ¬ ∀ (text : String) (v : Value ℕ),
    parse (fun _ => none) text = .ok (v, true) → IsJson (fun _ => none) text v := by
  intro h
  obtain ⟨ts, hts, hdenotes⟩ := h "\"" (.str "") rfl
  rcases hts.skipWs false with ⟨rfl, hskip⟩ | ⟨t, ts', text, rfl, hskip, ht, -, -⟩
  · cases hskip
  · obtain ⟨c, cs, hcs, -, -, hstring⟩ := ht.head
    have htext : ['"'] = t.text ++ text := congrArg Parser.rest hskip
    rw [hcs] at htext
    obtain ⟨body, rfl⟩ := hstring (List.cons.inj htext).1.symm
    have hlen := congrArg List.length htext
    rw [← hcs] at hlen
    simp [Token.text, quoted] at hlen

end Dee.Json
