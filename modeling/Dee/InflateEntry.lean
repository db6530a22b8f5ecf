import Dee.PtLoader

/-! The loop that inflates an entry of an archive. zlib is a parameter: one call takes from
the unread input and gives some output and a return code. The loop goes on after
`Z_BUF_ERROR`, the code of a call that can make no progress. -/
namespace Dee

inductive ZCode
  | ok | streamEnd | bufError | other
  deriving DecidableEq, Repr

/-- What one call of `inflate` consumes, writes and returns. -/
structure ZCall where
  consumed : ℕ
  out : List UInt8
  ret : ZCode

/-- zlib on raw deflate streams; a stream has a state in `σ`. -/
structure Zlib (σ : Type*) where
  inflateInit : Option σ
  inflate : σ → List UInt8 → ℕ → σ × ZCall

namespace Zlib
variable {σ : Type*} (z : Zlib σ)

/-- The size of the output buffer of one call. -/
def chunk : ℕ := 65536

/-- The loop of `inflate_entry`, with the unread input and the output so far. -/
def inflateLoop : ℕ → σ → List UInt8 → List UInt8 → Option (Bool × List UInt8)
  | 0, _, _, _ => none
  | k + 1, s, input, out =>
    let r := z.inflate s input chunk
    match r.2.ret with
    | .other => some (false, out)
    | .streamEnd => some (true, out ++ r.2.out)
    | _ => inflateLoop k r.1 (input.drop r.2.consumed) (out ++ r.2.out)

/-- `avail_in` is an `uInt`, and is set once. -/
def available (src : List UInt8) : List UInt8 := src.take (src.length % 2 ^ 32)

/-- `inflate_entry` with fuel for `k` calls; `none` when it has not returned by then. -/
def inflateEntry (k : ℕ) (src out : List UInt8) : Option (Bool × List UInt8) :=
  match z.inflateInit with
  | none => some (false, out)
  | some s => z.inflateLoop k s (available src) []

/-- The states of a stream between two calls, with the unread input and the output so far. -/
inductive Reached (src : List UInt8) : σ → List UInt8 → List UInt8 → Prop
  | start {s : σ} (h : z.inflateInit = some s) : Reached src s src []
  | call {s : σ} {input out : List UInt8} (h : Reached src s input out)
      (hret : (z.inflate s input chunk).2.ret = .ok ∨ (z.inflate s input chunk).2.ret = .bufError) :
      Reached src (z.inflate s input chunk).1 (input.drop (z.inflate s input chunk).2.consumed)
        (out ++ (z.inflate s input chunk).2.out)

/-- The documented behaviour of zlib on a stream that is `content` as deflate data. -/
structure Documented (src : List UInt8) (content : Inflated) : Prop where
  consumed : ∀ s input out, z.Reached src s input out →
    (z.inflate s input chunk).2.consumed ≤ input.length
  progress : ∀ s input out, z.Reached src s input out → (z.inflate s input chunk).2.ret = .ok →
    0 < (z.inflate s input chunk).2.consumed ∨ (z.inflate s input chunk).2.out ≠ []
  finite : ∃ n, ∀ s input out, z.Reached src s input out → out.length ≤ n
  streamEnd : ∀ s input out, z.Reached src s input out →
    (z.inflate s input chunk).2.ret = .streamEnd →
      content = .streamEnd (out ++ (z.inflate s input chunk).2.out)
  other : ∀ s input out, z.Reached src s input out →
    (z.inflate s input chunk).2.ret = .other → content = .error
  bufError : ∀ s input out, z.Reached src s input out →
    (z.inflate s input chunk).2.ret = .bufError → content = .starved

section Returns
variable {z} {src : List UInt8} {content : Inflated} {s : σ} {input out : List UInt8}

/-- What an ended stream leaves in the caller's vector, if it ended well. -/
def Returns (content : Inflated) (r : Bool × List UInt8) : Prop :=
  match content with
  | .streamEnd out => r = (true, out)
  | .error => r.1 = false
  | .starved => False

/-- Every call makes progress, so the loop ends. -/
theorem inflateLoop_returns (h : z.Documented src content) (hne : content ≠ .starved) {n k : ℕ}
    (hn : ∀ s input out, z.Reached src s input out → out.length ≤ n)
    (hs : z.Reached src s input out) (hk : input.length + (n - out.length) < k) :
    ∃ r, z.inflateLoop k s input out = some r ∧ Returns content r := by
  induction k generalizing s input out with
  | zero => omega
  | succ k ih =>
    rw [inflateLoop]
    cases hret : (z.inflate s input chunk).2.ret with
    | other =>
      rw [h.other s input out hs hret]
      exact ⟨_, rfl, rfl⟩
    | streamEnd =>
      rw [h.streamEnd s input out hs hret]
      exact ⟨_, rfl, rfl⟩
    | bufError => exact absurd (h.bufError s input out hs hret) hne
    | ok =>
      have hnext := hs.call (Or.inl hret)
      have hconsumed := h.consumed s input out hs
      have hbound := hn _ _ _ hnext
      refine ih hnext ?_
      rw [List.length_append] at hbound
      rw [List.length_append, List.length_drop]
      rcases h.progress s input out hs hret with hpos | hout
      · omega
      · have hlen := List.length_pos_of_ne_nil hout
        omega

/-- On a stream that ends too early no call ends the loop. -/
theorem inflateLoop_starved (h : z.Documented src .starved) (hs : z.Reached src s input out)
    (k : ℕ) : z.inflateLoop k s input out = none := by
  induction k generalizing s input out with
  | zero => rfl
  | succ k ih =>
    rw [inflateLoop]
    cases hret : (z.inflate s input chunk).2.ret with
    | other => cases h.other s input out hs hret
    | streamEnd => cases h.streamEnd s input out hs hret
    | bufError => exact ih (hs.call (Or.inr hret))
    | ok => exact ih (hs.call (Or.inl hret))

/-- With enough fuel the call returns what the content says. -/
theorem inflateEntry_returns (h : z.Documented (available src) content) (hne : content ≠ .starved)
    (hinit : z.inflateInit ≠ none) (dst : List UInt8) :
    ∃ n, ∀ k, n < k → ∃ r, z.inflateEntry k src dst = some r ∧ Returns content r := by
  obtain ⟨s, hs⟩ := Option.ne_none_iff_exists'.mp hinit
  have hstart : z.Reached (available src) s (available src) [] := .start hs
  obtain ⟨n, hn⟩ := h.finite
  refine ⟨(available src).length + (n - 0), fun k hk => ?_⟩
  simp only [inflateEntry, hs]
  exact inflateLoop_returns h hne hn hstart hk

/-- Inflating returns exactly when zlib cannot be set up or the stream does not end too early. -/
theorem inflateEntry_returns_iff {dst : List UInt8} (h : z.Documented (available src) content) :
    (∃ k r, z.inflateEntry k src dst = some r) ↔ z.inflateInit = none ∨ content ≠ .starved := by
  constructor
  · rintro ⟨k, r, hr⟩
    by_contra hno
    rw [not_or, not_not] at hno
    obtain ⟨hinit, rfl⟩ := hno
    obtain ⟨s, hs⟩ := Option.ne_none_iff_exists'.mp hinit
    have hstart : z.Reached (available src) s (available src) [] := .start hs
    simp only [inflateEntry, hs, inflateLoop_starved h hstart] at hr
    cases hr
  · rintro (hinit | hne)
    · exact ⟨0, (false, dst), by rw [inflateEntry, hinit]⟩
    · by_cases hinit : z.inflateInit = none
      · exact ⟨0, (false, dst), by rw [inflateEntry, hinit]⟩
      · obtain ⟨n, hn⟩ := inflateEntry_returns h hne hinit dst
        obtain ⟨r, hr, -⟩ := hn (n + 1) (Nat.lt_succ_self n)
        exact ⟨n + 1, r, hr⟩

end Returns

/-! zlib on streams of one stored block -/

/-- A final stored block, with its length and the complement of it. -/
def storedBlock : List UInt8 → Inflated
  | [] => .starved
  | 1 :: a :: b :: c :: d :: data =>
    if c.toNat + 256 * d.toNat + (a.toNat + 256 * b.toNat) ≠ 65535 then .error
    else if data.length < a.toNat + 256 * b.toNat then .starved
    else .streamEnd (data.take (a.toNat + 256 * b.toNat))
  | 1 :: _ => .starved
  | _ => .error

/-- Its state is the input that it has seen. -/
def storedZlib : Zlib (List UInt8) where
  inflateInit := some []
  inflate := fun seen input _ =>
    if input = [] then (seen, ⟨0, [], .bufError⟩)
    else
      match storedBlock (seen ++ input) with
      | .streamEnd out => (seen ++ input, ⟨input.length, out, .streamEnd⟩)
      | .error => (seen ++ input, ⟨input.length, [], .other⟩)
      | .starved => (seen ++ input, ⟨input.length, [], .ok⟩)

/-- A call reads all there is. -/
theorem storedZlib_consumed (seen input : List UInt8) (room : ℕ) :
    (storedZlib.inflate seen input room).2.consumed = input.length := by
  simp only [storedZlib]
  split_ifs with hinput
  · rw [hinput]
    rfl
  · split <;> rfl

/-- What the return code of a call tells. -/
theorem storedZlib_ret (seen input : List UInt8) (room : ℕ) :
    match (storedZlib.inflate seen input room).2.ret with
    | .ok => input ≠ [] ∧ (storedZlib.inflate seen input room).1 = seen ++ input ∧
      (storedZlib.inflate seen input room).2.out = [] ∧ storedBlock (seen ++ input) = .starved
    | .streamEnd =>
      storedBlock (seen ++ input) = .streamEnd (storedZlib.inflate seen input room).2.out
    | .bufError => input = [] ∧ (storedZlib.inflate seen input room).1 = seen ∧
      (storedZlib.inflate seen input room).2.out = []
    | .other => storedBlock (seen ++ input) = .error := by
  simp only [storedZlib]
  split_ifs with hinput
  · exact ⟨hinput, rfl, rfl⟩
  · cases hblock : storedBlock (seen ++ input) with
    | streamEnd out => rfl
    | error => rfl
    | starved => exact ⟨hinput, rfl, rfl, rfl⟩

theorem storedZlib_reached {src s input out : List UInt8}
    (h : storedZlib.Reached src s input out) :
    s ++ input = src ∧ out = [] ∧ (input = [] → storedBlock src = .starved) := by
  induction h with
  | start h =>
    cases h
    refine ⟨rfl, rfl, ?_⟩
    rintro rfl
    rfl
  | @call s input out h hret ih =>
    obtain ⟨rfl, rfl, hempty⟩ := ih
    have hspec := storedZlib_ret s input chunk
    rw [storedZlib_consumed, List.drop_length]
    rcases hret with hret | hret <;> rw [hret] at hspec
    · obtain ⟨-, hstate, hout, hblock⟩ := hspec
      rw [hstate, hout, List.append_nil, List.append_nil]
      exact ⟨rfl, rfl, fun _ => hblock⟩
    · obtain ⟨rfl, hstate, hout⟩ := hspec
      rw [hstate, hout]
      exact ⟨rfl, rfl, hempty⟩

theorem storedZlib_documented (src : List UInt8) :
    storedZlib.Documented src (storedBlock src) where
  consumed s input out _ := (storedZlib_consumed s input chunk).le
  progress s input out _ hret := by
    have hspec := storedZlib_ret s input chunk
    rw [hret] at hspec
    rw [storedZlib_consumed]
    exact Or.inl (List.length_pos_of_ne_nil hspec.1)
  finite := ⟨0, fun s input out h => by simp [(storedZlib_reached h).2.1]⟩
  streamEnd s input out h hret := by
    obtain ⟨rfl, rfl, -⟩ := storedZlib_reached h
    have hspec := storedZlib_ret s input chunk
    rw [hret] at hspec
    exact hspec
  other s input out h hret := by
    obtain ⟨rfl, -, -⟩ := storedZlib_reached h
    have hspec := storedZlib_ret s input chunk
    rw [hret] at hspec
    exact hspec
  bufError s input out h hret := by
    obtain ⟨-, -, hempty⟩ := storedZlib_reached h
    have hspec := storedZlib_ret s input chunk
    rw [hret] at hspec
    exact hempty hspec.1

theorem inflateEntry_returns_iff_stored :
    (∃ k r, storedZlib.inflateEntry k [1, 1, 0, 254, 255, 7] [] = some r) ↔
      storedZlib.inflateInit = none ∨
        storedBlock (available [1, 1, 0, 254, 255, 7]) ≠ .starved :=
  inflateEntry_returns_iff (storedZlib_documented _)

/-- A stored block of five bytes that the input does not have. -/
theorem inflateEntry_hangs :
    storedZlib.Documented (available [1, 5, 0, 250, 255]) .starved ∧
      ¬ ∃ k r, storedZlib.inflateEntry k [1, 5, 0, 250, 255] [] = some r := by
  have hdocumented : storedZlib.Documented (available [1, 5, 0, 250, 255]) .starved :=
    storedZlib_documented _
  refine ⟨hdocumented, ?_⟩
  rintro ⟨k, r, hr⟩
  have hstart : storedZlib.Reached (available [1, 5, 0, 250, 255]) []
      (available [1, 5, 0, 250, 255]) [] := .start rfl
  have hloop := inflateLoop_starved hdocumented hstart k
  have hentry : storedZlib.inflateEntry k [1, 5, 0, 250, 255] [] = none := hloop
  rw [hentry] at hr
  cases hr

/-! The entry of an archive -/

/-- What `parse_zip` makes of a call of `inflate_entry`. -/
def storeInflated (l : PtLoader) (name : List UInt8) :
    Option (Bool × List UInt8) → Option (Bool × PtLoader)
  | none => none
  | some (ok, out) => PtLoader.store l name (some (if ok then .streamEnd out else .error))

/-- The loader keeps an entry by its content. -/
theorem storeInflated_inflateEntry {σ : Type*} {z : Zlib σ} {src : List UInt8}
    {content : Inflated} (h : z.Documented (available src) content) (hinit : z.inflateInit ≠ none)
    (l : PtLoader) (name : List UInt8) :
    ∃ n, ∀ k, n < k →
      storeInflated l name (z.inflateEntry k src []) = l.store name (some content) := by
  obtain ⟨s, hs⟩ := Option.ne_none_iff_exists'.mp hinit
  have hstart : z.Reached (available src) s (available src) [] := .start hs
  cases content with
  | starved =>
    refine ⟨0, fun k _ => ?_⟩
    simp only [inflateEntry, hs, inflateLoop_starved h hstart]
    rfl
  | error =>
    obtain ⟨n, hn⟩ := inflateEntry_returns h (by simp) hinit []
    refine ⟨n, fun k hk => ?_⟩
    obtain ⟨⟨ok, out⟩, hr, hok⟩ := hn k hk
    obtain rfl : ok = false := hok
    rw [hr]
    rfl
  | streamEnd content =>
    obtain ⟨n, hn⟩ := inflateEntry_returns h (by simp) hinit []
    refine ⟨n, fun k hk => ?_⟩
    obtain ⟨r, hr, rfl⟩ := hn k hk
    rw [hr]
    rfl

end Zlib
end Dee
