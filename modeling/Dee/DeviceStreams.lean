import Mathlib

/-! A host that issues work to the streams of a device. Each stream runs its work in order,
the streams run at their own pace, and the host waits only where it says so. When the host
never issues to one stream while another one may still be busy, all work runs in the order
of issue. -/
namespace Dee.DeviceStreams
variable {S W σ : Type*}

/-- What the host does next: issue work, or wait until a stream is idle. -/
inductive Event (S W : Type*)
  | launch (s : S) (w : W)
  | sync (s : S)

/-- The work of the events, in the order of issue. -/
def issued : List (Event S W) → List W
  | [] => []
  | .launch _ w :: es => w :: issued es
  | .sync _ :: es => issued es

@[simp] theorem issued_append (es es' : List (Event S W)) :
    issued (es ++ es') = issued es ++ issued es' := by
  induction es with
  | nil => rfl
  | cons e es ih => cases e <;> simp [issued, ih]

/-- The works run one after the other; `exec` says what each may do to the memory. -/
inductive Runs (exec : W → σ → σ → Prop) : List W → σ → σ → Prop
  | nil (x : σ) : Runs exec [] x x
  | snoc {ws : List W} {w : W} {x y z : σ} : Runs exec ws x y → exec w y z →
      Runs exec (ws ++ [w]) x z

structure Machine (S W σ : Type*) where
  todo : List (Event S W)
  queue : S → List W
  memory : σ

section Machine
variable [DecidableEq S]

def start (es : List (Event S W)) (x : σ) : Machine S W σ := ⟨es, fun _ => [], x⟩

/-- The host and the streams take turns in any order. -/
inductive Step (exec : W → σ → σ → Prop) : Machine S W σ → Machine S W σ → Prop
  | launch {s : S} {w : W} {es : List (Event S W)} {q : S → List W} {x : σ} :
      Step exec ⟨.launch s w :: es, q, x⟩ ⟨es, Function.update q s (q s ++ [w]), x⟩
  | sync {s : S} {es : List (Event S W)} {q : S → List W} {x : σ} : q s = [] →
      Step exec ⟨.sync s :: es, q, x⟩ ⟨es, q, x⟩
  | work {s : S} {w : W} {ws : List W} {es : List (Event S W)} {q : S → List W} {x y : σ} :
      q s = w :: ws → exec w x y → Step exec ⟨es, q, x⟩ ⟨es, Function.update q s ws, y⟩

def Reachable (exec : W → σ → σ → Prop) : Machine S W σ → Machine S W σ → Prop :=
  Relation.ReflTransGen (Step exec)

/-- Nothing is left to do. -/
structure Finished (m : Machine S W σ) : Prop where
  todo : m.todo = []
  idle : ∀ s, m.queue s = []

/-- The stream that may be busy after the events, if there is at most one all along. -/
def fence : Option S → List (Event S W) → Option (Option S)
  | busy, [] => some busy
  | busy, .launch s _ :: es => if busy = none ∨ busy = some s then fence (some s) es else none
  | busy, .sync s :: es => fence (if busy = some s then none else busy) es

theorem fence_append (busy : Option S) (es es' : List (Event S W)) :
    fence busy (es ++ es') = (fence busy es).bind fun busy => fence busy es' := by
  induction es generalizing busy with
  | nil => rfl
  | cons e es ih =>
    cases e with
    | launch s w =>
      rw [List.cons_append, fence, fence]
      split_ifs
      · exact ih _
      · rfl
    | sync s => exact ih _

/-- The events go on from where others have left off. -/
theorem fence_trans {busy busy' busy'' : Option S} {es es' : List (Event S W)}
    (h : fence busy es = some busy') (h' : fence busy' es' = some busy'') :
    fence busy (es ++ es') = some busy'' := by
  rw [fence_append, h]
  exact h'

/-- The work issued to the busy stream that has not run. -/
def pending (q : S → List W) : Option S → List W
  | none => []
  | some s => q s

/-- The invariant: what has run is a prefix of what was issued, in that order, and the rest
is in the queue of the only stream that may be busy. -/
structure InOrder (exec : W → σ → σ → Prop) (es : List (Event S W)) (x : σ)
    (m : Machine S W σ) (busy : Option S) (done : List W) : Prop where
  fenced : ∃ last, fence busy m.todo = some last
  idle : ∀ s, busy ≠ some s → m.queue s = []
  runs : Runs exec done x m.memory
  issued : issued es = done ++ pending m.queue busy ++ issued m.todo

theorem InOrder.start {exec : W → σ → σ → Prop} {es : List (Event S W)} {last : Option S}
    (h : fence none es = some last) (x : σ) : InOrder exec es x (start es x) none [] :=
  ⟨⟨last, h⟩, fun _ _ => rfl, .nil x, rfl⟩

/-- The step lemma. -/
theorem InOrder.step {exec : W → σ → σ → Prop} {es : List (Event S W)} {x : σ}
    {m m' : Machine S W σ} {busy : Option S} {done : List W} (h : InOrder exec es x m busy done)
    (hstep : Step exec m m') : ∃ busy done, InOrder exec es x m' busy done := by
  obtain ⟨⟨last, hfence⟩, hidle, hruns, hissued⟩ := h
  cases hstep with
  | @launch s w es' q y =>
    rw [fence] at hfence
    split_ifs at hfence with hbusy
    refine ⟨some s, done, ⟨last, hfence⟩, fun s' hs' => ?_, hruns, ?_⟩
    · have hne : s' ≠ s := fun heq => hs' (heq ▸ rfl)
      refine (Function.update_of_ne hne _ _).trans (hidle s' fun hb => ?_)
      rcases hbusy with hbusy | hbusy <;> rw [hbusy] at hb
      · cases hb
      · exact hne (Option.some.inj hb).symm
    · have hqueue : pending q busy = q s := by
        rcases hbusy with rfl | rfl
        · exact (hidle s (by simp)).symm
        · rfl
      rw [hissued, hqueue]
      simp [DeviceStreams.issued, pending]
  | @sync s es' q y hs =>
    refine ⟨if busy = some s then none else busy, done, ⟨last, hfence⟩, fun s' hs' => ?_, hruns, ?_⟩
    · by_cases hb : busy = some s'
      · subst hb
        by_cases heq : s' = s
        · rw [heq]
          exact hs
        · rw [if_neg fun h => heq (Option.some.inj h)] at hs'
          exact absurd rfl hs'
      · exact hidle s' hb
    · rw [hissued]
      split_ifs with hb
      · subst hb
        simp [DeviceStreams.issued, pending, hs]
      · rfl
  | @work s w ws es' q y z hs hexec =>
    have hb : busy = some s := by
      by_contra hne
      cases (hidle s hne).symm.trans hs
    subst hb
    refine ⟨some s, done ++ [w], ⟨last, hfence⟩, fun s' hs' => ?_, hruns.snoc hexec, ?_⟩
    · have hne : s' ≠ s := fun heq => hs' (heq ▸ rfl)
      exact (Function.update_of_ne hne _ _).trans (hidle s' hs')
    · rw [hissued]
      simp [pending, hs]

/-- The run lemma: in every state that is reached the work that has run is a prefix of what
was issued, in that order. -/
theorem runs_of_reachable {exec : W → σ → σ → Prop} {es : List (Event S W)} {last : Option S}
    (hfence : fence none es = some last) {x : σ} {m : Machine S W σ}
    (h : Reachable exec (start es x) m) :
    ∃ done rest, issued es = done ++ rest ∧ Runs exec done x m.memory ∧
      (Finished m → rest = []) := by
  have hinv : ∃ busy done, InOrder exec es x m busy done := by
    induction h with
    | refl => exact ⟨none, [], .start hfence x⟩
    | tail _ hstep ih =>
      obtain ⟨busy, done, hinv⟩ := ih
      exact hinv.step hstep
  obtain ⟨busy, done, -, -, hruns, hissued⟩ := hinv
  refine ⟨done, _, hissued.trans (List.append_assoc _ _ _), hruns, fun hfin => ?_⟩
  rw [hfin.todo]
  cases busy with
  | none => rfl
  | some s => simp [pending, hfin.idle s, issued]

/-- The host is never blocked for good: until everything is done something can happen. -/
theorem exists_step {exec : W → σ → σ → Prop} (hexec : ∀ w x, ∃ y, exec w x y)
    {m : Machine S W σ} (h : ¬ Finished m) : ∃ m', Step exec m m' := by
  have hwork : ∀ s, m.queue s ≠ [] → ∃ m', Step exec m m' := by
    intro s hs
    obtain ⟨w, ws, hqueue⟩ := List.exists_cons_of_ne_nil hs
    obtain ⟨y, hy⟩ := hexec w m.memory
    exact ⟨_, .work hqueue hy⟩
  by_cases hidle : ∀ s, m.queue s = []
  · obtain ⟨todo, q, x⟩ := m
    cases todo with
    | nil => exact absurd ⟨rfl, hidle⟩ h
    | cons e es =>
      cases e with
      | launch s w => exact ⟨_, .launch⟩
      | sync s => exact ⟨_, .sync (hidle s)⟩
  · push Not at hidle
    obtain ⟨s, hs⟩ := hidle
    exact hwork s hs

end Machine

end Dee.DeviceStreams
