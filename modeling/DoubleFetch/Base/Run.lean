/-
  Deterministic machines: runs, invariants, and lockstep simulation.

  A step goes on, returns a result, or fails (`Res`).
-/
import Mathlib.Tactic.Common

namespace DoubleFetch

/-- The outcome of a step, or of a run. -/
inductive Res (C R : Type*) where
  | next (c : C)
  | ret (r : R)
  | oops

def Res.map {C D R : Type*} (g : C → D) : Res C R → Res D R
  | next c => next (g c)
  | ret r => ret r
  | oops => oops

theorem Res.map_id {C R : Type*} (r : Res C R) : r.map id = r := by cases r <;> rfl

/-- `n` steps, or fewer if the machine stops. -/
def run {C R : Type*} (step : C → Res C R) : ℕ → C → Res C R
  | 0, c => .next c
  | n + 1, c =>
    match step c with
    | .next c' => run step n c'
    | r => r

/-- The states in which the first `n` steps are made. -/
def states {C R : Type*} (step : C → Res C R) : ℕ → C → List C
  | 0, _ => []
  | n + 1, c =>
    c :: match step c with
      | .next c' => states step n c'
      | _ => []

section
variable {C R : Type*} {step : C → Res C R}

/-- The last step of a run. -/
theorem run_snoc {n : ℕ} {c c' : C} (h : run step n c = .next c') :
    run step (n + 1) c = step c' := by
  induction n generalizing c with
  | zero =>
    obtain rfl : c = c' := by simpa [run] using h
    rw [run]; cases step c <;> rfl
  | succ n ih =>
    rw [run]
    rw [run] at h
    cases hs : step c with
    | next c₁ => rw [hs] at h; exact ih h
    | ret r => rw [hs] at h; cases h
    | oops => rw [hs] at h; cases h

theorem states_snoc {n : ℕ} {c c' : C} (h : run step n c = .next c') :
    states step (n + 1) c = states step n c ++ [c'] := by
  induction n generalizing c with
  | zero =>
    obtain rfl : c = c' := by simpa [run] using h
    simp only [states, List.nil_append]
    cases step c <;> rfl
  | succ n ih =>
    rw [run] at h
    cases hs : step c with
    | next c₁ =>
      rw [hs] at h
      rw [states, hs, states, hs]
      exact congrArg (c :: ·) (ih h)
    | ret r => rw [hs] at h; cases h
    | oops => rw [hs] at h; cases h

/-- A run that has stopped stays so. -/
theorem run_stopped {n : ℕ} {c : C} (h : (∃ r, run step n c = .ret r) ∨ run step n c = .oops) :
    run step (n + 1) c = run step n c := by
  induction n generalizing c with
  | zero => simp [run] at h
  | succ n ih =>
    rw [run] at h ⊢
    rw [run]
    cases hs : step c with
    | next c₁ => rw [hs] at h; exact ih h
    | ret r => rfl
    | oops => rfl

/-- A run that has not stopped has not stopped before. -/
theorem run_le {m n : ℕ} (hmn : m ≤ n) {c c' : C} (h : run step n c = .next c') :
    ∃ c₁, run step m c = .next c₁ := by
  induction m generalizing n c with
  | zero => exact ⟨c, rfl⟩
  | succ m ih =>
    obtain ⟨n, rfl⟩ := Nat.exists_eq_add_of_le' (Nat.lt_of_lt_of_le (Nat.succ_pos m) hmn)
    rw [run] at h ⊢
    cases hs : step c with
    | next c₁ => rw [hs] at h; exact ih (by omega) h
    | ret r => rw [hs] at h; cases h
    | oops => rw [hs] at h; cases h

/-- **Invariants.**  What holds at the start and is kept by the steps holds at the end
    of every run. -/
theorem run_invariant {I : ℕ → C → Prop} {c₀ : C} (h₀ : I 0 c₀)
    (hstep : ∀ n c c', run step n c₀ = .next c → I n c → step c = .next c' → I (n + 1) c') :
    ∀ {n c}, run step n c₀ = .next c → I n c
  | 0, c, h => by
    obtain rfl : c₀ = c := by simpa [run] using h
    exact h₀
  | n + 1, c, h => by
    obtain ⟨c₁, h₁⟩ := run_le (Nat.le_succ n) h
    exact hstep n c₁ c h₁ (run_invariant h₀ hstep h₁) ((run_snoc h₁).symm.trans h)

/-- What is kept by exactly the steps from states with `Q` holds at the end of a run
    if and only if `Q` holds all along. -/
theorem run_forall {P Q : C → Prop} {c₀ : C} (h₀ : P c₀) (hstep : ∀ n c c',
    run step n c₀ = .next c → step c = .next c' → (P c' ↔ P c ∧ Q c)) :
    ∀ {n c}, run step n c₀ = .next c → (P c ↔ ∀ m < n, ∀ d, run step m c₀ = .next d → Q d)
  | 0, c, h => by
    obtain rfl : c₀ = c := by simpa [run] using h
    simp [h₀]
  | n + 1, c, h => by
    obtain ⟨c₁, h₁⟩ := run_le (Nat.le_succ n) h
    rw [hstep n c₁ c h₁ (run_snoc h₁ ▸ h), run_forall h₀ hstep h₁]
    constructor
    · rintro ⟨hlt, hn⟩ m hm d hd
      rcases Nat.lt_succ_iff_lt_or_eq.1 hm with hm | rfl
      · exact hlt m hm d hd
      · rw [h₁] at hd; cases hd; exact hn
    · exact fun h => ⟨fun m hm => h m (Nat.lt_succ_of_lt hm), h n (Nat.lt_succ_self n) c₁ h₁⟩

/-- Only the steps made matter. -/
theorem run_congr {step' : C → Res C R} {c₀ : C} : ∀ n, (∀ m < n, ∀ c,
    run step m c₀ = .next c → step c = step' c) → run step n c₀ = run step' n c₀
  | 0, _ => rfl
  | n + 1, h => by
    have ih := run_congr n fun m hm => h m (Nat.lt_succ_of_lt hm)
    cases hn : run step n c₀ with
    | next c => rw [run_snoc hn, run_snoc (ih ▸ hn)]; exact h n (Nat.lt_succ_self n) c hn
    | ret r =>
      have hn' := ih ▸ hn
      rw [run_stopped (Or.inl ⟨r, hn⟩), run_stopped (Or.inl ⟨r, hn'⟩), hn, hn']
    | oops =>
      have hn' := ih ▸ hn
      rw [run_stopped (Or.inr hn), run_stopped (Or.inr hn'), hn, hn']

/-- What no step decreases no run decreases. -/
theorem run_mono {μ : C → ℕ} (h : ∀ c c', step c = .next c' → μ c ≤ μ c') {c₀ c₁ c₂ : C} {m n : ℕ}
    (hmn : m ≤ n) (h₁ : run step m c₀ = .next c₁) (h₂ : run step n c₀ = .next c₂) :
    μ c₁ ≤ μ c₂ := by
  induction hmn generalizing c₂ with
  | refl => rw [h₁] at h₂; cases h₂; exact Nat.le_refl _
  | @step n hmn ih =>
    obtain ⟨c, hc⟩ := run_le (Nat.le_succ n) h₂
    rw [run_snoc hc] at h₂
    exact Nat.le_trans (ih hc) (h c c₂ h₂)

end

/-- Two outcomes are related: both go on in related states, or return the same. -/
def Res.Rel {C D R : Type*} (S : C → D → Prop) : Res C R → Res D R → Prop
  | .next c, .next d => S c d
  | .ret r, .ret r' => r = r'
  | .oops, .oops => True
  | _, _ => False

section
variable {C D E R : Type*} {S : C → D → Prop} {T : D → E → Prop}

theorem Res.Rel.next_left {c : C} {r : Res D R} (h : (Res.next c).Rel S r) :
    ∃ d, r = .next d ∧ S c d := by
  cases r with
  | next d => exact ⟨d, rfl, h⟩
  | ret r => exact h.elim
  | oops => exact h.elim

theorem Res.Rel.next_right {d : D} {r : Res C R} (h : r.Rel S (.next d)) :
    ∃ c, r = .next c ∧ S c d := by
  cases r with
  | next c => exact ⟨c, rfl, h⟩
  | ret r => exact h.elim
  | oops => exact h.elim

/-- Two simulations compose. -/
theorem Res.Rel.trans {r : Res C R} {s : Res D R} {t : Res E R} (h₁ : r.Rel S s)
    (h₂ : s.Rel T t) : r.Rel (fun c e => ∃ d, S c d ∧ T d e) t := by
  cases s with
  | next d =>
    obtain ⟨c, rfl, hc⟩ := h₁.next_right
    obtain ⟨e, rfl, he⟩ := h₂.next_left
    exact ⟨d, hc, he⟩
  | ret a =>
    cases r with
    | ret b =>
      cases t with
      | ret c => exact Eq.trans h₁ h₂
      | next e => exact h₂.elim
      | oops => exact h₂.elim
    | next c => exact h₁.elim
    | oops => exact h₁.elim
  | oops =>
    cases r with
    | oops => cases t <;> first | exact h₂.elim | trivial
    | next c => exact h₁.elim
    | ret b => exact h₁.elim

theorem Res.Rel.mono {S' : C → D → Prop} {r : Res C R} {s : Res D R} (h : r.Rel S s)
    (hS : ∀ c d, S c d → S' c d) : r.Rel S' s := by
  cases r <;> cases s <;> first | exact hS _ _ h | exact h

end

/-- **Lockstep.**  If related states that two runs reach together step to related
    outcomes, the runs are related. -/
theorem run_rel {C D R : Type*} {stepC : C → Res C R} {stepD : D → Res D R} {S : C → D → Prop}
    {c₀ : C} {d₀ : D} (h₀ : S c₀ d₀) : ∀ n, (∀ m < n, ∀ c d, run stepC m c₀ = .next c →
      run stepD m d₀ = .next d → S c d → (stepC c).Rel S (stepD d)) →
    (run stepC n c₀).Rel S (run stepD n d₀)
  | 0, _ => h₀
  | n + 1, h => by
    have ih := run_rel h₀ n fun m hm => h m (Nat.lt_succ_of_lt hm)
    cases hc : run stepC n c₀ with
    | next c =>
      rw [hc] at ih
      obtain ⟨d, hd, hcd⟩ := ih.next_left
      rw [run_snoc hc, run_snoc hd]
      exact h n (Nat.lt_succ_self n) c d hc hd hcd
    | ret r =>
      cases hd : run stepD n d₀ with
      | ret r' =>
        rw [hc, hd] at ih
        rw [run_stopped (Or.inl ⟨r, hc⟩), run_stopped (Or.inl ⟨r', hd⟩), hc, hd]
        exact ih
      | next d => rw [hc, hd] at ih; exact ih.elim
      | oops => rw [hc, hd] at ih; exact ih.elim
    | oops =>
      cases hd : run stepD n d₀ with
      | oops => rw [run_stopped (Or.inr hc), run_stopped (Or.inr hd), hc, hd]; trivial
      | next d => rw [hc, hd] at ih; exact ih.elim
      | ret r => rw [hc, hd] at ih; exact ih.elim

end DoubleFetch
