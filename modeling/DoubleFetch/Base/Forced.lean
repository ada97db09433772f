/-
  Equations between cells, some of which are known.

  The cells outside `W` hold the values `v`, those in `W` are unknown; the equations
  `S` link cells.  `forced_iff`: the equations force the values `e` on the cells `T`
  if and only if they contradict the known cells, or link each cell of `T` to a known
  cell with the value it has to have.
-/
import Mathlib.Data.Set.Basic
import Mathlib.Logic.Relation

namespace DoubleFetch.Forced

open Relation

variable {C β : Type*} (S : C → C → Prop) (W : Set C) (v : C → β)

/-- The valuations that agree with the known cells and satisfy the equations. -/
structure Solves (u : C → β) : Prop where
  known : ∀ x ∉ W, u x = v x
  eqns : ∀ x y, S x y → u x = u y

/-- The equations contradict the known cells. -/
def Contradictory : Prop := ∃ x y, x ∉ W ∧ y ∉ W ∧ EqvGen S x y ∧ v x ≠ v y

/-- Each cell of `T` is linked to a known cell with its value in `e`. -/
def Covered (T : Set C) (e : C → β) : Prop :=
  ∀ x ∈ T, ∃ y, y ∉ W ∧ EqvGen S x y ∧ v y = e x

variable {S W v}

theorem Solves.linked {u : C → β} (h : Solves S W v u) {x y : C} (hxy : EqvGen S x y) :
    u x = u y := by
  induction hxy with
  | rel x y hr => exact h.eqns x y hr
  | refl x => rfl
  | symm x y _ ih => exact ih.symm
  | trans x y z _ _ ih₁ ih₂ => exact ih₁.trans ih₂

theorem Covered.forced {T : Set C} {e u : C → β} (hc : Covered S W v T e) (h : Solves S W v u) :
    ∀ x ∈ T, u x = e x := by
  intro x hx
  obtain ⟨y, hy, hxy, he⟩ := hc x hx
  rw [h.linked hxy, h.known y hy, he]

/-- **Forced values.** -/
theorem forced_iff [Nontrivial β] {T : Set C} {e : C → β} :
    (∀ u, Solves S W v u → ∀ x ∈ T, u x = e x) ↔ Contradictory S W v ∨ Covered S W v T e := by
  classical
  constructor
  · intro h
    by_contra hno
    obtain ⟨hcon, hcov⟩ := not_or.1 hno
    have hcon : ∀ x y, x ∉ W → y ∉ W → EqvGen S x y → v x = v y := by
      intro x y hx hy hxy
      by_contra hne
      exact hcon ⟨x, y, hx, hy, hxy, hne⟩
    simp only [Covered, not_forall, not_exists] at hcov
    obtain ⟨x, hx, hcov⟩ := hcov
    obtain ⟨b, hb⟩ := exists_ne (e x)
    -- each class takes the value of a known cell, and `b` where there is none
    let u : C → β := fun z => if hz : ∃ y, y ∉ W ∧ EqvGen S z y then v hz.choose else b
    have hu : ∀ {z y}, y ∉ W → EqvGen S z y → u z = v y := by
      intro z y hy hzy
      have hz : ∃ y, y ∉ W ∧ EqvGen S z y := ⟨y, hy, hzy⟩
      simp only [u, dif_pos hz]
      exact hcon _ _ hz.choose_spec.1 hy ((hz.choose_spec.2.symm).trans _ _ _ hzy)
    have hsol : Solves S W v u := by
      refine ⟨fun z hz => hu hz (EqvGen.refl z), fun y z hyz => ?_⟩
      by_cases hy : ∃ k, k ∉ W ∧ EqvGen S y k
      · obtain ⟨k, hk, hyk⟩ := hy
        rw [hu hk hyk, hu hk ((EqvGen.rel _ _ hyz).symm.trans _ _ _ hyk)]
      · have hz : ¬ ∃ k, k ∉ W ∧ EqvGen S z k := by
          rintro ⟨k, hk, hzk⟩
          exact hy ⟨k, hk, (EqvGen.rel _ _ hyz).trans _ _ _ hzk⟩
        simp only [u, dif_neg hy, dif_neg hz]
    have hux := h u hsol x hx
    by_cases hk : ∃ k, k ∉ W ∧ EqvGen S x k
    · obtain ⟨k, hk, hxk⟩ := hk
      exact hcov k ⟨hk, hxk, (hu hk hxk).symm.trans hux⟩
    · simp only [u, dif_neg hk] at hux
      exact hb hux
  · rintro (⟨x, y, hx, hy, hxy, hne⟩ | hc) u hu
    · have := hu.linked hxy
      rw [hu.known x hx, hu.known y hy] at this
      exact absurd this hne
    · exact hc.forced hu

end DoubleFetch.Forced
