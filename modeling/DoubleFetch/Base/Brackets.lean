/-
  Brackets in sequences, with an opening mark `o` and a closing mark `c`.

  * `NoExcess`: no prefix closes more than it opens; `Balanced`: and as much is
    closed as is opened; `Nested sep`: every `sep` stands inside brackets;
  * `noExcess_or_closed`: a sequence is either never closed, or it has a balanced
    part up to the mark that closes it;
  * `Balanced.eq_of_closed`: that part is unique;
  * `Balanced.eq_of_sep`: so is a balanced part up to a separator outside brackets;
  * `Balanced.split_sep`: what is closed behind such a separator is balanced again.

  All three are kept by dropping other elements (`Balanced.filter`).
-/
import Mathlib.Data.List.Basic
import Mathlib.Data.List.Induction
import Mathlib.Data.List.Infix
import Mathlib.Tactic.Common

namespace DoubleFetch

variable {α : Type*}

/-- Two marked parts at the head of a sequence. -/
theorem marked_cases {u v w : List α} {a b : α} (hv : v ++ [a] <+: u) (hw : w ++ [b] <+: u) :
    (v = w ∧ a = b) ∨ v ++ [a] <+: w ∨ w ++ [b] <+: v := by
  rcases List.prefix_or_prefix_of_prefix hv hw with h | h
  · rcases List.prefix_concat_iff.1 h with h | h
    · obtain ⟨rfl, hab⟩ := List.append_inj' h rfl
      exact Or.inl ⟨rfl, List.singleton_injective hab⟩
    · exact Or.inr (Or.inl h)
  · rcases List.prefix_concat_iff.1 h with h | h
    · obtain ⟨rfl, hab⟩ := List.append_inj' h rfl
      exact Or.inl ⟨rfl, (List.singleton_injective hab).symm⟩
    · exact Or.inr (Or.inr h)

/-- A part without its mark is unique. -/
theorem eq_of_marked {u v w : List α} {a : α} (hv : a ∉ v) (hw : a ∉ w) (h₁ : v ++ [a] <+: u)
    (h₂ : w ++ [a] <+: u) : v = w := by
  rcases marked_cases h₁ h₂ with h | h | h
  · exact h.1
  · exact absurd (h.subset (by simp)) hw
  · exact absurd (h.subset (by simp)) hv

section
variable [DecidableEq α] (o c : α)

/-- No prefix closes more than it opens. -/
def NoExcess (u : List α) : Prop := ∀ p, p <+: u → p.count c ≤ p.count o

/-- Balanced brackets. -/
structure Balanced (u : List α) : Prop where
  noExcess : NoExcess o c u
  count : u.count c = u.count o

/-- Every `sep` stands inside brackets. -/
def Nested (sep : α) (u : List α) : Prop := ∀ p, p ++ [sep] <+: u → p.count c < p.count o

instance (u : List α) : Decidable (NoExcess o c u) :=
  decidable_of_iff (∀ p ∈ u.inits, p.count c ≤ p.count o)
    (forall_congr' fun p => imp_congr (List.mem_inits p u) Iff.rfl)

instance (u : List α) : Decidable (Balanced o c u) :=
  decidable_of_iff (NoExcess o c u ∧ u.count c = u.count o)
    ⟨fun h => ⟨h.1, h.2⟩, fun h => ⟨h.1, h.2⟩⟩

instance (sep : α) (u : List α) : Decidable (Nested o c sep u) :=
  decidable_of_iff (∀ p ∈ u.inits, p ++ [sep] <+: u → p.count c < p.count o)
    ⟨fun h p hp => h p ((List.mem_inits p u).2 ((List.prefix_append ..).trans hp)) hp,
      fun h p _ => h p⟩

end

variable [DecidableEq α] {o c : α} {u v w : List α}

theorem NoExcess.of_prefix (h : NoExcess o c u) (hv : v <+: u) : NoExcess o c v :=
  fun p hp => h p (hp.trans hv)

theorem noExcess_nil : NoExcess o c [] := by
  intro p hp
  rw [List.prefix_nil.1 hp]
  simp

theorem noExcess_concat {a : α} :
    NoExcess o c (u ++ [a]) ↔ NoExcess o c u ∧ (u ++ [a]).count c ≤ (u ++ [a]).count o := by
  constructor
  · intro h
    exact ⟨h.of_prefix (List.prefix_append ..), h _ (List.prefix_refl _)⟩
  · rintro ⟨h, hle⟩ p hp
    rcases List.prefix_concat_iff.1 hp with rfl | hp
    · exact hle
    · exact h p hp

/-- The mark that closes a balanced part is one too many. -/
theorem Balanced.not_closed (hoc : o ≠ c) (hw : Balanced o c w) (hv : NoExcess o c v) :
    ¬ w ++ [c] <+: v := by
  intro h
  have := hv _ h
  simp only [List.count_append, List.count_singleton_self, List.count_singleton, beq_iff_eq,
    hoc.symm, if_false, hw.count] at this
  omega

/-- **Where a sequence is closed**, if it is. -/
theorem noExcess_or_closed (hoc : o ≠ c) (u : List α) :
    NoExcess o c u ∨ ∃ w r, u = w ++ c :: r ∧ Balanced o c w := by
  induction u using List.reverseRecOn with
  | nil => exact Or.inl noExcess_nil
  | append_singleton u a ih =>
    rcases ih with h | ⟨w, r, rfl, hw⟩
    · by_cases hle : (u ++ [a]).count c ≤ (u ++ [a]).count o
      · exact Or.inl (noExcess_concat.2 ⟨h, hle⟩)
      · -- the last element closes
        have hu := h u (List.prefix_refl _)
        have hac : a = c := by
          by_contra hne
          simp only [List.count_append, List.count_singleton, beq_iff_eq, hne, if_false] at hle
          omega
        subst hac
        simp only [List.count_append, List.count_singleton_self] at hle
        exact Or.inr ⟨u, [], rfl, h, by omega⟩
    · exact Or.inr ⟨w, r ++ [a], by simp, hw⟩

theorem Balanced.eq_of_closed (hoc : o ≠ c) (hv : Balanced o c v) (hw : Balanced o c w)
    (h₁ : v ++ [c] <+: u) (h₂ : w ++ [c] <+: u) : v = w := by
  rcases marked_cases h₁ h₂ with h | h | h
  · exact h.1
  · exact absurd h (hv.not_closed hoc hw.noExcess)
  · exact absurd h (hw.not_closed hoc hv.noExcess)

/-- A part is not balanced up to a separator inside brackets. -/
theorem Balanced.not_nested {sep : α} (hw : Balanced o c w) (hv : Nested o c sep v) :
    ¬ w ++ [sep] <+: v := by
  intro h
  have := hv w h
  have := hw.count
  omega

theorem Balanced.eq_of_sep {sep : α} (hv : Balanced o c v) (hw : Balanced o c w)
    (hv' : Nested o c sep v) (hw' : Nested o c sep w) (h₁ : v ++ [sep] <+: u)
    (h₂ : w ++ [sep] <+: u) : v = w := by
  rcases marked_cases h₁ h₂ with h | h | h
  · exact h.1
  · exact absurd h (hv.not_nested hw')
  · exact absurd h (hw.not_nested hv')

theorem balanced_singleton {a : α} (ho : a ≠ o) (hc : a ≠ c) : Balanced o c [a] := by
  refine ⟨fun p hp => ?_, by simp [ho, hc]⟩
  rw [List.prefix_iff_eq_take.1 hp]
  cases p <;> simp [ho, hc]

/-- What follows a balanced part is balanced if the whole is. -/
theorem Balanced.of_append (hv : Balanced o c v) (h : Balanced o c (v ++ w)) : Balanced o c w := by
  have hcount := h.count
  rw [List.count_append, List.count_append, hv.count] at hcount
  refine ⟨fun p hp => ?_, by omega⟩
  have := h.noExcess (v ++ p) ((List.prefix_append_right_inj v).2 hp)
  rw [List.count_append, List.count_append, hv.count] at this
  omega

theorem Balanced.append (hv : Balanced o c v) (hw : Balanced o c w) : Balanced o c (v ++ w) := by
  refine ⟨fun p hp => ?_, by rw [List.count_append, List.count_append, hv.count, hw.count]⟩
  rcases List.prefix_or_prefix_of_prefix hp (List.prefix_append v w) with h | ⟨q, rfl⟩
  · exact hv.noExcess p h
  · have := hw.noExcess q ((List.prefix_append_right_inj v).1 hp)
    rw [List.count_append, List.count_append, hv.count]
    omega

/-- The part up to the closing mark runs over a balanced part and a separator. -/
theorem Balanced.split_sep {sep : α} {r : List α} (hoc : o ≠ c) (ho : sep ≠ o) (hc : sep ≠ c)
    (hv : Balanced o c v) (hw : Balanced o c w) (h : w ++ [c] <+: v ++ sep :: r) :
    ∃ w', w = v ++ sep :: w' ∧ Balanced o c w' ∧ w' ++ [c] <+: r := by
  have hsep : v ++ [sep] <+: v ++ sep :: r := ⟨r, by simp⟩
  rcases marked_cases h hsep with ⟨-, hne⟩ | h' | ⟨w', rfl⟩
  · exact absurd hne.symm hc
  · exact absurd h' (hw.not_closed hoc hv.noExcess)
  · rw [List.append_assoc] at hw
    refine ⟨w', by simp, (balanced_singleton ho hc).of_append (hv.of_append hw), ?_⟩
    rw [List.append_assoc, List.append_assoc, List.prefix_append_right_inj] at h
    exact (List.cons_prefix_cons.1 h).2

theorem Balanced.join_sep {sep : α} (ho : sep ≠ o) (hc : sep ≠ c) (hv : Balanced o c v)
    (hw : Balanced o c w) : Balanced o c (v ++ sep :: w) :=
  hv.append ((balanced_singleton ho hc).append hw)

/-! ## Dropping other elements -/

section
variable {q : α → Bool} (ho : q o = true) (hc : q c = true)
include ho hc

theorem NoExcess.filter (h : NoExcess o c u) : NoExcess o c (u.filter q) := by
  intro p hp
  obtain ⟨p', hp', rfl⟩ := List.prefix_filter_iff.1 hp
  rw [List.count_filter ho, List.count_filter hc]
  exact h p' hp'

theorem Balanced.filter (h : Balanced o c u) : Balanced o c (u.filter q) :=
  ⟨h.noExcess.filter ho hc, by rw [List.count_filter ho, List.count_filter hc, h.count]⟩

theorem Nested.filter {sep : α} (h : Nested o c sep u) : Nested o c sep (u.filter q) := by
  rintro p ⟨r, hr⟩
  rw [List.append_assoc] at hr
  obtain ⟨u₁, u₂, rfl, rfl, hu₂⟩ := List.filter_eq_append_iff.1 hr.symm
  obtain ⟨x, y, rfl, hx, -, -⟩ := List.filter_eq_cons_iff.1 hu₂
  -- the part in front of the separator has the same brackets
  have hx' : x.filter q = [] := List.filter_eq_nil_iff.2 hx
  have := h (u₁ ++ x) ⟨y, by simp⟩
  rw [← List.count_filter (p := q) ho, ← List.count_filter (p := q) (a := c) hc, List.filter_append,
    hx', List.append_nil] at this
  exact this

end

end DoubleFetch
