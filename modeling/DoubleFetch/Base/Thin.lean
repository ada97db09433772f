/-
  Taking out elements with a property, and what this does to a selection and to a reader
  of blocks.

  * `Thins P L' L`: `L'` is `L` without some of the elements with `P`;
  * `Thins.keep`: nothing is added to a selection if no label is taken out;
  * `Phase.Thin.blocks`: if only entries are taken out, the blocks are thinned, and those that
    are left without an entry are missing.
-/
import DoubleFetch.Base.Blocks
import DoubleFetch.Base.Segment

namespace DoubleFetch

variable {α β : Type*}

/-- `L'` is `L` without some of the elements with `P`. -/
inductive Thins (P : α → Prop) : List α → List α → Prop
  | nil : Thins P [] []
  | cons (x : α) {L' L : List α} : Thins P L' L → Thins P (x :: L') (x :: L)
  | drop {x : α} {L' L : List α} : P x → Thins P L' L → Thins P L' (x :: L)

namespace Thins

variable {P : α → Prop} {L' L M' M : List α}

theorem refl : ∀ L : List α, Thins P L L
  | [] => nil
  | x :: L => cons x (refl L)

theorem append (h : Thins P L' L) (hM : Thins P M' M) : Thins P (L' ++ M') (L ++ M) := by
  induction h with
  | nil => exact hM
  | cons x _ ih => exact cons x ih
  | drop hx _ ih => exact drop hx ih

theorem of_forall : ∀ {L : List α}, (∀ x ∈ L, P x) → Thins P [] L
  | [], _ => nil
  | x :: L, h => drop (h x (by simp)) (of_forall fun y hy => h y (by simp [hy]))

theorem flatMap {Q : β → Prop} {f : α → List β} (hf : ∀ x, P x → ∀ y ∈ f x, Q y)
    (h : Thins P L' L) : Thins Q (L'.flatMap f) (L.flatMap f) := by
  induction h with
  | nil => exact nil
  | cons x _ ih =>
    rw [List.flatMap_cons, List.flatMap_cons]
    exact (refl (f x)).append ih
  | drop hx _ ih =>
    rw [List.flatMap_cons]
    exact (of_forall (hf _ hx)).append ih

theorem map {Q : β → Prop} {f : α → β} (hf : ∀ x, P x → Q (f x)) (h : Thins P L' L) :
    Thins Q (L'.map f) (L.map f) := by
  induction h with
  | nil => exact nil
  | cons x _ ih => exact cons (f x) ih
  | drop hx _ ih => exact drop (hf _ hx) ih

/-- Positions, with `b` in front. -/
def before (b : Bool) (K : ℕ → Bool) : ℕ → Bool
  | 0 => b
  | i + 1 => K i

/-- The positions that are left. -/
theorem exists_pick (h : Thins P L' L) :
    ∃ K, L' = pick K L ∧ ∀ i x, L[i]? = some x → ¬ P x → K i = true := by
  induction h with
  | nil => exact ⟨fun _ => true, rfl, by simp⟩
  | cons x _ ih =>
    obtain ⟨K, rfl, hK⟩ := ih
    refine ⟨before true K, rfl, ?_⟩
    rintro (_ | i) y hy hP
    · rfl
    · exact hK i y hy hP
  | drop hx _ ih =>
    obtain ⟨K, rfl, hK⟩ := ih
    refine ⟨before false K, rfl, ?_⟩
    rintro (_ | i) y hy hP
    · obtain rfl := Option.some.inj hy
      exact absurd hx hP
    · exact hK i y hy hP

/-- **Nothing is added to a selection.** -/
theorem keep {lab : α → Bool} (hP : ∀ x, P x → lab x = false) (S : α → α → Bool) (h : Thins P L' L) :
    (DoubleFetch.keep lab S L').Sublist (DoubleFetch.keep lab S L) := by
  obtain ⟨K, rfl, hK⟩ := h.exists_pick
  refine keep_pick_sublist fun i s _ hs => ?_
  have hl := (seg_eq_some.1 hs).2.1
  rw [labels, Option.any_eq_true] at hl
  obtain ⟨x, hx, hl⟩ := hl
  exact hK s x hx fun hPx => by rw [hP x hPx] at hl; cases hl

end Thins

/-! ## Reading -/

namespace Phase

/-- What the reader holds is thinned. -/
inductive Thin (P : α → Prop) : Phase α → Phase α → Prop
  | idle : Thin P idle idle
  | head (d : α) : Thin P (head d) (head d)
  | opened (d : α) : Thin P (opened d) (opened d)
  | inside (d : α) {es' es : List α} : Thins P es' es → Thin P (inside d es') (inside d es)
  | emptied (d : α) {es : List α} : Thins P [] es → Thin P (opened d) (inside d es)

variable {role : α → Role} {closesHead : Bool} {P : α → Prop} {p' p : Phase α} {f : α × List α → List β}

/-- A line that both readers read. -/
theorem Thin.next (h : Thin P p' p) (l : α) :
    Thin P (next role closesHead p' l) (next role closesHead p l) := by
  cases h with
  | idle =>
    simp only [Phase.next]
    split_ifs
    · exact .head l
    · exact .idle
  | head d =>
    cases hr : role l <;> cases closesHead <;> simp only [Phase.next, hr] <;> constructor
  | opened d =>
    cases hr : role l <;> simp only [Phase.next, hr] <;> constructor
    exact .refl _
  | inside d hes =>
    cases hr : role l <;> simp only [Phase.next, hr] <;> constructor
    all_goals first | exact hes | exact hes.append (.refl [l])
  | emptied d hes =>
    cases hr : role l <;> simp only [Phase.next, hr] <;> constructor
    all_goals first | exact hes | exact hes.append (.refl [l])

/-- An entry that is taken out. -/
theorem Thin.drop (h : Thin P p' p) {l : α} (hl : role l = .entry) (hP : P l) :
    Thin P p' (Phase.next role closesHead p l) := by
  cases h with
  | idle => simp only [Phase.next, hl, reduceCtorEq, if_false]; exact .idle
  | head d => simp only [Phase.next, hl]; exact .head d
  | opened d => simp only [Phase.next, hl]; exact .emptied d (.drop hP .nil)
  | inside d hes =>
    simp only [Phase.next, hl]
    have h' := hes.append (.drop hP .nil)
    rw [List.append_nil] at h'
    exact .inside d h'
  | emptied d hes =>
    simp only [Phase.next, hl]
    exact .emptied d (hes.append (.drop hP .nil))

section
variable (hf : ∀ d es' es, Thins P es' es → (f (d, es')).Sublist (f (d, es)))
include hf

theorem Thin.emit (h : Thin P p' p) (l : α) :
    ((emit role p' l).flatMap f).Sublist ((emit role p l).flatMap f) := by
  cases h with
  | idle | head d | opened d => exact .refl _
  | inside d hes =>
    simp only [Phase.emit]
    split_ifs
    · simpa using hf d _ _ hes
    · exact .refl _
  | emptied d hes => exact List.nil_sublist _

theorem Thin.flush (h : Thin P p' p) : (p'.flush.flatMap f).Sublist (p.flush.flatMap f) := by
  cases h with
  | idle | head d | opened d => exact .refl _
  | inside d hes => simpa [Phase.flush] using hf d _ _ hes
  | emptied d hes => exact List.nil_sublist _

/-- **What is made of the blocks of a thinned input** is a part of what is made of all of
    them. -/
theorem Thin.blocks (hP : ∀ l, P l → role l = .entry) {ls' ls : List α} (hls : Thins P ls' ls)
    (h : Thin P p' p) : ((blocks role closesHead p' ls').flatMap f).Sublist
      ((blocks role closesHead p ls).flatMap f) := by
  induction hls generalizing p' p with
  | nil => exact h.flush hf
  | cons l _ ih =>
    rw [blocks_cons, blocks_cons, List.flatMap_append, List.flatMap_append]
    exact (h.emit hf l).append (ih (h.next l))
  | @drop l _ _ hl _ ih =>
    have hemit : Phase.emit role p l = [] := by
      cases p <;> simp [Phase.emit, hP l hl]
    rw [blocks_cons, hemit, List.nil_append]
    exact ih (h.drop (hP l hl) hl)

end

end Phase

end DoubleFetch
