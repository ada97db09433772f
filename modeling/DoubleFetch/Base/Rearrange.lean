/-
  Rearrangements of a labelled list: the entries of the prefix, the entries inside a
  segment and whole segments change their order.

  * `Rearrangement lab L L'` is a bijection of the positions that keeps the elements
    and moves every segment with its label;
  * `Rearrangement.kept_iff`: under a symmetric relation, the kept positions
    correspond, and `Rearrangement.pick_perm`: corresponding positions pick the same
    elements;
  * `Rearrangement.headed`: no label loses the entry behind it.
-/
import DoubleFetch.Base.Segment
import Mathlib.Data.List.FinRange
import Mathlib.Logic.Equiv.Basic

namespace DoubleFetch

variable {α : Type*} {lab : α → Bool} {L L' : List α} {S : α → α → Bool}

/-- `L'` is `L` with its prefix, its segments and the entries in them reordered. -/
structure Rearrangement (lab : α → Bool) (L L' : List α) where
  pos : Fin L.length ≃ Fin L'.length
  elem : ∀ i, L'.get (pos i) = L.get i
  segment : ∀ h i : Fin L.length,
    seg (labels lab L) i = some ↑h ↔ seg (labels lab L') (pos i) = some ↑(pos h)

variable (lab) in
/-- The label of a segment, as a position. -/
theorem seg_fin (i : Fin L.length) :
    seg (labels lab L) i = none ∨ ∃ h : Fin L.length, seg (labels lab L) i = some ↑h := by
  cases hs : seg (labels lab L) i with
  | none => exact Or.inl rfl
  | some h => exact Or.inr ⟨⟨h, (seg_eq_some.1 hs).1.trans_lt i.2⟩, rfl⟩

theorem onPos_comm (hS : ∀ x y, S x y = S y x) (i j : ℕ) : onPos S L i j = onPos S L j i := by
  unfold onPos
  cases L[i]? <;> cases L[j]? <;> simp [hS]

/-- Under a symmetric relation, the order of two partners does not matter. -/
theorem partnered_iff_symm (hS : ∀ x y, S x y = S y x) {i : Fin L.length}
    (hi : labels lab L i = false) : Partnered (labels lab L) L.length (onPos S L) i ↔
      ∃ j : Fin L.length, j ≠ i ∧ labels lab L j = false ∧ Compat (labels lab L) i j ∧
        onPos S L i j = true := by
  have hmin : ∀ j : ℕ, onPos S L (min i j) (max i j) = onPos S L i j := by
    intro j
    rcases Nat.le_total i j with h | h
    · rw [min_eq_left h, max_eq_right h]
    · rw [min_eq_right h, max_eq_left h, onPos_comm hS]
  rw [partnered_iff i.2 hi]
  constructor
  · rintro ⟨j, hj, hne, hc, hcomp, hR⟩
    exact ⟨⟨j, hj⟩, fun h => hne (congrArg Fin.val h), hc, hcomp, by rwa [← hmin]⟩
  · rintro ⟨j, hne, hc, hcomp, hR⟩
    exact ⟨j, j.2, fun h => hne (Fin.ext h), hc, hcomp, by rwa [hmin]⟩

namespace Rearrangement

/-- The way back. -/
def symm (r : Rearrangement lab L L') : Rearrangement lab L' L where
  pos := r.pos.symm
  elem i := by rw [← r.elem, Equiv.apply_symm_apply]
  segment h i := by
    rw [r.segment, Equiv.apply_symm_apply, Equiv.apply_symm_apply]

variable (r : Rearrangement lab L L')
include r

theorem symm_pos (i : Fin L.length) : r.symm.pos (r.pos i) = i := r.pos.symm_apply_apply i

theorem pos_symm (i : Fin L'.length) : r.pos (r.symm.pos i) = i := r.pos.apply_symm_apply i

theorem getElem?_pos (i : Fin L.length) : L'[(r.pos i : ℕ)]? = L[(i : ℕ)]? := by
  rw [List.getElem?_eq_getElem (r.pos i).2, List.getElem?_eq_getElem i.2]
  exact congrArg some (r.elem i)

theorem mem_of_mem {x : α} (h : x ∈ L') : x ∈ L := by
  obtain ⟨i, rfl⟩ := List.mem_iff_get.1 h
  rw [← r.pos_symm i, r.elem]
  exact List.get_mem ..

theorem labels_pos (i : Fin L.length) : labels lab L' (r.pos i) = labels lab L i := by
  rw [labels, labels, r.getElem?_pos]

theorem onPos_pos (i j : Fin L.length) : onPos S L' (r.pos i) (r.pos j) = onPos S L i j := by
  rw [onPos, onPos, r.getElem?_pos, r.getElem?_pos]

/-- The prefix goes to the prefix. -/
theorem seg_eq_none_iff (i : Fin L.length) :
    seg (labels lab L') (r.pos i) = none ↔ seg (labels lab L) i = none := by
  constructor
  · intro hn
    rcases seg_fin lab i with h | ⟨h, hs⟩
    · exact h
    · rw [(r.segment h i).1 hs] at hn; cases hn
  · intro hn
    rcases seg_fin lab (r.pos i) with h | ⟨h, hs⟩
    · exact h
    · have := (r.symm.segment h (r.pos i)).1 hs
      rw [r.symm_pos, hn] at this; cases this

theorem compat_iff (i j : Fin L.length) :
    Compat (labels lab L') (r.pos i) (r.pos j) ↔ Compat (labels lab L) i j := by
  rw [Compat, Compat, r.seg_eq_none_iff, r.seg_eq_none_iff]
  refine or_congr_right (or_congr_right' fun hj => ?_)
  obtain ⟨h, hs⟩ := (seg_fin lab j).resolve_left hj
  rw [hs, (r.segment h j).1 hs, r.segment]

theorem partnered (hS : ∀ x y, S x y = S y x) {i : Fin L.length}
    (h : Partnered (labels lab L) L.length (onPos S L) i) :
    Partnered (labels lab L') L'.length (onPos S L') (r.pos i) := by
  have hi := h.entry
  obtain ⟨j, hne, hc, hcomp, hR⟩ := (partnered_iff_symm hS hi).1 h
  rw [partnered_iff_symm hS (by rwa [r.labels_pos])]
  exact ⟨r.pos j, fun he => hne (r.pos.injective he), by rwa [r.labels_pos],
    (r.compat_iff i j).2 hcomp, by rwa [r.onPos_pos]⟩

theorem kept (hS : ∀ x y, S x y = S y x) {i : Fin L.length}
    (h : Kept (labels lab L) L.length (onPos S L) i) :
    Kept (labels lab L') L'.length (onPos S L') (r.pos i) := by
  by_cases hi : labels lab L i = true
  · -- a label is kept with an entry of its segment
    obtain ⟨t, ht, hct, hs, hk⟩ := (kept_label hi).1 h
    rw [kept_label (by rwa [r.labels_pos])]
    have hp := r.partnered hS (i := ⟨t, ht⟩) ((kept_entry hct).1 hk)
    exact ⟨r.pos ⟨t, ht⟩, (r.pos ⟨t, ht⟩).2, hp.entry, (r.segment i ⟨t, ht⟩).1 hs, hp.kept⟩
  · rw [Bool.not_eq_true] at hi
    exact (r.partnered hS ((kept_entry hi).1 h)).kept

/-- **The kept positions correspond.** -/
theorem kept_iff (hS : ∀ x y, S x y = S y x) (i : Fin L.length) :
    Kept (labels lab L') L'.length (onPos S L') (r.pos i) ↔
      Kept (labels lab L) L.length (onPos S L) i := by
  refine ⟨fun h => ?_, r.kept hS⟩
  have := r.symm.kept hS h
  rwa [r.symm_pos] at this

/-- The entry behind a label moves with its segment. -/
theorem headed (h : Headed lab L) : Headed lab L' := by
  intro m hm
  have hml := labels_lt hm
  set i := r.symm.pos ⟨m, hml⟩ with hi
  have him : m = r.pos i := by rw [hi, r.pos_symm]
  rw [him, r.labels_pos] at hm
  obtain ⟨hlt, hc⟩ := h i hm
  -- the entry behind the label
  have hs : seg (labels lab L) (i + 1) = some ↑i :=
    seg_eq_some.2 ⟨by omega, hm, fun j h1 h2 => by rwa [show j = i + 1 by omega]⟩
  obtain ⟨hle, -, hent⟩ := seg_eq_some.1 ((r.segment i ⟨i + 1, hlt⟩).1 hs)
  have hne : (r.pos i : ℕ) ≠ r.pos ⟨i + 1, hlt⟩ := by
    intro he
    have := congrArg Fin.val (r.pos.injective (Fin.ext he))
    simp at this
  have := (r.pos ⟨i + 1, hlt⟩).2
  rw [him]
  exact ⟨by omega, hent _ (by omega) (by omega)⟩

omit r in
theorem pick_eq_finRange : ∀ (K : ℕ → Bool) (L : List α),
    pick K L = ((List.finRange L.length).filter fun i : Fin _ => K i).map L.get
  | _, [] => rfl
  | K, x :: l => by
    have ih := pick_eq_finRange (fun i => K (i + 1)) l
    by_cases h : K 0 <;>
      simp [pick, h, ih, List.finRange_succ, List.filter_map, Function.comp_def]

/-- **The same elements are picked.** -/
theorem pick_perm {K K' : ℕ → Bool} (hK : ∀ i : Fin L.length, K' (r.pos i) = K i) :
    (pick K' L').Perm (pick K L) := by
  have hnd := List.nodup_finRange L.length
  have hpos : ((List.finRange L'.length).filter fun i : Fin _ => K' i).Perm
      (((List.finRange L.length).filter fun i : Fin _ => K i).map r.pos) := by
    rw [List.perm_ext_iff_of_nodup ((List.nodup_finRange _).filter _)
      ((hnd.filter _).map r.pos.injective)]
    intro j
    simp only [List.mem_filter, List.mem_finRange, true_and, List.mem_map]
    constructor
    · intro hj
      exact ⟨r.symm.pos j, by rw [← hK, r.pos_symm]; exact hj, r.pos_symm j⟩
    · rintro ⟨i, hi, rfl⟩
      rw [hK]; exact hi
  rw [pick_eq_finRange, pick_eq_finRange]
  refine (hpos.map L'.get).trans ?_
  rw [List.map_map]
  exact .of_eq (List.map_congr_left fun i _ => r.elem i)

end Rearrangement

end DoubleFetch
