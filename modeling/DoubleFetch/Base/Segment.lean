/-
  Sequences cut into segments by labels, and the selection of the entries that
  are related to another entry of their segment.

  A sequence is given by its labels `c : ℕ → Bool`.  The positions before the
  first label are the prefix; every label heads a segment, which reaches to the
  next label.  Two entries are compatible if one of them is in the prefix or
  both are in the same segment.

  * `seg c i` is the label heading the segment of `i` (`none`: the prefix), and
    `seg_eq_iff_count`: counting labels tells segments apart;
  * `Kept c n R i`: `i` is an entry `R`-related to a compatible entry, or a
    label heading the segment of such an entry;
  * `pick K L` are the elements of `L` at the positions `K`, and `keep lab R L`
    those at the kept positions;
  * `keep_keep`: selecting by `R` and then by a stronger `R'` is selecting by
    `R'`; in particular, selection is idempotent;
  * `keep_pick_sublist`: taking entries out beforehand adds nothing to a selection;
  * `keep_headed`, `keep_pair`, `keep_entries`: in a selection every label is
    followed by an entry, and unless it is empty it has a related pair and so two
    entries;
  * `keep_map`: selection only looks at the labels and the relation.
-/
import Mathlib.Data.Nat.Count
import Mathlib.Data.List.Basic
import Mathlib.Tactic.Common

namespace DoubleFetch

/-! ## Segments -/

section
variable (c : ℕ → Bool)

/-- The last label below `s`. -/
def lastLabel : ℕ → Option ℕ
  | 0 => none
  | s + 1 => if c s then some s else lastLabel s

/-- The label heading the segment of position `i`. -/
def seg (i : ℕ) : Option ℕ := lastLabel c (i + 1)

/-- One of the two positions is in the prefix, or both are in one segment. -/
def Compat (i j : ℕ) : Prop := seg c i = none ∨ seg c j = none ∨ seg c i = seg c j

instance (i j : ℕ) : Decidable (Compat c i j) := inferInstanceAs (Decidable (_ ∨ _ ∨ _))

end

variable {c : ℕ → Bool} {n : ℕ} {R R' : ℕ → ℕ → Bool} {i j h s : ℕ}

theorem lastLabel_eq_some : ∀ {s}, lastLabel c s = some h ↔
    h < s ∧ c h ∧ ∀ j, h < j → j < s → c j = false
  | 0 => by simp [lastLabel]
  | s + 1 => by
    by_cases hs : c s
    · simp only [lastLabel, hs, if_true, Option.some.injEq]
      constructor
      · rintro rfl; exact ⟨by omega, hs, fun j _ _ => by omega⟩
      · rintro ⟨h1, -, h2⟩
        by_contra hne
        simp [h2 s (by omega) (by omega)] at hs
    · simp only [lastLabel, hs, Bool.false_eq_true, if_false, lastLabel_eq_some (s := s)]
      constructor
      · rintro ⟨h1, h2, h3⟩
        refine ⟨by omega, h2, fun j hj hj' => ?_⟩
        rcases Nat.lt_succ_iff_lt_or_eq.1 hj' with hj' | rfl
        · exact h3 j hj hj'
        · simpa using hs
      · rintro ⟨h1, h2, h3⟩
        have : h ≠ s := by rintro rfl; exact hs h2
        exact ⟨by omega, h2, fun j hj hj' => h3 j hj (by omega)⟩

theorem lastLabel_eq_none : ∀ {s}, lastLabel c s = none ↔ ∀ j < s, c j = false
  | 0 => by simp [lastLabel]
  | s + 1 => by
    by_cases hs : c s
    · simp only [lastLabel, hs, if_true, reduceCtorEq, false_iff, not_forall]
      exact ⟨s, by omega, by simp [hs]⟩
    · simp only [lastLabel, hs, Bool.false_eq_true, if_false, lastLabel_eq_none (s := s)]
      constructor
      · intro h j hj
        rcases Nat.lt_succ_iff_lt_or_eq.1 hj with hj | rfl
        · exact h j hj
        · simpa using hs
      · intro h j hj; exact h j (by omega)

theorem seg_eq_some : seg c i = some h ↔ h ≤ i ∧ c h ∧ ∀ j, h < j → j ≤ i → c j = false := by
  simp only [seg, lastLabel_eq_some, Nat.lt_succ_iff]

theorem seg_eq_none : seg c i = none ↔ ∀ j ≤ i, c j = false := by
  simp only [seg, lastLabel_eq_none, Nat.lt_succ_iff]

theorem seg_label (hi : c i = true) : seg c i = some i := by simp [seg, lastLabel, hi]

theorem seg_entry (hi : c i = false) : seg c i = lastLabel c i := by simp [seg, lastLabel, hi]

theorem lastLabel_count_eq_zero : Nat.count (c · = true) s = 0 ↔ lastLabel c s = none := by
  induction s with
  | zero => simp [lastLabel]
  | succ s ih =>
    rw [Nat.count_succ]
    by_cases hs : c s <;> simp [lastLabel, hs, ih]

/-- Two positions see the same last label iff they have the same number of
    labels below them. -/
theorem lastLabel_eq_iff_count (hij : i ≤ j) :
    lastLabel c i = lastLabel c j ↔ Nat.count (c · = true) i = Nat.count (c · = true) j := by
  induction j, hij using Nat.le_induction with
  | base => simp
  | succ j hij ih =>
    rw [Nat.count_succ]
    by_cases hj : c j
    · have hle : Nat.count (c · = true) i ≤ Nat.count (c · = true) j := Nat.count_monotone _ hij
      simp only [lastLabel, hj, if_true]
      constructor
      · intro h; have := (lastLabel_eq_some.1 h).1; omega
      · intro h; omega
    · simpa [lastLabel, hj] using ih

theorem seg_eq_iff_count (hij : i ≤ j) :
    seg c i = seg c j ↔ Nat.count (c · = true) (i + 1) = Nat.count (c · = true) (j + 1) :=
  lastLabel_eq_iff_count (by omega)

theorem Compat.symm (h : Compat c i j) : Compat c j i := by
  rcases h with h | h | h
  · exact Or.inr (Or.inl h)
  · exact Or.inl h
  · exact Or.inr (Or.inr h.symm)

/-! ## Kept positions -/

section
variable (c : ℕ → Bool) (n : ℕ) (R : ℕ → ℕ → Bool)

/-- `a` and `b` are compatible entries below `n`, in this order, and related. -/
def Pair (a b : ℕ) : Prop :=
  a < b ∧ b < n ∧ c a = false ∧ c b = false ∧ Compat c a b ∧ R a b = true

instance (a b : ℕ) : Decidable (Pair c n R a b) := inferInstanceAs (Decidable (_ ∧ _))

/-- `i` has a compatible related entry. -/
def Partnered (i : ℕ) : Prop := ∃ j < n, Pair c n R i j ∨ Pair c n R j i

instance (i : ℕ) : Decidable (Partnered c n R i) := inferInstanceAs (Decidable (∃ j < n, _ ∨ _))

/-- An entry with a partner, or the label of a segment with such an entry. -/
def Kept (i : ℕ) : Prop :=
  if c i then ∃ t < n, c t = false ∧ seg c t = some i ∧ Partnered c n R t else Partnered c n R i

instance (i : ℕ) : Decidable (Kept c n R i) := inferInstanceAs (Decidable (ite ..))

end

theorem Pair.partnered {a b : ℕ} (h : Pair c n R a b) : Partnered c n R a ∧ Partnered c n R b :=
  ⟨⟨b, h.2.1, Or.inl h⟩, ⟨a, by have := h.1; have := h.2.1; omega, Or.inr h⟩⟩

theorem Partnered.lt (h : Partnered c n R i) : i < n := by
  obtain ⟨j, hj, h | h⟩ := h
  · have := h.1; omega
  · exact h.2.1

theorem Partnered.entry (h : Partnered c n R i) : c i = false := by
  obtain ⟨j, -, h | h⟩ := h
  · exact h.2.2.1
  · exact h.2.2.2.1

theorem kept_entry (hi : c i = false) : Kept c n R i ↔ Partnered c n R i := by simp [Kept, hi]

theorem Partnered.kept (h : Partnered c n R i) : Kept c n R i := (kept_entry h.entry).2 h

/-- A partner stands on either side; the earlier of the two is compared first. -/
theorem partnered_iff (hin : i < n) (hi : c i = false) : Partnered c n R i ↔
    ∃ j < n, j ≠ i ∧ c j = false ∧ Compat c i j ∧ R (min i j) (max i j) = true := by
  constructor
  · rintro ⟨j, hj, ⟨hij, -, -, hcj, hcomp, hR⟩ | ⟨hij, -, hcj, -, hcomp, hR⟩⟩
    · exact ⟨j, hj, by omega, hcj, hcomp, by rwa [min_eq_left hij.le, max_eq_right hij.le]⟩
    · exact ⟨j, hj, by omega, hcj, hcomp.symm, by rwa [min_eq_right hij.le, max_eq_left hij.le]⟩
  · rintro ⟨j, hj, hne, hcj, hcomp, hR⟩
    rcases Nat.lt_or_gt_of_ne hne with h | h
    · rw [min_eq_right h.le, max_eq_left h.le] at hR
      exact ⟨j, hj, Or.inr ⟨h, hin, hcj, hi, hcomp.symm, hR⟩⟩
    · rw [min_eq_left (Nat.le_of_lt h), max_eq_right (Nat.le_of_lt h)] at hR
      exact ⟨j, hj, Or.inl ⟨h, hj, hi, hcj, hcomp, hR⟩⟩

/-- A label is kept with an entry of its segment. -/
theorem kept_label (hi : c i = true) :
    Kept c n R i ↔ ∃ t < n, c t = false ∧ seg c t = some i ∧ Kept c n R t := by
  rw [Kept, if_pos hi]
  constructor
  · rintro ⟨t, ht, hct, hs, hp⟩; exact ⟨t, ht, hct, hs, hp.kept⟩
  · rintro ⟨t, ht, hct, hs, hk⟩; exact ⟨t, ht, hct, hs, (kept_entry hct).1 hk⟩

/-- The label of a kept entry is kept. -/
theorem Partnered.kept_seg (h : Partnered c n R i) (hs : seg c i = some s) : Kept c n R s := by
  have hl := (seg_eq_some.1 hs).2.1
  simp only [Kept, hl, if_true]
  exact ⟨i, h.lt, h.entry, hs, h⟩

/-- The positions marked by one pair: its entries and their labels. -/
def MarkedBy (c : ℕ → Bool) (a b i : ℕ) : Prop :=
  i = a ∨ i = b ∨ seg c a = some i ∨ seg c b = some i

instance (a b i : ℕ) : Decidable (MarkedBy c a b i) := inferInstanceAs (Decidable (_ ∨ _))

/-- **The kept positions are those marked by the pairs.** -/
theorem kept_iff : Kept c n R i ↔ ∃ a b, Pair c n R a b ∧ MarkedBy c a b i := by
  constructor
  · intro h
    by_cases hi : c i
    · simp only [Kept, hi, if_true] at h
      obtain ⟨t, -, -, hs, j, -, hp | hp⟩ := h
      · exact ⟨t, j, hp, Or.inr (Or.inr (Or.inl hs))⟩
      · exact ⟨j, t, hp, Or.inr (Or.inr (Or.inr hs))⟩
    · rw [kept_entry (by simpa using hi)] at h
      obtain ⟨j, -, hp | hp⟩ := h
      · exact ⟨i, j, hp, Or.inl rfl⟩
      · exact ⟨j, i, hp, Or.inr (Or.inl rfl)⟩
  · rintro ⟨a, b, hp, rfl | rfl | hs | hs⟩
    · exact hp.partnered.1.kept
    · exact hp.partnered.2.kept
    · exact hp.partnered.1.kept_seg hs
    · exact hp.partnered.2.kept_seg hs

theorem Kept.lt (h : Kept c n R i) : i < n := by
  obtain ⟨a, b, ⟨h1, h2, -⟩, rfl | rfl | hs | hs⟩ := kept_iff.1 h
  · omega
  · omega
  · have := (seg_eq_some.1 hs).1; omega
  · have := (seg_eq_some.1 hs).1; omega

/-- The segment label of a kept position is kept. -/
theorem Kept.kept_seg (h : Kept c n R i) (hs : seg c i = some s) : Kept c n R s := by
  by_cases hi : c i
  · rw [seg_label hi] at hs; cases hs; exact h
  · exact ((kept_entry (by simpa using hi)).1 h).kept_seg hs

theorem Pair.mono (hR : ∀ a b, R' a b = true → R a b = true) {a b : ℕ} (h : Pair c n R' a b) :
    Pair c n R a b :=
  ⟨h.1, h.2.1, h.2.2.1, h.2.2.2.1, h.2.2.2.2.1, hR _ _ h.2.2.2.2.2⟩

theorem Kept.mono (hR : ∀ a b, R' a b = true → R a b = true) (h : Kept c n R' i) :
    Kept c n R i := by
  obtain ⟨a, b, hp, hm⟩ := kept_iff.1 h
  exact kept_iff.2 ⟨a, b, hp.mono hR, hm⟩

/-! ## Picking positions of a list -/

variable {α : Type*}

/-- The elements of a list at the positions `K`. -/
def pick (K : ℕ → Bool) : List α → List α
  | [] => []
  | x :: l => if K 0 then x :: pick (fun i => K (i + 1)) l else pick (fun i => K (i + 1)) l

theorem pick_congr {K J : ℕ → Bool} : ∀ {L : List α}, (∀ i < L.length, K i = J i) →
    pick K L = pick J L
  | [], _ => rfl
  | x :: l, h => by
    simp only [pick, h 0 (by simp)]
    rw [pick_congr (K := fun i => K (i + 1)) (J := fun i => J (i + 1))
      fun i hi => h (i + 1) (by simpa using hi)]

theorem map_pick {β : Type*} (f : α → β) : ∀ (K : ℕ → Bool) (L : List α),
    (pick K L).map f = pick K (L.map f)
  | _, [] => rfl
  | K, x :: l => by by_cases h : K 0 <;> simp [pick, h, map_pick f]

theorem pick_sublist : ∀ (K : ℕ → Bool) (L : List α), (pick K L).Sublist L
  | _, [] => .slnil
  | K, x :: l => by
    by_cases h : K 0
    · simpa [pick, h] using pick_sublist _ l
    · simpa [pick, h] using (pick_sublist _ l).cons x

theorem pick_mono : ∀ {K J : ℕ → Bool} {L : List α}, (∀ i, K i = true → J i = true) →
    (pick K L).Sublist (pick J L)
  | _, _, [], _ => .slnil
  | K, J, x :: l, h => by
    have ih := pick_mono (L := l) fun i => h (i + 1)
    by_cases hK : K 0
    · simpa [pick, hK, h 0 hK] using ih
    · by_cases hJ : J 0
      · simpa [pick, hK, hJ] using ih.cons x
      · simpa [pick, hK, hJ] using ih

/-- The number of picked positions below `i + 1`, counted from the front. -/
theorem count_succ_front (K : ℕ → Bool) (i : ℕ) : Nat.count (K · = true) (i + 1) =
    Nat.count (fun j => K (j + 1) = true) i + if K 0 then 1 else 0 :=
  Nat.count_succ' _ _

/-- **Picking twice.** -/
theorem pick_pick : ∀ (K K' : ℕ → Bool) (L : List α),
    pick K' (pick K L) = pick (fun i => K i && K' (Nat.count (K · = true) i)) L
  | _, _, [] => rfl
  | K, K', x :: l => by
    by_cases h : K 0
    · by_cases h' : K' 0 <;> simp [pick, h, h', pick_pick, count_succ_front]
    · simp [pick, h, pick_pick, count_succ_front]

theorem getElem?_pick : ∀ {K : ℕ → Bool} {L : List α} {i : ℕ}, K i = true →
    (pick K L)[Nat.count (K · = true) i]? = L[i]?
  | _, [], _, _ => by simp [pick]
  | K, x :: l, 0, h => by simp [pick, h]
  | K, x :: l, i + 1, h => by
    have ih := getElem?_pick (K := fun j => K (j + 1)) (L := l) h
    rw [count_succ_front]
    by_cases h0 : K 0 <;> simp [pick, h0, ih]

/-- Every position of the picked list comes from a picked position. -/
theorem exists_of_lt_pick : ∀ {K : ℕ → Bool} {L : List α} {m : ℕ}, m < (pick K L).length →
    ∃ i < L.length, K i = true ∧ Nat.count (K · = true) i = m
  | _, [], _, h => by simp [pick] at h
  | K, x :: l, m, h => by
    by_cases h0 : K 0
    · cases m with
      | zero => exact ⟨0, by simp, h0, by simp⟩
      | succ m =>
        simp only [pick, h0, if_true, List.length_cons, Nat.add_lt_add_iff_right] at h
        obtain ⟨i, hi, hK, hm⟩ := exists_of_lt_pick h
        exact ⟨i + 1, by simpa using hi, hK, by rw [count_succ_front, hm, if_pos h0]⟩
    · simp only [pick, h0, Bool.false_eq_true, if_false] at h
      obtain ⟨i, hi, hK, hm⟩ := exists_of_lt_pick h
      exact ⟨i + 1, by simpa using hi, hK, by rw [count_succ_front, hm, if_neg h0]; rfl⟩

theorem count_lt_pick {K : ℕ → Bool} {L : List α} (h : K i = true) (hi : i < L.length) :
    Nat.count (K · = true) i < (pick K L).length := by
  have := getElem?_pick (L := L) h
  rw [List.getElem?_eq_getElem hi] at this
  exact (List.getElem?_eq_some_iff.1 this).1

/-- Counting is an order embedding on the picked positions. -/
theorem count_lt_iff {K : ℕ → Bool} (hi : K i = true) :
    Nat.count (K · = true) i < Nat.count (K · = true) j ↔ i < j :=
  ⟨Nat.lt_of_count_lt_count, Nat.count_strict_mono hi⟩

theorem count_inj {K : ℕ → Bool} (hi : K i = true) (hj : K j = true)
    (h : Nat.count (K · = true) i = Nat.count (K · = true) j) : i = j :=
  Nat.count_injective hi hj h

/-! ## Labelled lists -/

/-- The labels of a list. -/
def labels (lab : α → Bool) (L : List α) (i : ℕ) : Bool := L[i]?.any lab

/-- A relation on elements, on positions. -/
def onPos (S : α → α → Bool) (L : List α) (i j : ℕ) : Bool :=
  match L[i]?, L[j]? with
  | some x, some y => S x y
  | _, _ => false

/-- The elements related to a compatible element, with their labels. -/
def keep (lab : α → Bool) (S : α → α → Bool) (L : List α) : List α :=
  pick (fun i => decide (Kept (labels lab L) L.length (onPos S L) i)) L

section
variable {lab : α → Bool} {S S' : α → α → Bool} {K : ℕ → Bool} {L : List α}

theorem labels_lt (h : labels lab L i = true) : i < L.length := by
  by_contra hn
  simp [labels, List.getElem?_eq_none (Nat.le_of_not_lt hn)] at h

theorem labels_pick (hi : K i = true) :
    labels lab (pick K L) (Nat.count (K · = true) i) = labels lab L i := by
  simp [labels, getElem?_pick hi]

theorem onPos_pick (hi : K i = true) (hj : K j = true) :
    onPos S (pick K L) (Nat.count (K · = true) i) (Nat.count (K · = true) j) = onPos S L i j := by
  simp [onPos, getElem?_pick hi, getElem?_pick hj]

/-- **Picking keeps segments apart** as long as the labels of the picked
    positions are picked. -/
theorem seg_pick (hi : K i = true) (hK : ∀ h, seg (labels lab L) i = some h → K h = true) :
    seg (labels lab (pick K L)) (Nat.count (K · = true) i) =
      (seg (labels lab L) i).map (Nat.count (K · = true)) := by
  -- a label of the picked list not after `i` is a label of `L` not after `i`
  have back : ∀ m ≤ Nat.count (K · = true) i, labels lab (pick K L) m = true →
      ∃ j ≤ i, K j = true ∧ labels lab L j = true ∧ Nat.count (K · = true) j = m := by
    intro m hm hl
    obtain ⟨j, -, hj, rfl⟩ := exists_of_lt_pick (labels_lt hl)
    refine ⟨j, ?_, hj, by rwa [labels_pick hj] at hl, rfl⟩
    by_contra hij
    exact absurd ((count_lt_iff hi).2 (Nat.lt_of_not_le hij)) (by omega)
  cases hs : seg (labels lab L) i with
  | none =>
    rw [Option.map_none, seg_eq_none]
    intro m hm
    by_contra hl
    obtain ⟨j, hj, -, hlj, -⟩ := back m hm (by simpa using hl)
    simp [seg_eq_none.1 hs j hj] at hlj
  | some s =>
    obtain ⟨h1, h2, h3⟩ := seg_eq_some.1 hs
    have hKs := hK s hs
    rw [Option.map_some, seg_eq_some, labels_pick hKs]
    refine ⟨Nat.count_monotone _ h1, h2, fun m hm hm' => ?_⟩
    by_contra hl
    obtain ⟨j, hj, hKj, hlj, rfl⟩ := back m hm' (by simpa using hl)
    rw [h3 j ((count_lt_iff hKs).1 hm) hj] at hlj; cases hlj

/-- The pairs of a list from which only kept positions are picked. -/
theorem pair_pick {a b : ℕ} (hlab : ∀ i h, K i = true → seg (labels lab L) i = some h → K h = true)
    (ha : K a = true) (hb : K b = true) :
    Pair (labels lab (pick K L)) (pick K L).length (onPos S (pick K L))
        (Nat.count (K · = true) a) (Nat.count (K · = true) b) ↔
      Pair (labels lab L) L.length (onPos S L) a b := by
  have hinj : ∀ {o o' : Option ℕ}, (∀ x ∈ o, K x = true) → (∀ x ∈ o', K x = true) →
      (o.map (Nat.count (K · = true)) = o'.map (Nat.count (K · = true)) ↔ o = o') := by
    rintro (_ | x) (_ | y) h h' <;> simp
    exact ⟨fun e => count_inj (h x rfl) (h' y rfl) e, fun e => by rw [e]⟩
  have hcompat : Compat (labels lab (pick K L)) (Nat.count (K · = true) a)
      (Nat.count (K · = true) b) ↔ Compat (labels lab L) a b := by
    simp only [Compat, seg_pick ha fun h => hlab a h ha, seg_pick hb fun h => hlab b h hb,
      Option.map_eq_none_iff]
    rw [hinj (fun x hx => hlab a x ha hx) fun x hx => hlab b x hb hx]
  simp only [Pair, labels_pick ha, labels_pick hb, onPos_pick ha hb, count_lt_iff ha, hcompat]
  constructor
  · rintro ⟨h1, h2, h3⟩
    obtain ⟨j, hj, hKj, he⟩ := exists_of_lt_pick h2
    rw [count_inj hKj hb he] at hj
    exact ⟨h1, hj, h3⟩
  · rintro ⟨h1, h2, h3⟩; exact ⟨h1, count_lt_pick hb h2, h3⟩

/-- The label of a picked position. -/
theorem seg_pick_iff (hlab : ∀ i h, K i = true → seg (labels lab L) i = some h → K h = true)
    {t : ℕ} (ht : K t = true) (hi : K i = true) :
    seg (labels lab (pick K L)) (Nat.count (K · = true) t) = some (Nat.count (K · = true) i) ↔
      seg (labels lab L) t = some i := by
  rw [seg_pick ht fun h => hlab t h ht, Option.map_eq_some_iff]
  constructor
  · rintro ⟨x, hx, he⟩; rw [← count_inj (hlab t x ht hx) hi he]; exact hx
  · intro h; exact ⟨i, h, rfl⟩

/-- What is kept after picking is kept. -/
theorem Kept.of_pick (hlab : ∀ i h, K i = true → seg (labels lab L) i = some h → K h = true)
    (hi : K i = true)
    (h : Kept (labels lab (pick K L)) (pick K L).length (onPos S (pick K L)) (Nat.count (K · = true) i)) :
    Kept (labels lab L) L.length (onPos S L) i := by
  obtain ⟨a', b', hp, hm⟩ := kept_iff.1 h
  obtain ⟨a, -, ha, rfl⟩ := exists_of_lt_pick (show a' < _ from hp.1.trans hp.2.1)
  obtain ⟨b, -, hb, rfl⟩ := exists_of_lt_pick hp.2.1
  refine kept_iff.2 ⟨a, b, (pair_pick hlab ha hb).1 hp, ?_⟩
  rcases hm with h | h | h | h
  · exact Or.inl (count_inj hi ha h)
  · exact Or.inr (Or.inl (count_inj hi hb h))
  · exact Or.inr (Or.inr (Or.inl ((seg_pick_iff hlab ha hi).1 h)))
  · exact Or.inr (Or.inr (Or.inr ((seg_pick_iff hlab hb hi).1 h)))

/-- Keeping after picking is keeping, if the kept positions are picked. -/
theorem kept_pick (hlab : ∀ i h, K i = true → seg (labels lab L) i = some h → K h = true)
    (hK : ∀ i, Kept (labels lab L) L.length (onPos S L) i → K i = true) (hi : K i = true) :
    Kept (labels lab (pick K L)) (pick K L).length (onPos S (pick K L)) (Nat.count (K · = true) i) ↔
      Kept (labels lab L) L.length (onPos S L) i := by
  refine ⟨Kept.of_pick hlab hi, fun h => ?_⟩
  obtain ⟨a, b, hp, hm⟩ := kept_iff.1 h
  have ha := hK a hp.partnered.1.kept
  have hb := hK b hp.partnered.2.kept
  refine kept_iff.2 ⟨_, _, (pair_pick hlab ha hb).2 hp, ?_⟩
  rcases hm with rfl | rfl | h | h
  · exact Or.inl rfl
  · exact Or.inr (Or.inl rfl)
  · exact Or.inr (Or.inr (Or.inl ((seg_pick_iff hlab ha hi).2 h)))
  · exact Or.inr (Or.inr (Or.inr ((seg_pick_iff hlab hb hi).2 h)))

/-- **Selection after picking.**  Nothing is lost if all that is kept is picked,
    and all entries with their labels. -/
theorem keep_pick (hlab : ∀ i h, K i = true → seg (labels lab L) i = some h → K h = true)
    (hK : ∀ i, Kept (labels lab L) L.length (onPos S L) i → K i = true) :
    keep lab S (pick K L) = keep lab S L := by
  rw [keep, pick_pick]
  refine pick_congr fun i _ => ?_
  rw [Bool.eq_iff_iff, Bool.and_eq_true, decide_eq_true_eq, decide_eq_true_eq]
  constructor
  · rintro ⟨hi, hk⟩; exact (kept_pick hlab hK hi).1 hk
  · intro h; exact ⟨hK i h, (kept_pick hlab hK (hK i h)).2 h⟩

/-- **Picking adds nothing to a selection**, as long as the labels of the picked positions are
    picked. -/
theorem keep_pick_sublist (hlab : ∀ i h, K i = true → seg (labels lab L) i = some h → K h = true) :
    (keep lab S (pick K L)).Sublist (keep lab S L) := by
  rw [keep, pick_pick]
  refine pick_mono fun i h => ?_
  rw [Bool.and_eq_true, decide_eq_true_eq] at h
  exact decide_eq_true (h.2.of_pick hlab h.1)

/-- **Selection in two stages.**  Keeping by `S` loses nothing of what a stronger
    `S'` keeps, and the second selection sees the same segments. -/
theorem keep_keep (hS : ∀ x y, S' x y = true → S x y = true) (L : List α) :
    keep lab S' (keep lab S L) = keep lab S' L := by
  refine keep_pick (fun i h hi hs => ?_) fun i h => ?_
  · simp only [decide_eq_true_eq] at hi ⊢; exact hi.kept_seg hs
  · simp only [decide_eq_true_eq]
    refine h.mono fun a b => ?_
    simp only [onPos]
    split
    · exact hS _ _
    · exact id

/-! ## The shape of a selection -/

/-- Every label is directly followed by an entry. -/
def Headed (lab : α → Bool) (L : List α) : Prop :=
  ∀ i, labels lab L i = true → i + 1 < L.length ∧ labels lab L (i + 1) = false

instance (lab : α → Bool) (L : List α) : Decidable (Headed lab L) :=
  decidable_of_iff (∀ i < L.length, labels lab L i = true →
      i + 1 < L.length ∧ labels lab L (i + 1) = false)
    ⟨fun h i hi => h i (labels_lt hi) hi, fun h i _ => h i⟩

theorem keep_headed (lab : α → Bool) (S : α → α → Bool) (L : List α) :
    Headed lab (keep lab S L) := by
  intro m hm
  simp only [keep] at hm ⊢
  set K := fun i => decide (Kept (labels lab L) L.length (onPos S L) i) with hK
  obtain ⟨i, -, hi, rfl⟩ := exists_of_lt_pick (labels_lt hm)
  rw [labels_pick hi] at hm
  have hk : Kept (labels lab L) L.length (onPos S L) i := by simpa [hK] using hi
  simp only [Kept, hm, if_true] at hk
  obtain ⟨t, ht, -, hs, hp⟩ := hk
  have hKt : K t = true := by simpa [hK] using hp.kept
  have hit : i < t := by
    rcases Nat.lt_or_eq_of_le (seg_eq_some.1 hs).1 with h | rfl
    · exact h
    · rw [hp.entry] at hm; cases hm
  have hlt := (count_lt_iff hi).2 hit
  have hlen := count_lt_pick hKt ht
  refine ⟨by omega, ?_⟩
  -- the next picked position is not after `t`, hence in the segment of `i`
  obtain ⟨j, -, hj, he⟩ := exists_of_lt_pick (K := K) (L := L)
    (m := Nat.count (K · = true) i + 1) (by omega)
  rw [← he, labels_pick hj]
  refine (seg_eq_some.1 hs).2.2 j ((count_lt_iff hi).1 (by omega)) ?_
  by_contra hjt
  have := (count_lt_iff hKt).2 (Nat.lt_of_not_le hjt)
  omega

/-- A selection that is not empty contains a related pair. -/
theorem keep_pair {S : α → α → Bool} {L : List α} (h : keep lab S L ≠ []) :
    ∃ a b, Pair (labels lab (keep lab S L)) (keep lab S L).length (onPos S (keep lab S L)) a b := by
  simp only [keep] at h ⊢
  set K := fun i => decide (Kept (labels lab L) L.length (onPos S L) i) with hK
  obtain ⟨i, -, hi, -⟩ := exists_of_lt_pick (List.length_pos_of_ne_nil h)
  obtain ⟨a, b, hp, -⟩ := kept_iff.1 (show Kept (labels lab L) L.length (onPos S L) i by
    simpa [hK] using hi)
  refine ⟨_, _, (pair_pick (fun i h hi hs => ?_) ?_ ?_).2 hp⟩
  · simp only [hK, decide_eq_true_eq] at hi ⊢; exact hi.kept_seg hs
  · simpa [hK] using hp.partnered.1.kept
  · simpa [hK] using hp.partnered.2.kept

/-- **What a selection reports**: whether there is a related pair. -/
theorem keep_ne_nil {S : α → α → Bool} {L : List α} : keep lab S L ≠ [] ↔
    ∃ a b, Pair (labels lab L) L.length (onPos S L) a b := by
  rw [keep, ← List.length_pos_iff_ne_nil]
  constructor
  · intro h
    obtain ⟨i, -, hi, -⟩ := exists_of_lt_pick h
    obtain ⟨a, b, hp, -⟩ := kept_iff.1 (of_decide_eq_true hi)
    exact ⟨a, b, hp⟩
  · rintro ⟨a, b, hp⟩
    exact Nat.zero_lt_of_lt (count_lt_pick (i := b) (decide_eq_true hp.partnered.2.kept) hp.2.1)

theorem two_le_entries {a b : ℕ} (hab : a < b) (hb : b < L.length) (ha' : labels lab L a = false)
    (hb' : labels lab L b = false) : 2 ≤ L.countP fun x => !lab x := by
  have entry : ∀ k (h : k < L.length), labels lab L k = false → (!lab L[k]) = true := by
    intro k h hk
    simpa [labels, List.getElem?_eq_getElem h] using hk
  have ha : a < L.length := by omega
  have hmem : L[a] ∈ L.take b := List.mem_take_iff_getElem.2 ⟨a, by omega, rfl⟩
  have hmem' : L[b] ∈ L.drop b := List.mem_drop_iff_getElem.2 ⟨0, by omega, by simp⟩
  have h1 : 0 < (L.take b).countP fun x => !lab x :=
    List.countP_pos_iff.2 ⟨_, hmem, entry a ha ha'⟩
  have h2 : 0 < (L.drop b).countP fun x => !lab x :=
    List.countP_pos_iff.2 ⟨_, hmem', entry b hb hb'⟩
  rw [← List.take_append_drop b L, List.countP_append]
  omega

/-- A selection that is not empty has two entries. -/
theorem keep_entries (h : keep lab S L ≠ []) : 2 ≤ (keep lab S L).countP fun x => !lab x := by
  obtain ⟨a, b, hab, hb, ha', hb', -⟩ := keep_pair h
  exact two_le_entries hab hb ha' hb'

/-! ## Rewriting the elements -/

/-- **Only labels and relation matter.** -/
theorem keep_map {β : Type*} {lab' : β → Bool} {S' : β → β → Bool} (f : α → β) {L : List α}
    (hlab : ∀ x ∈ L, lab' (f x) = lab x) (hS : ∀ x ∈ L, ∀ y ∈ L, S' (f x) (f y) = S x y) :
    keep lab' S' (L.map f) = (keep lab S L).map f := by
  have hlabels : labels lab' (L.map f) = labels lab L := by
    funext i
    simp only [labels, List.getElem?_map]
    cases hi : L[i]? with
    | none => rfl
    | some x => simpa using hlab x (List.mem_of_getElem? hi)
  have hpos : onPos S' (L.map f) = onPos S L := by
    funext i j
    simp only [onPos, List.getElem?_map]
    cases hi : L[i]? with
    | none => rfl
    | some x =>
      cases hj : L[j]? with
      | none => rfl
      | some y => simpa using hS x (List.mem_of_getElem? hi) y (List.mem_of_getElem? hj)
  rw [keep, keep, map_pick, hlabels, hpos, List.length_map]

end

end DoubleFetch
