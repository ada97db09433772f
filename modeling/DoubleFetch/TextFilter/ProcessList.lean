/-
  The meaning of `process_list`: in both of its modes, it keeps the fetches with a
  compatible partner, and their labels.

  Each loop is a sweep: the iteration at a fetch `t` flags a set of positions
  that only depends on `t` (`transMarks`, `caseMarks`), and the flags after the
  loop are those before it and all these sets (`transLoop_mark`,
  `caseLoop_mark`).  The variables of the loops are functions of the position:
  `last_case` is the last label, and `case_counter` the distance from it.
-/
import DoubleFetch.TextFilter.Filter

namespace DoubleFetch.Filter

/-! ## Lists that start with a fetch -/

variable {L : List Item}

/-- The positions flagged at the fetch `t` of a list that starts with a fetch:
    the first fetch, `t` and its label. -/
def transMarks (L : List Item) (t j : ℕ) : Bool :=
  !cases L t && (j == 0 || j == t || decide (seg (cases L) t = some j))

theorem transLoop_mark (hL : Skeleton L) (i : ℕ) (F : ℕ → Bool) (lastCase : ℕ) (incase : Bool)
    (hlast : lastLabel (cases L) i = if incase then some lastCase else none) :
    transLoop L.length i lastCase incase (mark F L) =
      .ok (mark (sweep (transMarks L) L.length i F) L) := by
  rw [transLoop]
  split_ifs with hi
  · have h0 : 0 < L.length := by omega
    have hv := hL.verify hi
    rw [getItem_mark hi, ok_bind]
    simp only [hv]
    by_cases hc : cases L i
    · -- a label: nothing is flagged
      have hm : ∀ j, transMarks L i j = false := by simp [transMarks, hc]
      rw [transLoop_mark hL (i + 1) F i true (by simp [lastLabel, hc])]
      simp only [hc, if_true, reduceCtorEq, false_and, if_false]
      exact congrArg _ (mark_congr (sweep_step hi fun j _ => by simp [hm]))
    · have hc : cases L i = false := by simpa using hc
      have hs : seg (cases L) i = if incase then some lastCase else none := by
        rw [seg_entry hc, hlast]
      have hnext : lastLabel (cases L) (i + 1) = if incase then some lastCase else none := hs
      cases incase with
      | false =>
        have hlast : seg (cases L) i = none := hs
        simp only [hc, Bool.false_eq_true, if_false, and_self, if_true]
        rw [setFlag_mark_zero h0, ok_bind,
          setFlag_mark hi, ok_bind, transLoop_mark hL (i + 1) _ lastCase false hnext]
        refine congrArg _ (mark_congr (sweep_step hi fun j _ => ?_))
        simp only [transMarks, hc, hlast, Bool.not_false, Bool.true_and, reduceCtorEq,
          decide_false, Bool.or_false]
        cases j == 0 <;> cases j == i <;> simp
      | true =>
        have hlast : seg (cases L) i = some lastCase := hs
        have hlt : lastCase < L.length := by have := (seg_eq_some.1 hlast).1; omega
        simp only [hc, Bool.false_eq_true, if_false, and_false, reduceCtorEq, and_self, if_true]
        rw [setFlag_mark_zero h0, ok_bind,
          setFlag_mark hlt, ok_bind, setFlag_mark hi, ok_bind,
          transLoop_mark hL (i + 1) _ lastCase true hnext]
        refine congrArg _ (mark_congr (sweep_step hi fun j _ => ?_))
        have : decide (lastCase = j) = (j == lastCase) := by
          rw [Bool.eq_iff_iff, decide_eq_true_eq, beq_iff_eq, eq_comm]
        simp only [transMarks, hc, hlast, Bool.not_false, Bool.true_and, Option.some.injEq, this]
        cases j == 0 <;> cases j == i <;> cases j == lastCase <;> simp
  · exact congrArg _ (mark_congr fun j _ => (sweep_end (by omega) F j).symm)
termination_by L.length - i

theorem onPos_true {i j : ℕ} (hi : i < L.length) (hj : j < L.length) :
    onPos (fun _ _ => true) L i j = true := by
  simp [onPos, List.getElem?_eq_getElem hi, List.getElem?_eq_getElem hj]

/-- If the first item is a fetch, it partners all others. -/
theorem transMarks_kept (h0 : cases L 0 = false) {j : ℕ} :
    (∃ t < L.length, 1 ≤ t ∧ transMarks L t j = true) ↔
      Kept (cases L) L.length (onPos (fun _ _ => true) L) j := by
  have hseg0 : seg (cases L) 0 = none := by simp [seg, lastLabel, h0]
  rw [kept_iff]
  constructor
  · rintro ⟨t, ht, h1, hm⟩
    simp only [transMarks, Bool.and_eq_true, Bool.or_eq_true, Bool.not_eq_true', beq_iff_eq,
      decide_eq_true_eq] at hm
    refine ⟨0, t, ⟨by omega, ht, h0, hm.1, Or.inl hseg0, onPos_true (by omega) ht⟩, ?_⟩
    rcases hm.2 with (h | h) | h
    · exact Or.inl h
    · exact Or.inr (Or.inl h)
    · exact Or.inr (Or.inr (Or.inr h))
  · rintro ⟨a, b, ⟨hab, hb, ha', hb', -⟩, hm⟩
    have mk : ∀ t, t < L.length → 1 ≤ t → cases L t = false →
        (j = 0 ∨ j = t ∨ seg (cases L) t = some j) →
        ∃ t < L.length, 1 ≤ t ∧ transMarks L t j = true := by
      intro t ht h1 hc h
      exact ⟨t, ht, h1, by simpa [transMarks, hc, or_assoc] using h⟩
    rcases hm with h | h | h | h
    · by_cases hj : j = 0
      · exact mk b hb (by omega) hb' (Or.inl hj)
      · exact mk a (by omega) (by omega) ha' (Or.inr (Or.inl h))
    · exact mk b hb (by omega) hb' (Or.inr (Or.inl h))
    · have ha0 : a ≠ 0 := by rintro rfl; rw [hseg0] at h; cases h
      exact mk a (by omega) (by omega) ha' (Or.inr (Or.inr h))
    · exact mk b hb (by omega) hb' (Or.inr (Or.inr h))

/-! ## Lists that start with a label -/

/-- The positions flagged at the fetch `t` of a list that starts with a label:
    from the label of `t` up to `t`, unless `t` is the first of its segment. -/
def caseMarks (L : List Item) (t j : ℕ) : Bool :=
  !cases L t && match seg (cases L) t with
    | some h => decide (h + 2 ≤ t ∧ h ≤ j ∧ j ≤ t)
    | none => false

theorem flagLoop_mark {i : ℕ} (hi : i < L.length) (j : ℕ) (F : ℕ → Bool) :
    flagLoop i j (mark F L) = .ok (mark (fun k => F k || decide (j ≤ k ∧ k ≤ i)) L) := by
  rw [flagLoop]
  split_ifs with hj
  · rw [setFlag_mark (by omega), ok_bind, flagLoop_mark hi (j + 1)]
    refine congrArg _ (mark_congr fun k _ => ?_)
    rw [Bool.eq_iff_iff]
    simp only [Bool.or_eq_true, beq_iff_eq, decide_eq_true_eq]
    by_cases hF : F k = true
    · simp only [hF, or_true, true_or]
    · simp only [hF, Bool.false_eq_true, or_false, false_or]; omega
  · refine congrArg _ (mark_congr fun k _ => ?_)
    rw [decide_eq_false (show ¬ (j ≤ k ∧ k ≤ i) by omega), Bool.or_false]
termination_by i + 1 - j

theorem caseLoop_mark (hL : Skeleton L) (i : ℕ) (F : ℕ → Bool) (lastCase caseCounter : ℕ)
    (hlast : lastLabel (cases L) i = some lastCase) (hcount : lastCase + 1 + caseCounter = i) :
    caseLoop L.length i lastCase caseCounter (mark F L) =
      .ok (mark (sweep (caseMarks L) L.length i F) L) := by
  rw [caseLoop]
  split_ifs with hi
  · have hv := hL.verify hi
    rw [getItem_mark hi, ok_bind]
    simp only [hv]
    by_cases hc : cases L i
    · have hm : ∀ j, caseMarks L i j = false := by simp [caseMarks, hc]
      simp only [hc, if_true, reduceCtorEq, if_false]
      rw [caseLoop_mark hL (i + 1) F i 0 (by simp [lastLabel, hc]) (by omega)]
      exact congrArg _ (mark_congr (sweep_step hi fun j _ => by simp [hm]))
    · have hc : cases L i = false := by simpa using hc
      have hs : seg (cases L) i = some lastCase := by rw [seg_entry hc, hlast]
      simp only [hc, Bool.false_eq_true, if_false, if_true]
      split_ifs with hcc
      · rw [flagLoop_mark hi, ok_bind, caseLoop_mark hL (i + 1) _ lastCase (caseCounter + 1) hs
          (by omega)]
        refine congrArg _ (mark_congr (sweep_step hi fun j _ => ?_))
        have h2 : lastCase + 2 ≤ i := by omega
        simp [caseMarks, hc, hs, h2]
      · rw [caseLoop_mark hL (i + 1) F lastCase (caseCounter + 1) hs (by omega)]
        refine congrArg _ (mark_congr (sweep_step hi fun j _ => ?_))
        have h2 : ¬ lastCase + 2 ≤ i := by omega
        simp [caseMarks, hc, hs, h2]
  · exact congrArg _ (mark_congr fun j _ => (sweep_end (by omega) F j).symm)
termination_by L.length - i

/-- If the first item is a label, partners share a segment. -/
theorem caseMarks_kept (h0 : cases L 0 = true) {j : ℕ} :
    (∃ t < L.length, 1 ≤ t ∧ caseMarks L t j = true) ↔
      Kept (cases L) L.length (onPos (fun _ _ => true) L) j := by
  have hsome : ∀ i, seg (cases L) i ≠ none := by
    intro i h; rw [seg_eq_none.1 h 0 (by omega)] at h0; cases h0
  rw [kept_iff]
  constructor
  · rintro ⟨t, ht, -, hm⟩
    simp only [caseMarks, Bool.and_eq_true, Bool.not_eq_true'] at hm
    obtain ⟨hc, hm⟩ := hm
    cases hs : seg (cases L) t with
    | none => exact absurd hs (hsome t)
    | some h =>
      simp only [hs, decide_eq_true_eq] at hm
      obtain ⟨hle, hlab, hent⟩ := seg_eq_some.1 hs
      -- the entry before `j`, or the first one, is in the segment too
      have pair : ∀ a, h < a → a < t → Pair (cases L) L.length (onPos (fun _ _ => true) L) a t := by
        intro a ha hat
        refine ⟨hat, ht, hent a ha hat.le, hc, Or.inr (Or.inr ?_), onPos_true (by omega) ht⟩
        rw [hs]
        exact seg_eq_some.2 ⟨ha.le, hlab, fun i h1 h2 => hent i h1 (by omega)⟩
      by_cases hjt : j = t
      · exact ⟨h + 1, t, pair _ (by omega) (by omega), Or.inr (Or.inl hjt)⟩
      · by_cases hjh : j = h
        · exact ⟨h + 1, t, pair _ (by omega) (by omega), Or.inr (Or.inr (Or.inr (hjh ▸ hs)))⟩
        · exact ⟨j, t, pair j (by omega) (by omega), Or.inl rfl⟩
  · rintro ⟨a, b, ⟨hab, hb, ha', hb', hc, -⟩, hm⟩
    have heq : seg (cases L) a = seg (cases L) b := by
      rcases hc with h | h | h
      · exact absurd h (hsome a)
      · exact absurd h (hsome b)
      · exact h
    cases hs : seg (cases L) b with
    | none => exact absurd hs (hsome b)
    | some h =>
      rw [hs] at heq
      obtain ⟨h1, h2, -⟩ := seg_eq_some.1 heq
      have ha : h ≠ a := by rintro rfl; rw [ha'] at h2; cases h2
      refine ⟨b, hb, by omega, ?_⟩
      simp only [caseMarks, hb', hs, Bool.not_false, Bool.true_and, decide_eq_true_eq]
      rcases hm with h' | h' | h' | h'
      · omega
      · omega
      · rw [heq] at h'; cases h'; omega
      · rw [hs] at h'; cases h'; omega

/-! ## `process_list` -/

/-- **The flags set by `process_list`.** -/
theorem flagList_eq (hL : Skeleton L) (hf : Fresh L) (hne : L ≠ []) :
    flagList L = .ok (mark (fun j =>
      decide (Kept (cases L) L.length (onPos (fun _ _ => true) L) j)) L) := by
  have h0 : 0 < L.length := List.length_pos_of_ne_nil hne
  have hv := hL.verify h0
  rw [flagList, show (0 : Int) = ((0 : ℕ) : Int) from rfl, getItem_nat h0, ok_bind]
  simp only [hv]
  by_cases hc : cases L 0
  · have hloop := caseLoop_mark hL 1 (fun _ => false) 0 0 (by simp [lastLabel, hc]) rfl
    rw [hf.mark] at hloop
    simp only [hc, if_true, reduceCtorEq, if_false, hloop]
    refine congrArg _ (mark_congr fun j _ => ?_)
    simp only [sweep, Bool.false_or, caseMarks_kept hc]
  · have hc : cases L 0 = false := by simpa using hc
    have hloop := transLoop_mark hL 1 (fun _ => false) 0 false (by simp [lastLabel, hc])
    rw [hf.mark] at hloop
    simp only [hc, Bool.false_eq_true, if_false, if_true, hloop]
    refine congrArg _ (mark_congr fun j _ => ?_)
    simp only [sweep, Bool.false_or, transMarks_kept hc]

/-- The selection `process_list` makes. -/
def selected (L : List Item) : List Item := keep Item.isCase (fun _ _ => true) L

theorem processList_eq (hL : Skeleton L) (hf : Fresh L) (hne : L ≠ []) :
    processList L = .ok ((selected L).map (·.line)) := by
  rw [processList, flagList_eq hL hf hne, ok_bind, pure_eq_ok, outLines_mark]; rfl

/-- **One meaning for both modes**: the fetches with a compatible fetch, and the
    labels of their segments. -/
theorem processList_meaning (L : List Item) (hL : Skeleton L) (hf : Fresh L) (hlen : 1 < L.length) :
    ∃ K : ℕ → Bool, processList L = .ok ((pick K L).map (·.line)) ∧
      (∀ i < L.length, cases L i = false →
        (K i = true ↔ ∃ j < L.length, j ≠ i ∧ cases L j = false ∧ Compat (cases L) i j)) ∧
      (∀ i < L.length, cases L i = true →
        (K i = true ↔ ∃ t < L.length, cases L t = false ∧ seg (cases L) t = some i ∧ K t = true)) ∧
      Headed Item.isCase (pick K L) ∧
      (pick K L ≠ [] → 2 ≤ (pick K L).countP fun it => !it.isCase) := by
  have hne : L ≠ [] := by rintro rfl; simp at hlen
  refine ⟨_, processList_eq hL hf hne, fun i hi hc => ?_, fun i hi hc => ?_, keep_headed _ _ _,
    keep_entries⟩
  · rw [decide_eq_true_eq, kept_entry hc, partnered_iff hi hc]
    constructor
    · rintro ⟨j, hj, hji, hcj, hcomp, -⟩; exact ⟨j, hj, hji, hcj, hcomp⟩
    · rintro ⟨j, hj, hji, hcj, hcomp⟩
      exact ⟨j, hj, hji, hcj, hcomp, onPos_true (by omega) (by omega)⟩
  · simp only [decide_eq_true_eq]
    exact kept_label hc

/-- `case 1: get_user(a, p); case 2: get_user(b, p); get_user(c, p); default:`. -/
def twoArms : List Item :=
  ["case 1:\n".toList, "get_user(a, p);\n".toList, "case 2:\n".toList, "get_user(b, p);\n".toList,
    "get_user(c, p);\n".toList, "default:\n".toList].map mkItem

theorem processList_meaning_twoArms :
    ∃ K : ℕ → Bool, processList twoArms = .ok ((pick K twoArms).map (·.line)) ∧
      K 1 = false ∧ K 3 = true ∧ K 4 = true ∧ K 2 = true := by
  obtain ⟨K, h, hK, hlab, -⟩ := processList_meaning twoArms (by decide) (by decide)
    (by decide)
  have h4 : K 4 = true := (hK 4 (by decide) (by decide)).2 (by decide +kernel)
  refine ⟨K, h, ?_, (hK 3 (by decide) (by decide)).2 (by decide +kernel), h4,
    (hlab 2 (by decide) (by decide)).2 ⟨4, by decide, by decide, by decide, h4⟩⟩
  rw [← Bool.not_eq_true, hK 1 (by decide) (by decide)]
  decide +kernel

end DoubleFetch.Filter
