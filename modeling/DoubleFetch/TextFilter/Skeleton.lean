/-
  The meaning of `process_skeleton`: on a list in which every label is directly
  followed by a fetch, it raises no exception and keeps the fetches with a
  compatible partner of the same source, and their labels.

  The level at a fetch is the number of labels up to it, so equal levels mean
  equal segments and level `0` the prefix (`comparePair_spec`).  A remembered
  index may be stale; it is the label of the fetch at hand whenever it is used
  (`s2_case_index` only if a label was passed since `s1`).  `innerLoop_spec` and
  `outerLoop_spec` carry this, with the flags as sweeps over the second and the
  first fetch of a pair.
-/
import DoubleFetch.TextFilter.Filter2

namespace DoubleFetch.Filter2

variable {L : List Item}

/-- `is_same` on two items. -/
def sameItem (x y : Item) : Bool := same x.line y.line

/-- The positions flagged for the fetches `a` and `b`. -/
def pairMarks (L : List Item) (a b j : ℕ) : Bool :=
  decide (Pair (cases L) L.length (onPos sameItem L) a b ∧ MarkedBy (cases L) a b j)

/-- What the trace has to say: the loops stay inside the list, and the index used
    to flag a label is that of the label heading the segment of the fetch. -/
def Access.Safe (L : List Item) : Access → Prop
  | .s1 s | .s2 s => s < L.length
  | .label fetch index => fetch < L.length ∧ ∃ h : ℕ, index = h ∧ seg (cases L) fetch = some h

/-- The label skip at `s`: it lands on a fetch, the level counts the labels up to
    it, and the index is its label if that was passed just now. -/
theorem skipLabel_mark (hL : Skeleton L) (hH : Headed Item.isCase L) (F : ℕ → Bool) {s : ℕ}
    (hs : s < L.length) (index : Int) : ∃ s' index',
    skipLabel (mark F L) s (Nat.count (cases L · = true) s) index =
      .ok (s', Nat.count (cases L · = true) (s' + 1), index') ∧
    s ≤ s' ∧ s' < L.length ∧ cases L s' = false ∧ (∀ t, s ≤ t → t < s' → cases L t = true) ∧
    ((seg (cases L) s' = some s ∧ index' = s) ∨
      (seg (cases L) s' = lastLabel (cases L) s ∧ index' = index)) := by
  simp only [skipLabel, getItem_mark hs, ok_bind, hL.verify hs]
  by_cases hc : cases L s
  · obtain ⟨h1, h2⟩ := hH s hc
    refine ⟨s + 1, s, ?_, by omega, h1, h2, fun t h h' => ?_, Or.inl ⟨?_, rfl⟩⟩
    · simp [hc, Nat.count_succ, h2]
    · rwa [show t = s by omega]
    · simp [seg, lastLabel, h2, hc]
  · have hc : cases L s = false := by simpa using hc
    refine ⟨s, index, ?_, le_rfl, hs, hc, fun t h h' => by omega, Or.inr ⟨seg_entry hc, rfl⟩⟩
    simp [hc, Nat.count_succ]

/-- The variables after a comparison of `a` and `b`, from flags `F` and variables `v`. -/
structure Compared (L : List Item) (a b : ℕ) (F : ℕ → Bool) (v v' : Skel) : Prop where
  inList : v'.inList = mark (fun j => F j || pairMarks L a b j) L
  s1CaseIndex : v'.s1CaseIndex = v.s1CaseIndex
  s2CaseIndex : v'.s2CaseIndex = v.s2CaseIndex
  trace : ∀ e ∈ v'.trace, e.Safe L

section
variable {a b : ℕ} {F : ℕ → Bool} {v : Skel}

theorem compared_skip (hv : v.inList = mark F L) (htr : ∀ e ∈ v.trace, e.Safe L)
    (hn : ¬ Pair (cases L) L.length (onPos sameItem L) a b) : Compared L a b F v v :=
  ⟨by rw [hv]; exact mark_congr fun j _ => by simp [pairMarks, hn], rfl, rfl, htr⟩

/-- The fetches and one label are flagged. -/
theorem mark_pair {h : ℕ} (hp : Pair (cases L) L.length (onPos sameItem L) a b)
    (hm : ∀ j, MarkedBy (cases L) a b j ↔ j = a ∨ j = b ∨ j = h) :
    mark (fun i => i == h || (i == b || (i == a || F i))) L =
      mark (fun j => F j || pairMarks L a b j) L := by
  refine mark_congr fun j _ => ?_
  rw [Bool.eq_iff_iff]
  simp only [pairMarks, hp, true_and, hm, Bool.or_eq_true, beq_iff_eq, decide_eq_true_eq]
  tauto

/-- **One comparison.**  The levels decide compatibility, and the index used is
    the label of the segment. -/
theorem comparePair_spec (hab : a < b) (hb : b < L.length) (ha' : cases L a = false)
    (hb' : cases L b = false) (hv : v.inList = mark F L)
    (h1 : ∀ h, seg (cases L) a = some h → v.s1CaseIndex = h)
    (h2 : ∀ h, seg (cases L) b = some h → a < h → v.s2CaseIndex = h)
    (htr : ∀ e ∈ v.trace, e.Safe L) :
    ∃ v', comparePair a (Nat.count (cases L · = true) (a + 1)) b
      (Nat.count (cases L · = true) (b + 1)) v = .ok v' ∧ Compared L a b F v v' := by
  have ha : a < L.length := by omega
  have hpair : Pair (cases L) L.length (onPos sameItem L) a b ↔
      Compat (cases L) a b ∧ same L[a].line L[b].line = true := by
    simp [Pair, hab, hb, ha', hb', onPos, List.getElem?_eq_getElem ha, sameItem]
  have hzero : ∀ {i}, Nat.count (cases L · = true) (i + 1) = 0 ↔ seg (cases L) i = none :=
    lastLabel_count_eq_zero
  simp only [comparePair, hv, getItem_mark ha, getItem_mark hb, ok_bind, isSame_eq]
  split_ifs with hc hs hc2 hs hc3 hs
  · -- both in the prefix
    have hsa := hzero.1 hc.1
    have hsb := hzero.1 hc.2
    have hp := hpair.2 ⟨Or.inl hsa, hs⟩
    simp only [setFlag_mark ha, setFlag_mark hb, ok_bind]
    refine ⟨_, rfl, mark_congr fun j _ => ?_, rfl, rfl, htr⟩
    rw [Bool.eq_iff_iff]
    simp only [pairMarks, hp, true_and, MarkedBy, hsa, hsb, reduceCtorEq, or_false,
      Bool.or_eq_true, beq_iff_eq, decide_eq_true_eq]
    tauto
  · exact ⟨v, rfl, compared_skip hv htr fun hp => hs (hpair.1 hp).2⟩
  · -- the first in the prefix
    have hsa := hzero.1 hc2.1
    obtain ⟨h, hsb⟩ := Option.ne_none_iff_exists'.1 (mt hzero.2 hc2.2)
    obtain ⟨hle, hl, -⟩ := seg_eq_some.1 hsb
    have hah : a < h := by
      by_contra hn
      rw [seg_eq_none.1 hsa h (by omega)] at hl; cases hl
    have hp := hpair.2 ⟨Or.inl hsa, hs⟩
    have hidx := h2 h hsb hah
    have hh : h < L.length := by omega
    simp only [setFlag_mark ha, setFlag_mark hb, hidx, setFlag_mark hh, ok_bind]
    refine ⟨_, rfl, mark_pair hp fun j => ?_, rfl, hidx.symm, ?_⟩
    · simp [MarkedBy, hsa, hsb, eq_comm]
    · simp only [List.mem_append, List.mem_singleton]
      rintro e (he | rfl)
      · exact htr e he
      · exact ⟨hb, h, rfl, hsb⟩
  · exact ⟨v, rfl, compared_skip hv htr fun hp => hs (hpair.1 hp).2⟩
  · -- both in one segment
    obtain ⟨h, hsa⟩ := Option.ne_none_iff_exists'.1 (mt hzero.2 hc3.1)
    have heq := (seg_eq_iff_count hab.le).2 hc3.2
    have hsb : seg (cases L) b = some h := heq ▸ hsa
    have hp := hpair.2 ⟨Or.inr (Or.inr heq), hs⟩
    have hidx := h1 h hsa
    have hh : h < L.length := by have := (seg_eq_some.1 hsa).1; omega
    simp only [setFlag_mark ha, setFlag_mark hb, hidx, setFlag_mark hh, ok_bind]
    refine ⟨_, rfl, mark_pair hp fun j => ?_, hidx.symm, rfl, ?_⟩
    · simp [MarkedBy, hsa, hsb, eq_comm]
    · simp only [List.mem_append, List.mem_cons, List.not_mem_nil, or_false]
      rintro e (he | rfl | rfl)
      · exact htr e he
      · exact ⟨ha, h, rfl, hsa⟩
      · exact ⟨hb, h, rfl, hsb⟩
  · exact ⟨v, rfl, compared_skip hv htr fun hp => hs (hpair.1 hp).2⟩
  · -- in different segments
    refine ⟨v, rfl, compared_skip hv htr fun hp => ?_⟩
    rcases (hpair.1 hp).1 with h | h | h
    · have := hzero.2 h; tauto
    · have hle : Nat.count (cases L · = true) (a + 1) ≤ Nat.count (cases L · = true) (b + 1) :=
        Nat.count_monotone _ (by omega)
      have := hzero.2 h
      exact hc ⟨by omega, this⟩
    · have := (seg_eq_iff_count hab.le).1 h; tauto

end

/-- A sweep skips positions that flag nothing. -/
theorem sweep_skip {P : ℕ → ℕ → Bool} {n s s' : ℕ} (hs : s ≤ s')
    (hP : ∀ t, s ≤ t → t < s' → ∀ j, P t j = false) (F : ℕ → Bool) (j : ℕ) :
    sweep P n s' F j = sweep P n s F j := by
  rw [Bool.eq_iff_iff]
  simp only [sweep, Bool.or_eq_true, decide_eq_true_eq]
  refine or_congr Iff.rfl ⟨?_, ?_⟩
  · rintro ⟨t, ht, h, hp⟩; exact ⟨t, ht, by omega, hp⟩
  · rintro ⟨t, ht, h, hp⟩
    refine ⟨t, ht, ?_, hp⟩
    by_contra hn
    rw [hP t h (by omega)] at hp; cases hp

/-- **The loop over `s2`**, from a position `s2` behind the fetch `a`. -/
theorem innerLoop_spec (hL : Skeleton L) (hH : Headed Item.isCase L) {a : ℕ}
    (ha : cases L a = false) (s2 : ℕ) (has : a < s2) {F : ℕ → Bool} {v : Skel}
    (hv : v.inList = mark F L) (h1 : ∀ h, seg (cases L) a = some h → v.s1CaseIndex = h)
    (h2 : ∀ h, lastLabel (cases L) s2 = some h → a < h → v.s2CaseIndex = h)
    (htr : ∀ e ∈ v.trace, e.Safe L) :
    ∃ v', innerLoop L.length a (Nat.count (cases L · = true) (a + 1)) s2
        (Nat.count (cases L · = true) s2) v = .ok v' ∧
      v'.inList = mark (sweep (pairMarks L a) L.length s2 F) L ∧
      v'.s1CaseIndex = v.s1CaseIndex ∧ ∀ e ∈ v'.trace, e.Safe L := by
  rw [innerLoop]
  split_ifs with hs
  · obtain ⟨b, index', hskip, hsb, hb, hb', hlab, hidx⟩ :=
      skipLabel_mark hL hH F hs v.s2CaseIndex
    rw [← hv] at hskip
    split
    · rename_i e h; rw [hskip] at h; cases h
    · rename_i b₁ level₁ index₁ h
      rw [hskip] at h; cases h
      have h2' : ∀ h, seg (cases L) b = some h → a < h → index' = h := by
        intro h hseg hah
        rcases hidx with ⟨hi, rfl⟩ | ⟨hi, rfl⟩
        · rw [hi] at hseg; cases hseg; rfl
        · rw [hi] at hseg; exact h2 h hseg hah
      obtain ⟨v₁, hcmp, hc⟩ := comparePair_spec (v := { v with
          s2CaseIndex := index', trace := v.trace ++ [.s2 b] })
        (show a < b by omega) hb ha hb' hv h1 h2' (by
          simp only [List.mem_append, List.mem_singleton]
          rintro e (he | rfl)
          · exact htr e he
          · exact hb)
      simp only [hcmp, ok_bind]
      obtain ⟨v', hloop, hfl, hi1, htr'⟩ := innerLoop_spec hL hH ha (b + 1) (by omega) hc.inList
        (fun h hseg => by rw [hc.s1CaseIndex]; exact h1 h hseg)
        (fun h hseg hah => by rw [hc.s2CaseIndex]; exact h2' h hseg hah) hc.trace
      refine ⟨v', hloop, ?_, by rw [hi1, hc.s1CaseIndex], htr'⟩
      rw [hfl]
      refine mark_congr fun j hj => ?_
      rw [sweep_step hb (fun _ _ => rfl) j hj]
      refine sweep_skip hsb (fun t h h' j => ?_) F j
      have := hlab t h h'
      simp [pairMarks, Pair, this]
  · refine ⟨v, rfl, ?_, rfl, htr⟩
    rw [hv]; exact mark_congr fun j _ => (sweep_end (by omega) F j).symm
termination_by L.length - s2

/-- The positions flagged by the pairs whose first fetch is `a`. -/
def rowMarks (L : List Item) (a j : ℕ) : Bool := decide (∃ b < L.length, pairMarks L a b j = true)

/-- **The loop over `s1`.** -/
theorem outerLoop_spec (hL : Skeleton L) (hH : Headed Item.isCase L) (s1 : ℕ) {F : ℕ → Bool}
    {v : Skel} (hv : v.inList = mark F L)
    (h1 : ∀ h, lastLabel (cases L) s1 = some h → v.s1CaseIndex = h)
    (htr : ∀ e ∈ v.trace, e.Safe L) :
    ∃ v', outerLoop L.length s1 (Nat.count (cases L · = true) s1) v = .ok v' ∧
      v'.inList = mark (sweep (rowMarks L) L.length s1 F) L ∧ ∀ e ∈ v'.trace, e.Safe L := by
  rw [outerLoop]
  split_ifs with hs
  · obtain ⟨a, index', hskip, hsa, ha, ha', hlab, hidx⟩ :=
      skipLabel_mark hL hH F (show s1 < L.length by omega) v.s1CaseIndex
    rw [← hv] at hskip
    split
    · rename_i e h; rw [hskip] at h; cases h
    · rename_i a₁ level₁ index₁ h
      rw [hskip] at h; cases h
      have h1' : ∀ h, seg (cases L) a = some h → index' = h := by
        intro h hseg
        rcases hidx with ⟨hi, rfl⟩ | ⟨hi, rfl⟩
        · rw [hi] at hseg; cases hseg; rfl
        · rw [hi] at hseg; exact h1 h hseg
      obtain ⟨v₁, hin, hfl, hi1, htr₁⟩ := innerLoop_spec (v := { v with
          s1CaseIndex := index', trace := v.trace ++ [.s1 a] }) hL hH ha' (a + 1) (by omega) hv h1'
        (fun h hseg hah => by have := (lastLabel_eq_some.1 hseg).1; omega) (by
          simp only [List.mem_append, List.mem_singleton]
          rintro e (he | rfl)
          · exact htr e he
          · exact ha)
      simp only [hin, ok_bind]
      obtain ⟨v', hloop, hfl', htr'⟩ := outerLoop_spec hL hH (a + 1) hfl
        (fun h hseg => by rw [hi1]; exact h1' h hseg) htr₁
      refine ⟨v', hloop, ?_, htr'⟩
      rw [hfl']
      refine mark_congr fun j hj => ?_
      rw [sweep_step ha (F := F) (fun j _ => ?_) j hj]
      · refine sweep_skip hsa (fun t h h' j => ?_) F j
        have := hlab t h h'
        simp [rowMarks, pairMarks, Pair, this]
      · rw [Bool.eq_iff_iff]
        simp only [sweep, rowMarks, Bool.or_eq_true, decide_eq_true_eq]
        refine or_congr Iff.rfl ⟨?_, ?_⟩
        · rintro ⟨b, hb, -, hp⟩; exact ⟨b, hb, hp⟩
        · rintro ⟨b, hb, hp⟩
          refine ⟨b, hb, ?_, hp⟩
          simp only [pairMarks, decide_eq_true_eq] at hp
          exact hp.1.1
  · refine ⟨v, rfl, ?_, htr⟩
    rw [hv]
    refine mark_congr fun j _ => ?_
    -- the last position is not the first of a pair
    rw [sweep, decide_eq_false, Bool.or_false]
    rintro ⟨t, ht, hst, hr⟩
    simp only [rowMarks, pairMarks, decide_eq_true_eq] at hr
    obtain ⟨b, hb, ⟨htb, -⟩, -⟩ := hr
    omega
termination_by L.length - s1

/-! ## `process_skeleton` -/

/-- The selection `process_skeleton` makes. -/
def selected (L : List Item) : List Item := keep Item.isCase sameItem L

/-- **The flags set by `process_skeleton`, and its trace.** -/
theorem runSkeleton_spec (hL : Skeleton L) (hH : Headed Item.isCase L) (hf : Fresh L) :
    ∃ v, runSkeleton L = .ok v ∧
      v.inList = mark (fun j => decide (Kept (cases L) L.length (onPos sameItem L) j)) L ∧
      ∀ e ∈ v.trace, e.Safe L := by
  obtain ⟨v, hrun, hfl, htr⟩ := outerLoop_spec hL hH 0 (F := fun _ => false) (v := { inList := L })
    hf.mark.symm (by simp [lastLabel]) (by simp)
  simp only [Nat.count_zero] at hrun
  refine ⟨v, hrun, ?_, htr⟩
  rw [hfl]
  refine mark_congr fun j _ => ?_
  rw [Bool.eq_iff_iff, decide_eq_true_eq, kept_iff]
  simp only [sweep, rowMarks, pairMarks, Bool.false_or, decide_eq_true_eq]
  constructor
  · rintro ⟨a, -, -, b, -, hp⟩; exact ⟨a, b, hp⟩
  · rintro ⟨a, b, hp⟩
    exact ⟨a, by have := hp.1.1; have := hp.1.2.1; omega, by omega, b, hp.1.2.1, hp⟩

theorem processSkeleton_eq (hL : Skeleton L) (hH : Headed Item.isCase L) (hf : Fresh L) :
    processSkeleton L = .ok ((selected L).map (·.line)) := by
  obtain ⟨v, hrun, hfl, -⟩ := runSkeleton_spec hL hH hf
  rw [processSkeleton, hrun, ok_bind, pure_eq_ok, hfl, outLines_mark]; rfl

/-- The lines at `i` and `j` have the same source. -/
theorem onPos_sameItem {i j : ℕ} : onPos sameItem L i j = true ↔
    ∃ x y, L[i]? = some x ∧ L[j]? = some y ∧ isSame x.line y.line = .ok true := by
  simp only [onPos, sameItem, isSame_eq, Except.ok.injEq]
  constructor
  · intro h
    split at h
    · rename_i x y hx hy; exact ⟨x, y, hx, hy, h⟩
    · cases h
  · rintro ⟨x, y, hx, hy, h⟩
    simpa only [hx, hy] using h

/-- **The meaning of `process_skeleton`**: the fetches with a compatible fetch of
    the same source, and the labels of their segments. -/
theorem processSkeleton_meaning (L : List Item) (hL : Skeleton L) (hf : Fresh L)
    (hH : Headed Item.isCase L) :
    ∃ K : ℕ → Bool, processSkeleton L = .ok ((pick K L).map (·.line)) ∧
      (∃ v, runSkeleton L = .ok v ∧ ∀ e ∈ v.trace, e.Safe L) ∧
      (∀ i < L.length, cases L i = false →
        (K i = true ↔ ∃ j < L.length, j ≠ i ∧ cases L j = false ∧ Compat (cases L) i j ∧
          ∃ x y, L[min i j]? = some x ∧ L[max i j]? = some y ∧
            isSame x.line y.line = .ok true)) ∧
      (∀ i < L.length, cases L i = true →
        (K i = true ↔ ∃ t < L.length, cases L t = false ∧ seg (cases L) t = some i ∧
          K t = true)) := by
  obtain ⟨v, hrun, -, htr⟩ := runSkeleton_spec hL hH hf
  refine ⟨_, processSkeleton_eq hL hH hf, ⟨v, hrun, htr⟩, fun i hi hc => ?_, fun i hi hc => ?_⟩
  · rw [decide_eq_true_eq, kept_entry hc, partnered_iff hi hc]
    simp only [onPos_sameItem]
  · simp only [decide_eq_true_eq]
    exact kept_label hc

/-- A fetch before a label and two fetches in its segment. -/
def threeFetches : List Item :=
  ["get_user(a, p);\n".toList, "case 1:\n".toList, "get_user(b, q);\n".toList,
    "get_user(c, p);\n".toList].map mkItem

theorem processSkeleton_meaning_threeFetches :
    ∃ K : ℕ → Bool, processSkeleton threeFetches = .ok ((pick K threeFetches).map (·.line)) ∧
      K 3 = true ∧ K 1 = true := by
  obtain ⟨K, h, -, hK, hlab⟩ := processSkeleton_meaning threeFetches (by decide)
    (by decide) (by decide)
  have h3 : K 3 = true := (hK 3 (by decide) (by decide)).2
    ⟨0, by decide, by decide, by decide, by decide, _, _, rfl, rfl, by decide +kernel⟩
  exact ⟨K, h, h3, (hlab 1 (by decide) (by decide)).2 ⟨3, by decide, by decide, by decide, h3⟩⟩

end DoubleFetch.Filter2
