/-
  The two phases on one function.

  * `prefilter_lossless`: `process_list` followed by `process_skeleton` keeps what
    a single selection by `is_same` keeps;
  * `Body`: function bodies with switches, and their flat skeletons.  The skeleton
    has no mark for the end of a switch, so a fetch behind a switch counts as one
    of its last arm; `pairKept_iff` says which pairs of fetches survive all the
    same, and `afterSwitch_lost` is a pair that does not.
-/
import DoubleFetch.TextFilter.ProcessList
import DoubleFetch.TextFilter.Skeleton

namespace DoubleFetch

theorem Filter2.identify_eq : Filter2.identify = Filter.identify := rfl

theorem Filter2.mkItem_eq : Filter2.mkItem = Filter.mkItem := rfl

/-- Items made by `main` from lines of fetches and labels. -/
def Collected (L : List Item) : Prop :=
  ∀ it ∈ L, it = Filter.mkItem it.line ∧ (it.verify = .trans ∨ it.verify = .case)

section
variable {L : List Item} (hL : Collected L)
include hL

theorem Collected.skeleton : Skeleton L := fun it h => (hL it h).2

theorem Collected.fresh : Fresh L := fun it h => by rw [(hL it h).1]; rfl

theorem Collected.sublist {M : List Item} (h : M.Sublist L) : Collected M :=
  fun it hit => hL it (h.subset hit)

/-- Reading the lines again gives the items. -/
theorem Collected.map_mkItem : (L.map (·.line)).map Filter2.mkItem = L := by
  rw [List.map_map, Filter2.mkItem_eq]
  have : ∀ it ∈ L, (Filter.mkItem ∘ (·.line)) it = id it := fun it h => ((hL it h).1).symm
  rw [List.map_congr_left this, List.map_id]

end

theorem keep_sublist {α : Type*} (lab : α → Bool) (S : α → α → Bool) (L : List α) :
    (keep lab S L).Sublist L := pick_sublist ..

/-- **Phase 1 is a lossless prefilter for phase 2.** -/
theorem prefilter_lossless (L : List Item) (hL : Collected L) (hlen : 1 < L.length) :
    ∃ lines, Filter.processList L = .ok lines ∧
      Filter2.processSkeleton (lines.map Filter2.mkItem) =
        .ok ((keep Item.isCase Filter2.sameItem L).map (·.line)) := by
  have hne : L ≠ [] := by rintro rfl; simp at hlen
  have hsub := hL.sublist (keep_sublist Item.isCase (fun _ _ => true) L)
  refine ⟨_, Filter.processList_eq hL.skeleton hL.fresh hne, ?_⟩
  rw [Filter.selected, hsub.map_mkItem,
    Filter2.processSkeleton_eq hsub.skeleton (keep_headed _ _ _) hsub.fresh, Filter2.selected,
    keep_keep fun _ _ _ => rfl]

/-- A label between two fetches of one source. -/
def labelledPair : List Item :=
  ["get_user(a, p);\n".toList, "case 1:\n".toList, "get_user(b, p);\n".toList].map Filter.mkItem

theorem prefilter_lossless_labelledPair : ∃ lines, Filter.processList labelledPair = .ok lines ∧
    Filter2.processSkeleton (lines.map Filter2.mkItem) = .ok (labelledPair.map (·.line)) := by
  have hkeep : (keep Item.isCase Filter2.sameItem labelledPair).map (·.line) =
      labelledPair.map (·.line) := by decide +kernel
  have h := prefilter_lossless labelledPair (by unfold Collected; decide) (by decide)
  rwa [hkeep] at h

/-! ## Function bodies -/

/-- A line with a fetch. -/
structure FetchLine where
  line : Str
  trans : Filter.identify line = .trans

/-- A line with a switch label. -/
structure LabelLine where
  line : Str
  case : Filter.identify line = .case

/-- An arm of a switch, ended by `break`. -/
structure Arm where
  label : LabelLine
  fetches : List FetchLine

/-- The items of a function body. -/
inductive BodyItem where
  | fetch (f : FetchLine)
  | switch (arms : List Arm)

abbrev Body := List BodyItem

/-- Where an entry of a skeleton stands in the body. -/
inductive Place where
  | label
  | outside
  | arm (switch arm : ℕ)
  deriving DecidableEq

/-- The places of two fetches that can run on one path. -/
def Place.CommonPath : Place → Place → Prop
  | .label, _ | _, .label => False
  | .arm k a, .arm k' a' => k = k' → a = a'
  | _, _ => True

instance : ∀ p q : Place, Decidable (p.CommonPath q)
  | .label, q => by cases q <;> exact inferInstanceAs (Decidable False)
  | .outside, .label | .arm _ _, .label => inferInstanceAs (Decidable False)
  | .outside, .outside | .outside, .arm _ _ | .arm _ _, .outside => inferInstanceAs (Decidable True)
  | .arm _ _, .arm _ _ => inferInstanceAs (Decidable (_ → _))

/-- The lines of an arm: its label, then its fetches. -/
def Arm.entries (k a : ℕ) (arm : Arm) : List (Str × Place) :=
  (arm.label.line, .label) :: arm.fetches.map fun f => (f.line, .arm k a)

/-- The lines of the `k`-th item of a body. -/
def BodyItem.entries (k : ℕ) : BodyItem → List (Str × Place)
  | .fetch f => [(f.line, .outside)]
  | .switch arms => (arms.zipIdx.map fun p => p.1.entries k p.2).flatten

/-- The lines of a body. -/
def Body.entries (b : Body) : List (Str × Place) :=
  (b.zipIdx.map fun p => p.1.entries p.2).flatten

/-- The skeleton of a body. -/
def Body.skeleton (b : Body) : List Item := b.entries.map fun e => Filter.mkItem e.1

/-- The entries `i` and `j` are fetches that can run on one path. -/
def Body.OnePath (b : Body) (i j : ℕ) : Prop :=
  ∃ e ∈ b.entries[i]?, ∃ f ∈ b.entries[j]?, e.2.CommonPath f.2

theorem Body.entries_verify (b : Body) :
    ∀ e ∈ b.entries, Filter.identify e.1 = if e.2 = .label then .case else .trans := by
  have harm : ∀ (arm : Arm) k a, ∀ e ∈ arm.entries k a,
      Filter.identify e.1 = if e.2 = .label then .case else .trans := by
    intro arm k a e he
    rcases List.mem_cons.1 he with rfl | he
    · simpa using arm.label.case
    · obtain ⟨f, -, rfl⟩ := List.mem_map.1 he
      simpa using f.trans
  intro e he
  obtain ⟨l, hl, he⟩ := List.mem_flatten.1 he
  obtain ⟨⟨it, k⟩, -, rfl⟩ := List.mem_map.1 hl
  cases it with
  | fetch f =>
    obtain rfl := List.mem_singleton.1 he
    simpa using f.trans
  | switch arms =>
    obtain ⟨l', hl', he⟩ := List.mem_flatten.1 he
    obtain ⟨⟨arm, a⟩, -, rfl⟩ := List.mem_map.1 hl'
    exact harm arm k a e he

theorem Body.collected (b : Body) : Collected b.skeleton := by
  intro it hit
  obtain ⟨e, he, rfl⟩ := List.mem_map.1 hit
  refine ⟨rfl, ?_⟩
  have hv := b.entries_verify e he
  simp only [Filter.mkItem, hv]
  split_ifs <;> simp

theorem Body.OnePath.entries {b : Body} {i j : ℕ} (h : b.OnePath i j) :
    i < b.skeleton.length ∧ j < b.skeleton.length ∧
      cases b.skeleton i = false ∧ cases b.skeleton j = false := by
  obtain ⟨e, he, f, hf, hp⟩ := h
  have entry : ∀ {k : ℕ} {e : Str × Place}, b.entries[k]? = some e → e.2 ≠ .label →
      k < b.skeleton.length ∧ cases b.skeleton k = false := by
    intro k e he hne
    have hv := b.entries_verify e (List.mem_of_getElem? he)
    rw [if_neg hne] at hv
    refine ⟨by simpa [Body.skeleton] using (List.getElem?_eq_some_iff.1 he).1, ?_⟩
    simp [labels, Body.skeleton, he, Item.isCase, Filter.mkItem, hv]
  have hne : e.2 ≠ .label ∧ f.2 ≠ .label := by
    revert hp; cases e.2 <;> cases f.2 <;> simp [Place.CommonPath]
  exact ⟨(entry he hne.1).1, (entry hf hne.2).1, (entry he hne.1).2, (entry hf hne.2).2⟩

/-! ## Which pairs survive -/

/-- The item at position `i` is in the output of `process_list`. -/
def survives (L : List Item) (i : ℕ) : Bool :=
  match Filter.flagList L with
  | .ok L₁ => L₁[i]?.any (·.flag)
  | .error _ => false

/-- The item at position `i` of `L` is in the output of `process_skeleton` run on
    the output of `process_list`, where it is preceded by the items flagged
    before it. -/
def survivesBoth (L : List Item) (i : ℕ) : Bool :=
  match Filter.flagList L with
  | .ok L₁ => L₁[i]?.any (·.flag) &&
    match Filter2.runSkeleton ((outLines L₁).map Filter2.mkItem) with
    | .ok v => v.inList[(L₁.take i).countP (·.flag)]?.any (·.flag)
    | .error _ => false
  | .error _ => false

/-- The fetches `i` and `j` are not lost: both are in the output of phase 1, and
    if they have the same source both are in the output of phase 2. -/
def PairKept (L : List Item) (i j : ℕ) : Prop :=
  (survives L i = true ∧ survives L j = true) ∧
    (onPos Filter2.sameItem L i j = true → survivesBoth L i = true ∧ survivesBoth L j = true)

instance (L : List Item) (i j : ℕ) : Decidable (PairKept L i j) :=
  inferInstanceAs (Decidable (_ ∧ _))

/-- Each of `i` and `j` has some fetch, before the first label or not cut off by a
    label, to pair with; and if `i` and `j` have the same source, one of the same
    source. -/
def PairSeen (L : List Item) (i j : ℕ) : Prop :=
  (Partnered (cases L) L.length (onPos (fun _ _ => true) L) i ∧
    Partnered (cases L) L.length (onPos (fun _ _ => true) L) j) ∧
  (onPos Filter2.sameItem L i j = true →
    Partnered (cases L) L.length (onPos Filter2.sameItem L) i ∧
      Partnered (cases L) L.length (onPos Filter2.sameItem L) j)

theorem countP_take_mark : ∀ (K : ℕ → Bool) (L : List Item) (i : ℕ), i ≤ L.length →
    ((mark K L).take i).countP (·.flag) = Nat.count (K · = true) i
  | _, _, 0, _ => by simp
  | _, [], i + 1, h => by simp at h
  | K, it :: L, i + 1, h => by
    have ih := countP_take_mark (fun j => K (j + 1)) L i (by simpa using h)
    simp only [mark] at ih
    simp only [mark, List.mapIdx_cons, List.take_succ_cons, List.countP_cons, ih, count_succ_front]

section
variable {L : List Item} {i : ℕ}

theorem any_flag_mark {K : ℕ → Bool} (hi : i < L.length) :
    (mark K L)[i]?.any (·.flag) = K i := by
  rw [List.getElem?_eq_getElem (by simpa using hi)]; simp [mark]

theorem survives_iff (hL : Collected L) (hi : i < L.length) (hc : cases L i = false) :
    survives L i = true ↔ Partnered (cases L) L.length (onPos (fun _ _ => true) L) i := by
  have hne : L ≠ [] := by rintro rfl; simp at hi
  simp only [survives, Filter.flagList_eq hL.skeleton hL.fresh hne, any_flag_mark hi,
    decide_eq_true_eq, kept_entry hc]

theorem survivesBoth_iff (hL : Collected L) (hi : i < L.length) (hc : cases L i = false) :
    survivesBoth L i = true ↔ Partnered (cases L) L.length (onPos Filter2.sameItem L) i := by
  have hne : L ≠ [] := by rintro rfl; simp at hi
  have hsub := hL.sublist (keep_sublist Item.isCase (fun _ _ => true) L)
  obtain ⟨v, hrun, hfl, -⟩ := Filter2.runSkeleton_spec hsub.skeleton
    (keep_headed Item.isCase (fun _ _ => true) L) hsub.fresh
  have hall : ∀ a b, onPos Filter2.sameItem L a b = true → onPos (fun _ _ => true) L a b = true := by
    intro a b
    simp only [onPos]
    split <;> simp
  simp only [survivesBoth, Filter.flagList_eq hL.skeleton hL.fresh hne, any_flag_mark hi,
    outLines_mark]
  rw [show (pick (fun j => decide (Kept (cases L) L.length (onPos (fun _ _ => true) L) j)) L) =
    keep Item.isCase (fun _ _ => true) L from rfl, hsub.map_mkItem, hrun, Bool.and_eq_true]
  simp only [hfl, countP_take_mark _ _ _ hi.le]
  set K := fun j => decide (Kept (cases L) L.length (onPos (fun _ _ => true) L) j) with hKdef
  rw [show keep Item.isCase (fun _ _ => true) L = pick K L from rfl]
  have hlab : ∀ i h, K i = true → seg (cases L) i = some h → K h = true := by
    intro i h hi hs
    simp only [hKdef, decide_eq_true_eq] at hi ⊢; exact hi.kept_seg hs
  have hkept : ∀ i, Kept (cases L) L.length (onPos Filter2.sameItem L) i → K i = true := by
    intro i h
    simp only [hKdef, decide_eq_true_eq]; exact h.mono hall
  constructor
  · rintro ⟨hK, hv⟩
    rw [any_flag_mark (count_lt_pick hK hi), decide_eq_true_eq, kept_pick hlab hkept hK,
      kept_entry hc] at hv
    exact hv
  · intro hp
    have hK := hkept i hp.kept
    refine ⟨hK, ?_⟩
    rw [any_flag_mark (count_lt_pick hK hi), decide_eq_true_eq, kept_pick hlab hkept hK]
    exact hp.kept

end

/-- **Which pairs survive.**  Two fetches on one path are kept exactly if the flat
    skeleton shows each of them some fetch to pair with. -/
theorem pairKept_iff (b : Body) {i j : ℕ} (h : b.OnePath i j) :
    PairKept b.skeleton i j ↔ PairSeen b.skeleton i j := by
  obtain ⟨hi, hj, hci, hcj⟩ := h.entries
  simp only [PairKept, PairSeen, survives_iff b.collected hi hci, survives_iff b.collected hj hcj,
    survivesBoth_iff b.collected hi hci, survivesBoth_iff b.collected hj hcj]

/-- In particular, if the skeleton shows the two fetches to each other. -/
theorem pairKept_of_compat (b : Body) {i j : ℕ} (h : b.OnePath i j) (hij : i < j)
    (hc : Compat (cases b.skeleton) i j) : PairKept b.skeleton i j := by
  obtain ⟨hi, hj, hci, hcj⟩ := h.entries
  have hall : onPos (fun _ _ => true) b.skeleton i j = true := by
    simp [onPos, List.getElem?_eq_getElem hi, List.getElem?_eq_getElem hj]
  refine (pairKept_iff b h).2 ⟨?_, fun hs => ?_⟩
  · exact Pair.partnered ⟨hij, hj, hci, hcj, hc, hall⟩
  · exact Pair.partnered ⟨hij, hj, hci, hcj, hc, hs⟩

/-- `switch (n) { case 1: get_user(a, p); break; default: break; } get_user(b, p);` -/
def afterSwitch : Body :=
  [.switch [⟨⟨"case 1:\n".toList, by decide⟩, [⟨"get_user(a, p);\n".toList, by decide⟩]⟩,
    ⟨⟨"default:\n".toList, by decide⟩, []⟩],
   .fetch ⟨"get_user(b, p);\n".toList, by decide⟩]

theorem afterSwitch_onePath : afterSwitch.OnePath 1 3 :=
  ⟨("get_user(a, p);\n".toList, .arm 0 0), rfl, ("get_user(b, p);\n".toList, .outside), rfl, trivial⟩

/-- The fetch in the arm and the fetch behind the switch run on one path, and both
    are lost. -/
theorem afterSwitch_lost : afterSwitch.OnePath 1 3 ∧ ¬ PairKept afterSwitch.skeleton 1 3 :=
  ⟨afterSwitch_onePath, by decide +kernel⟩

theorem pairKept_iff_afterSwitch :
    PairKept afterSwitch.skeleton 1 3 ↔ PairSeen afterSwitch.skeleton 1 3 :=
  pairKept_iff afterSwitch afterSwitch_onePath

end DoubleFetch
