/-
  The data of the text filters: the tags of lines, the items collected for one
  function, and access to Python lists.

  * `Item` is a dictionary of `in_list` with its keys `line`, `verify`, `flag`;
  * `getItem` and `setFlag` are `in_list[i]` and `in_list[i]['flag'] = True`: a
    negative index counts from the end, any other index off the list raises
    `IndexError`;
  * `mark F L` is `L` with the flags `F`: the loops of the filters only change
    flags, and `setFlag_mark` says how;
  * `sweep` are the flags a loop has set;
  * `readTrans` is the loop with which both filters collect the items of a
    function.  An open file is the list of lines that `readline` will return.
-/
import DoubleFetch.Base.Segment
import DoubleFetch.Base.Text

namespace DoubleFetch

/-- The exceptions the modelled Python code can raise. -/
inductive PyErr where
  | indexError
  deriving DecidableEq

@[simp] theorem ok_bind {α β : Type} (a : α) (f : α → Except PyErr β) :
    (Except.ok a >>= f) = f a := rfl

@[simp] theorem error_bind {α β : Type} (e : PyErr) (f : α → Except PyErr β) :
    (Except.error e >>= f) = Except.error e := rfl

@[simp] theorem pure_eq_ok {α : Type} (a : α) : (pure a : Except PyErr α) = Except.ok a := rfl

/-- The tags returned by `identify`. -/
inductive Kind where
  | trans | case | lbrace | rbrace | blank | funcDecl
  deriving DecidableEq

/-- An element of `in_list`. -/
@[ext] structure Item where
  line : Str
  verify : Kind
  flag : Bool
  deriving DecidableEq

/-! ## Python lists -/

/-- The position an index denotes in a list of length `n`. -/
def pyIndex (n : ℕ) (i : Int) : Except PyErr ℕ :=
  if 0 ≤ i ∧ i < n then .ok i.toNat
  else if i < 0 ∧ -(n : Int) ≤ i then .ok (n + i).toNat
  else .error .indexError

/-- `in_list[i]`. -/
def getItem (inList : List Item) (i : Int) : Except PyErr Item := do
  let k ← pyIndex inList.length i
  match inList[k]? with
  | some it => .ok it
  | none => .error .indexError

/-- `in_list[i]['flag'] = True`. -/
def setFlag (inList : List Item) (i : Int) : Except PyErr (List Item) := do
  let k ← pyIndex inList.length i
  .ok (inList.modify k fun it => { it with flag := true })

/-- The loop `for i in in_list: if i['flag'] == True: out_list.append(i['line'])`. -/
def outLines (inList : List Item) : List Str := (inList.filter (·.flag)).map (·.line)

theorem pyIndex_nat {n k : ℕ} (h : k < n) : pyIndex n k = .ok k := by
  simp [pyIndex, h]

theorem getItem_nat {L : List Item} {k : ℕ} (h : k < L.length) : getItem L k = .ok L[k] := by
  simp [getItem, pyIndex_nat h, List.getElem?_eq_getElem h]

/-! ## Flags -/

/-- The list with the flags `F`. -/
def mark (F : ℕ → Bool) (L : List Item) : List Item :=
  L.mapIdx fun i it => { it with flag := F i }

@[simp] theorem length_mark (F : ℕ → Bool) (L : List Item) : (mark F L).length = L.length := by
  simp [mark]

theorem getItem_mark {F : ℕ → Bool} {L : List Item} {k : ℕ} (h : k < L.length) :
    getItem (mark F L) k = .ok { L[k] with flag := F k } := by
  rw [getItem_nat (by simpa using h)]; simp [mark]

theorem setFlag_mark {F : ℕ → Bool} {L : List Item} {k : ℕ} (h : k < L.length) :
    setFlag (mark F L) k = .ok (mark (fun i => i == k || F i) L) := by
  simp only [setFlag, length_mark, pyIndex_nat h, ok_bind, Except.ok.injEq]
  refine List.ext_getElem (by simp) fun i hi hi' => ?_
  by_cases hik : k = i
  · subst hik; simp [mark]
  · simp [mark, hik, Ne.symm hik]

theorem setFlag_mark_zero {F : ℕ → Bool} {L : List Item} (h : 0 < L.length) :
    setFlag (mark F L) 0 = .ok (mark (fun i => i == 0 || F i) L) := setFlag_mark h

/-- A list all of whose flags are `False`. -/
def Fresh (L : List Item) : Prop := ∀ it ∈ L, it.flag = false

instance (L : List Item) : Decidable (Fresh L) := inferInstanceAs (Decidable (∀ it ∈ L, _))

theorem Fresh.mark {L : List Item} (h : Fresh L) : mark (fun _ => false) L = L := by
  refine List.ext_getElem (by simp) fun i hi hi' => ?_
  have := h L[i] (List.getElem_mem hi')
  simp only [DoubleFetch.mark, List.getElem_mapIdx]
  exact Item.ext rfl rfl this.symm

theorem mark_congr {F G : ℕ → Bool} {L : List Item} (h : ∀ i < L.length, F i = G i) :
    mark F L = mark G L := by
  refine List.ext_getElem (by simp) fun i hi _ => ?_
  simp only [mark, List.getElem_mapIdx]
  rw [h i (by simpa using hi)]

theorem outLines_mark : ∀ (F : ℕ → Bool) (L : List Item),
    outLines (mark F L) = (pick F L).map (·.line)
  | _, [] => rfl
  | F, it :: L => by
    have ih := outLines_mark (fun i => F (i + 1)) L
    simp only [outLines, mark] at ih
    by_cases h : F 0 <;> simp [outLines, mark, List.mapIdx_cons, pick, h, ih]

/-! ## Fetches and labels -/

/-- The item is tagged `case`. -/
def Item.isCase (it : Item) : Bool := it.verify == .case

/-- Only fetches and labels. -/
def Skeleton (L : List Item) : Prop := ∀ it ∈ L, it.verify = .trans ∨ it.verify = .case

instance (L : List Item) : Decidable (Skeleton L) := inferInstanceAs (Decidable (∀ it ∈ L, _))

/-- The labels of a list of items. -/
abbrev cases (L : List Item) : ℕ → Bool := labels Item.isCase L

theorem labels_isCase {L : List Item} {k : ℕ} (h : k < L.length) :
    cases L k = (L[k].verify == .case) := by
  simp [labels, List.getElem?_eq_getElem h, Item.isCase]

theorem Skeleton.verify {L : List Item} (hL : Skeleton L) {k : ℕ} (h : k < L.length) :
    L[k].verify = if cases L k then .case else .trans := by
  rw [labels_isCase h]
  rcases hL L[k] (List.getElem_mem h) with hv | hv <;> simp [hv]

/-! ## Sweeps

A loop that goes through a list and flags at each position a set of positions
that does not depend on the flags. -/

/-- The flags `F`, and those set by the sweep from `i` up to `n`. -/
def sweep (P : ℕ → ℕ → Bool) (n i : ℕ) (F : ℕ → Bool) (j : ℕ) : Bool :=
  F j || decide (∃ t < n, i ≤ t ∧ P t j = true)

theorem sweep_step {P : ℕ → ℕ → Bool} {n i : ℕ} (hi : i < n) {F G : ℕ → Bool}
    (hG : ∀ j < n, G j = (F j || P i j)) : ∀ j < n, sweep P n (i + 1) G j = sweep P n i F j := by
  intro j hj
  rw [Bool.eq_iff_iff]
  simp only [sweep, hG j hj, Bool.or_eq_true, decide_eq_true_eq]
  constructor
  · rintro ((h | h) | ⟨t, ht, hit, hP⟩)
    · exact Or.inl h
    · exact Or.inr ⟨i, hi, le_rfl, h⟩
    · exact Or.inr ⟨t, ht, by omega, hP⟩
  · rintro (h | ⟨t, ht, hit, hP⟩)
    · exact Or.inl (Or.inl h)
    · rcases Nat.lt_or_eq_of_le hit with hit | rfl
      · exact Or.inr ⟨t, ht, hit, hP⟩
      · exact Or.inl (Or.inr hP)

theorem sweep_end {P : ℕ → ℕ → Bool} {n i : ℕ} (hi : n ≤ i) (F : ℕ → Bool) (j : ℕ) :
    sweep P n i F j = F j := by
  have : ¬ ∃ t < n, i ≤ t ∧ P t j = true := by rintro ⟨t, ht, hit, -⟩; omega
  simp [sweep, this]

/-! ## Reading -/

/-- `curState`, in both filters: the comments of the sources name its values 0 to 3. -/
inductive CurState where
  | start | gotFuncDecl | gotLeft | gotTrans
  deriving DecidableEq

/-- The inner reading loop of both `main`s: the lines left, `curState` and
    `in_list` after it. -/
def readTrans (identify : Str → Kind) :
    List Str → CurState → List Item → List Str × CurState × List Item
  | [], curState, inList => ([], curState, inList)
  | line :: file, curState, inList =>
    let vline := identify line
    if identify line = .rbrace then (file, .start, inList)
    else if curState = .gotTrans ∧ (vline = .trans ∨ vline = .case) then
      readTrans identify file curState (inList ++ [⟨line, vline, false⟩])
    else readTrans identify file curState inList

theorem readTrans_length (identify : Str → Kind) : ∀ file curState inList,
    (readTrans identify file curState inList).1.length ≤ file.length
  | [], _, _ => by simp [readTrans]
  | line :: file, curState, inList => by
    simp only [readTrans]
    split_ifs
    · simp
    · exact (readTrans_length ..).trans (by simp)
    · exact (readTrans_length ..).trans (by simp)

end DoubleFetch
