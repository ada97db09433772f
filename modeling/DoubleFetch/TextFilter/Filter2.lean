/-
  Phase 2 of the text filter (`text-filter/filter2.py`).

  * `isSame` compares the source arguments of two fetches: it cuts one slice out
    of each line, up to a closing parenthesis (`getEndLoc`) for `get_user` and up
    to the next comma for `copy_from_user`;
  * `processSkeleton` flags the pairs of fetches that can run on one path and
    have the same source: `outerLoop` over the first, `innerLoop` over the second
    fetch, each skipping a label (`skipLabel`);
  * `main` reads a file written by phase 1 and writes the functions that keep
    some fetch.

  `trace` and `calls` are ghost variables: the positions the loops work on and
  the labels they flag, and the calls of `process_skeleton` with the declaration
  at hand.
-/
import DoubleFetch.TextFilter.Item

namespace DoubleFetch.Filter2

/-! ## Tags -/

def identify (line : Str) : Kind :=
  if find line "get_user".toList = some 0 then .trans
  else if find line "copy_from_user".toList = some 0 then .trans
  else if find line "case".toList = some 0 then .case
  else if find line "default".toList = some 0 then .case
  else if find line "\x7b".toList = some 0 then .lbrace
  else if find line "\x7d".toList = some 0 then .rbrace
  else if line = "\n".toList then .blank
  else if find line " ".toList = some 0 then .blank
  else .funcDecl

/-- The dictionary made for a collected line. -/
def mkItem (line : Str) : Item := ⟨line, identify line, false⟩

/-! ## `is_same` -/

/-- The loop of `get_end_loc`; the result `none` is `-1`. -/
def endLoop (strs : Str) (i left right : ℕ) : Except PyErr (Option ℕ) :=
  match h : strs[i]? with
  | none => .error .indexError
  | some ch =>
    let left := if ch = '(' then left + 1 else left
    let right := if ch = ')' then right + 1 else right
    if ch = ')' ∧ left + 1 = right then pure (some i)
    else if i + 1 = strs.length then pure none
    else endLoop strs (i + 1) left right
termination_by strs.length - i
decreasing_by have := (List.getElem?_eq_some_iff.1 h).1; omega

def getEndLoc (strs : Str) (start : ℕ) : Except PyErr (Option ℕ) :=
  if strs.length = start then pure none else endLoop strs start 0 0

/-- The comparison that ends every branch of `is_same`. -/
def sameSlice (x y : Str) : Bool :=
  if x = y then if (find x "++".toList).isSome then false else true else false

def isSame (inStr1 inStr2 : Str) : Except PyErr Bool :=
  let str1 := dropSpaces inStr1
  let str2 := dropSpaces inStr2
  if (find str1 "get_user".toList).isSome ∧ (find str2 "get_user".toList).isSome then
    match find str1 [','], find str2 [','] with
    | some loc1s, some loc2s => do
      let loc1e ← getEndLoc str1 loc1s
      let loc2e ← getEndLoc str2 loc2s
      match loc1e, loc2e with
      | some loc1e, some loc2e => pure (sameSlice (slice str1 loc1s loc1e) (slice str2 loc2s loc2e))
      | _, _ => pure false
    | _, _ => pure false
  else if (find str1 "copy_from_user".toList).isSome ∧
      (find str2 "copy_from_user".toList).isSome then
    match find str1 [','], find str2 [','] with
    | some loc1s, some loc2s =>
      let loc1s := loc1s + 1
      let loc2s := loc2s + 1
      match findFrom str1 [','] loc1s, findFrom str2 [','] loc2s with
      | some loc1e, some loc2e => pure (sameSlice (slice str1 loc1s loc1e) (slice str2 loc2s loc2e))
      | _, _ => pure false
    | _, _ => pure false
  else if (find str1 "get_user".toList).isSome ∧ (find str2 "copy_from_user".toList).isSome then
    match find str1 [','], find str2 [','] with
    | some loc1s, some loc2s => do
      let loc2s := loc2s + 1
      let loc1e ← getEndLoc str1 loc1s
      match loc1e, findFrom str2 [','] loc2s with
      | some loc1e, some loc2e => pure (sameSlice (slice str1 loc1s loc1e) (slice str2 loc2s loc2e))
      | _, _ => pure false
    | _, _ => pure false
  else if (find str1 "copy_from_user".toList).isSome ∧ (find str2 "get_user".toList).isSome then
    match find str1 [','], find str2 [','] with
    | some loc1s, some loc2s => do
      let loc1s := loc1s + 1
      let loc2e ← getEndLoc str2 loc2s
      match findFrom str1 [','] loc1s, loc2e with
      | some loc1e, some loc2e => pure (sameSlice (slice str1 loc1s loc1e) (slice str2 loc2s loc2e))
      | _, _ => pure false
    | _, _ => pure false
  else pure false

theorem endLoop_ok (strs : Str) (i left right : ℕ) (hi : i < strs.length) :
    ∃ r, endLoop strs i left right = .ok r := by
  fun_induction endLoop strs i left right with
  | case1 i left right h => rw [List.getElem?_eq_none_iff] at h; omega
  | case2 i left right ch h left' right' hc => exact ⟨_, rfl⟩
  | case3 i left right ch h left' right' hc hl => exact ⟨_, rfl⟩
  | case4 i left right ch h left' right' hc hl ih => exact ih (by omega)

/-- No index of `get_end_loc` runs past the end of the string. -/
theorem getEndLoc_ok {strs : Str} {start : ℕ} (h : start ≤ strs.length) :
    ∃ r, getEndLoc strs start = .ok r := by
  unfold getEndLoc
  split_ifs with hl
  · exact ⟨none, rfl⟩
  · exact endLoop_ok _ _ _ _ (by omega)

/-- **`is_same` never raises.** -/
theorem isSame_ok (x y : Str) : ∃ b, isSame x y = .ok b := by
  have hend : ∀ {s : Str} {i : ℕ}, find s [','] = some i → ∃ r, getEndLoc s i = .ok r :=
    fun h => getEndLoc_ok (find_lt (by simp) h).le
  unfold isSame
  simp only
  split_ifs
  · split
    · rename_i h1 h2
      obtain ⟨r1, hr1⟩ := hend h1
      obtain ⟨r2, hr2⟩ := hend h2
      simp only [hr1, hr2, ok_bind]
      split <;> exact ⟨_, rfl⟩
    · exact ⟨_, rfl⟩
  · split
    · split <;> exact ⟨_, rfl⟩
    · exact ⟨_, rfl⟩
  · split
    · rename_i h1 h2
      obtain ⟨r1, hr1⟩ := hend h1
      simp only [hr1, ok_bind]
      split <;> exact ⟨_, rfl⟩
    · exact ⟨_, rfl⟩
  · split
    · rename_i h1 h2
      obtain ⟨r2, hr2⟩ := hend h2
      simp only [hr2, ok_bind]
      split <;> exact ⟨_, rfl⟩
    · exact ⟨_, rfl⟩
  · exact ⟨_, rfl⟩

/-- The value of `is_same`. -/
def same (x y : Str) : Bool := (isSame x y).toOption.getD false

theorem isSame_eq (x y : Str) : isSame x y = .ok (same x y) := by
  obtain ⟨b, h⟩ := isSame_ok x y
  simp [same, h, Except.toOption]

/-! ## `process_skeleton` -/

/-- What the loops of `process_skeleton` access: the positions `s1` and `s2` after
    their label skips, and the index used to flag the label of a fetch. -/
inductive Access where
  | s1 (s : ℕ)
  | s2 (s : ℕ)
  | label (fetch : ℕ) (index : Int)

/-- The variables of `process_skeleton`, and the ghost trace. -/
structure Skel where
  inList : List Item
  s1CaseIndex : Int := -1
  s2CaseIndex : Int := -1
  trace : List Access := []

/-- `if in_list[s]['verify'] == 'case': case_index = s; s = s + 1; level = level + 1`:
    the new position, level and index. -/
def skipLabel (inList : List Item) (s level : ℕ) (caseIndex : Int) :
    Except PyErr (ℕ × ℕ × Int) := do
  let it ← getItem inList s
  if it.verify = .case then pure (s + 1, level + 1, s) else pure (s, level, caseIndex)

theorem skipLabel_le {inList : List Item} {s level : ℕ} {caseIndex : Int} {r : ℕ × ℕ × Int}
    (h : skipLabel inList s level caseIndex = .ok r) : s ≤ r.1 := by
  unfold skipLabel at h
  cases hg : getItem inList s with
  | error e => simp [hg] at h
  | ok it =>
    simp only [hg, ok_bind] at h
    split_ifs at h <;> (cases h; simp)

/-- The comparison of the fetches `s1` and `s2`. -/
def comparePair (s1 s1CaseLevel s2 s2CaseLevel : ℕ) (v : Skel) : Except PyErr Skel :=
  if s1CaseLevel = 0 ∧ s2CaseLevel = 0 then do
    let it1 ← getItem v.inList s1
    let it2 ← getItem v.inList s2
    if ← isSame it1.line it2.line then
      let inList ← setFlag v.inList s1
      let inList ← setFlag inList s2
      pure { v with inList := inList }
    else pure v
  else if s1CaseLevel = 0 ∧ s2CaseLevel ≠ 0 then do
    let it1 ← getItem v.inList s1
    let it2 ← getItem v.inList s2
    if ← isSame it1.line it2.line then
      let inList ← setFlag v.inList s1
      let inList ← setFlag inList s2
      let inList ← setFlag inList v.s2CaseIndex
      pure { v with inList := inList, trace := v.trace ++ [.label s2 v.s2CaseIndex] }
    else pure v
  else if s1CaseLevel ≠ 0 ∧ s1CaseLevel = s2CaseLevel then do
    let it1 ← getItem v.inList s1
    let it2 ← getItem v.inList s2
    if ← isSame it1.line it2.line then
      let inList ← setFlag v.inList s1
      let inList ← setFlag inList s2
      let inList ← setFlag inList v.s1CaseIndex
      pure { v with inList := inList,
                    trace := v.trace ++ [.label s1 v.s1CaseIndex, .label s2 v.s1CaseIndex] }
    else pure v
  else pure v

/-- The loop over `s2`; `l` is the length of the list. -/
def innerLoop (l s1 s1CaseLevel s2 s2CaseLevel : ℕ) (v : Skel) : Except PyErr Skel :=
  if s2 < l then
    match h : skipLabel v.inList s2 s2CaseLevel v.s2CaseIndex with
    | .error e => .error e
    | .ok (s2', s2CaseLevel, s2CaseIndex) => do
      let v := { v with s2CaseIndex := s2CaseIndex, trace := v.trace ++ [.s2 s2'] }
      let v ← comparePair s1 s1CaseLevel s2' s2CaseLevel v
      innerLoop l s1 s1CaseLevel (s2' + 1) s2CaseLevel v
  else pure v
termination_by l - s2
decreasing_by have := skipLabel_le h; simp only at this; omega

/-- The loop over `s1`. -/
def outerLoop (l s1 s1CaseLevel : ℕ) (v : Skel) : Except PyErr Skel :=
  if s1 < l - 1 then
    match h : skipLabel v.inList s1 s1CaseLevel v.s1CaseIndex with
    | .error e => .error e
    | .ok (s1', s1CaseLevel, s1CaseIndex) => do
      let v := { v with s1CaseIndex := s1CaseIndex, trace := v.trace ++ [.s1 s1'] }
      let v ← innerLoop l s1' s1CaseLevel (s1' + 1) s1CaseLevel v
      outerLoop l (s1' + 1) s1CaseLevel v
  else pure v
termination_by l - s1
decreasing_by have := skipLabel_le h; simp only at this; omega

/-- The variables after the loops of `process_skeleton`. -/
def runSkeleton (inList : List Item) : Except PyErr Skel :=
  outerLoop inList.length 0 0 { inList := inList }

def processSkeleton (inList : List Item) : Except PyErr (List Str) := do
  let v ← runSkeleton inList
  pure (outLines v.inList)

/-! ## `main` -/

/-- The variables of `main`, the calls `out_file_handler.write(..)` made so far,
    and the ghost list of the calls of `process_skeleton`. -/
structure Vars where
  origin : Str := []
  curState : CurState := .start
  tempFuncDecl : Str := []
  tempLeft : Str := []
  inList : List Item := []
  outList : List Str := []
  isOutfileOpen : Bool := false
  writes : List Str := []
  calls : List (Str × List Item) := []

/-- The writing of `out_list`. -/
def writeBlock (v : Vars) : Vars :=
  if v.isOutfileOpen then
    { v with
      writes := v.writes ++ [v.tempFuncDecl, v.tempLeft ++ "\n".toList] ++ v.outList ++
        ["\x7d\n".toList] }
  else
    { v with
      isOutfileOpen := true
      writes := v.writes ++ [v.origin, v.tempFuncDecl, v.tempLeft ++ "\n".toList] ++ v.outList ++
        ["\x7d\n".toList] }

/-- What `main` does with `in_list` after the inner reading loop. -/
def finishBlock (v : Vars) : Except PyErr Vars := do
  let v := { v with calls := v.calls ++ [(v.tempFuncDecl, v.inList)] }
  let outList ← processSkeleton v.inList
  let v := { v with outList := outList }
  if v.outList ≠ [] then pure { writeBlock v with inList := [], outList := [] }
  else pure { v with inList := [], outList := [] }

/-- The outer loop of `main`.  The first test is an `if` of its own: a
    declaration read at the start is recorded by both. -/
def mainLoop (file : List Str) (v : Vars) : Except PyErr Vars :=
  match file with
  | [] => pure v
  | line :: file =>
    let vline := identify line
    let v := if v.curState = .start ∧ vline = .funcDecl then
      { v with tempFuncDecl := line, curState := .gotFuncDecl } else v
    if v.curState = .gotFuncDecl ∧ vline = .funcDecl then
      mainLoop file { v with tempFuncDecl := line, curState := .gotFuncDecl }
    else if v.curState = .gotFuncDecl ∧ vline = .lbrace then
      mainLoop file { v with tempLeft := "\x7b".toList, curState := .gotLeft }
    else if v.curState = .gotLeft ∧ vline = .rbrace then
      mainLoop file { v with curState := .start }
    else if v.curState = .gotLeft ∧ (vline = .trans ∨ vline = .case) then
      let r := readTrans identify file .gotTrans (v.inList ++ [⟨line, vline, false⟩])
      do
        let v ← finishBlock { v with curState := r.2.1, inList := r.2.2 }
        mainLoop r.1 v
    else mainLoop file v
termination_by file.length
decreasing_by all_goals first | exact Nat.lt_succ_of_le (readTrans_length ..) | simp

/-- `filter2.py` on the lines of `infile`. -/
def main (infile : List Str) : Except PyErr Vars :=
  match infile with
  | [] => mainLoop [] { origin := [] }
  | origin :: file => mainLoop file { origin := origin }

/-- The output file, if one is opened. -/
def Vars.outFile (v : Vars) : Option Str :=
  if v.isOutfileOpen then some v.writes.flatten else none

end DoubleFetch.Filter2
