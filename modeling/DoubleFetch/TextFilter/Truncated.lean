/-
  Skeletons cut off inside a function.

  A file can end in either reading loop of `main`.  The function at hand is then
  handled as if a line `}` closed it (`truncated_closed`).

  * `filter.py` never raises, and reads the same blocks (`blocks_close`);
  * `filter2.py` may raise.  `Filter2.runLoop` is its outer loop with the variables
    kept where it does, and `Filter2.runLoop_close` compares the two runs: they
    only differ in `curState`.
-/
import DoubleFetch.TextFilter.Format

namespace DoubleFetch

open Phase

/-! ## `filter.py` -/

namespace Filter

/-- **A closing line at the end changes nothing.** -/
theorem main_close (origin : Str) (file : List Str) {c : Str} (hc : role c = .close) :
    ∃ v v', main origin file = .ok v ∧ main origin (file ++ [c]) = .ok v' ∧
      v'.outFile = v.outFile := by
  obtain ⟨v, hv, hb, hw, -⟩ := main_spec origin file
  obtain ⟨v', hv', hb', hw', -⟩ := main_spec origin (file ++ [c])
  have hblocks : v'.blocks = v.blocks := by rw [hb, hb', blocks_close hc]
  exact ⟨v, v', hv, hv', by rw [Vars.outFile, Vars.outFile, hw.file, hw'.file, hblocks]⟩

end Filter

/-! ## Where `filter2.py` raises -/

namespace Filter2

/-- How a run ends: its variables, and the exception if one is raised. -/
structure Outcome where
  vars : Vars
  raised : Option PyErr

/-- The result of `main`, which has no variables if an exception is raised. -/
def Outcome.toExcept : Outcome → Except PyErr Vars
  | ⟨v, none⟩ => .ok v
  | ⟨_, some e⟩ => .error e

/-- `finishBlock` with the variables kept. -/
def finishRun (v : Vars) : Outcome :=
  let v := { v with calls := v.calls ++ [(v.tempFuncDecl, v.inList)] }
  match processSkeleton v.inList with
  | .error e => ⟨v, some e⟩
  | .ok outList =>
    let v := { v with outList := outList }
    if v.outList ≠ [] then ⟨{ writeBlock v with inList := [], outList := [] }, none⟩
    else ⟨{ v with inList := [], outList := [] }, none⟩

/-- `mainLoop` with the variables kept. -/
def runLoop (file : List Str) (v : Vars) : Outcome :=
  match file with
  | [] => ⟨v, none⟩
  | line :: file =>
    let vline := identify line
    let v := if v.curState = .start ∧ vline = .funcDecl then
      { v with tempFuncDecl := line, curState := .gotFuncDecl } else v
    if v.curState = .gotFuncDecl ∧ vline = .funcDecl then
      runLoop file { v with tempFuncDecl := line, curState := .gotFuncDecl }
    else if v.curState = .gotFuncDecl ∧ vline = .lbrace then
      runLoop file { v with tempLeft := "\x7b".toList, curState := .gotLeft }
    else if v.curState = .gotLeft ∧ vline = .rbrace then
      runLoop file { v with curState := .start }
    else if v.curState = .gotLeft ∧ (vline = .trans ∨ vline = .case) then
      let r := readTrans identify file .gotTrans (v.inList ++ [⟨line, vline, false⟩])
      match finishRun { v with curState := r.2.1, inList := r.2.2 } with
      | ⟨v, none⟩ => runLoop r.1 v
      | ⟨v, some e⟩ => ⟨v, some e⟩
    else runLoop file v
termination_by file.length
decreasing_by all_goals first | exact Nat.lt_succ_of_le (readTrans_length ..) | simp

/-- A run of `main`. -/
def runMain (infile : List Str) : Outcome :=
  match infile with
  | [] => runLoop [] { origin := [] }
  | origin :: file => runLoop file { origin := origin }

theorem finishBlock_eq (v : Vars) : finishBlock v = (finishRun v).toExcept := by
  simp only [finishBlock, finishRun]
  cases processSkeleton v.inList with
  | error e => rfl
  | ok outList =>
    simp only [ok_bind]
    split_ifs <;> rfl

/-- **`runLoop` is `mainLoop`.** -/
theorem mainLoop_eq (file : List Str) (v : Vars) :
    mainLoop file v = (runLoop file v).toExcept := by
  match file with
  | [] => rw [mainLoop, runLoop]; rfl
  | line :: file =>
    rw [mainLoop, runLoop]
    simp only
    generalize (if v.curState = .start ∧ identify line = .funcDecl then
      { v with tempFuncDecl := line, curState := .gotFuncDecl } else v) = v
    split_ifs
    · exact mainLoop_eq file _
    · exact mainLoop_eq file _
    · exact mainLoop_eq file _
    · rw [finishBlock_eq]
      cases finishRun _ with
      | mk v raised =>
        cases raised with
        | none => exact mainLoop_eq _ v
        | some e => rfl
    · exact mainLoop_eq file v
termination_by file.length
decreasing_by all_goals first | exact Nat.lt_succ_of_le (readTrans_length ..) | simp

/-- The outcomes only differ in `curState`. -/
def Outcome.Agrees (o o' : Outcome) : Prop :=
  ∃ curState, o' = ⟨{ o.vars with curState := curState }, o.raised⟩

theorem finishRun_curState (v : Vars) (curState : CurState) :
    finishRun { v with curState := curState } =
      ⟨{ (finishRun v).vars with curState := curState }, (finishRun v).raised⟩ := by
  simp only [finishRun]
  cases processSkeleton v.inList with
  | error e => rfl
  | ok outList =>
    simp only [writeBlock]
    split_ifs <;> rfl

/-- The inner loop either reads up to a closing line of the file, or to the line `c`
    behind it. -/
theorem readTrans_close {c : Str} (hc : identify c = .rbrace) : ∀ (file : List Str)
    (curState : CurState) (inList : List Item), ∃ rest st st' items,
    readTrans identify file curState inList = (rest, st, items) ∧
    (readTrans identify (file ++ [c]) curState inList = (rest ++ [c], st, items) ∨
      rest = [] ∧ readTrans identify (file ++ [c]) curState inList = ([], st', items))
  | [], curState, inList =>
    ⟨[], curState, .start, inList, rfl, Or.inr ⟨rfl, by simp [readTrans, hc]⟩⟩
  | line :: file, curState, inList => by
    have ih := readTrans_close hc file
    simp only [List.cons_append, readTrans]
    split_ifs
    · exact ⟨file, .start, .start, inList, rfl, Or.inl rfl⟩
    · exact ih ..
    · exact ih ..

/-- **A closing line at the end changes nothing but `curState`**, from any state of the
    outer loop. -/
theorem runLoop_close {c : Str} (hc : identify c = .rbrace) (file : List Str) (v : Vars) :
    (runLoop file v).Agrees (runLoop (file ++ [c]) v) := by
  match file with
  | [] =>
    rw [List.nil_append, runLoop, runLoop]
    simp only [hc, reduceCtorEq, and_false, and_true, if_false, or_self]
    split_ifs
    · exact ⟨.start, by rw [runLoop]⟩
    · exact ⟨v.curState, by rw [runLoop]⟩
  | line :: file =>
    rw [List.cons_append, runLoop, runLoop]
    simp only
    generalize (if v.curState = .start ∧ identify line = .funcDecl then
      { v with tempFuncDecl := line, curState := .gotFuncDecl } else v) = v
    split_ifs
    · exact runLoop_close hc file _
    · exact runLoop_close hc file _
    · exact runLoop_close hc file _
    · obtain ⟨rest, st, st', items, hr, h⟩ := readTrans_close hc file .gotTrans
        (v.inList ++ [⟨line, identify line, false⟩])
      have hlen : rest.length ≤ file.length := by
        have := readTrans_length identify file .gotTrans (v.inList ++ [⟨line, identify line, false⟩])
        rwa [hr] at this
      rcases h with hr' | ⟨rfl, hr'⟩
      · -- the function is closed: the outer loop goes on behind it
        rw [hr, hr']
        cases finishRun { v with curState := st, inList := items } with
        | mk v raised =>
          cases raised with
          | none => exact runLoop_close hc rest v
          | some e => exact ⟨v.curState, rfl⟩
      · -- the file ends in the function
        have hcur := finishRun_curState { v with curState := st, inList := items } st'
        rw [hr, hr']
        simp only at hcur ⊢
        rw [hcur]
        cases finishRun { v with curState := st, inList := items } with
        | mk v raised =>
          cases raised with
          | none => exact ⟨st', by simp only [runLoop]⟩
          | some e => exact ⟨st', rfl⟩
    · exact runLoop_close hc file v
termination_by file.length
decreasing_by all_goals simp only [List.length_cons]; omega

theorem main_eq (infile : List Str) : main infile = (runMain infile).toExcept := by
  cases infile with
  | nil => exact mainLoop_eq ..
  | cons origin file => exact mainLoop_eq ..

theorem Outcome.map_outFile (o : Outcome) : o.toExcept.map Vars.outFile =
    match o.raised with
    | none => .ok o.vars.outFile
    | some e => .error e := by
  obtain ⟨v, raised⟩ := o
  cases raised <;> rfl

/-- **A closing line at the end changes nothing**, whether or not the run raises. -/
theorem runMain_close {c : Str} (hc : identify c = .rbrace) (file : List Str) :
    (runMain (file ++ [c])).raised = (runMain file).raised ∧
      (runMain (file ++ [c])).vars.outFile = (runMain file).vars.outFile ∧
      (runMain (file ++ [c])).vars.calls = (runMain file).vars.calls := by
  cases file with
  | nil =>
    -- the line is taken for the header, which is not written
    simp [runMain, runLoop, Vars.outFile]
  | cons origin file =>
    obtain ⟨curState, h⟩ := runLoop_close hc file { origin := origin }
    rw [List.cons_append, runMain, h]
    exact ⟨rfl, rfl, rfl⟩

end Filter2

/-! ## Both filters -/

/-- **A truncated skeleton is handled as if its function were closed.**  `filter.py`
    writes the same file; so does `filter2.py`, or it raises the same exception in the
    same call, and leaves the same file. -/
theorem truncated_closed (S : List Str) (hS : ∀ l ∈ S, IsLine l) (c : Str)
    (hc : c = "\x7d".toList ∨ c = "\x7d\n".toList) :
    (∀ origin, ∃ v v', Filter.main origin (lines S.flatten) = .ok v ∧
      Filter.main origin (lines (S.flatten ++ c)) = .ok v' ∧ v'.outFile = v.outFile) ∧
    (Filter2.main (lines (S.flatten ++ c))).map Filter2.Vars.outFile =
      (Filter2.main (lines S.flatten)).map Filter2.Vars.outFile ∧
    (Filter2.runMain (lines (S.flatten ++ c))).raised =
      (Filter2.runMain (lines S.flatten)).raised ∧
    (Filter2.runMain (lines (S.flatten ++ c))).vars.outFile =
      (Filter2.runMain (lines S.flatten)).vars.outFile ∧
    (Filter2.runMain (lines (S.flatten ++ c))).vars.calls =
      (Filter2.runMain (lines S.flatten)).vars.calls := by
  have hrole : role c = .close := by rcases hc with rfl | rfl <;> decide
  have hone : lines c = [c] := by rcases hc with rfl | rfl <;> decide
  have hk : Filter2.identify c = .rbrace := by
    rw [Filter2.identify_eq]; exact role_close.1 hrole
  rw [lines_flatten_append c hS, lines_flatten hS, hone]
  obtain ⟨hraised, hfile, hcalls⟩ := Filter2.runMain_close hk S
  refine ⟨fun origin => Filter.main_close origin S hrole, ?_, hraised, hfile, hcalls⟩
  rw [Filter2.main_eq, Filter2.main_eq, Filter2.Outcome.map_outFile, Filter2.Outcome.map_outFile,
    hraised, hfile]

/-- A function, and a second one cut off behind a label. -/
def cutOff : List Str :=
  ["a.c\n".toList] ++ sample ++
    ["g()\n".toList, "\x7b\n".toList, "get_user(a,p);\n".toList, "case 1:\n".toList]

theorem truncated_closed_cutOff :
    (∃ v, Filter.main "a.c".toList (lines (cutOff.flatten ++ "\x7d".toList)) = .ok v ∧
      v.outFile = some ("a.c\n".toList ++ sample.flatten)) ∧
    (Filter2.runMain (lines (cutOff.flatten ++ "\x7d".toList))).raised = some .indexError ∧
    (Filter2.runMain (lines (cutOff.flatten ++ "\x7d".toList))).vars.outFile =
      some ("a.c\n".toList ++ sample.flatten) := by
  have hlines : ∀ l ∈ cutOff, IsLine l := by
    have : ∀ l ∈ cutOff, l = l.dropLast ++ ['\n'] ∧ '\n' ∉ l.dropLast := by decide
    exact fun l hl => ⟨_, this l hl⟩
  obtain ⟨h, -, hraised, hfile, -⟩ := truncated_closed cutOff hlines "\x7d".toList (Or.inl rfl)
  obtain ⟨v, v', hv, hv', hout⟩ := h "a.c".toList
  obtain ⟨v₁, hv₁, hout₁⟩ := map_eq_ok (show (Filter.main "a.c".toList (lines cutOff.flatten)).map
    Filter.Vars.outFile = .ok (some ("a.c\n".toList ++ sample.flatten)) by decide +kernel)
  obtain rfl := Except.ok.inj (hv₁.symm.trans hv)
  rw [hraised, hfile]
  exact ⟨⟨v', hv', hout.trans hout₁⟩, by decide +kernel, by decide +kernel⟩

end DoubleFetch
