/-
  Phase 1 of the text filter (`text-filter/filter.py`).

  * `identify` tags a skeleton line by its first characters;
  * `processList` flags the fetches of one function that have another fetch to
    pair with, and their labels: `transLoop` on a list that starts with a fetch,
    `caseLoop` on one that starts with a label;
  * `main` reads the skeleton, collects the fetches and labels of each function
    body and writes the functions that keep some.

  `blocks` is a ghost variable: the declaration and the lines of each block
  written.  The debug prints are left out.
-/
import DoubleFetch.TextFilter.Item

namespace DoubleFetch.Filter

/-! ## Tags -/

def identify (line : Str) : Kind :=
  if find line "get_user".toList = some 0 then .trans
  else if find line "copy_from_user".toList = some 0 then .trans
  else if find line "case".toList = some 0 then .case
  else if find line "default".toList = some 0 then .case
  else if find line "\x7b".toList = some 0 then .lbrace
  else if find line "\x7d".toList = some 0 then .rbrace
  else if line = "\n".toList then .blank
  else if find line " ".toList = some 0 then .blank
  else .funcDecl

/-- The dictionary made for a collected line. -/
def mkItem (line : Str) : Item := ⟨line, identify line, false⟩

/-! ## `process_list` -/

/-- The loop on a list that starts with a fetch; `l` is the length of the list. -/
def transLoop (l i lastCase : ℕ) (incase : Bool) (inList : List Item) :
    Except PyErr (List Item) :=
  if i < l then do
    let it ← getItem inList i
    if it.verify = .trans ∧ incase = false then
      let inList ← setFlag inList 0
      let inList ← setFlag inList i
      transLoop l (i + 1) lastCase incase inList
    else if it.verify = .case then
      transLoop l (i + 1) i true inList
    else if it.verify = .trans ∧ incase = true then
      let inList ← setFlag inList 0
      let inList ← setFlag inList lastCase
      let inList ← setFlag inList i
      transLoop l (i + 1) lastCase incase inList
    else
      transLoop l (i + 1) lastCase incase inList
  else pure inList
termination_by l - i

/-- `while j < i + 1: in_list[j]['flag'] = True; j = j + 1`. -/
def flagLoop (i j : ℕ) (inList : List Item) : Except PyErr (List Item) :=
  if j < i + 1 then do
    let inList ← setFlag inList j
    flagLoop i (j + 1) inList
  else pure inList
termination_by i + 1 - j

/-- The loop on a list that starts with a label. -/
def caseLoop (l i lastCase caseCounter : ℕ) (inList : List Item) : Except PyErr (List Item) :=
  if i < l then do
    let it ← getItem inList i
    if it.verify = .trans then
      let caseCounter := caseCounter + 1
      if caseCounter > 1 then
        let inList ← flagLoop i lastCase inList
        caseLoop l (i + 1) lastCase caseCounter inList
      else caseLoop l (i + 1) lastCase caseCounter inList
    else if it.verify = .case then
      caseLoop l (i + 1) i 0 inList
    else
      caseLoop l (i + 1) lastCase caseCounter inList
  else pure inList
termination_by l - i

/-- The items after the loops of `process_list`. -/
def flagList (inList : List Item) : Except PyErr (List Item) := do
  let l := inList.length
  let it ← getItem inList 0
  if it.verify = .trans then transLoop l 1 0 false inList
  else if it.verify = .case then caseLoop l 1 0 0 inList
  else pure inList

def processList (inList : List Item) : Except PyErr (List Str) := do
  let inList ← flagList inList
  pure (outLines inList)

/-! ## `main` -/

/-- The variables of `main`, the calls `out_file_handler.write(..)` made so far,
    and the ghost list of blocks. -/
structure Vars where
  curState : CurState := .start
  tempFuncDecl : Str := []
  tempLeft : Str := []
  inList : List Item := []
  outList : List Str := []
  isOutfileOpen : Bool := false
  writes : List Str := []
  blocks : List (Str × List Str) := []

/-- The writing of `out_list`. -/
def writeBlock (origin : Str) (v : Vars) : Vars :=
  if v.isOutfileOpen then
    { v with
      writes := v.writes ++ [v.tempFuncDecl, v.tempLeft ++ "\n".toList] ++ v.outList ++
        ["\x7d\n".toList]
      blocks := v.blocks ++ [(v.tempFuncDecl, v.outList)] }
  else
    { v with
      isOutfileOpen := true
      writes := v.writes ++ [origin ++ "\n".toList, v.tempFuncDecl, v.tempLeft ++ "\n".toList] ++
        v.outList ++ ["\x7d\n".toList]
      blocks := v.blocks ++ [(v.tempFuncDecl, v.outList)] }

/-- What `main` does with `in_list` after the inner reading loop. -/
def finishBlock (origin : Str) (v : Vars) : Except PyErr Vars := do
  if v.inList.length > 1 then
    let outList ← processList v.inList
    let v := { v with outList := outList }
    if v.outList ≠ [] then pure { writeBlock origin v with inList := [], outList := [] }
    else pure { v with inList := [], outList := [] }
  else pure { v with inList := [], outList := [] }

/-- The outer loop of `main`. -/
def mainLoop (origin : Str) (file : List Str) (v : Vars) : Except PyErr Vars :=
  match file with
  | [] => pure v
  | line :: file =>
    let vline := identify line
    if vline = .blank then mainLoop origin file v
    else if v.curState = .start ∧ vline = .funcDecl then
      mainLoop origin file { v with tempFuncDecl := line, curState := .gotFuncDecl }
    else if v.curState = .gotFuncDecl ∧ vline = .funcDecl then
      mainLoop origin file { v with tempFuncDecl := line, curState := .gotFuncDecl }
    else if v.curState = .gotFuncDecl ∧ vline = .rbrace then
      mainLoop origin file { v with curState := .start }
    else if v.curState = .gotFuncDecl ∧ vline = .lbrace then
      mainLoop origin file { v with tempLeft := "\x7b".toList, curState := .gotLeft }
    else if v.curState = .gotLeft ∧ vline = .rbrace then
      mainLoop origin file { v with curState := .start }
    else if v.curState = .gotLeft ∧ (vline = .trans ∨ vline = .case) then
      let r := readTrans identify file .gotTrans (v.inList ++ [⟨line, vline, false⟩])
      do
        let v ← finishBlock origin { v with curState := r.2.1, inList := r.2.2 }
        mainLoop origin r.1 v
    else mainLoop origin file v
termination_by file.length
decreasing_by all_goals first | exact Nat.lt_succ_of_le (readTrans_length ..) | simp

/-- `filter.py` on the lines of `infile`, called with the name `origin`. -/
def main (origin : Str) (infile : List Str) : Except PyErr Vars := mainLoop origin infile {}

/-- The output file, if one is opened. -/
def Vars.outFile (v : Vars) : Option Str :=
  if v.isOutfileOpen then some v.writes.flatten else none

example : (main "a.c".toList ["f()\n".toList, "\x7b\n".toList, "get_user(a,p);\n".toList,
    "get_user(b,p);\n".toList, "\x7d\n".toList]).map Vars.outFile =
    .ok (some "a.c\nf()\n\x7b\nget_user(a,p);\nget_user(b,p);\n\x7d\n".toList) := by decide +kernel

end DoubleFetch.Filter
