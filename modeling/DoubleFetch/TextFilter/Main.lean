/-
  The `main`s of both filters as block readers.

  A skeleton is a sequence of blocks: a declaration, `{`, fetches and labels, `}`
  (`role`).  Each `main` reads the blocks of its input and makes one call of its
  `process_..` for each (`Filter.main_spec`, `Filter2.main_spec`); the variables
  left over from earlier functions are never read.  What is written is the header
  line and the blocks kept, or nothing (`Wrote`).
-/
import DoubleFetch.Base.Blocks
import DoubleFetch.TextFilter.Phases

namespace DoubleFetch

open Phase

/-- The role of a skeleton line. -/
def role (line : Str) : Role :=
  match Filter.identify line with
  | .trans | .case => .entry
  | .lbrace => .openB
  | .rbrace => .close
  | .funcDecl => .head
  | .blank => .other

theorem role_entry {line : Str} : role line = .entry ↔
    Filter.identify line = .trans ∨ Filter.identify line = .case := by
  unfold role; cases Filter.identify line <;> simp

theorem role_close {line : Str} : role line = .close ↔ Filter.identify line = .rbrace := by
  unfold role; cases Filter.identify line <;> simp

theorem role_head {line : Str} : role line = .head ↔ Filter.identify line = .funcDecl := by
  unfold role; cases Filter.identify line <;> simp

/-- `curState` in a state of the reader. -/
def Phase.curState {α : Type*} : Phase α → CurState
  | .idle => .start
  | .head _ => .gotFuncDecl
  | .opened _ => .gotLeft
  | .inside _ _ => .gotTrans

/-- A header line, unless there is nothing below it. -/
def withHeader (header : Str) (body : List Str) : List Str :=
  if body = [] then [] else header :: body

/-- The writes of a block. -/
def writeLines (b : Str × List Str) : List Str := render "\x7b\n".toList "\x7d\n".toList b

theorem withHeader_writeLines (header : Str) (bs : List (Str × List Str)) :
    withHeader header (bs.flatMap writeLines) =
      if bs = [] then [] else header :: bs.flatMap writeLines := by
  cases bs <;> simp [withHeader, writeLines, render]

/-- What has been written is the header and the blocks `bs`. -/
structure Wrote (header : Str) (isOpen : Bool) (writes : List Str)
    (bs : List (Str × List Str)) : Prop where
  isOpen : isOpen = true ↔ bs ≠ []
  writes : writes = withHeader header (bs.flatMap writeLines)

/-- The file that is written. -/
theorem Wrote.file {header : Str} {isOpen : Bool} {writes : List Str}
    {bs : List (Str × List Str)} (h : Wrote header isOpen writes bs) :
    (if isOpen then some writes.flatten else none) =
      if bs = [] then none else some (header :: bs.flatMap writeLines).flatten := by
  by_cases hb : bs = []
  · rw [if_pos hb, if_neg fun ho => h.isOpen.1 ho hb]
  · rw [if_neg hb, if_pos (h.isOpen.2 hb), h.writes, withHeader_writeLines, if_neg hb]

theorem Wrote.nil (header : Str) : Wrote header false [] [] := ⟨by simp, by simp [withHeader]⟩

/-- The first block is written behind the header, any other behind the blocks. -/
theorem Wrote.snoc {header : Str} {isOpen : Bool} {writes : List Str}
    {bs : List (Str × List Str)} (h : Wrote header isOpen writes bs) (b : Str × List Str) :
    Wrote header true (writes ++ (if isOpen then [] else [header]) ++ writeLines b)
      (bs ++ [b]) := by
  refine ⟨by simp, ?_⟩
  have hbs : bs ++ [b] ≠ [] := by simp
  rw [withHeader_writeLines, if_neg hbs, List.flatMap_append]
  cases isOpen with
  | true =>
    have hne := h.isOpen.1 rfl
    simp [h.writes, withHeader_writeLines, hne]
  | false =>
    have hnil : bs = [] := by by_contra hne; exact absurd (h.isOpen.2 hne) (by simp)
    simp [h.writes, withHeader, hnil]

/-- The loop that collects the entries of a function: it stops behind the closing
    line, or at the end of the input. -/
theorem readTrans_spec (closesHead : Bool) (d : Str) : ∀ (file es : List Str),
    (∀ e ∈ es, role e = .entry) → ∃ es', (∀ e ∈ es', role e = .entry) ∧
    (readTrans Filter.identify file .gotTrans (es.map Filter.mkItem)).2.2 = es'.map Filter.mkItem ∧
    (((readTrans Filter.identify file .gotTrans (es.map Filter.mkItem)).2.1 = .start ∧
        blocks role closesHead (inside d es) file = (d, es') :: blocks role closesHead idle
          (readTrans Filter.identify file .gotTrans (es.map Filter.mkItem)).1 ∧
        after role closesHead (inside d es) file = after role closesHead idle
          (readTrans Filter.identify file .gotTrans (es.map Filter.mkItem)).1) ∨
      ((readTrans Filter.identify file .gotTrans (es.map Filter.mkItem)).1 = [] ∧
        (readTrans Filter.identify file .gotTrans (es.map Filter.mkItem)).2.1 = .gotTrans ∧
        blocks role closesHead (inside d es) file = [(d, es')] ∧
        after role closesHead (inside d es) file = inside d es'))
  | [], es, hes => ⟨es, hes, rfl, Or.inr ⟨rfl, rfl, rfl, rfl⟩⟩
  | line :: file, es, hes => by
    by_cases hc : role line = .close
    · have hk := role_close.1 hc
      refine ⟨es, hes, by simp [readTrans, hk], Or.inl ⟨by simp [readTrans, hk], ?_, ?_⟩⟩
      · simp [readTrans, hk, blocks_cons, emit, next, hc]
      · simp [readTrans, hk, next, hc]
    · have hk : Filter.identify line ≠ .rbrace := mt role_close.2 hc
      by_cases he : role line = .entry
      · have hm : (es.map Filter.mkItem) ++ [⟨line, Filter.identify line, false⟩] =
            (es ++ [line]).map Filter.mkItem := by simp [Filter.mkItem]
        have hr : readTrans Filter.identify (line :: file) .gotTrans (es.map Filter.mkItem) =
            readTrans Filter.identify file .gotTrans ((es ++ [line]).map Filter.mkItem) := by
          rw [← hm]; simp [readTrans, hk, role_entry.1 he]
        have hb : blocks role closesHead (inside d es) (line :: file) =
            blocks role closesHead (inside d (es ++ [line])) file := by
          simp [blocks_cons, emit, next, he]
        rw [hr, hb, after_cons, show next role closesHead (inside d es) line =
          inside d (es ++ [line]) by simp [next, he]]
        refine readTrans_spec closesHead d file (es ++ [line]) fun e h => ?_
        rcases List.mem_append.1 h with h | h
        · exact hes e h
        · rwa [List.mem_singleton.1 h]
      · have hr : readTrans Filter.identify (line :: file) .gotTrans (es.map Filter.mkItem) =
            readTrans Filter.identify file .gotTrans (es.map Filter.mkItem) := by
          have := mt role_entry.2 he
          simp only [not_or] at this
          simp [readTrans, hk, this.1, this.2]
        have hn : next role closesHead (inside d es) line = inside d es := by
          cases hr : role line <;> simp_all [next]
        rw [hr, blocks_cons, after_cons, hn]
        simpa [emit, hc] using readTrans_spec closesHead d file es hes

end DoubleFetch

namespace DoubleFetch.Filter

open Phase

/-! ## `filter.py` -/

/-- The block that is written for a block read. -/
def written (b : Str × List Str) : Option (Str × List Str) :=
  let out := (selected (b.2.map mkItem)).map (·.line)
  if b.2.length > 1 ∧ out ≠ [] then some (b.1, out) else none

/-- The writes are the header and the blocks. -/
abbrev Wrote (origin : Str) (v : Vars) : Prop :=
  DoubleFetch.Wrote (origin ++ "\n".toList) v.isOutfileOpen v.writes v.blocks

/-- The variables at the head of the outer loop. -/
structure At (v : Vars) (p : Phase Str) : Prop where
  curState : v.curState = p.curState
  decl : ∀ d, p = .head d ∨ p = .opened d → v.tempFuncDecl = d
  left : ∀ d, p = .opened d → v.tempLeft = "\x7b".toList
  inList : v.inList = []
  outList : v.outList = []

theorem writeBlock_spec {origin : Str} {v : Vars} (hw : Wrote origin v)
    (hl : v.tempLeft = "\x7b".toList) :
    (writeBlock origin v).blocks = v.blocks ++ [(v.tempFuncDecl, v.outList)] ∧
      Wrote origin (writeBlock origin v) ∧ (writeBlock origin v).curState = v.curState := by
  have h := hw.snoc (v.tempFuncDecl, v.outList)
  unfold writeBlock
  split_ifs with ho <;> (refine ⟨rfl, ?_, rfl⟩; simpa [Wrote, ho, hl, writeLines, render] using h)

theorem finishBlock_spec (origin : Str) {v : Vars} {d : Str} {es : List Str}
    (hw : Wrote origin v) (hd : v.tempFuncDecl = d) (hl : v.tempLeft = "\x7b".toList)
    (hin : v.inList = es.map mkItem) (hes : ∀ e ∈ es, role e = .entry) :
    ∃ v', finishBlock origin v = .ok v' ∧ v'.blocks = v.blocks ++ (written (d, es)).toList ∧
      Wrote origin v' ∧ v'.curState = v.curState ∧ v'.inList = [] ∧ v'.outList = [] := by
  have hcol : Collected (es.map mkItem) := by
    intro it hit
    obtain ⟨e, he, rfl⟩ := List.mem_map.1 hit
    exact ⟨rfl, role_entry.1 (hes e he)⟩
  unfold finishBlock
  have hlen : (v.inList.length > 1) = (es.length > 1) := by rw [hin, List.length_map]
  by_cases hes : es.length > 1
  · have hne : es.map mkItem ≠ [] := by
      intro h; rw [List.map_eq_nil_iff.1 h] at hes; simp at hes
    have hproc : processList v.inList = .ok ((selected (es.map mkItem)).map fun it => it.line) := by
      rw [hin]; exact processList_eq hcol.skeleton hcol.fresh hne
    rw [if_pos (hlen ▸ hes), hproc, ok_bind]
    dsimp only
    split_ifs with hout
    · have hwr : written (d, es) = some (d, (selected (es.map mkItem)).map fun it => it.line) :=
        if_pos ⟨hes, hout⟩
      obtain ⟨h1, h2, h3⟩ := writeBlock_spec
        (v := { v with outList := (selected (es.map mkItem)).map fun it => it.line }) hw hl
      refine ⟨_, rfl, ?_, h2, h3, rfl, rfl⟩
      rw [hwr, ← hd]; exact h1
    · refine ⟨_, rfl, ?_, hw, rfl, rfl, rfl⟩
      rw [show written (d, es) = none from if_neg fun h => hout h.2]; simp
  · rw [if_neg (hlen ▸ hes)]
    refine ⟨_, rfl, ?_, hw, rfl, rfl, rfl⟩
    rw [show written (d, es) = none from if_neg fun h => hes h.1]; simp

/-- **A line that is not the first entry of a function**: the outer loop goes on in the
    next state. -/
theorem mainLoop_line (origin line : Str) (file : List Str) {v : Vars} {p : Phase Str} (hv : At v p)
    (hp : ∀ d es, p ≠ .inside d es) (hl : ∀ d, p = .opened d → role line ≠ .entry) :
    ∃ curState decl left, mainLoop origin (line :: file) v = mainLoop origin file
        { v with curState := curState, tempFuncDecl := decl, tempLeft := left } ∧
      At { v with curState := curState, tempFuncDecl := decl, tempLeft := left }
        (next role true p line) := by
  have hs := hv.curState
  rw [mainLoop]
  cases p with
  | idle =>
    simp only [Phase.curState] at hs
    cases hk : identify line with
    | funcDecl =>
      have hn : next role true .idle line = .head line := by simp [next, role, hk]
      simp only [hs, reduceCtorEq, if_false, and_self, if_true]
      exact ⟨_, _, _, rfl, hn ▸ ⟨rfl, by simp, by simp, hv.inList, hv.outList⟩⟩
    | _ =>
      simp only [hs, reduceCtorEq, if_false, if_true, and_false, false_and, or_self]
      exact ⟨_, _, _, rfl, by simpa [next, role, hk] using hv⟩
  | head d =>
    simp only [Phase.curState] at hs
    cases hk : identify line with
    | funcDecl =>
      have hn : next role true (.head d) line = .head line := by simp [next, role, hk]
      simp only [hs, reduceCtorEq, if_false, and_self, if_true, false_and]
      exact ⟨_, _, _, rfl, hn ▸ ⟨rfl, by simp, by simp, hv.inList, hv.outList⟩⟩
    | rbrace =>
      have hn : next role true (.head d) line = .idle := by simp [next, role, hk]
      simp only [hs, reduceCtorEq, if_false, and_self, if_true, false_and, and_false]
      exact ⟨_, _, _, rfl, hn ▸ ⟨rfl, by simp, by simp, hv.inList, hv.outList⟩⟩
    | lbrace =>
      have hn : next role true (.head d) line = .opened d := by simp [next, role, hk]
      simp only [hs, reduceCtorEq, if_false, and_self, if_true, false_and, and_false]
      exact ⟨_, _, _, rfl, hn ▸ ⟨rfl, by simpa using hv.decl d (Or.inl rfl), by simp, hv.inList,
        hv.outList⟩⟩
    | _ =>
      simp only [hs, reduceCtorEq, if_false, if_true, and_false, false_and, or_self, true_or, or_true]
      exact ⟨_, _, _, rfl, by simpa [next, role, hk] using hv⟩
  | opened d =>
    have hk := mt role_entry.2 (hl d rfl)
    simp only [not_or] at hk
    simp only [Phase.curState] at hs
    cases hk' : identify line with
    | trans => exact absurd hk' hk.1
    | case => exact absurd hk' hk.2
    | rbrace =>
      have hn : next role true (.opened d) line = .idle := by simp [next, role, hk']
      simp only [hs, reduceCtorEq, if_false, and_self, if_true, false_and]
      exact ⟨_, _, _, rfl, hn ▸ ⟨rfl, by simp, by simp, hv.inList, hv.outList⟩⟩
    | _ =>
      simp only [hs, reduceCtorEq, if_false, if_true, and_false, false_and, or_self]
      exact ⟨_, _, _, rfl, by simpa [next, role, hk'] using hv⟩
  | inside d es => exact absurd rfl (hp d es)

/-- **The first entry of a function**: the inner loop reads the others. -/
theorem mainLoop_entry (origin : Str) {line d : Str} (file : List Str) {v : Vars}
    (hv : At v (.opened d)) (hl : role line = .entry) :
    mainLoop origin (line :: file) v =
      let r := readTrans identify file .gotTrans ([line].map mkItem)
      finishBlock origin { v with curState := r.2.1, inList := r.2.2 } >>= mainLoop origin r.1 := by
  have hs : v.curState = .gotLeft := hv.curState
  have hk := role_entry.1 hl
  have hb : ∀ k, (k = Kind.trans ∨ k = .case) → k ≠ .blank ∧ k ≠ .funcDecl ∧ k ≠ .rbrace ∧
      k ≠ .lbrace := by rintro k (rfl | rfl) <;> simp
  obtain ⟨h1, h2, h3, h4⟩ := hb _ hk
  rw [mainLoop]
  simp only [hs, h1, h2, h3, h4, hk, if_false, and_self, if_true, and_false, hv.inList]
  rfl

/-- **The outer loop reads blocks.** -/
theorem mainLoop_spec (origin : Str) (file : List Str) {v : Vars} {p : Phase Str} (hv : At v p)
    (hp : ∀ d es, p ≠ .inside d es) (hw : Wrote origin v) :
    ∃ v', mainLoop origin file v = .ok v' ∧
      v'.blocks = v.blocks ++ (blocks role true p file).filterMap written ∧
      Wrote origin v' ∧ v'.curState = (after role true p file).curState := by
  match file with
  | [] =>
    refine ⟨v, by rw [mainLoop]; rfl, ?_, hw, hv.curState⟩
    cases p <;> simp_all [flush]
  | line :: file =>
    by_cases hent : ∃ d, p = .opened d ∧ role line = .entry
    · -- the entries up to the end of the function are read
      obtain ⟨d, rfl, he⟩ := hent
      have hn : next role true (.opened d) line = .inside d [line] := by simp [next, he]
      obtain ⟨es', hes', hin, h⟩ := readTrans_spec true d file [line] (by simpa using he)
      rw [mainLoop_entry origin file hv he, blocks_cons, after_cons, hn]
      set r := readTrans identify file .gotTrans ([line].map mkItem) with hr
      obtain ⟨v₁, hv₁, hb₁, hw₁, hc₁, hi₁, ho₁⟩ := finishBlock_spec origin
        (v := { v with curState := r.2.1, inList := r.2.2 })
        hw (hv.decl d (Or.inr rfl)) (hv.left d rfl) hin hes'
      simp only [hv₁, ok_bind]
      rcases h with ⟨hcur, hb, ha⟩ | ⟨hnil, hcur, hb, ha⟩
      · -- the function is closed: the outer loop goes on behind it
        obtain ⟨v', h1, h2, h3, h4⟩ := mainLoop_spec origin r.1 (v := v₁) (p := .idle)
          ⟨hc₁.trans hcur, by simp, by simp, hi₁, ho₁⟩ (by simp) hw₁
        refine ⟨v', h1, ?_, h3, by rw [h4, ha]⟩
        rw [h2, hb₁, hb]
        cases hwr : written (d, es') <;> simp [emit, hwr]
      · -- the input ends in the function
        refine ⟨v₁, by rw [hnil, mainLoop]; rfl, ?_, hw₁, by rw [hc₁, ha]; exact hcur⟩
        rw [hb₁, hb]
        cases hwr : written (d, es') <;> simp [emit, hwr]
    · have hl : ∀ d, p = .opened d → role line ≠ .entry := fun d hd he => hent ⟨d, hd, he⟩
      obtain ⟨curState, decl, left, hgo, hat⟩ := mainLoop_line origin line file hv hp hl
      obtain ⟨v', h1, h2, h3, h4⟩ := mainLoop_spec origin file hat (next_ne_inside hp hl) hw
      refine ⟨v', hgo.trans h1, ?_, h3, h4⟩
      rw [h2, blocks_cons, emit_eq_nil hp, List.nil_append]
termination_by file.length
decreasing_by all_goals first | exact Nat.lt_succ_of_le (readTrans_length ..) | simp

/-- **`filter.py` reads blocks and writes those kept.** -/
theorem main_spec (origin : Str) (file : List Str) : ∃ v, main origin file = .ok v ∧
    v.blocks = (blocks role true idle file).filterMap written ∧ Wrote origin v ∧
    v.curState = (after role true idle file).curState :=
  mainLoop_spec origin file (p := .idle) ⟨rfl, by simp, by simp, rfl, rfl⟩ (by simp)
    (DoubleFetch.Wrote.nil _)

end DoubleFetch.Filter

namespace DoubleFetch.Filter2

open Phase

/-! ## `filter2.py` -/

/-- The call made for a block read. -/
def call (b : Str × List Str) : Str × List Item := (b.1, b.2.map mkItem)

/-- The call does not raise. -/
def Succeeds (b : Str × List Str) : Prop := ∃ out, processSkeleton (b.2.map mkItem) = .ok out

/-- The block that is written for a block read. -/
def written (b : Str × List Str) : Option (Str × List Str) :=
  match processSkeleton (b.2.map mkItem) with
  | .ok out => if out ≠ [] then some (b.1, out) else none
  | .error _ => none

/-- The calls made and the writes are those of the blocks `bs`. -/
structure Wrote (v : Vars) (bs : List (Str × List Str)) : Prop where
  calls : v.calls = bs.map call
  wrote : DoubleFetch.Wrote v.origin v.isOutfileOpen v.writes (bs.filterMap written)

/-- The variables at the head of the outer loop. -/
structure At (v : Vars) (p : Phase Str) : Prop where
  curState : v.curState = p.curState
  decl : ∀ d, p = .head d ∨ p = .opened d → v.tempFuncDecl = d
  left : ∀ d, p = .opened d → v.tempLeft = "\x7b".toList
  inList : v.inList = []
  outList : v.outList = []

theorem writeBlock_spec {v : Vars} {bs : List (Str × List Str)} {d : Str}
    (hw : DoubleFetch.Wrote v.origin v.isOutfileOpen v.writes bs) (hd : v.tempFuncDecl = d)
    (hl : v.tempLeft = "\x7b".toList) :
    DoubleFetch.Wrote (writeBlock v).origin (writeBlock v).isOutfileOpen (writeBlock v).writes
      (bs ++ [(d, v.outList)]) ∧ (writeBlock v).curState = v.curState ∧
      (writeBlock v).calls = v.calls ∧ (writeBlock v).origin = v.origin := by
  have h := hw.snoc (d, v.outList)
  unfold writeBlock
  split_ifs with ho <;>
    (refine ⟨?_, rfl, rfl, rfl⟩; simpa [ho, hl, hd, writeLines, render] using h)

theorem finishBlock_spec {v : Vars} {bs : List (Str × List Str)} {d : Str} {es : List Str}
    (hw : Wrote v bs) (hd : v.tempFuncDecl = d) (hl : v.tempLeft = "\x7b".toList)
    (hin : v.inList = es.map mkItem) (hs : Succeeds (d, es)) :
    ∃ v', finishBlock v = .ok v' ∧ Wrote v' (bs ++ [(d, es)]) ∧ v'.curState = v.curState ∧
      v'.inList = [] ∧ v'.outList = [] ∧ v'.origin = v.origin := by
  obtain ⟨out, hout⟩ := hs
  have hcalls : v.calls ++ [(v.tempFuncDecl, v.inList)] = (bs ++ [(d, es)]).map call := by
    simp [hw.calls, hd, hin, call]
  have hproc : processSkeleton v.inList = .ok out := by rw [hin]; exact hout
  simp only [finishBlock, hproc, ok_bind]
  split_ifs with hne
  · have hwr : written (d, es) = some (d, out) := by simp [written, hout, hne]
    obtain ⟨h1, h2, h3, h4⟩ := writeBlock_spec
      (v := { v with calls := v.calls ++ [(v.tempFuncDecl, v.inList)], outList := out })
      hw.wrote hd hl
    refine ⟨_, rfl, ⟨h3.trans hcalls, ?_⟩, h2, rfl, rfl, h4⟩
    simpa [hwr] using h1
  · have hwr : written (d, es) = none := by simp [written, hout, hne]
    refine ⟨_, rfl, ⟨hcalls, ?_⟩, rfl, rfl, rfl, rfl⟩
    simpa [hwr] using hw.wrote

theorem finishBlock_error {v : Vars} {d : Str} {es : List Str} (hin : v.inList = es.map mkItem)
    (hs : ¬ Succeeds (d, es)) : ∃ e, finishBlock v = .error e := by
  cases h : processSkeleton v.inList with
  | ok out => exact absurd ⟨out, by rw [← hin, h]⟩ hs
  | error e => exact ⟨e, by simp only [finishBlock, h, error_bind]⟩

/-- **A line that is not the first entry of a function**: the outer loop goes on in the
    next state. -/
theorem mainLoop_line (line : Str) (file : List Str) {v : Vars} {p : Phase Str} (hv : At v p)
    (hp : ∀ d es, p ≠ .inside d es) (hl : ∀ d, p = .opened d → role line ≠ .entry) :
    ∃ curState decl left, mainLoop (line :: file) v = mainLoop file
        { v with curState := curState, tempFuncDecl := decl, tempLeft := left } ∧
      At { v with curState := curState, tempFuncDecl := decl, tempLeft := left }
        (next role false p line) := by
  have hs := hv.curState
  rw [mainLoop, identify_eq]
  cases p with
  | idle =>
    simp only [Phase.curState] at hs
    cases hk : Filter.identify line with
    | funcDecl =>
      have hn : next role false .idle line = .head line := by simp [next, role, hk]
      simp only [hs, reduceCtorEq, if_false, and_self, if_true]
      exact ⟨_, _, _, rfl, hn ▸ ⟨rfl, by simp, by simp, hv.inList, hv.outList⟩⟩
    | _ =>
      simp only [hs, reduceCtorEq, if_false, and_false, false_and, or_self]
      exact ⟨_, _, _, rfl, by simpa [next, role, hk] using hv⟩
  | head d =>
    simp only [Phase.curState] at hs
    cases hk : Filter.identify line with
    | funcDecl =>
      have hn : next role false (.head d) line = .head line := by simp [next, role, hk]
      simp only [hs, reduceCtorEq, if_false, and_self, if_true, false_and]
      exact ⟨_, _, _, rfl, hn ▸ ⟨rfl, by simp, by simp, hv.inList, hv.outList⟩⟩
    | lbrace =>
      have hn : next role false (.head d) line = .opened d := by simp [next, role, hk]
      simp only [hs, reduceCtorEq, if_false, and_self, if_true, false_and, and_false]
      exact ⟨_, _, _, rfl, hn ▸ ⟨rfl, by simpa using hv.decl d (Or.inl rfl), by simp, hv.inList,
        hv.outList⟩⟩
    | _ =>
      simp only [hs, reduceCtorEq, if_false, and_false, false_and, or_self, true_or, or_true]
      exact ⟨_, _, _, rfl, by simpa [next, role, hk] using hv⟩
  | opened d =>
    have hk := mt role_entry.2 (hl d rfl)
    simp only [not_or] at hk
    simp only [Phase.curState] at hs
    cases hk' : Filter.identify line with
    | trans => exact absurd hk' hk.1
    | case => exact absurd hk' hk.2
    | rbrace =>
      have hn : next role false (.opened d) line = .idle := by simp [next, role, hk']
      simp only [hs, reduceCtorEq, if_false, and_self, if_true]
      exact ⟨_, _, _, rfl, hn ▸ ⟨rfl, by simp, by simp, hv.inList, hv.outList⟩⟩
    | _ =>
      simp only [hs, reduceCtorEq, if_false, and_false, false_and, or_self]
      exact ⟨_, _, _, rfl, by simpa [next, role, hk'] using hv⟩
  | inside d es => exact absurd rfl (hp d es)

/-- **The first entry of a function**: the inner loop reads the others. -/
theorem mainLoop_entry {line d : Str} (file : List Str) {v : Vars} (hv : At v (.opened d))
    (hl : role line = .entry) :
    mainLoop (line :: file) v =
      let r := readTrans Filter.identify file .gotTrans ([line].map Filter.mkItem)
      finishBlock { v with curState := r.2.1, inList := r.2.2 } >>= mainLoop r.1 := by
  have hs : v.curState = .gotLeft := hv.curState
  have hk := role_entry.1 hl
  have hb : ∀ k, (k = Kind.trans ∨ k = .case) → k ≠ .funcDecl ∧ k ≠ .rbrace ∧
      k ≠ .lbrace := by rintro k (rfl | rfl) <;> simp
  obtain ⟨h1, h2, h3⟩ := hb _ hk
  rw [mainLoop, identify_eq]
  simp only [hs, h1, h2, h3, hk, if_false, and_self, if_true, and_false, reduceCtorEq, hv.inList]
  rfl

/-- **The outer loop reads blocks**, and raises where a call does. -/
theorem mainLoop_spec (file : List Str) {v : Vars} {p : Phase Str} {bs : List (Str × List Str)}
    (hv : At v p) (hp : ∀ d es, p ≠ .inside d es) (hw : Wrote v bs) :
    (∃ v', mainLoop file v = .ok v' ∧ (∀ b ∈ blocks role false p file, Succeeds b) ∧
      Wrote v' (bs ++ blocks role false p file) ∧ v'.origin = v.origin ∧
      v'.curState = (after role false p file).curState) ∨
    (∃ e, mainLoop file v = .error e) ∧ ∃ b ∈ blocks role false p file, ¬ Succeeds b := by
  match file with
  | [] =>
    refine Or.inl ⟨v, by rw [mainLoop]; rfl, ?_, ?_, rfl, hv.curState⟩
    · cases p <;> simp_all [flush]
    · cases p <;> simp_all [flush]
  | line :: file =>
    by_cases hent : ∃ d, p = .opened d ∧ role line = .entry
    · -- the entries up to the end of the function are read
      obtain ⟨d, rfl, he⟩ := hent
      have hn : next role false (.opened d) line = .inside d [line] := by simp [next, he]
      obtain ⟨es', hes', hin, h⟩ := readTrans_spec false d file [line] (by simpa using he)
      rw [mainLoop_entry file hv he, blocks_cons, after_cons, hn,
        show emit role (.opened d) line = [] from rfl, List.nil_append]
      set r := readTrans Filter.identify file .gotTrans ([line].map Filter.mkItem) with hr
      have hmem : (d, es') ∈ blocks role false (.inside d [line]) file := by
        rcases h with ⟨-, hb, -⟩ | ⟨-, -, hb, -⟩ <;> simp [hb]
      by_cases hsu : Succeeds (d, es')
      · obtain ⟨v₁, hv₁, hw₁, hc₁, hi₁, ho₁, hor₁⟩ := finishBlock_spec
          (show Wrote { v with curState := r.2.1, inList := r.2.2 } bs from ⟨hw.calls, hw.wrote⟩)
          (hv.decl d (Or.inr rfl)) (hv.left d rfl) hin hsu
        simp only [hv₁, ok_bind]
        rcases h with ⟨hcur, hb, ha⟩ | ⟨hnil, hcur, hb, ha⟩
        · -- the function is closed: the outer loop goes on behind it
          rw [hb, ha]
          rcases mainLoop_spec r.1 (v := v₁) (p := .idle)
            ⟨hc₁.trans hcur, by simp, by simp, hi₁, ho₁⟩ (by simp) hw₁ with
            ⟨v', h1, h2, h3, h4, h5⟩ | ⟨h1, b, hb, h2⟩
          · refine Or.inl ⟨v', h1, ?_, by simpa using h3, h4.trans hor₁, h5⟩
            simpa using ⟨hsu, by simpa using h2⟩
          · exact Or.inr ⟨h1, b, List.mem_cons_of_mem _ hb, h2⟩
        · -- the input ends in the function
          refine Or.inl ⟨v₁, by rw [hnil, mainLoop]; rfl, by simpa [hb] using hsu,
            by rw [hb]; exact hw₁, hor₁, by rw [hc₁, ha]; exact hcur⟩
      · obtain ⟨e, he⟩ := finishBlock_error
          (v := { v with curState := r.2.1, inList := r.2.2 }) hin hsu
        exact Or.inr ⟨⟨e, by simp only [he, error_bind]⟩, _, hmem, hsu⟩
    · have hl : ∀ d, p = .opened d → role line ≠ .entry := fun d hd he => hent ⟨d, hd, he⟩
      obtain ⟨curState, decl, left, hgo, hat⟩ := mainLoop_line line file hv hp hl
      rw [hgo, blocks_cons, after_cons, emit_eq_nil hp, List.nil_append]
      exact mainLoop_spec file hat (next_ne_inside hp hl) ⟨hw.calls, hw.wrote⟩
termination_by file.length
decreasing_by all_goals first | exact Nat.lt_succ_of_le (readTrans_length ..) | simp

/-- **`filter2.py` reads blocks**, and raises where a call does. -/
theorem main_spec (header : Str) (file : List Str) :
    (∃ v, main (header :: file) = .ok v ∧ (∀ b ∈ blocks role false idle file, Succeeds b) ∧
      Wrote v (blocks role false idle file) ∧ v.origin = header ∧
      v.curState = (after role false idle file).curState) ∨
    (∃ e, main (header :: file) = .error e) ∧ ∃ b ∈ blocks role false idle file, ¬ Succeeds b :=
  mainLoop_spec file (v := { origin := header }) (p := .idle)
    ⟨rfl, by simp, by simp, rfl, rfl⟩ (by simp)
    (show Wrote { origin := header } [] from ⟨rfl, DoubleFetch.Wrote.nil _⟩)

end DoubleFetch.Filter2
