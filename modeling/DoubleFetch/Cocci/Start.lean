/-
  `cocci/startcocci_linux.sh`: the matcher on `testdir/`, and the copies of what it reports.

  * `Found.call`: what the script of a rule passes to `post_match_process`; which matches it
    logs is `call_accepted_iff`;
  * `start`: a run, which empties `outcome/` and `result.txt`, lets the matcher log what it
    finds, and copies the files named in the log;
  * `start_copies`: afterwards `outcome/` holds the copies of this run and nothing else, one
    for each stretch of records of one file, none overwritten.

  What the matcher finds is a parameter; the files it reports are files of `testdir/`, whose
  names have no newline.  The messages printed are left out.
-/
import DoubleFetch.Base.Files
import DoubleFetch.Cocci.Copy

namespace DoubleFetch.Cocci

/-! ## The scripts of the rules -/

inductive Rule where
  | rule1 | rule2 | rule3 | rule4 | rule5 | rule6
  deriving DecidableEq

/-- A match: the rule, its positions, and the texts of `src` and of the rule's other
    metavariable, `ptr` in rules 2 to 4 and `e1` in rules 5 and 6. -/
structure Found where
  rule : Rule
  p1 : Position
  p2 : Position
  src : Str
  other : Str

/-- The call that the script of the rule makes. -/
def Found.call (m : Found) : Call where
  p1 := m.p1
  p2 := m.p2
  src := m.src
  ptr := match m.rule with
    | .rule1 => m.src
    | _ => m.other

theorem passes_identifier {e : Str} (he : ∀ c ∈ e, c.isAlphanum = true ∨ c = '_') : Passes e := by
  have hne : ∀ c : Char, c.isAlphanum = false → c ≠ '_' → c ∉ e := by
    intro c h₁ h₂ hc
    rcases he c hc with h | h
    · rw [h₁] at h; cases h
    · exact h₂ h
  refine ⟨hne _ rfl (by decide), hne _ rfl (by decide), fun h => absurd h (hne _ rfl (by decide)), ?_⟩
  exact fun h => hne '(' rfl (by decide) (h.subset (by simp))

/-- **Which matches are logged.**  Of rule 1 and of the rules for members only `src` is
    tested. -/
theorem call_accepted_iff {m : Found} (he : m.rule = .rule5 ∨ m.rule = .rule6 →
    ∀ c ∈ m.other, c.isAlphanum = true ∨ c = '_') :
    m.call.accepted = true ↔ m.p1.lineNumber < m.p2.lineNumber ∧ Passes m.src ∧
      (m.rule = .rule2 ∨ m.rule = .rule3 ∨ m.rule = .rule4 → Passes m.other) := by
  rw [Call.accepted, decide_eq_true_eq, Accepted]
  obtain ⟨rule, p1, p2, src, other⟩ := m
  cases rule with
  | rule1 => simp [Found.call]
  | rule2 | rule3 | rule4 => simp [Found.call]
  | rule5 | rule6 => simp [Found.call, passes_identifier (he (by simp))]

/-! ## The run -/

structure Disk where
  testdir : Files Str Str := ∅
  result : Option Str := none
  outcome : Option (Files Str Str) := none

/-- The calls `shutil.copy(s, d)`: the directory they leave, and whether one has raised. -/
def shutilCopy (testdir : Files Str Str) : List (Str × Str) → Files Str Str → Files Str Str × Bool
  | [], outcome => (outcome, false)
  | (s, d) :: copies, outcome =>
    match testdir.lookup s with
    | some content => shutilCopy testdir copies (outcome.insert d content)
    | none => (outcome, true)

/-- A run of the script, and whether `copy_files.py` raises. -/
def start (spatch : Files Str Str → List Found) (d : Disk) : Disk × Bool :=
  let result := (runCalls ((spatch d.testdir).map Found.call)).logfile
  let (outcome, raised) := shutilCopy d.testdir (copyFiles (lines result)).copies ∅
  ({ d with result := some result, outcome := some outcome }, raised)

theorem shutilCopy_eq {testdir : Files Str Str} : ∀ {copies : List (Str × Str)} {outcome : Files Str Str},
    (∀ p ∈ copies, p.1 ∈ testdir) → shutilCopy testdir copies outcome =
      (outcome.putAll (copies.map fun p => (p.2, testdir.lookup p.1)), false)
  | [], _, _ => rfl
  | (s, d) :: copies, outcome, h => by
    simp only [List.mem_cons, forall_eq_or_imp] at h
    obtain ⟨content, hc⟩ := Finmap.mem_iff.1 h.1
    have hput : outcome.put (d, testdir.lookup s) = outcome.insert d content := by rw [hc]; rfl
    rw [shutilCopy, hc]
    refine (shutilCopy_eq h.2).trans ?_
    rw [List.map_cons, Files.putAll, Files.putAll, List.foldl_cons, hput]

/-- The files of the records, without adjacent repetitions. -/
def reported (calls : List Call) : List Str :=
  ((calls.filter Call.accepted).map (·.p1.file)).destutter (· ≠ ·)

theorem mem_reported {calls : List Call} {f : Str} :
    f ∈ reported calls ↔ ∃ c ∈ calls, c.accepted = true ∧ c.p1.file = f := by
  have hmem : f ∈ reported calls ↔ f ∈ (calls.filter Call.accepted).map (·.p1.file) := by
    rw [reported]
    cases (calls.filter Call.accepted).map (·.p1.file) with
    | nil => simp
    | cons g fs => rw [List.destutter_cons', mem_destutter'_ne, List.mem_cons]
  rw [hmem]
  simp [and_assoc]

/-- What `copy_files.py` copies after some calls. -/
theorem copies_runCalls {calls : List Call}
    (hfile : ∀ c ∈ calls, InTestdir c.p1.file ∧ '\n' ∉ c.p1.file) :
    (runCalls calls).logfile = (records 0 (calls.filter Call.accepted)).flatten ∧
      (copyFiles (lines (runCalls calls).logfile)).copies = numbered 1 (reported calls) := by
  have hacc : ∀ c ∈ calls.filter Call.accepted, InTestdir c.p1.file ∧ '\n' ∉ c.p1.file :=
    fun c hc => hfile c (List.mem_of_mem_filter hc)
  have hlog : (runCalls calls).logfile = (records 0 (calls.filter Call.accepted)).flatten :=
    (foldl_run calls {}).2
  refine ⟨hlog, ?_⟩
  rw [hlog, lines_flatten (isLine_records (fun c hc => (hacc c hc).2) 0), copyFiles,
    mainLoop_records _ _ _ fun c hc => (hacc c hc).1, foldl_offer_destutter, reported]

/-- **What a run leaves**, whatever was there before: the records of its matches, and the copies
    of the files they name, one for each stretch of records of one file.  No copy is
    overwritten, and `copy_files.py` does not raise. -/
theorem start_copies (spatch : Files Str Str → List Found) (d : Disk)
    (hfound : ∀ m ∈ spatch d.testdir,
      m.p1.file ∈ d.testdir ∧ InTestdir m.p1.file ∧ '\n' ∉ m.p1.file) :
    let calls := (spatch d.testdir).map Found.call
    ∃ outcome, start spatch d = ({ d with
        result := some (records 0 (calls.filter Call.accepted)).flatten
        outcome := some outcome }, false) ∧
      (∀ dst content, outcome.lookup dst = some content ↔ ∃ i f, (reported calls)[i]? = some f ∧
        destination (1 + i) f = dst ∧ d.testdir.lookup f = some content) ∧
      ∀ c ∈ calls, c.accepted = true → ∃ dst ∈ outcome, outcome.lookup dst = d.testdir.lookup c.p1.file := by
  intro calls
  have hcalls : ∀ c ∈ calls, c.p1.file ∈ d.testdir ∧ InTestdir c.p1.file ∧ '\n' ∉ c.p1.file := by
    intro c hc
    obtain ⟨m, hm, rfl⟩ := List.mem_map.1 hc
    exact hfound m hm
  obtain ⟨hlog, hcopies⟩ := copies_runCalls fun c hc => (hcalls c hc).2
  have hreported : ∀ f ∈ reported calls, f ∈ d.testdir := by
    intro f hf
    obtain ⟨c, hc, -, rfl⟩ := mem_reported.1 hf
    exact (hcalls c hc).1
  set outcome := Files.written (Files.numberedWrites destination (fun _ f => d.testdir.lookup f) 1
    (reported calls)) with hO
  have hmem : ∀ p ∈ numbered 1 (reported calls), p.1 ∈ d.testdir := by
    intro p hp
    obtain ⟨q, hq, rfl⟩ := List.mem_map.1 hp
    exact hreported _ (List.fst_mem_of_mem_zipIdx hq)
  have hcopy : shutilCopy d.testdir (copyFiles (lines (runCalls calls).logfile)).copies ∅ =
      (outcome, false) := by
    rw [hcopies, shutilCopy_eq hmem, numbered, List.map_map]
    rfl
  have hstart : start spatch d = ({ d with
      result := some (records 0 (calls.filter Call.accepted)).flatten
      outcome := some outcome }, false) := by
    rw [start, ← hlog]
    simp only [show (spatch d.testdir).map Found.call = calls from rfl, hcopy]
  have hlook : ∀ dst content, outcome.lookup dst = some content ↔ ∃ i f, (reported calls)[i]? = some f ∧
      destination (1 + i) f = dst ∧ d.testdir.lookup f = some content :=
    fun dst content => Files.lookup_numberedWrites destination_injective
  refine ⟨outcome, hstart, hlook, fun c hc hacc => ?_⟩
  obtain ⟨content, hcontent⟩ := Finmap.mem_iff.1 (hcalls c hc).1
  obtain ⟨i, hi⟩ := List.mem_iff_getElem?.1 (mem_reported.2 ⟨c, hc, hacc, rfl⟩)
  have hl := (hlook _ content).2 ⟨i, _, hi, rfl, hcontent⟩
  exact ⟨_, Finmap.mem_of_lookup_eq_some hl, hl.trans hcontent.symm⟩

/-- A file with a double fetch, and what an earlier run has left. -/
def driver : Disk where
  testdir := Finmap.singleton "testdir/driver.c".toList
    "int f(int *p)\n\x7b\n\tget_user(a, p);\n\tget_user(b, p);\n\x7d\n".toList
  result := some "No.0 File: \ntestdir/old.c\n".toList
  outcome := some (Finmap.singleton "outcome/1-old.c".toList [])

/-- What the matcher finds in it. -/
def driverMatch : Found :=
  ⟨.rule1, ⟨"testdir/driver.c".toList, 3⟩, ⟨"testdir/driver.c".toList, 4⟩, "p".toList, "p".toList⟩

theorem start_copies_driver : ∃ outcome, (start (fun _ => [driverMatch]) driver).1.outcome = some outcome ∧
    "outcome/1-driver.c".toList ∈ outcome ∧ "outcome/1-old.c".toList ∉ outcome := by
  have hacc : driverMatch.call.accepted = true := by decide +kernel
  have hrep : reported [driverMatch.call] = ["testdir/driver.c".toList] := by
    simp [reported, hacc]; rfl
  obtain ⟨outcome, hstart, hlook, -⟩ := start_copies (fun _ => [driverMatch]) driver (by
    intro m hm
    obtain rfl := List.mem_singleton.1 hm
    exact ⟨(Finmap.mem_singleton ..).2 rfl, by decide +kernel, by decide +kernel⟩)
  refine ⟨outcome, by rw [hstart], ?_, fun hm => ?_⟩
  · refine Finmap.mem_of_lookup_eq_some ((hlook _ _).2 ⟨0, _, by rw [List.map_singleton, hrep]; rfl, ?_,
      Finmap.lookup_singleton_eq⟩)
    decide +kernel
  · obtain ⟨content, hc⟩ := Finmap.mem_iff.1 hm
    obtain ⟨i, f, hi, hd, -⟩ := (hlook _ _).1 hc
    rw [List.map_singleton, hrep] at hi
    obtain ⟨rfl, rfl⟩ : i = 0 ∧ "testdir/driver.c".toList = f := by
      cases i with
      | zero => exact ⟨rfl, Option.some.inj hi⟩
      | succ i => cases hi
    revert hd
    decide +kernel

end DoubleFetch.Cocci
