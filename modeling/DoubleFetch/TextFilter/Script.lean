/-
  `text-filter/start.sh`: the text filter on a tree of source files.

  * `scandir` numbers the files of the tree, and runs sed and `filter.py` on those whose
    extension is `c` or `h`; `checkIdentical` runs `filter2.py` on every file in `output/`;
    `start` is a run of the script on the directories that earlier runs have left;
  * `scandir_spec`, `start_spec`: a run overlays the directories with the files it writes.
    No file is written twice, since every file of the tree has a number of its own;
  * `start_reports`: from empty directories, `output2/` holds the reports of the source
    files and nothing else, and no program raises;
  * `start_relisted`: the order in which `ls` lists the files changes the numbers only;
  * `reported_iff`: the files reported are the C files with two fetches of one source in one
    function.

  A tree is listed as `ls` does it.  The names, and the path of the working directory, are
  those that the script passes on in one word.  The messages printed are left out.
-/
import DoubleFetch.Base.Files
import DoubleFetch.Names
import DoubleFetch.TextFilter.Labels
import DoubleFetch.TextFilter.Pipeline

namespace DoubleFetch.Script

open Phase

/-! ## Names -/

/-- The name in `source/` for a name in `output/`. -/
def copyOf (n : Name) : Name where
  text := 's' :: '-' :: n.text
  ok := isName_append (u := ['s', '-']) (by decide) n.ok.2.2

/-- `s-${num}-${curfile}` -/
def copyName (num : ℕ) (curfile : Name) : Name := copyOf (numbered num curfile)

theorem copyOf_injective {m n : Name} (h : copyOf m = copyOf n) : m = n := by
  rw [Name.mk.injEq]
  simpa [copyOf] using congrArg Name.text h

theorem copyName_injective {j k : ℕ} {m n : Name} (h : copyName j m = copyName k n) : j = k :=
  numbered_injective (copyOf_injective h)

/-! ## The script -/

/-- `${curfile##*.}` -/
def extension (curfile : Str) : Str := (curfile.reverse.takeWhile (· ≠ '.')).reverse

/-- `test ${extension} = "c" -o ${extension} = "h"` -/
def IsC (curfile : Name) : Prop :=
  extension curfile.text = "c".toList ∨ extension curfile.text = "h".toList

instance (curfile : Name) : Decidable (IsC curfile) := inferInstanceAs (Decidable (_ ∨ _))

/-- What the script reads and writes: the file `temp2` and the directories `output/`,
    `source/` and `output2/`. -/
structure Disk where
  temp2 : Option Str := none
  output : Files Name Str := ∅
  source : Files Name Str := ∅
  output2 : Files Name Str := ∅

/-- The variables of the script; `raised` are the files on which `filter2.py` has
    raised. -/
structure State extends Disk where
  num : ℕ := 0
  nonNum : ℕ := 0
  count : ℕ := 0
  raised : List Name := []

/-- `${cur_dir}/${curfile}` in the directory `workdir`. -/
def path (workdir : Str) (curfile : Name) : Str :=
  let curDir := if workdir = "/".toList then [] else workdir
  curDir ++ "/".toList ++ curfile.text

/-- The output of sed for a source file. -/
def sed (infile : Str) : Str := Sed.Cmd.runFile Extract.script infile

/-- `scandir` on a file. -/
def scanFile (workdir : Str) (curfile : Name) (content : Str) (s : State) : State :=
  let infile := path workdir curfile
  let num := s.num + 1
  if IsC curfile then
    let temp2 := s.temp2.getD [] ++ sed content
    let output := s.output.put (numbered num curfile, filterPy temp2 infile)
    let source := if numbered num curfile ∈ output then s.source.insert (copyName num curfile) content
      else s.source
    { s with num := num, temp2 := none, output := output, source := source }
  else { s with num := num, nonNum := s.nonNum + 1 }

/-- The loop of `scandir` over the entries of `workdir`. -/
def scandir (workdir : Str) : Tree Name Str → State → State
  | .nil, s => s
  | .file curfile content rest, s => scandir workdir rest (scanFile workdir curfile content s)
  | .dir curfile sub rest, s => scandir workdir rest (scandir (path workdir curfile) sub s)

/-- `check_indentical` on a file of `output/`. -/
def checkFile (s : State) (curfile : Name) : State :=
  match s.output.lookup curfile with
  | some infile => { s with
      count := s.count + 1
      output2 := s.output2.put (curfile, filter2Py infile)
      raised := if filter2Raises infile then s.raised ++ [curfile] else s.raised }
  | none => s

def checkIdentical (ls : Finset Name → List Name) (s : State) : State :=
  (ls s.output.keys).foldl checkFile s

/-- A run of the script in the directory `basedir`. -/
def start (ls : Finset Name → List Name) (basedir : WorkDir) (test : Tree Name Str) (d : Disk) :
    State :=
  checkIdentical ls (scandir (basedir.text ++ "/test".toList) test { toDisk := d })

/-! ## Phase 1 -/

/-- A file of the tree: its directory, its name, and its content. -/
abbrev Job := Str × Name × Str

/-- The files of a tree below `workdir`. -/
def jobs (workdir : Str) (t : Tree Name Str) : List Job := t.walk path workdir

/-- The files of the tree in `basedir`. -/
abbrev testJobs (basedir : WorkDir) (test : Tree Name Str) : List Job :=
  jobs (basedir.text ++ "/test".toList) test

/-- What phase 1 writes for a file. -/
def phase1 (j : Job) : Option Str :=
  if IsC j.2.1 then filterPy (sed j.2.2) (path j.1 j.2.1) else none

/-- What is copied of a file: all of it, if there is an output under its number. -/
def copied (output : Files Name Str) (num : ℕ) (j : Job) : Option Str :=
  if IsC j.2.1 ∧ (numbered num j.2.1 ∈ output ∨ (phase1 j).isSome = true) then some j.2.2 else none

/-- The writes to `output/` for files numbered from `k` on. -/
def outputWrites (k : ℕ) (js : List Job) : List (Name × Option Str) :=
  Files.numberedWrites (fun num j => numbered num j.2.1) (fun _ j => phase1 j) k js

/-- The writes to `source/`. -/
def sourceWrites (output : Files Name Str) (k : ℕ) (js : List Job) : List (Name × Option Str) :=
  Files.numberedWrites (fun num j => copyName num j.2.1) (copied output) k js

theorem scandir_eq (workdir : Str) (t : Tree Name Str) (s : State) :
    scandir workdir t s = (jobs workdir t).foldl (fun s j => scanFile j.1 j.2.1 j.2.2 s) s := by
  induction t generalizing workdir s with
  | nil => rfl
  | file curfile content rest ih => exact ih workdir _
  | dir curfile sub rest ihsub ih =>
    rw [scandir, ihsub, ih, jobs, jobs, jobs, Tree.walk, List.foldl_append]

/-- **What is done for a file**, if nothing is left in `temp2`. -/
theorem scanFile_eq (j : Job) {s : State} (ht : s.temp2 = none) :
    ∃ nonNum, scanFile j.1 j.2.1 j.2.2 s = { s with
      num := s.num + 1
      nonNum := nonNum
      output := s.output.put (numbered (s.num + 1) j.2.1, phase1 j)
      source := s.source.put (copyName (s.num + 1) j.2.1, copied s.output (s.num + 1) j) } := by
  by_cases hc : IsC j.2.1
  · refine ⟨s.nonNum, ?_⟩
    have hp : phase1 j = filterPy ([] ++ sed j.2.2) (path j.1 j.2.1) := if_pos hc
    rw [scanFile]
    simp only [ht, Option.getD_none, ← hp]
    rw [if_pos hc]
    have hmem : numbered (s.num + 1) j.2.1 ∈ s.output.put (numbered (s.num + 1) j.2.1, phase1 j) ↔
        numbered (s.num + 1) j.2.1 ∈ s.output ∨ (phase1 j).isSome = true := by
      rw [Files.mem_put]
      exact or_congr_right (and_iff_right rfl)
    congr 2
    rw [copied]
    by_cases hout : numbered (s.num + 1) j.2.1 ∈ s.output ∨ (phase1 j).isSome = true
    · rw [if_pos (hmem.2 hout), if_pos ⟨hc, hout⟩]; rfl
    · rw [if_neg (mt hmem.1 hout), if_neg fun h => hout h.2]; rfl
  · refine ⟨s.nonNum + 1, ?_⟩
    rw [scanFile]
    simp only [phase1, copied, hc, false_and, if_false]
    rfl

theorem foldl_scanFile : ∀ (js : List Job) {s : State}, s.temp2 = none →
    ∃ nonNum, js.foldl (fun s j => scanFile j.1 j.2.1 j.2.2 s) s = { s with
      num := s.num + js.length
      nonNum := nonNum
      output := s.output.putAll (outputWrites (s.num + 1) js)
      source := s.source.putAll (sourceWrites s.output (s.num + 1) js) }
  | [], s, _ => ⟨s.nonNum, rfl⟩
  | j :: js, s, ht => by
    obtain ⟨nonNum, hj⟩ := scanFile_eq j ht
    obtain ⟨nonNum', hjs⟩ := foldl_scanFile js (s := scanFile j.1 j.2.1 j.2.2 s) (by rw [hj]; exact ht)
    -- the output just written has another number than those to come
    have hother : ∀ i a, js[i]? = some a →
        copied (s.output.put (numbered (s.num + 1) j.2.1, phase1 j)) (s.num + 1 + 1 + i) a =
          copied s.output (s.num + 1 + 1 + i) a := by
      intro i a _
      have hne : numbered (s.num + 1 + 1 + i) a.2.1 ≠ numbered (s.num + 1) j.2.1 := by
        intro h
        have := numbered_injective h
        omega
      simp only [copied, Files.mem_put, hne, false_and, or_false]
    refine ⟨nonNum', ?_⟩
    rw [List.foldl_cons, hjs, hj]
    simp only [outputWrites, sourceWrites, Files.numberedWrites_cons, List.length_cons]
    rw [Files.numberedWrites_congr hother]
    simp only [Files.putAll, List.foldl_cons, Nat.add_assoc, Nat.add_comm 1]

/-- **`scandir` on a tree.** -/
theorem scandir_spec (workdir : Str) (t : Tree Name Str) {s : State} (ht : s.temp2 = none) :
    ∃ nonNum, scandir workdir t s = { s with
      num := s.num + (jobs workdir t).length
      nonNum := nonNum
      output := s.output.putAll (outputWrites (s.num + 1) (jobs workdir t))
      source := s.source.putAll (sourceWrites s.output (s.num + 1) (jobs workdir t)) } := by
  rw [scandir_eq]
  exact foldl_scanFile (jobs workdir t) ht

/-! ## Phase 2 -/

/-- The writes to `output2/`. -/
def checkWrites (output : Files Name Str) (names : List Name) : List (Name × Option Str) :=
  names.map fun n => (n, (output.lookup n).bind filter2Py)

/-- The files on which `filter2.py` raises. -/
def raising (output : Files Name Str) (names : List Name) : List Name :=
  names.filter fun n => (output.lookup n).any filter2Raises

theorem foldl_checkFile : ∀ (names : List Name) (s : State),
    ∃ count, names.foldl checkFile s = { s with
      count := count
      output2 := s.output2.putAll (checkWrites s.output names)
      raised := s.raised ++ raising s.output names }
  | [], s => ⟨s.count, by simp [checkWrites, raising, Files.putAll]⟩
  | n :: names, s => by
    have hone : ∃ count, checkFile s n = { s with
        count := count
        output2 := s.output2.put (n, (s.output.lookup n).bind filter2Py)
        raised := s.raised ++ raising s.output [n] } := by
      rw [checkFile]
      cases hn : s.output.lookup n with
      | none => exact ⟨s.count, by simp [Files.put, raising, hn]⟩
      | some infile =>
        refine ⟨s.count + 1, ?_⟩
        cases hr : filter2Raises infile <;> simp [raising, hn, hr]
    obtain ⟨count, hone⟩ := hone
    obtain ⟨count', h⟩ := foldl_checkFile names (checkFile s n)
    refine ⟨count', ?_⟩
    rw [List.foldl_cons, h, hone]
    simp only [checkWrites, raising, List.map_cons, Files.putAll, List.foldl_cons, List.append_assoc,
      ← List.filter_append, List.singleton_append]

section
variable {ls : Finset Name → List Name} (hls : Lists ls) {O : Files Name Str} {n : Name}
include hls

theorem nodup_checkWrites : ((checkWrites O (ls O.keys)).map Prod.fst).Nodup := by
  rw [checkWrites, List.map_map]
  exact (List.map_id (ls O.keys)).symm ▸ (hls O.keys).1

/-- What is written for a file of `output/`. -/
theorem mem_checkWrites {g : Str} : (n, some g) ∈ checkWrites O (ls O.keys) ↔
    ∃ f, O.lookup n = some f ∧ filter2Py f = some g := by
  simp only [checkWrites, List.mem_map, Prod.mk.injEq]
  constructor
  · rintro ⟨m, -, rfl, h⟩
    exact Option.bind_eq_some_iff.1 h
  · rintro ⟨f, hf, hg⟩
    refine ⟨n, ((hls O.keys).2 n).2 (Finmap.mem_keys.2 (Finmap.mem_of_lookup_eq_some hf)), rfl, ?_⟩
    rw [hf, Option.bind_some, hg]

theorem raising_eq_nil : raising O (ls O.keys) = [] ↔
    ∀ n f, O.lookup n = some f → filter2Raises f = false := by
  rw [raising, List.filter_eq_nil_iff]
  constructor
  · intro h n f hf
    have hn := h n (((hls O.keys).2 n).2 (Finmap.mem_keys.2 (Finmap.mem_of_lookup_eq_some hf)))
    simpa [hf] using hn
  · intro h n _
    cases hf : O.lookup n with
    | none => simp
    | some f => simp [h n f hf]

end

/-! ## A run -/

/-- **What a run leaves**: the directories as they were, overlaid by the files written. -/
theorem start_spec (ls : Finset Name → List Name) (basedir : WorkDir) (test : Tree Name Str) {d : Disk}
    (hd : d.temp2 = none) :
    let js := testJobs basedir test
    let O := d.output.putAll (outputWrites 1 js)
    (start ls basedir test d).toDisk = {
        output := O
        source := d.source.putAll (sourceWrites d.output 1 js)
        output2 := d.output2.putAll (checkWrites O (ls O.keys)) } ∧
      (start ls basedir test d).raised = raising O (ls O.keys) := by
  intro js O
  obtain ⟨nonNum, h₁⟩ := scandir_spec (basedir.text ++ "/test".toList) test (s := { toDisk := d }) hd
  obtain ⟨count, h₂⟩ := foldl_checkFile (ls O.keys)
    (scandir (basedir.text ++ "/test".toList) test { toDisk := d })
  have hout : (scandir (basedir.text ++ "/test".toList) test { toDisk := d }).output = O := by rw [h₁]
  rw [start, checkIdentical, hout, h₂, h₁]
  exact ⟨by simp only [hd]; rfl, rfl⟩

theorem newline_path {workdir : Str} (h : '\n' ∉ workdir) (n : Name) : '\n' ∉ path workdir n := by
  have hn : '\n' ∉ n.text := by
    intro hm
    have := n.ok.2.2 _ hm
    revert this; decide
  simp only [path, List.mem_append, not_or]
  refine ⟨⟨?_, by decide⟩, hn⟩
  split_ifs
  · simp
  · exact h

theorem newline_jobs (t : Tree Name Str) {workdir : Str} (h : '\n' ∉ workdir) :
    ∀ j ∈ jobs workdir t, '\n' ∉ path j.1 j.2.1 := by
  induction t generalizing workdir with
  | nil => intro j hj; cases hj
  | file name content rest ih => exact List.forall_mem_cons.2 ⟨newline_path h name, ih h⟩
  | dir name sub rest ihsub ih =>
    exact List.forall_mem_append.2 ⟨ihsub (newline_path h name), ih h⟩

theorem newline_testJobs {basedir : WorkDir} (test : Tree Name Str) :
    ∀ j ∈ testJobs basedir test, '\n' ∉ path j.1 j.2.1 :=
  newline_jobs test (by rw [List.mem_append, not_or]; exact ⟨basedir.newline, by decide⟩)

/-- The lines that `filter.py` reads for a source file. -/
def skeleton (infile : Str) : List Str := (lines infile).flatMap (Sed.Cmd.runLine Extract.script)

theorem lines_sed (infile : Str) : lines (sed infile) = skeleton infile :=
  Sed.lines_runFile (by decide +kernel) infile

/-- The report of a file of the tree. -/
def jobReport (j : Job) : Option Str :=
  if IsC j.2.1 then reportFile (path j.1 j.2.1) (skeleton j.2.2) else none

section
variable {j : Job} (h : '\n' ∉ path j.1 j.2.1)
include h

theorem phase1_report : (phase1 j).bind filter2Py = jobReport j := by
  rw [phase1, jobReport, ← lines_sed]
  split_ifs
  · cases hf : filterPy (sed j.2.2) (path j.1 j.2.1) with
    | none => exact (reportFile_none hf).symm
    | some f => exact (filter2Py_filterPy h hf).2
  · rfl

theorem phase1_raises {f : Str} (hf : phase1 j = some f) : filter2Raises f = false := by
  rw [phase1] at hf
  split_ifs at hf
  exact (filter2Py_filterPy h hf).1

end

/-! ## What the loops write -/

/-- A file of the tree has the name `n` in `output/`. -/
def Filed (js : List Job) (n : Name) (j : Job) : Prop :=
  ∃ i, js[i]? = some j ∧ numbered (1 + i) j.2.1 = n

section
variable {js : List Job} {n m : Name} {j j' : Job} {O : Files Name Str} {c : Str}

theorem Filed.mem (h : Filed js n j) : j ∈ js := by
  obtain ⟨i, hj, -⟩ := h
  exact List.mem_of_getElem? hj

theorem phase1_isC (h : (phase1 j).isSome = true) : IsC j.2.1 := by
  by_contra hn
  rw [phase1, if_neg hn] at h; cases h

theorem mem_outputWrites : (n, some c) ∈ outputWrites 1 js ↔ ∃ j, Filed js n j ∧ phase1 j = some c := by
  rw [outputWrites, Files.mem_numberedWrites]
  constructor
  · rintro ⟨i, j, hj, hn, hc⟩; exact ⟨j, ⟨i, hj, hn⟩, hc⟩
  · rintro ⟨j, ⟨i, hj, hn⟩, hc⟩; exact ⟨i, j, hj, hn, hc⟩

theorem mem_sourceWrites : (m, some c) ∈ sourceWrites O 1 js ↔ ∃ n j, Filed js n j ∧
    copyOf n = m ∧ IsC j.2.1 ∧ (n ∈ O ∨ (phase1 j).isSome = true) ∧ j.2.2 = c := by
  rw [sourceWrites, Files.mem_numberedWrites]
  simp only [copied, Option.ite_none_right_eq_some, Option.some.injEq, and_assoc]
  constructor
  · rintro ⟨i, j, hj, hm, hc⟩; exact ⟨_, j, ⟨i, hj, rfl⟩, hm, hc⟩
  · rintro ⟨n, j, ⟨i, hj, rfl⟩, hm, hc⟩; exact ⟨i, j, hj, hm, hc⟩

theorem nodup_outputWrites : ((outputWrites 1 js).map Prod.fst).Nodup :=
  Files.nodup_numberedWrites numbered_injective

theorem nodup_sourceWrites : ((sourceWrites O 1 js).map Prod.fst).Nodup :=
  Files.nodup_numberedWrites copyName_injective

end

/-! ## A run from empty directories -/

section
variable {ls : Finset Name → List Name} {basedir : WorkDir} {test : Tree Name Str} {n m : Name}
  {f g c : Str}

theorem start_output : (start ls basedir test {}).output.lookup n = some f ↔
    ∃ j, Filed (testJobs basedir test) n j ∧ phase1 j = some f := by
  obtain ⟨hdisk, -⟩ := start_spec ls basedir test (d := {}) rfl
  rw [show (start ls basedir test {}).output = Files.written _ from congrArg Disk.output hdisk,
    Files.lookup_written nodup_outputWrites, mem_outputWrites]

theorem start_source : (start ls basedir test {}).source.lookup m = some c ↔
    ∃ n j, Filed (testJobs basedir test) n j ∧ copyOf n = m ∧
      (phase1 j).isSome = true ∧ j.2.2 = c := by
  obtain ⟨hdisk, -⟩ := start_spec ls basedir test (d := {}) rfl
  rw [show (start ls basedir test {}).source = Files.written _ from congrArg Disk.source hdisk,
    Files.lookup_written nodup_sourceWrites, mem_sourceWrites]
  refine exists_congr fun n => exists_congr fun j => and_congr_right fun _ => and_congr_right fun _ => ?_
  constructor
  · rintro ⟨-, h | h, hc⟩
    · exact absurd h Finmap.notMem_empty
    · exact ⟨h, hc⟩
  · rintro ⟨h, hc⟩; exact ⟨phase1_isC h, Or.inr h, hc⟩

variable (hls : Lists ls)
include hls

theorem start_output2 : (start ls basedir test {}).output2.lookup n = some g ↔
    ∃ j, Filed (testJobs basedir test) n j ∧ jobReport j = some g := by
  obtain ⟨hdisk, -⟩ := start_spec ls basedir test (d := {}) rfl
  have hO : Files.written (outputWrites 1 (testJobs basedir test)) =
      (start ls basedir test {}).output := (congrArg Disk.output hdisk).symm
  rw [show (start ls basedir test {}).output2 = Files.written _ from congrArg Disk.output2 hdisk,
    Files.lookup_written (nodup_checkWrites hls), mem_checkWrites hls, ← Files.written, hO]
  have hrep : ∀ j ∈ testJobs basedir test, (phase1 j).bind filter2Py = jobReport j :=
    fun j hj => phase1_report (newline_testJobs test j hj)
  constructor
  · rintro ⟨f, hf, hg⟩
    obtain ⟨j, hj, hp⟩ := start_output.1 hf
    exact ⟨j, hj, by rw [← hrep j hj.mem, hp, Option.bind_some, hg]⟩
  · rintro ⟨j, hj, hg⟩
    rw [← hrep j hj.mem] at hg
    obtain ⟨f, hp, hg⟩ := Option.bind_eq_some_iff.1 hg
    exact ⟨f, start_output.2 ⟨j, hj, hp⟩, hg⟩

theorem start_raised : (start ls basedir test {}).raised = [] := by
  obtain ⟨hdisk, hraised⟩ := start_spec ls basedir test (d := {}) rfl
  rw [hraised]
  refine (raising_eq_nil hls).2 fun n f hf => ?_
  obtain ⟨j, hj, hp⟩ := mem_outputWrites.1 ((Files.lookup_written nodup_outputWrites).1 hf)
  exact phase1_raises (newline_testJobs test j hj.mem) hp

end

/-- **A run from empty directories reports every source file**, each under a number of its
    own, and nothing else; the sources that phase 1 keeps are copied; no program raises. -/
theorem start_reports (ls : Finset Name → List Name) (hls : Lists ls) (basedir : WorkDir)
    (test : Tree Name Str) :
    let js := testJobs basedir test
    let s := start ls basedir test {}
    (∀ n f, s.output.lookup n = some f ↔ ∃ j, Filed js n j ∧ phase1 j = some f) ∧
    (∀ m c, s.source.lookup m = some c ↔
      ∃ n j, Filed js n j ∧ copyOf n = m ∧ (phase1 j).isSome = true ∧ j.2.2 = c) ∧
    (∀ n g, s.output2.lookup n = some g ↔ ∃ j, Filed js n j ∧ jobReport j = some g) ∧
    s.raised = [] :=
  ⟨fun _ _ => start_output, fun _ _ => start_source, fun _ _ => start_output2 hls, start_raised hls⟩

theorem isName_driver : IsName "driver.c".toList := by decide

/-- A file with a double fetch. -/
def driver : Tree Name Str :=
  .file ⟨"driver.c".toList, isName_driver⟩
    "int f(int *p)\n\x7b\n\tget_user(a, p);\n\tif (a)\n\t\tget_user(b, p);\n\x7d\n".toList .nil

/-- The directory `/w`. -/
def workDir : WorkDir := ⟨"/w".toList, by decide⟩

theorem start_reports_driver : (start lsC workDir driver {}).raised = [] :=
  (start_reports lsC lists_lsC workDir driver).2.2.2

theorem output2_eq {ls : Finset Name → List Name} (hls : Lists ls) {basedir : WorkDir}
    (test : Tree Name Str) : (start ls basedir test {}).output2 =
      Files.written (Files.numberedWrites (fun num j => numbered num j.2.1) (fun _ j => jobReport j) 1
        (testJobs basedir test)) := by
  refine Finmap.ext_lookup fun n => Option.ext fun g => ?_
  rw [start_output2 hls, Files.lookup_numberedWrites numbered_injective]
  constructor
  · rintro ⟨j, ⟨i, hj, hn⟩, hg⟩; exact ⟨i, j, hj, hn, hg⟩
  · rintro ⟨i, j, hj, hn, hg⟩; exact ⟨j, ⟨i, hj, hn⟩, hg⟩

/-- **No report is lost, and none is written twice.** -/
theorem start_contents {ls : Finset Name → List Name} (hls : Lists ls) {basedir : WorkDir}
    (test : Tree Name Str) : (start ls basedir test {}).output2.contents =
      ((testJobs basedir test).filterMap jobReport : List Str) := by
  rw [output2_eq hls, Files.contents_written (Files.nodup_numberedWrites numbered_injective),
    Files.filterMap_numberedWrites]

/-- **Another listing** of the tree, or of the outputs, changes the numbers of the reports only:
    there are the same reports, each as many times. -/
theorem start_relisted (ls ls' : Finset Name → List Name) (hls : Lists ls) (hls' : Lists ls')
    (basedir : WorkDir) (test test' : Tree Name Str) (h : test.Relisted test') :
    (start ls basedir test {}).output2.contents = (start ls' basedir test' {}).output2.contents := by
  have hjobs : (testJobs basedir test).Perm (testJobs basedir test') := h.walk path _
  rw [start_contents hls, start_contents hls']
  exact Multiset.coe_eq_coe.2 (hjobs.filterMap jobReport)

/-- An empty file in front of the directory with a double fetch, or behind it. -/
theorem start_relisted_driver :
    (start lsC workDir (.file ⟨"driver.c".toList, isName_driver⟩ [] (.dir ⟨"sub".toList, by decide⟩
      driver .nil)) {}).output2.contents =
    (start lsC workDir (.dir ⟨"sub".toList, by decide⟩ driver
      (.file ⟨"driver.c".toList, isName_driver⟩ [] .nil)) {}).output2.contents :=
  start_relisted lsC lsC lists_lsC lists_lsC workDir _ _ (.fileDir ..)

/-- **Which files are reported** from empty directories: the C files with two fetches of one
    source in one function. -/
theorem reported_iff (ls : Finset Name → List Name) (hls : Lists ls) (basedir : WorkDir)
    (test : Tree Name Str) (n : Name) :
    n ∈ (start ls basedir test {}).output2 ↔
      ∃ j, Filed (testJobs basedir test) n j ∧ IsC j.2.1 ∧
        ∃ b ∈ blocks role true idle (skeleton j.2.2),
          ∃ i k, Pair (labels Item.isCase (b.2.map Filter.mkItem)) (b.2.map Filter.mkItem).length
            (onPos Filter2.sameItem (b.2.map Filter.mkItem)) i k := by
  have hrep : ∀ j, (∃ g, jobReport j = some g) ↔ IsC j.2.1 ∧ report (skeleton j.2.2) ≠ [] := by
    intro j
    rw [jobReport, reportFile]
    split_ifs <;> simp [*]
  rw [Finmap.mem_iff]
  simp only [start_output2 hls, ← report_ne_nil, ← hrep]
  constructor
  · rintro ⟨g, j, hj, hg⟩; exact ⟨j, hj, g, hg⟩
  · rintro ⟨j, hj, g, hg⟩; exact ⟨g, j, hj, hg⟩

theorem reported_driver :
    numbered 1 ⟨"driver.c".toList, isName_driver⟩ ∈ (start lsC workDir driver {}).output2 := by
  refine (reported_iff lsC lists_lsC workDir driver _).2
    ⟨_, ⟨0, rfl, rfl⟩, by decide, ("int f(int *p)\n".toList, ["get_user(a, p);\n".toList,
      "get_user(b, p);\n".toList]), ?_, 0, 1, ?_⟩
  · decide +kernel
  · decide +kernel

end DoubleFetch.Script
