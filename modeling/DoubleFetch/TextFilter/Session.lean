/-
  Runs of `start.sh` one after the other, in directories that are not emptied between them.

  * `Consistent`: what is in the directories comes from the trees scanned so far, and every
    report there is of an output file is in `output2/`;
  * `runs_consistent`: this holds after any runs from empty directories, and no program
    raises;
  * `start_again`: a second run on the same tree changes nothing;
  * `start_leftovers`: when a run leaves the same as from empty directories.
-/
import DoubleFetch.TextFilter.Script

namespace DoubleFetch.Script

variable {ls : Finset Name → List Name} {basedir : WorkDir} {test : Tree Name Str} {d : Disk}

/-- What is left after runs of the script on some trees. -/
def runs (ls : Finset Name → List Name) (basedir : WorkDir) (d : Disk) (tests : List (Tree Name Str)) :
    Disk :=
  tests.foldl (fun d test => (start ls basedir test d).toDisk) d

variable {tests : List (Tree Name Str)} {n m : Name} {f g c : Str}

/-- What phase 1 has written in runs on some trees. -/
structure Scanned (basedir : WorkDir) (tests : List (Tree Name Str)) (output source : Files Name Str) :
    Prop where
  /-- An output is that of a file of this number. -/
  outputs : ∀ n f, output.lookup n = some f →
    ∃ test ∈ tests, ∃ j, Filed (testJobs basedir test) n j ∧ phase1 j = some f
  /-- A source is a file of this number. -/
  sources : ∀ m c, source.lookup m = some c →
    ∃ test ∈ tests, ∃ n j, Filed (testJobs basedir test) n j ∧ copyOf n = m ∧ j.2.2 = c
  /-- The sources are those of the outputs. -/
  copied : ∀ m, m ∈ source ↔ ∃ n ∈ output, copyOf n = m

/-- What is in the directories after runs on some trees. -/
structure Consistent (basedir : WorkDir) (tests : List (Tree Name Str)) (d : Disk) : Prop
    extends Scanned basedir tests d.output d.source where
  temp2 : d.temp2 = none
  /-- A report is that of a file of this number, and there is an output for it. -/
  reports : ∀ n g, d.output2.lookup n = some g → n ∈ d.output ∧
    ∃ test ∈ tests, ∃ j, Filed (testJobs basedir test) n j ∧ jobReport j = some g
  /-- Where an output has a report, this is it. -/
  reported : ∀ n f g, d.output.lookup n = some f → filter2Py f = some g → d.output2.lookup n = some g

theorem consistent_empty : Consistent basedir [] {} where
  temp2 := rfl
  outputs _ _ h := absurd h (by simp)
  sources _ _ h := absurd h (by simp)
  copied m := iff_of_false Finmap.notMem_empty fun ⟨_, h, _⟩ => Finmap.notMem_empty h
  reports _ _ h := absurd h (by simp)
  reported _ _ _ h := absurd h (by simp)

/-! ## One run -/

theorem mem_output : n ∈ d.output.putAll (outputWrites 1 (testJobs basedir test)) ↔
    n ∈ d.output ∨ ∃ j, Filed (testJobs basedir test) n j ∧ (phase1 j).isSome = true := by
  rw [Files.mem_putAll]
  refine or_congr_right ?_
  simp only [mem_outputWrites, Option.isSome_iff_exists]
  exact ⟨fun ⟨c, j, hj, hc⟩ => ⟨j, hj, c, hc⟩, fun ⟨j, hj, c, hc⟩ => ⟨c, j, hj, hc⟩⟩

theorem mem_source : m ∈ d.source.putAll (sourceWrites d.output 1 (testJobs basedir test)) ↔
    m ∈ d.source ∨ ∃ n j, Filed (testJobs basedir test) n j ∧ copyOf n = m ∧ IsC j.2.1 ∧
      (n ∈ d.output ∨ (phase1 j).isSome = true) := by
  rw [Files.mem_putAll]
  refine or_congr_right ?_
  simp only [mem_sourceWrites]
  constructor
  · rintro ⟨-, n, j, hj, hm, hc, hn, -⟩; exact ⟨n, j, hj, hm, hc, hn⟩
  · rintro ⟨n, j, hj, hm, hc, hn⟩; exact ⟨_, n, j, hj, hm, hc, hn, rfl⟩

/-- **Phase 1.** -/
theorem Scanned.scandir (h : Scanned basedir tests d.output d.source) (test : Tree Name Str) :
    Scanned basedir (tests ++ [test]) (d.output.putAll (outputWrites 1 (testJobs basedir test)))
      (d.source.putAll (sourceWrites d.output 1 (testJobs basedir test))) where
  outputs n f hf := by
    rcases (Files.lookup_putAll nodup_outputWrites).1 hf with hw | ⟨-, hf⟩
    · exact ⟨test, by simp, mem_outputWrites.1 hw⟩
    · obtain ⟨t, ht, hj⟩ := h.outputs n f hf
      exact ⟨t, List.mem_append_left _ ht, hj⟩
  sources m c hc := by
    rcases (Files.lookup_putAll nodup_sourceWrites).1 hc with hw | ⟨-, hc⟩
    · obtain ⟨n, j, hj, hm, -, -, hc⟩ := mem_sourceWrites.1 hw
      exact ⟨test, by simp, n, j, hj, hm, hc⟩
    · obtain ⟨t, ht, hj⟩ := h.sources m c hc
      exact ⟨t, List.mem_append_left _ ht, hj⟩
  copied m := by
    rw [mem_source, h.copied]
    simp only [mem_output]
    constructor
    · rintro (⟨n, hn, hm⟩ | ⟨n, j, hj, hm, -, hn | hp⟩)
      · exact ⟨n, Or.inl hn, hm⟩
      · exact ⟨n, Or.inl hn, hm⟩
      · exact ⟨n, Or.inr ⟨j, hj, hp⟩, hm⟩
    · rintro ⟨n, hn | ⟨j, hj, hp⟩, hm⟩
      · exact Or.inl ⟨n, hn, hm⟩
      · exact Or.inr ⟨n, j, hj, hm, phase1_isC hp, Or.inr hp⟩

section
variable {output source : Files Name Str} (h : Scanned basedir tests output source)
include h

/-- Phase 2 does not raise on an output. -/
theorem Scanned.not_raises (hf : output.lookup n = some f) : filter2Raises f = false := by
  obtain ⟨test, -, j, hj, hp⟩ := h.outputs n f hf
  exact phase1_raises (newline_testJobs test j hj.mem) hp

/-- What phase 2 writes for an output is the report of its file. -/
theorem Scanned.report (hf : output.lookup n = some f) (hg : filter2Py f = some g) :
    ∃ test ∈ tests, ∃ j, Filed (testJobs basedir test) n j ∧ jobReport j = some g := by
  obtain ⟨test, ht, j, hj, hp⟩ := h.outputs n f hf
  refine ⟨test, ht, j, hj, ?_⟩
  rw [← phase1_report (newline_testJobs test j hj.mem), hp, Option.bind_some, hg]

end

/-- **A run keeps the directories consistent**, and no program raises. -/
theorem Consistent.start (hls : Lists ls) (h : Consistent basedir tests d) (test : Tree Name Str) :
    Consistent basedir (tests ++ [test]) (start ls basedir test d).toDisk ∧
      (start ls basedir test d).raised = [] := by
  obtain ⟨hdisk, hraised⟩ := start_spec ls basedir test h.temp2
  have hscan := h.toScanned.scandir test
  rw [hdisk, hraised]
  refine ⟨{ hscan with temp2 := rfl, reports := fun n g hg => ?_, reported := fun n f g hf hg => ?_ },
    (raising_eq_nil hls).2 fun n f => hscan.not_raises⟩
  · rcases (Files.lookup_putAll (nodup_checkWrites hls)).1 hg with hw | ⟨-, hg⟩
    · obtain ⟨f, hf, hg⟩ := (mem_checkWrites hls).1 hw
      exact ⟨Finmap.mem_of_lookup_eq_some hf, hscan.report hf hg⟩
    · obtain ⟨hn, t, ht, hj⟩ := h.reports n g hg
      exact ⟨mem_output.2 (Or.inl hn), t, List.mem_append_left _ ht, hj⟩
  · exact Files.lookup_putAll_of_mem (nodup_checkWrites hls) ((mem_checkWrites hls).2 ⟨f, hf, hg⟩)

/-! ## Runs -/

theorem runs_append (test : Tree Name Str) :
    runs ls basedir d (tests ++ [test]) = (start ls basedir test (runs ls basedir d tests)).toDisk := by
  rw [runs, List.foldl_append]; rfl

/-- **Whatever runs there have been**, the directories are consistent, and no program raises
    in the next run. -/
theorem runs_consistent (ls : Finset Name → List Name) (hls : Lists ls) (basedir : WorkDir)
    (tests : List (Tree Name Str)) :
    Consistent basedir tests (runs ls basedir {} tests) ∧
      ∀ test, (start ls basedir test (runs ls basedir {} tests)).raised = [] := by
  have hinv : Consistent basedir tests (runs ls basedir {} tests) := by
    induction tests using List.reverseRecOn with
    | nil => exact consistent_empty
    | append_singleton tests test ih =>
      rw [runs_append]
      exact (ih.start hls test).1
  exact ⟨hinv, fun test => (hinv.start hls test).2⟩

theorem runs_driver : (start lsC workDir driver (runs lsC workDir {} [driver])).raised = [] :=
  (runs_consistent lsC lists_lsC workDir [driver]).2 driver

/-! ## What is left over -/

/-- Whether a file is copied can be seen from the outputs of the run. -/
theorem sourceWrites_after (js : List Job) (O : Files Name Str) :
    sourceWrites (O.putAll (outputWrites 1 js)) 1 js = sourceWrites O 1 js :=
  Files.numberedWrites_congr fun i j hj => by
    have hmem : numbered (1 + i) j.2.1 ∈ O.putAll (outputWrites 1 js) ↔
        numbered (1 + i) j.2.1 ∈ O ∨ (phase1 j).isSome = true :=
      Files.mem_putAll_numberedWrites numbered_injective hj
    simp only [copied, hmem, or_assoc, or_self]

/-- **A second run on the same tree** changes nothing, whatever was there before the first but
    a left-over `temp2`. -/
theorem start_again (ls : Finset Name → List Name) (basedir : WorkDir) (test : Tree Name Str)
    (d : Disk) (hd : d.temp2 = none) :
    (start ls basedir test (start ls basedir test d).toDisk).toDisk =
      (start ls basedir test d).toDisk := by
  obtain ⟨h₁, -⟩ := start_spec ls basedir test hd
  obtain ⟨h₂, -⟩ := start_spec ls basedir test (d := (start ls basedir test d).toDisk) (by rw [h₁])
  rw [h₂, h₁]
  simp only [Files.putAll_putAll, sourceWrites_after]

theorem start_again_driver :
    (start lsC workDir driver (start lsC workDir driver {}).toDisk).toDisk =
      (start lsC workDir driver {}).toDisk := start_again lsC workDir driver {} rfl

/-- **What was left over is gone** after a run iff all of it is overwritten. -/
theorem start_leftovers (ls : Finset Name → List Name) (basedir : WorkDir) (test : Tree Name Str)
    (d : Disk) (hd : d.temp2 = none) :
    let s := start ls basedir test {}
    (start ls basedir test d).toDisk = s.toDisk ↔
      (∀ n ∈ d.output, n ∈ s.output) ∧ (∀ n ∈ d.source, n ∈ s.source) ∧
        ∀ n ∈ d.output2, n ∈ s.output2 := by
  intro s
  obtain ⟨h₁, -⟩ := start_spec ls basedir test hd
  obtain ⟨h₂, -⟩ := start_spec ls basedir test (d := {}) rfl
  have hs : s.toDisk = _ := h₂
  set W := outputWrites 1 (testJobs basedir test) with hW
  rw [show s.output = _ from congrArg Disk.output hs, show s.source = _ from congrArg Disk.source hs,
    show s.output2 = _ from congrArg Disk.output2 hs, h₁, hs, Disk.mk.injEq]
  simp only [true_and]
  rw [← Files.written, Files.putAll_eq_written_iff]
  refine and_congr_right fun hO => ?_
  have hout : d.output.putAll W = Files.written W := Files.putAll_eq_written_iff.2 hO
  have hsrc : sourceWrites d.output 1 (testJobs basedir test) =
      sourceWrites ∅ 1 (testJobs basedir test) := by
    rw [← sourceWrites_after, hout, Files.written, sourceWrites_after]
  rw [hout, hsrc]
  exact and_congr Files.putAll_eq_written_iff Files.putAll_eq_written_iff

/-- A report of an earlier run stays. -/
theorem start_leftovers_report :
    let d : Disk := { output2 := Finmap.singleton ⟨"driver.c".toList, isName_driver⟩ [] }
    (start lsC workDir .nil d).toDisk ≠ (start lsC workDir .nil {}).toDisk := by
  intro d
  refine mt (start_leftovers lsC workDir .nil d rfl).1 ?_
  rintro ⟨-, -, h⟩
  obtain ⟨g, hg⟩ := Finmap.mem_iff.1 (h _ ((Finmap.mem_singleton ..).2 rfl))
  obtain ⟨j, hj, -⟩ := (start_output2 lists_lsC).1 hg
  cases hj.mem

end DoubleFetch.Script
