/-
  `auto_fix/start.sh`: the patches of the files in `bug_files/`.

  * `start`: a run, which empties `patched_files/` and lets spatch write a patch there for
    each file of `bug_files/`;
  * `start_patches`: afterwards `patched_files/` holds the patches of these files and nothing
    else, each file that is patched under one name.

  What spatch makes of a file is a parameter.  The path of the working directory and the
  names of the files are such that the script, which does not quote them, passes them on in
  one word.  The messages printed are left out.
-/
import DoubleFetch.Base.Files
import DoubleFetch.Names

namespace DoubleFetch.AutoFix.Script

/-- `${num}-patched-${curfile}` -/
def patchedName (num : ℕ) (curfile : Name) : Name :=
  numbered num ⟨"patched-".toList ++ curfile.text, isName_append (by decide) curfile.ok.2.2⟩

theorem patchedName_injective {j k : ℕ} {m n : Name} (h : patchedName j m = patchedName k n) :
    j = k ∧ m = n := by
  have ht := congrArg Name.text (numbered_right h)
  refine ⟨numbered_injective h, ?_⟩
  rw [Name.mk.injEq]
  exact List.append_cancel_left ht

/-- The directories `bug_files/` and `patched_files/`, if they are there. -/
structure Disk where
  bugFiles : Option (Files Name Str) := none
  patchedFiles : Option (Files Name Str) := none

section
variable (spatch : Name → Str → Option Str) (ls : Finset Name → List Name)

/-- A turn of the loop, on `num` and the directory of the patches. -/
def patchFile (bugFiles : Files Name Str) (s : ℕ × Files Name Str) (curfile : Name) :
    ℕ × Files Name Str :=
  let num := s.1 + 1
  (num, s.2.put (patchedName num curfile, (bugFiles.lookup curfile).bind (spatch curfile)))

/-- A run of the script. -/
def start (d : Disk) : Disk :=
  let bugFiles := d.bugFiles.getD ∅
  let s := (ls bugFiles.keys).foldl (patchFile spatch bugFiles) (0, ∅)
  { bugFiles := some bugFiles, patchedFiles := some s.2 }

theorem foldl_patchFile (bugs : Files Name Str) : ∀ (names : List Name) (num : ℕ) (d : Files Name Str),
    (names.foldl (patchFile spatch bugs) (num, d)).2 = d.putAll (Files.numberedWrites patchedName
      (fun _ f => (bugs.lookup f).bind (spatch f)) (num + 1) names)
  | [], _, _ => rfl
  | f :: names, num, d => by
    rw [Files.numberedWrites_cons]
    exact foldl_patchFile bugs names (num + 1) _

/-- **What a run leaves**, whatever was there before: the patches of the files in `bug_files/`,
    under the number of the file in the listing; each file that spatch patches has one. -/
theorem start_patches (hls : Lists ls) (d : Disk) :
    let bugs := d.bugFiles.getD ∅
    ∃ patches, start spatch ls d = { bugFiles := some bugs, patchedFiles := some patches } ∧
      (∀ n p, patches.lookup n = some p ↔ ∃ i f c, (ls bugs.keys)[i]? = some f ∧
        patchedName (1 + i) f = n ∧ bugs.lookup f = some c ∧ spatch f c = some p) ∧
      ∀ f c p, bugs.lookup f = some c → spatch f c = some p →
        ∃! n, patches.lookup n = some p ∧ ∃ k, patchedName k f = n := by
  intro bugs
  set patches := Files.written (Files.numberedWrites patchedName
    (fun _ f => (bugs.lookup f).bind (spatch f)) 1 (ls bugs.keys)) with hP
  have hlook : ∀ n p, patches.lookup n = some p ↔ ∃ i f c, (ls bugs.keys)[i]? = some f ∧
      patchedName (1 + i) f = n ∧ bugs.lookup f = some c ∧ spatch f c = some p := by
    intro n p
    rw [hP, Files.lookup_numberedWrites fun h => (patchedName_injective h).1]
    simp only [Option.bind_eq_some_iff]
    refine exists_congr fun i => exists_congr fun f => ?_
    constructor
    · rintro ⟨hi, hn, c, hc, hp⟩; exact ⟨c, hi, hn, hc, hp⟩
    · rintro ⟨c, hi, hn, hc, hp⟩; exact ⟨hi, hn, c, hc, hp⟩
  refine ⟨patches, ?_, hlook, fun f c p hc hp => ?_⟩
  · rw [start, foldl_patchFile]; rfl
  · -- the file is listed once
    obtain ⟨hnodup, hmem⟩ := hls bugs.keys
    have hf : f ∈ ls bugs.keys := (hmem f).2 (Finmap.mem_keys.2 (Finmap.mem_of_lookup_eq_some hc))
    obtain ⟨i, hi⟩ := List.mem_iff_getElem?.1 hf
    refine ⟨patchedName (1 + i) f, ⟨(hlook _ p).2 ⟨i, f, c, hi, rfl, hc, hp⟩, 1 + i, rfl⟩, ?_⟩
    rintro _ ⟨hn, k, rfl⟩
    obtain ⟨j, f', -, hj, he, -⟩ := (hlook _ p).1 hn
    obtain ⟨rfl, rfl⟩ := patchedName_injective he
    obtain ⟨hlt, hget⟩ := List.getElem?_eq_some_iff.1 hi
    obtain ⟨hlt', hget'⟩ := List.getElem?_eq_some_iff.1 hj
    rw [(List.Nodup.getElem_inj_iff hnodup).1 (hget.trans hget'.symm)]

end

theorem isName_fhandle : IsName "fhandle.c".toList := by decide

/-- A file that is patched; what an earlier run has left is gone. -/
theorem start_patches_fhandle : ∃ patches,
    (start (fun _ c => some (c ++ "// patched\n".toList)) lsC {
        bugFiles := some (Finmap.singleton ⟨"fhandle.c".toList, isName_fhandle⟩ "int f;\n".toList)
        patchedFiles := some (Finmap.singleton (numbered 1 ⟨"old.c".toList, by decide⟩) []) }).patchedFiles =
      some patches ∧
    ∃! n, patches.lookup n = some "int f;\n// patched\n".toList ∧
      ∃ k, patchedName k ⟨"fhandle.c".toList, isName_fhandle⟩ = n := by
  obtain ⟨patches, hstart, -, hone⟩ := start_patches (fun _ c => some (c ++ "// patched\n".toList)) lsC
    lists_lsC { bugFiles := some (Finmap.singleton ⟨"fhandle.c".toList, isName_fhandle⟩ "int f;\n".toList)
                patchedFiles := some (Finmap.singleton (numbered 1 ⟨"old.c".toList, by decide⟩) []) }
  exact ⟨patches, by rw [hstart], hone _ _ _ Finmap.lookup_singleton_eq rfl⟩

end DoubleFetch.AutoFix.Script
