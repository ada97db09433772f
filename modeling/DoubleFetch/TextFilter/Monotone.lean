/-
  Deleting fetches from source files.

  * `OnlyFetches`: nothing but fetches is extracted from the line;
  * `reportLines_thins`: without some of the fetches of a skeleton there is nothing new in
    its report;
  * `start_thins`: without some of these lines in the files of a tree there is nothing new
    in any report of a run.
-/
import DoubleFetch.Base.Thin
import DoubleFetch.TextFilter.Script

namespace DoubleFetch

open Phase

/-- A fetch in a skeleton. -/
def Fetch (l : Str) : Prop := Filter.identify l = .trans

/-- A line of a source file from which nothing but fetches is extracted. -/
def OnlyFetches (l : Str) : Prop := ∀ x ∈ Sed.Cmd.runLine Extract.script l, Fetch x

/-- The lines of the report of a skeleton. -/
def reportLines (S : List Str) : List Str := ((report S).map closeBlock).flatMap writeLines

theorem Fetch.role {l : Str} (h : Fetch l) : role l = .entry := role_entry.2 (Or.inl h)

/-! ## Skeletons -/

/-- The lines of a function in the report. -/
def blockLines (b : Str × List Str) : List Str := ((keptBlock b).map closeBlock).elim [] writeLines

theorem reportLines_eq (S : List Str) : reportLines S = (blocks role true idle S).flatMap blockLines := by
  rw [reportLines, report]
  induction blocks role true idle S with
  | nil => rfl
  | cons b bs ih =>
    rw [List.flatMap_cons, ← ih, blockLines]
    cases h : keptBlock b <;> simp [h]

theorem reportLines_eq_nil {S : List Str} : reportLines S = [] ↔ report S = [] := by
  rw [reportLines]
  cases report S <;> simp [writeLines, render]

theorem blockLines_thins {d : Str} {es' es : List Str} (h : Thins Fetch es' es) :
    (blockLines (d, es')).Sublist (blockLines (d, es)) := by
  have hkeep : (keep Item.isCase Filter2.sameItem (es'.map Filter.mkItem)).Sublist
      (keep Item.isCase Filter2.sameItem (es.map Filter.mkItem)) := by
    refine (h.map (Q := fun it : Item => it.isCase = false) fun x hx => ?_).keep (fun _ => id) _
    rw [Item.isCase, Filter.mkItem, hx]; rfl
  have hout := hkeep.map (·.line)
  rw [blockLines, blockLines, keptBlock, keptBlock]
  split_ifs with h₁ h₂
  · simp only [Option.map_some, Option.elim_some, closeBlock, Prod.map, writeLines, render]
    exact (((hout.map closeLine).cons_cons _).cons_cons _).append (.refl _)
  · exact absurd (List.sublist_nil.1 (not_not.1 h₂ ▸ hout)) h₁
  · exact List.nil_sublist _
  · exact List.nil_sublist _

/-- **Without some of the fetches nothing new is reported.** -/
theorem reportLines_thins {S' S : List Str} (h : Thins Fetch S' S) :
    (reportLines S').Sublist (reportLines S) := by
  rw [reportLines_eq, reportLines_eq]
  exact Thin.idle.blocks (fun _ _ _ => blockLines_thins) (fun _ => Fetch.role) h

/-! ## Reports as files -/

/-- The lines of a function, with the `}` behind one that is cut off. -/
theorem isLine_closeBlock {t : Str} {b : Str × List Str} (hb : b ∈ blocks role true idle (lines t)) :
    ∀ l ∈ ownLines (closeBlock b), IsLine l := by
  obtain ⟨d, es⟩ := b
  have hwr : Writable role (d, es) := Ok.blocks (p := idle) trivial _ _ hb
  have hblocks : ((blocks role true idle (lines t)).flatMap fun b => b.1 :: b.2).Sublist (lines t) :=
    blocks_sublist idle (lines t)
  have hsub : (d :: es).Sublist (lines t) :=
    (List.sublist_flatten_of_mem (List.mem_map_of_mem (f := fun b : Str × List Str => b.1 :: b.2) hb)).trans
      hblocks
  rcases lines_sublist hsub with hall | ⟨W, e, hW, hWl, he⟩
  · rw [closeBlock_isLine (b := (d, es)) hall]; exact hall
  · -- the line that is cut off is an entry
    obtain ⟨-, h⟩ | ⟨W', rfl, rfl⟩ := List.cons_eq_append_iff.1 hW
    · exact absurd (List.cons.inj h).2.symm hwr.ne
    intro l hl
    simp only [ownLines, closeBlock, Prod.map, List.map_append, List.map_singleton, List.mem_cons,
      List.mem_append, List.mem_map, List.not_mem_nil, or_false] at hl
    rcases hl with rfl | ⟨x, hx, rfl⟩ | rfl
    · rw [closeLine_head hwr.head]; exact hWl d (by simp)
    · have hxl := hWl x (by simp [hx])
      rwa [closeLine_isLine hxl]
    · rw [closeLine_cut (hwr.entry e (by simp)) he]
      exact ⟨e ++ ['\x7d'], by simp, by simpa using he⟩

theorem keptBlock_sublist {b c : Str × List Str} (h : keptBlock b = some c) :
    (ownLines c).Sublist (ownLines b) := by
  rw [keptBlock] at h
  split_ifs at h
  obtain rfl := Option.some.inj h
  exact (map_line_sublist (keep_sublist ..)).cons_cons _

/-- **The lines of a report.** -/
theorem lines_reportFile {infile t g : Str} (ho : '\n' ∉ infile)
    (hg : reportFile infile (lines t) = some g) :
    lines g = (infile ++ "\n".toList) :: reportLines (lines t) := by
  rw [reportFile] at hg
  split_ifs at hg
  obtain rfl := Option.some.inj hg
  have hown : ∀ l ∈ ((report (lines t)).map closeBlock).flatMap ownLines, IsLine l := by
    intro l hl
    obtain ⟨c, hc, hl⟩ := List.mem_flatMap.1 hl
    obtain ⟨c, hcr, rfl⟩ := List.mem_map.1 hc
    obtain ⟨b, hb, hk⟩ := List.mem_filterMap.1 hcr
    exact isLine_closeBlock hb l (((keptBlock_sublist hk).map closeLine).subset hl)
  have h := lines_header (isLine_header ho) hown []
  rwa [List.append_nil, show lines [] = [] from rfl, List.append_nil] at h

/-! ## Trees -/

namespace Script

/-- The tree without some of the lines from which nothing but fetches is extracted. -/
def ThinsTree : Tree Name Str → Tree Name Str → Prop :=
  Tree.Rel fun c' c => Thins OnlyFetches (lines c') (lines c)

theorem jobReport_thins {j' j : Job} (hdir : j'.1 = j.1) (hname : j'.2.1 = j.2.1)
    (h : Thins OnlyFetches (lines j'.2.2) (lines j.2.2)) (ho : '\n' ∉ path j.1 j.2.1) {g' : Str}
    (hg' : jobReport j' = some g') : ∃ g, jobReport j = some g ∧ (lines g').Sublist (lines g) := by
  rw [jobReport, hdir, hname, ← lines_sed] at hg'
  rw [jobReport, ← lines_sed]
  split_ifs at hg' with hc
  rw [if_pos hc]
  have hsub : (reportLines (lines (sed j'.2.2))).Sublist (reportLines (lines (sed j.2.2))) := by
    rw [lines_sed, lines_sed]
    exact reportLines_thins (h.flatMap fun _ hx => hx)
  cases hg : reportFile (path j.1 j.2.1) (lines (sed j.2.2)) with
  | some g =>
    refine ⟨g, rfl, ?_⟩
    rw [lines_reportFile ho hg', lines_reportFile ho hg]
    exact hsub.cons_cons _
  | none =>
    -- a report has lines
    have hnil : report (lines (sed j.2.2)) = [] := by
      by_contra hne
      rw [reportFile, if_neg hne] at hg; cases hg
    rw [reportLines_eq_nil.2 hnil, List.sublist_nil, reportLines_eq_nil] at hsub
    rw [reportFile, if_pos hsub] at hg'; cases hg'

/-- **Deleting fetches from the files of a tree adds nothing to the reports** of a run. -/
theorem start_thins (ls : Finset Name → List Name) (hls : Lists ls) (basedir : WorkDir)
    (test' test : Tree Name Str) (h : ThinsTree test' test) (n : Name) (g' : Str)
    (hg' : (start ls basedir test' {}).output2.lookup n = some g') :
    ∃ g, (start ls basedir test {}).output2.lookup n = some g ∧ (lines g').Sublist (lines g) := by
  obtain ⟨j', ⟨i, hj', hn⟩, hr'⟩ := (start_output2 hls).1 hg'
  obtain ⟨hlen, hrel⟩ := List.forall₂_iff_get.1 (Tree.Rel.walk h path (basedir.text ++ "/test".toList))
  obtain ⟨hi', rfl⟩ := List.getElem?_eq_some_iff.1 hj'
  have hi : i < (testJobs basedir test).length := hlen ▸ hi'
  obtain ⟨hdir, hname, hthins⟩ := hrel i hi' hi
  have hj : (testJobs basedir test)[i]? = some (testJobs basedir test)[i] := List.getElem?_eq_getElem hi
  obtain ⟨g, hg, hsub⟩ := jobReport_thins hdir hname hthins
    (newline_testJobs test _ (List.getElem_mem hi)) hr'
  refine ⟨g, (start_output2 hls).2 ⟨_, ⟨i, hj, ?_⟩, hg⟩, hsub⟩
  rw [← hn]
  exact congrArg (numbered (1 + i)) hname.symm

/-- A file with one function. -/
def oneFunction (body : Str) : Tree Name Str := .file ⟨"driver.c".toList, isName_driver⟩
  ("int f(int *p)\n\x7b\n".toList ++ body ++ "\x7d\n".toList) .nil

theorem thinsTree_thirdFetch :
    ThinsTree (oneFunction "\tget_user(a, p);\n\tget_user(b, p);\n".toList)
      (oneFunction "\tget_user(a, p);\n\tget_user(b, p);\n\tget_user(c, p);\n".toList) := by
  have h : lines ("int f(int *p)\n\x7b\n".toList ++ "\tget_user(a, p);\n\tget_user(b, p);\n".toList ++
      "\x7d\n".toList) = ["int f(int *p)\n".toList, "\x7b\n".toList, "\tget_user(a, p);\n".toList,
        "\tget_user(b, p);\n".toList, "\x7d\n".toList] ∧
    lines ("int f(int *p)\n\x7b\n".toList ++
      "\tget_user(a, p);\n\tget_user(b, p);\n\tget_user(c, p);\n".toList ++ "\x7d\n".toList) =
      ["int f(int *p)\n".toList, "\x7b\n".toList, "\tget_user(a, p);\n".toList,
        "\tget_user(b, p);\n".toList, "\tget_user(c, p);\n".toList, "\x7d\n".toList] := by
    decide +kernel
  refine .file _ ?_ .nil
  rw [h.1, h.2]
  refine .cons _ (.cons _ (.cons _ (.cons _ (.drop ?_ (.refl _)))))
  simp only [OnlyFetches, Fetch]
  decide +kernel

/-- The two fetches are also in the report with a third one. -/
theorem start_thins_thirdFetch : ∃ g,
    (start lsC workDir (oneFunction "\tget_user(a, p);\n\tget_user(b, p);\n\tget_user(c, p);\n".toList)
      {}).output2.lookup (numbered 1 ⟨"driver.c".toList, isName_driver⟩) = some g ∧
    ["get_user(a, p);\n".toList, "get_user(b, p);\n".toList].Sublist (lines g) := by
  have hrep : jobReport ("/w/test".toList, ⟨"driver.c".toList, isName_driver⟩,
      "int f(int *p)\n\x7b\n".toList ++ "\tget_user(a, p);\n\tget_user(b, p);\n".toList ++ "\x7d\n".toList) =
      some "/w/test/driver.c\nint f(int *p)\n\x7b\nget_user(a, p);\nget_user(b, p);\n\x7d\n".toList := by
    decide +kernel
  obtain ⟨g, hg, hsub⟩ := start_thins lsC lists_lsC workDir _ _ thinsTree_thirdFetch
    (numbered 1 ⟨"driver.c".toList, isName_driver⟩) _
    ((start_output2 lists_lsC).2 ⟨_, ⟨0, rfl, rfl⟩, hrep⟩)
  exact ⟨g, hg, List.Sublist.trans (by decide +kernel) hsub⟩

end Script

end DoubleFetch
