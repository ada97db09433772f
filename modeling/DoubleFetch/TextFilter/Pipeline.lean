/-
  One source file through both phases of the text filter, as `start.sh` calls them.

  * `filterPy` and `filter2Py` are the files that the two programs write;
  * `report`: the functions of a skeleton, each with what a single selection by
    `is_same` keeps of it;
  * `pipeline_report`: on every skeleton the two phases write its report.  If the skeleton
    is cut off in an entry, phase 1 writes a `}` into its line (`closeLine`); this does
    not change what is selected (`keptBlock_closeBlock`).
-/
import DoubleFetch.TextFilter.Sources
import DoubleFetch.TextFilter.Truncated

namespace DoubleFetch

open Phase

/-! ## The two programs -/

/-- `python filter.py temp2 .. infile`: the file it writes, if any. -/
def filterPy (temp2 infile : Str) : Option Str :=
  (Filter.main infile (lines temp2)).toOption.bind Filter.Vars.outFile

/-- `python filter2.py`: the file it leaves, if any, also where it raises. -/
def filter2Py (infile : Str) : Option Str := (Filter2.runMain (lines infile)).vars.outFile

/-- Whether `filter2.py` raises. -/
def filter2Raises (infile : Str) : Bool := (Filter2.runMain (lines infile)).raised.isSome

/-! ## The report of a skeleton -/

/-- A block with the entries that a selection by `is_same` keeps, if any. -/
def keptBlock (b : Str × List Str) : Option (Str × List Str) :=
  let out := (keep Item.isCase Filter2.sameItem (b.2.map Filter.mkItem)).map (·.line)
  if out ≠ [] then some (b.1, out) else none

/-- The functions of a skeleton of which something is kept. -/
def report (S : List Str) : List (Str × List Str) := (blocks role true idle S).filterMap keptBlock

theorem keptBlock_isSome {b : Str × List Str} : (keptBlock b).isSome = true ↔
    ∃ i k, Pair (labels Item.isCase (b.2.map Filter.mkItem)) (b.2.map Filter.mkItem).length
      (onPos Filter2.sameItem (b.2.map Filter.mkItem)) i k := by
  rw [← keep_ne_nil, keptBlock]
  simp only [ne_eq, List.map_eq_nil_iff]
  split_ifs with h <;> simp [h]

/-- A file is reported iff some function has two fetches of one source, compatible and not
    labels. -/
theorem report_ne_nil {S : List Str} : report S ≠ [] ↔ ∃ b ∈ blocks role true idle S,
    ∃ i k, Pair (labels Item.isCase (b.2.map Filter.mkItem)) (b.2.map Filter.mkItem).length
      (onPos Filter2.sameItem (b.2.map Filter.mkItem)) i k := by
  simp only [report, ne_eq, List.filterMap_eq_nil_iff, not_forall, ← keptBlock_isSome,
    ← Option.isSome_iff_ne_none, exists_prop]

/-- An entry without a newline, with the `}` written behind it. -/
def closeLine (l : Str) : Str :=
  if role l = .entry ∧ l.getLast? ≠ some '\n' then l ++ "\x7d\n".toList else l

/-- A block of a skeleton that may be cut off. -/
def closeBlock (b : Str × List Str) : Str × List Str := Prod.map closeLine (List.map closeLine) b

/-- The report as a file. -/
def reportFile (infile : Str) (S : List Str) : Option Str :=
  if report S = [] then none
  else some ((infile ++ "\n".toList) :: ((report S).map closeBlock).flatMap writeLines).flatten

/-! ## Entries without a newline -/

theorem closeLine_isLine {l : Str} (h : IsLine l) : closeLine l = l := by
  obtain ⟨l', rfl, -⟩ := h
  simp [closeLine]

theorem closeLine_cut {l : Str} (he : role l = .entry) (hl : '\n' ∉ l) :
    closeLine l = l ++ "\x7d\n".toList :=
  if_pos ⟨he, fun h => hl (List.mem_of_getLast? h)⟩

theorem identify_closeLine {l : Str} (h : role l = .entry) :
    Filter.identify (closeLine l) = Filter.identify l := by
  unfold closeLine
  split_ifs
  · exact identify_append h _
  · rfl

theorem role_closeLine (l : Str) : role (closeLine l) = role l := by
  by_cases h : role l = .entry
  · rw [h, role_entry, identify_closeLine h]; exact role_entry.1 h
  · rw [closeLine, if_neg fun h' => h h'.1]

theorem closeLine_head {l : Str} (h : role l = .head) : closeLine l = l :=
  if_neg fun h' => by rw [h'.1] at h; cases h

theorem closeBlock_isLine {b : Str × List Str} (h : ∀ l ∈ ownLines b, IsLine l) :
    closeBlock b = b := by
  obtain ⟨d, es⟩ := b
  simp only [ownLines, List.mem_cons, forall_eq_or_imp] at h
  have hes : es.map closeLine = es.map id := List.map_congr_left fun e he => closeLine_isLine (h.2 e he)
  rw [closeBlock, Prod.map, closeLine_isLine h.1, hes, List.map_id]

/-- The item of the line closed. -/
def closeItem (it : Item) : Item := Filter.mkItem (closeLine it.line)

theorem map_closeItem (es : List Str) :
    (es.map Filter.mkItem).map closeItem = (es.map closeLine).map Filter.mkItem := by
  rw [List.map_map, List.map_map]; rfl

theorem isCase_closeItem {e : Str} (h : role e = .entry) :
    (closeItem (Filter.mkItem e)).isCase = (Filter.mkItem e).isCase := by
  simp only [closeItem, Filter.mkItem, Item.isCase, identify_closeLine h]

/-- The same entries are selected, if the relation does not look at what is behind a line
    that is cut off. -/
theorem keep_closeLine {S : Item → Item → Bool} (hS : ∀ x y, S (closeItem x) (closeItem y) = S x y)
    {es : List Str} (h : ∀ e ∈ es, role e = .entry) :
    keep Item.isCase S ((es.map closeLine).map Filter.mkItem) =
      (keep Item.isCase S (es.map Filter.mkItem)).map closeItem := by
  rw [← map_closeItem]
  refine keep_map closeItem (fun it hit => ?_) fun x _ y _ => hS x y
  obtain ⟨e, he, rfl⟩ := List.mem_map.1 hit
  exact isCase_closeItem (h e he)

theorem sameItem_closeItem (x y : Item) :
    Filter2.sameItem (closeItem x) (closeItem y) = Filter2.sameItem x y := by
  have hclose : ∀ l m : Str, Filter2.same (closeLine l) m = Filter2.same l m := by
    intro l m
    unfold closeLine
    split_ifs
    · exact Filter2.same_close
    · rfl
  exact (hclose ..).trans ((Filter2.same_comm ..).trans ((hclose ..).trans (Filter2.same_comm ..)))

theorem keptBlock_closeBlock {b : Str × List Str} (hb : Writable role b) :
    keptBlock (closeBlock b) = (keptBlock b).map closeBlock := by
  obtain ⟨d, es⟩ := b
  have hd : closeLine d = d := closeLine_head hb.head
  have hmap : ∀ L : List Item, (L.map closeItem).map (·.line) = (L.map (·.line)).map closeLine := by
    intro L
    rw [List.map_map, List.map_map]; rfl
  simp only [keptBlock, closeBlock, Prod.map, keep_closeLine sameItem_closeItem hb.entry, hmap, hd]
  by_cases h : (keep Item.isCase Filter2.sameItem (es.map Filter.mkItem)).map (·.line) = []
  · simp [h]
  · rw [if_pos (by rwa [ne_eq, List.map_eq_nil_iff]), if_pos h]
    rw [Option.map_some, closeBlock, Prod.map, hd]

/-! ## What phase 2 reads -/

/-- **The file of phase 1 as phase 2 reads it**: the blocks written, the last of them with
    its `}` in the line of an entry that was cut off. -/
theorem Filter.lines_outFile {infile : Str} (ho : '\n' ∉ infile) {S : Str} {v : Filter.Vars}
    (hv : Filter.main infile (lines S) = .ok v) {f : Str} (hf : v.outFile = some f) :
    ∃ file, lines f = (infile ++ "\n".toList) :: file ∧
      blocks role false idle file = v.blocks.map closeBlock ∧
      ∀ b ∈ v.blocks.map closeBlock, Scannable b := by
  obtain ⟨hf, hne, hsub, hb⟩ := Filter.main_wrote hv hf
  have hh := isLine_header ho
  have hscan : ∀ b ∈ v.blocks.map closeBlock, Scannable b := by
    intro b hm
    obtain ⟨⟨d, es⟩, hc, rfl⟩ := List.mem_map.1 hm
    obtain ⟨hwr, hs⟩ := hb _ hc
    refine Scannable.congr (d := d) hs ?_
    rw [List.map_map]
    exact List.map_congr_left fun e he => identify_closeLine (hwr.entry e he)
  rcases lines_sublist hsub with hall | ⟨W, e, hW, hWl, he⟩
  · have hlines := lines_header hh hall []
    rw [List.append_nil, ← hf] at hlines
    have hid : v.blocks.map closeBlock = v.blocks.map id :=
      List.map_congr_left fun b hm => closeBlock_isLine fun l hl =>
        hall l (List.mem_flatMap.2 ⟨b, hm, hl⟩)
    rw [List.map_id] at hid
    refine ⟨_, hlines, ?_, hscan⟩
    rw [hid]
    simpa [lines, flush] using readBack (fun b hm => (hb b hm).1) []
  · -- the last line of the input is not terminated, and it is the last entry written
    obtain ⟨bs, ⟨d, es'⟩, hbs⟩ := (List.eq_nil_or_concat' v.blocks).resolve_left hne
    rw [hbs] at hb hW hf
    obtain ⟨hwr, -⟩ := hb (d, es') (by simp)
    obtain ⟨es, e', rfl⟩ := (List.eq_nil_or_concat' es').resolve_left hwr.ne
    have hown : (bs ++ [(d, es ++ [e'])]).flatMap ownLines =
        (bs.flatMap ownLines ++ d :: es) ++ [e'] := by simp [ownLines]
    obtain ⟨rfl, hee⟩ := List.append_inj' (hown.symm.trans hW) rfl
    obtain rfl := List.singleton_injective hee
    have hrole := hwr.entry e' (by simp)
    have hbsl : ∀ l ∈ bs.flatMap ownLines, IsLine l := fun l hl => hWl l (List.mem_append_left _ hl)
    have hesl : ∀ l ∈ d :: es, IsLine l := fun l hl => hWl l (List.mem_append_right _ hl)
    have hid : bs.map closeBlock = bs.map id :=
      List.map_congr_left fun b hm => closeBlock_isLine fun l hl =>
        hbsl l (List.mem_flatMap.2 ⟨b, hm, hl⟩)
    have hes : closeBlock (d, es) = (d, es) := closeBlock_isLine hesl
    rw [closeBlock, Prod.map, Prod.mk.injEq] at hes
    have hlast : closeBlock (d, es ++ [e']) = (d, es ++ [e' ++ "\x7d\n".toList]) := by
      rw [closeBlock, Prod.map, List.map_append, hes.1, hes.2, List.map_singleton,
        closeLine_cut hrole he]
    refine ⟨_, hf ▸ lines_unterminated_block hh hbsl hesl he, ?_, hscan⟩
    rw [readBack fun b hm => (hb b (List.mem_append_left _ hm)).1, hbs, List.map_append, hid,
      List.map_id, List.map_singleton, hlast]
    refine congrArg (bs ++ ·) (blocks_unclosed role_lbrace (b := (d, _)) ⟨hwr.head, by simp, ?_⟩)
    intro x hx
    rcases List.mem_append.1 hx with hx | hx
    · exact hwr.entry x (by simp [hx])
    · rw [List.mem_singleton.1 hx, ← closeLine_cut hrole he, role_closeLine]
      exact hrole

/-- **The two selections of a block** are the one of its report. -/
theorem written_written {b : Str × List Str} (hb : Writable role b) :
    (Filter.written b).bind (fun c => Filter2.written (closeBlock c)) =
      (keptBlock b).map closeBlock := by
  rw [← keptBlock_closeBlock hb]
  obtain ⟨d, es⟩ := b
  have hent : ∀ e ∈ es, role e = .entry := hb.entry
  have hcol : Collected ((es.map closeLine).map Filter.mkItem) :=
    collected_entries fun x hx => by
      obtain ⟨e, he, rfl⟩ := List.mem_map.1 hx
      rw [role_closeLine]; exact hent e he
  have hsub : Collected (Filter.selected ((es.map closeLine).map Filter.mkItem)) :=
    hcol.sublist (keep_sublist ..)
  -- what phase 2 selects of the first selection
  have hproc := Filter2.processSkeleton_eq hsub.skeleton (keep_headed _ _ _) hsub.fresh
  rw [Filter2.selected, Filter.selected, keep_keep fun _ _ _ => rfl] at hproc
  have hsel := keep_closeLine (S := fun _ _ => true) (fun _ _ => rfl) hent
  have hitems : ((Filter.selected (es.map Filter.mkItem)).map (·.line)).map
      (Filter.mkItem ∘ closeLine) = Filter.selected ((es.map closeLine).map Filter.mkItem) := by
    rw [Filter.selected, Filter.selected, hsel, List.map_map]; rfl
  by_cases hw : es.length > 1 ∧ (Filter.selected (es.map Filter.mkItem)).map (·.line) ≠ []
  · have hwr : Filter.written (d, es) =
        some (d, (Filter.selected (es.map Filter.mkItem)).map (·.line)) := if_pos hw
    rw [hwr, Option.bind_some, Filter2.written, closeBlock, Prod.map, Filter2.mkItem_eq, List.map_map,
      hitems, Filter.selected, hproc]
    rfl
  · rw [show Filter.written (d, es) = none from if_neg hw, Option.bind_none]
    refine (if_neg fun hne => hw ?_).symm
    -- a related pair is a pair
    have hkeep : keep Item.isCase Filter2.sameItem ((es.map closeLine).map Filter.mkItem) ≠ [] :=
      fun h => hne (by rw [closeBlock, Prod.map, h]; rfl)
    constructor
    · have h2 := (keep_entries hkeep).trans List.countP_le_length
      have hlen : 1 < ((es.map closeLine).map Filter.mkItem).length :=
        h2.trans (keep_sublist ..).length_le
      simpa using hlen
    · intro h
      rw [List.map_eq_nil_iff, Filter.selected] at h
      rw [h, List.map_nil] at hsel
      rw [← keep_keep (S := fun _ _ => true) (fun _ _ _ => rfl), hsel] at hkeep
      exact hkeep rfl

/-! ## Both phases -/

theorem filterPy_eq (temp2 infile : Str) : ∃ v, Filter.main infile (lines temp2) = .ok v ∧
    v.blocks = (blocks role true idle (lines temp2)).filterMap Filter.written ∧
    filterPy temp2 infile = v.outFile ∧ (v.outFile = none ↔ v.blocks = []) := by
  obtain ⟨v, hv, hb, hw, -⟩ := Filter.main_spec infile (lines temp2)
  refine ⟨v, hv, hb, by rw [filterPy, hv]; rfl, ?_⟩
  rw [Filter.Vars.outFile, hw.file]
  split_ifs with h <;> simp [h]

theorem Filter2.runMain_ok {infile : List Str} {w : Filter2.Vars} (h : Filter2.main infile = .ok w) :
    Filter2.runMain infile = ⟨w, none⟩ := by
  have hrun := Filter2.main_eq infile
  rw [h] at hrun
  cases hr : Filter2.runMain infile with
  | mk w' raised =>
    rw [hr] at hrun
    cases raised with
    | some e => cases hrun
    | none => rw [show w = w' from Except.ok.inj hrun]

/-- Phase 2 on a file with some blocks. -/
theorem filter2Py_eq {f header : Str} {file : List Str} {bs : List (Str × List Str)}
    (hf : lines f = header :: file) (hb : blocks role false idle file = bs)
    (hs : ∀ b ∈ bs, Scannable b) : filter2Raises f = false ∧
    filter2Py f = if bs.filterMap Filter2.written = [] then none
      else some (header :: (bs.filterMap Filter2.written).flatMap writeLines).flatten := by
  rcases Filter2.main_spec header file with ⟨w, hw, -, hww, hwo, -⟩ | ⟨-, b, hm, hns⟩
  · rw [filter2Raises, filter2Py, hf, Filter2.runMain_ok hw, ← hwo, ← hb]
    exact ⟨rfl, hww.wrote.file⟩
  · exact absurd (hs b (hb ▸ hm)).succeeds hns

/-- The functions of the report are those written twice. -/
theorem report_written (S : List Str) :
    (((blocks role true idle S).filterMap Filter.written).map closeBlock).filterMap Filter2.written =
      (report S).map closeBlock := by
  have hwr : ∀ b ∈ blocks role true idle S, Writable role b := Ok.blocks (p := idle) trivial S
  rw [List.filterMap_map, List.filterMap_filterMap, report, List.map_filterMap]
  exact List.filterMap_congr fun b hm => written_written (hwr b hm)

/-- Phase 2 on a file that phase 1 has written. -/
theorem filter2Py_filterPy {temp2 infile f : Str} (ho : '\n' ∉ infile)
    (hf : filterPy temp2 infile = some f) :
    filter2Raises f = false ∧ filter2Py f = reportFile infile (lines temp2) := by
  obtain ⟨v, hv, hb, hout, -⟩ := filterPy_eq temp2 infile
  obtain ⟨file, hl, hbl, hs⟩ := Filter.lines_outFile ho hv (hout.symm.trans hf)
  obtain ⟨hr, hw⟩ := filter2Py_eq hl hbl hs
  refine ⟨hr, ?_⟩
  rw [hw, hb, report_written, reportFile]
  simp only [List.map_eq_nil_iff]

/-- Nothing is reported of what phase 1 leaves out. -/
theorem reportFile_none {temp2 infile : Str} (hf : filterPy temp2 infile = none) :
    reportFile infile (lines temp2) = none := by
  obtain ⟨v, -, hb, hout, hnone⟩ := filterPy_eq temp2 infile
  have hblocks : v.blocks = [] := hnone.1 (hout.symm.trans hf)
  have h := report_written (lines temp2)
  rw [← hb, hblocks] at h
  exact if_pos (List.map_eq_nil_iff.1 h.symm)

/-- **Both phases write the report of the skeleton.** -/
theorem pipeline_report (temp2 infile : Str) (ho : '\n' ∉ infile) :
    (filterPy temp2 infile).bind filter2Py = reportFile infile (lines temp2) := by
  cases hf : filterPy temp2 infile with
  | none => exact (reportFile_none hf).symm
  | some f => exact (filter2Py_filterPy ho hf).2

/-- A function that is cut off. -/
theorem pipeline_report_cut : (filterPy "int f()\n\x7b\nget_user(a,p);\nget_user(b,p);".toList
    "a.c".toList).bind filter2Py =
      some "a.c\nint f()\n\x7b\nget_user(a,p);\nget_user(b,p);\x7d\n\x7d\n".toList := by
  rw [pipeline_report _ _ (by decide)]
  decide +kernel

end DoubleFetch
