/-
  Reading the log back (`cocci/copy_files.py`).

  * `mainLoop` takes a line of `result.txt` that begins neither with `N` nor with `-`
    for the name of a file, and copies it unless it is the name before;
  * `reports_readBack`: from the log of any calls of `post_match_process`, the files
    reported are copied, each to a destination of its own.
-/
import DoubleFetch.Base.Brackets
import DoubleFetch.Cocci.Report
import Mathlib.Data.List.Destutter

namespace DoubleFetch.Cocci

/-! ## `copy_files.py` -/

/-- `s.rfind(c)`. -/
def rfind (s : Str) (c : Char) : Option ℕ :=
  match s with
  | [] => none
  | x :: s =>
    match rfind s c with
    | some i => some (i + 1)
    | none => if x = c then some 0 else none

/-- The attributes of `Tool`, and the calls `shutil.copy(s, d)` made so far. -/
structure Tool where
  buffer : Str := []
  counter : ℕ := 0
  copies : List (Str × Str) := []

def getDst (counter : ℕ) (src : Str) : Str :=
  let filename := match rfind src '/' with
    | some p => src.drop (p + 1)
    | none => src
  "outcome/".toList ++ str counter ++ "-".toList ++ filename

def tailor (s : Str) : Str := s.take (s.length - 1)

/-- The loop of `main` over the lines of `result.txt`. -/
def mainLoop (file : List Str) (t : Tool) : Tool :=
  match file with
  | [] => t
  | src :: file =>
    match src with
    | [] => t
    | c :: _ =>
      if c ≠ 'N' ∧ c ≠ '-' then
        if src ≠ t.buffer then
          let counter := t.counter + 1
          let dst := getDst counter src
          mainLoop file
            { buffer := src
              counter := counter
              copies := t.copies ++ [(tailor src, tailor dst)] }
        else mainLoop file t
      else mainLoop file t

/-- `copy_files.py` on the lines of `result.txt`. -/
def copyFiles (file : List Str) : Tool := mainLoop file {}

/-! ## Base names -/

/-- What follows the last `/`. -/
def baseName (f : Str) : Str := (f.reverse.takeWhile (· ≠ '/')).reverse

theorem baseName_append {u v : Str} (hv : '/' ∉ v) : baseName (u ++ '/' :: v) = v := by
  have : ∀ c ∈ v.reverse, decide (c ≠ '/') = true := by
    intro c hc
    simp only [decide_eq_true_eq]
    rintro rfl
    exact hv (List.mem_reverse.1 hc)
  rw [baseName, List.reverse_append, List.reverse_cons, List.append_assoc,
    List.takeWhile_append_of_pos this]
  simp

theorem rfind_eq_none {s : Str} {c : Char} (h : c ∉ s) : rfind s c = none := by
  induction s with
  | nil => rfl
  | cons x s ih =>
    simp only [List.mem_cons, not_or] at h
    simp [rfind, ih h.2, Ne.symm h.1]

theorem rfind_append {c : Char} {v : Str} (hv : c ∉ v) : ∀ u : Str,
    rfind (u ++ c :: v) c = some u.length
  | [] => by simp [rfind, rfind_eq_none hv]
  | x :: u => by simp [rfind, rfind_append hv u]

/-- The destination of the `k`-th file copied. -/
def destination (k : ℕ) (f : Str) : Str :=
  "outcome/".toList ++ str k ++ "-".toList ++ baseName f

theorem tailor_line (s : Str) : tailor (s ++ ['\n']) = s := by
  simp [tailor]

theorem exists_last_slash {f : Str} (h : '/' ∈ f) : ∃ u v, f = u ++ '/' :: v ∧ '/' ∉ v := by
  obtain ⟨u, v, huv, hu⟩ := List.eq_append_cons_of_mem (List.mem_reverse.2 h)
  refine ⟨v.reverse, u.reverse, ?_, by simpa using hu⟩
  rw [← List.reverse_reverse f, huv]
  simp

theorem tailor_getDst {f : Str} (h : '/' ∈ f) (k : ℕ) :
    tailor (getDst k (f ++ ['\n'])) = destination k f := by
  obtain ⟨u, v, rfl, hv⟩ := exists_last_slash h
  have hv' : '/' ∉ v ++ ['\n'] := by simpa using hv
  have hsrc : (u ++ '/' :: v) ++ ['\n'] = (u ++ ['/']) ++ (v ++ ['\n']) := by simp
  have hlen : u.length + 1 = (u ++ ['/']).length := by simp
  have hfind : rfind ((u ++ ['/']) ++ (v ++ ['\n'])) '/' = some u.length := by
    rw [List.append_assoc]; exact rfind_append hv' u
  unfold getDst destination
  simp only [hsrc, hfind, hlen, List.drop_left, baseName_append hv]
  rw [← List.append_assoc, tailor_line]

/-- Different numbers make different destinations. -/
theorem destination_injective {j k : ℕ} {f g : Str} (h : destination j f = destination k g) :
    j = k := by
  have hdash : ∀ n, '-' ∉ str n := fun n hm => by
    have := isDigit_of_mem_str hm
    revert this; decide
  unfold destination at h
  simp only [List.append_assoc] at h
  have h := List.append_cancel_left h
  have hpre : ∀ (n : ℕ) (b : Str), str n ++ ['-'] <+: str n ++ ("-".toList ++ b) :=
    fun n b => ⟨b, List.append_assoc ..⟩
  exact str_injective (eq_of_marked (hdash j) (hdash k) (hpre j _) (h ▸ hpre k _))

/-! ## The records -/

/-- A call of `post_match_process`. -/
structure Call where
  p1 : Position
  p2 : Position
  src : Str
  ptr : Str

def Call.run (v : Report) (c : Call) : Report := postMatchProcess c.p1 c.p2 c.src c.ptr v

/-- The report after some calls. -/
def runCalls (calls : List Call) : Report := calls.foldl Call.run {}

def Call.accepted (c : Call) : Bool := decide (Accepted c.p1 c.p2 c.src c.ptr)

/-- The lines of the `k`-th record. -/
def recordLines (k : ℕ) (c : Call) : List Str :=
  ["No.".toList ++ str k ++ " File: \n".toList, c.p1.file ++ "\n".toList,
    "--first fetch: line ".toList ++ c.p1.line ++ "\n".toList,
    "--second fetch: line ".toList ++ c.p2.line ++ "\n".toList,
    "-------------------------------\n".toList]

/-- The lines of the records of the calls `acc`, numbered from `k`. -/
def records (k : ℕ) (acc : List Call) : List Str :=
  (acc.zipIdx k).flatMap fun p => recordLines p.2 p.1

theorem records_cons (k : ℕ) (c : Call) (acc : List Call) :
    records k (c :: acc) = recordLines k c ++ records (k + 1) acc := by
  simp [records, List.zipIdx_cons]

theorem printAndLog_eq (k : ℕ) (c : Call) (logfile : Str) :
    printAndLog c.p1.file c.p1.line c.p2.line (str k) logfile =
      logfile ++ (recordLines k c).flatten := by
  unfold printAndLog recordLines
  simp only [List.flatten_cons, List.flatten_nil, List.append_nil, List.append_assoc]

/-- **What some calls log.** -/
theorem foldl_run : ∀ (calls : List Call) (v : Report),
    (calls.foldl Call.run v).count = v.count + (calls.filter Call.accepted).length ∧
    (calls.foldl Call.run v).logfile =
      v.logfile ++ (records v.count (calls.filter Call.accepted)).flatten
  | [], v => by simp [records]
  | c :: calls, v => by
    have hrun : Call.run v c = if c.accepted then v.log c.p1 c.p2 else v := by
      rw [Call.run, postMatchProcess_eq]
      simp only [Call.accepted, decide_eq_true_eq]
    obtain ⟨h1, h2⟩ := foldl_run calls (Call.run v c)
    rw [List.foldl_cons, h1, h2, hrun]
    by_cases hc : c.accepted = true
    · rw [if_pos hc, List.filter_cons_of_pos hc, records_cons, List.flatten_append]
      constructor
      · simp only [Report.log, List.length_cons]; omega
      · simp only [Report.log, printAndLog_eq, List.append_assoc]
    · rw [if_neg hc, List.filter_cons_of_neg hc]
      exact ⟨rfl, rfl⟩

theorem newline_str (n : ℕ) : '\n' ∉ str n := fun h => by
  have := isDigit_of_mem_str h
  revert this; decide

theorem isLine_recordLines {k : ℕ} {c : Call} (hc : '\n' ∉ c.p1.file) :
    ∀ l ∈ recordLines k c, IsLine l := by
  have hline : ∀ p : Position, '\n' ∉ p.line := fun p => newline_str _
  simp only [recordLines, List.mem_cons, List.not_mem_nil, or_false, forall_eq_or_imp, forall_eq]
  refine ⟨⟨"No.".toList ++ str k ++ " File: ".toList, by simp, ?_⟩, ⟨_, rfl, hc⟩,
    ⟨_, rfl, ?_⟩, ⟨_, rfl, ?_⟩, ⟨"-------------------------------".toList, by decide, by decide⟩⟩
  · rw [List.mem_append, List.mem_append, not_or, not_or]
    exact ⟨⟨by decide, newline_str k⟩, by decide⟩
  · rw [List.mem_append, not_or]
    exact ⟨by decide, hline _⟩
  · rw [List.mem_append, not_or]
    exact ⟨by decide, hline _⟩

theorem isLine_records {acc : List Call} (hacc : ∀ c ∈ acc, '\n' ∉ c.p1.file) :
    ∀ k, ∀ l ∈ records k acc, IsLine l := by
  induction acc with
  | nil => intro k l hl; cases hl
  | cons c acc ih =>
    simp only [List.mem_cons, forall_eq_or_imp] at hacc
    intro k l hl
    rw [records_cons, List.mem_append] at hl
    rcases hl with hl | hl
    · exact isLine_recordLines hacc.1 l hl
    · exact ih hacc.2 (k + 1) l hl

/-! ## Reading the records -/

/-- What is copied at the name of a file. -/
def Tool.offer (t : Tool) (f : Str) : Tool :=
  if f ++ ['\n'] ≠ t.buffer then
    { buffer := f ++ ['\n']
      counter := t.counter + 1
      copies := t.copies ++ [(f, destination (t.counter + 1) f)] }
  else t

/-- A file under `testdir/`. -/
def InTestdir (f : Str) : Prop := "testdir/".toList <+: f

instance (f : Str) : Decidable (InTestdir f) := inferInstanceAs (Decidable (_ <+: _))

theorem mainLoop_skip {src : Str} (h : ['N'] <+: src ∨ ['-'] <+: src) (file : List Str) (t : Tool) :
    mainLoop (src :: file) t = mainLoop file t := by
  rcases h with ⟨s, rfl⟩ | ⟨s, rfl⟩
  · rw [List.singleton_append, mainLoop, if_neg (by decide)]
  · rw [List.singleton_append, mainLoop, if_neg (by decide)]

theorem mainLoop_name {f : Str} (hf : InTestdir f) (file : List Str) (t : Tool) :
    mainLoop ((f ++ "\n".toList) :: file) t = mainLoop file (t.offer f) := by
  obtain ⟨g, rfl⟩ := hf
  have hslash : '/' ∈ "testdir/".toList ++ g := List.mem_append_left _ (by decide)
  have hdst := tailor_getDst hslash (t.counter + 1)
  have hsrc := tailor_line ("testdir/".toList ++ g)
  have hcons : "testdir/".toList ++ g ++ ['\n'] = 't' :: ("estdir/".toList ++ g ++ ['\n']) := rfl
  rw [Tool.offer]
  change mainLoop (("testdir/".toList ++ g ++ ['\n']) :: file) t = _
  rw [hcons] at hdst hsrc ⊢
  rw [mainLoop, if_pos (by decide)]
  simp only [hdst, hsrc]
  split_ifs <;> rfl

/-- **Of a record, the name is read.** -/
theorem mainLoop_recordLines {c : Call} (hc : InTestdir c.p1.file) (k : ℕ) (file : List Str)
    (t : Tool) : mainLoop (recordLines k c ++ file) t = mainLoop file (t.offer c.p1.file) := by
  have hno : ['N'] <+: "No.".toList ++ str k ++ " File: \n".toList := ⟨_, rfl⟩
  have hfirst : ['-'] <+: "--first fetch: line ".toList ++ c.p1.line ++ "\n".toList := ⟨_, rfl⟩
  have hsecond : ['-'] <+: "--second fetch: line ".toList ++ c.p2.line ++ "\n".toList := ⟨_, rfl⟩
  have hrule : ['-'] <+: "-------------------------------\n".toList := by decide
  simp only [recordLines, List.cons_append, List.nil_append]
  rw [mainLoop_skip (Or.inl hno), mainLoop_name hc, mainLoop_skip (Or.inr hfirst),
    mainLoop_skip (Or.inr hsecond), mainLoop_skip (Or.inr hrule)]

theorem mainLoop_records : ∀ (acc : List Call) (k : ℕ) (t : Tool),
    (∀ c ∈ acc, InTestdir c.p1.file) →
    mainLoop (records k acc) t = (acc.map (·.p1.file)).foldl Tool.offer t
  | [], k, t, _ => rfl
  | c :: acc, k, t, h => by
    simp only [List.mem_cons, forall_eq_or_imp] at h
    rw [records_cons, mainLoop_recordLines h.1, mainLoop_records acc _ _ h.2]
    rfl

/-! ## Adjacent repetitions -/

section
variable {α : Type*} [DecidableEq α]

/-- Equal elements stand together: nothing else is between them. -/
def Contiguous (l : List α) : Prop := ∀ x y, [x, y, x].Sublist l → y = x

theorem destutter'_head (a : α) : ∀ l : List α, ∃ r, l.destutter' (· ≠ ·) a = a :: r
  | [] => ⟨[], rfl⟩
  | b :: l => by
    by_cases h : a ≠ b
    · exact ⟨_, List.destutter'_cons_pos l h⟩
    · rw [List.destutter'_cons_neg l h]; exact destutter'_head a l

theorem mem_destutter'_ne {x : α} : ∀ {l : List α} {a : α},
    x ∈ l.destutter' (· ≠ ·) a ↔ x = a ∨ x ∈ l
  | [], a => by simp
  | b :: l, a => by
    by_cases h : a ≠ b
    · rw [List.destutter'_cons_pos l h, List.mem_cons, mem_destutter'_ne, List.mem_cons]
    · rw [List.destutter'_cons_neg l h, mem_destutter'_ne, List.mem_cons, not_not.1 h]
      tauto

theorem Contiguous.nodup_destutter' : ∀ {l : List α} {a : α}, Contiguous (a :: l) →
    (l.destutter' (· ≠ ·) a).Nodup
  | [], a, _ => by simp
  | b :: l, a, hl => by
    by_cases h : a ≠ b
    · have htail : Contiguous (b :: l) := fun x y hs => hl x y (hs.cons a)
      rw [List.destutter'_cons_pos l h, List.nodup_cons, mem_destutter'_ne, not_or]
      refine ⟨⟨h, fun ha => ?_⟩, htail.nodup_destutter'⟩
      have := hl a b ((List.singleton_sublist.2 ha).cons_cons b |>.cons_cons a)
      exact h this.symm
    · rw [List.destutter'_cons_neg l h]
      refine nodup_destutter' fun x y hs => hl x y ?_
      obtain rfl := not_not.1 h
      exact hs.trans ((List.sublist_cons_self ..))

end

/-- The copies of some files, numbered from `k`. -/
def numbered (k : ℕ) (fs : List Str) : List (Str × Str) :=
  (fs.zipIdx k).map fun p => (p.1, destination p.2 p.1)

theorem numbered_cons (k : ℕ) (f : Str) (fs : List Str) :
    numbered k (f :: fs) = (f, destination k f) :: numbered (k + 1) fs := by
  simp [numbered, List.zipIdx_cons]

/-- Behind a name, its repetitions are skipped. -/
theorem foldl_offer : ∀ (fs : List Str) (t : Tool) (g : Str), t.buffer = g ++ ['\n'] →
    (fs.foldl Tool.offer t).copies =
      t.copies ++ numbered (t.counter + 1) (fs.destutter' (· ≠ ·) g).tail
  | [], t, g, _ => by simp [numbered]
  | f :: fs, t, g, hg => by
    rw [List.foldl_cons]
    by_cases h : g ≠ f
    · have hne : f ++ ['\n'] ≠ t.buffer := by
        rw [hg]; exact fun he => h (List.append_cancel_right he).symm
      obtain ⟨r, hr⟩ := destutter'_head f fs
      rw [foldl_offer fs (t.offer f) f (by rw [Tool.offer, if_pos hne]), Tool.offer, if_pos hne,
        List.destutter'_cons_pos fs h, List.tail_cons, hr, List.tail_cons, numbered_cons,
        List.append_assoc, List.singleton_append]
    · obtain rfl := not_not.1 h
      have ht : t.offer g = t := by rw [Tool.offer, if_neg (by rw [hg]; simp)]
      rw [ht, List.destutter'_cons_neg fs h, foldl_offer fs t g hg]

theorem foldl_offer_destutter (fs : List Str) :
    (fs.foldl Tool.offer {}).copies = numbered 1 (fs.destutter (· ≠ ·)) := by
  cases fs with
  | nil => rfl
  | cons f fs =>
    obtain ⟨r, hr⟩ := destutter'_head f fs
    have hoff : Tool.offer {} f = ⟨f ++ ['\n'], 1, [(f, destination 1 f)]⟩ := by
      rw [Tool.offer, if_pos (by simp)]; rfl
    rw [List.foldl_cons, hoff, foldl_offer fs _ f rfl, List.destutter_cons', hr, numbered_cons]
    rfl

theorem nodup_destinations (k : ℕ) (fs : List Str) : ((numbered k fs).map Prod.snd).Nodup := by
  have hidx : ((fs.zipIdx k).map Prod.snd).Nodup := by
    rw [List.zipIdx_map_snd]; exact List.nodup_range'
  rw [List.Nodup, List.pairwise_map] at hidx
  rw [numbered, List.map_map, List.Nodup, List.pairwise_map]
  exact hidx.imp fun hne he => hne (destination_injective he)

/-- **The log is read back without loss.** -/
theorem reports_readBack (calls : List Call)
    (hfile : ∀ c ∈ calls, InTestdir c.p1.file ∧ '\n' ∉ c.p1.file) :
    (runCalls calls).count = (calls.filter Call.accepted).length ∧
    (runCalls calls).logfile = (records 0 (calls.filter Call.accepted)).flatten ∧
    (copyFiles (lines (runCalls calls).logfile)).copies =
      numbered 1 (((calls.filter Call.accepted).map (·.p1.file)).destutter (· ≠ ·)) ∧
    ((copyFiles (lines (runCalls calls).logfile)).copies.map Prod.snd).Nodup ∧
    (Contiguous ((calls.filter Call.accepted).map (·.p1.file)) →
      ((copyFiles (lines (runCalls calls).logfile)).copies.map Prod.fst).Nodup ∧
      ∀ f, f ∈ (copyFiles (lines (runCalls calls).logfile)).copies.map Prod.fst ↔
        f ∈ (calls.filter Call.accepted).map (·.p1.file)) := by
  set acc := calls.filter Call.accepted with hacc
  have hsub : ∀ c ∈ acc, InTestdir c.p1.file ∧ '\n' ∉ c.p1.file :=
    fun c hc => hfile c (List.mem_of_mem_filter hc)
  obtain ⟨hcount, hlog⟩ := foldl_run calls {}
  have hcount : (runCalls calls).count = 0 + acc.length := hcount
  have hlog : (runCalls calls).logfile = (records 0 acc).flatten := hlog
  have hlines : lines (runCalls calls).logfile = records 0 acc := by
    rw [hlog]; exact lines_flatten (isLine_records (fun c hc => (hsub c hc).2) 0)
  have hcopies : (copyFiles (lines (runCalls calls).logfile)).copies =
      numbered 1 ((acc.map (·.p1.file)).destutter (· ≠ ·)) := by
    rw [hlines, copyFiles, mainLoop_records acc 0 {} fun c hc => (hsub c hc).1,
      foldl_offer_destutter]
  have hfst : ∀ k (fs : List Str), (numbered k fs).map Prod.fst = fs := by
    intro k fs
    rw [numbered, List.map_map]
    exact List.zipIdx_map_fst k fs
  refine ⟨by rw [hcount, Nat.zero_add], hlog, hcopies, ?_, fun hcont => ?_⟩
  · rw [hcopies]; exact nodup_destinations _ _
  · rw [hcopies, hfst]
    cases hm : acc.map (·.p1.file) with
    | nil => simp
    | cons f fs =>
      rw [hm] at hcont
      rw [List.destutter_cons']
      exact ⟨hcont.nodup_destutter', fun g => by rw [mem_destutter'_ne, List.mem_cons]⟩

/-- Two reports of a file, a match in one line, and a report of another file. -/
def twoFiles : List Call :=
  [⟨⟨"testdir/a.c".toList, 3⟩, ⟨"testdir/a.c".toList, 7⟩, "p".toList, "p".toList⟩,
   ⟨⟨"testdir/a.c".toList, 3⟩, ⟨"testdir/a.c".toList, 9⟩, "p->q".toList, "p->q".toList⟩,
   ⟨⟨"testdir/x/b-1.c".toList, 5⟩, ⟨"testdir/x/b-1.c".toList, 5⟩, "p".toList, "p".toList⟩,
   ⟨⟨"testdir/x/b-1.c".toList, 5⟩, ⟨"testdir/x/b-1.c".toList, 8⟩, "p".toList, "q".toList⟩]

theorem reports_readBack_twoFiles : (runCalls twoFiles).count = 3 ∧
    (copyFiles (lines (runCalls twoFiles).logfile)).copies =
      [("testdir/a.c".toList, "outcome/1-a.c".toList),
       ("testdir/x/b-1.c".toList, "outcome/2-b-1.c".toList)] := by
  obtain ⟨hcount, -, hcopies, -⟩ := reports_readBack twoFiles (by decide +kernel)
  rw [hcount, hcopies]
  exact ⟨by decide +kernel, by decide +kernel⟩

end DoubleFetch.Cocci
