/-
  Switch labels in the extraction of skeleton lines.

  The last two substitutions of the script print the labels.  They run on what the
  substitutions for fetches leave, the last fetch text, and take `case` and `default`
  also for a part of an identifier.

  * `run_script`: the fetches are printed in front of the labels;
  * `exists_case_iff`, `labelShown_iff`: a label is printed if one of the words occurs,
    in the line and not in front of a fetch text;
  * `labelsExtracted_iff`: on which lines the labels printed are the labels.
-/
import DoubleFetch.TextFilter.Extract

namespace DoubleFetch.Extract

open Sed

/-! ## Labels -/

def labelWords : List Str := ["case".toList, "default".toList]

/-- Behind `u`, the text `t` begins with a label word that is a whole identifier. -/
def labelAt (u t : Str) : Bool :=
  boundary u && labelWords.any fun n => n.isPrefixOf t && !((t.drop n.length).head?.any isIdent)

/-- The line has a label. -/
def HasLabel (line : Str) : Prop := ∃ u t, u ++ t = line ∧ labelAt u t = true

/-- The line has a call behind a label. -/
def FetchBehindLabel (line : Str) : Prop :=
  ∃ u t u' t', u ++ t = line ∧ labelAt u t = true ∧ u' ++ t' = line ∧ u.length < u'.length ∧
    callAt u' t' = true

theorem hasLabel_iff {line : Str} :
    (∃ i < line.length + 1, labelAt (line.take i) (line.drop i) = true) ↔ HasLabel line := by
  constructor
  · rintro ⟨i, -, h⟩
    exact ⟨_, _, List.take_append_drop i line, h⟩
  · rintro ⟨u, t, rfl, h⟩
    exact ⟨u.length, by simp only [List.length_append]; omega, by simpa using h⟩

instance (line : Str) : Decidable (HasLabel line) := decidable_of_iff _ hasLabel_iff

/-- The labels are extracted: a label is printed if there is one, and if a call stands
    behind a label, a label is printed in front of a fetch. -/
def LabelsExtracted (line : Str) : Prop :=
  ((∃ l ∈ Cmd.run script line, tag l = .case) ↔ HasLabel line) ∧
    (FetchBehindLabel line →
      ∃ l f, tag l = .case ∧ tag f = .trans ∧ [l, f].Sublist (Cmd.run script line))

/-! ## Tags -/

theorem identify_eq_case {l : Str} : Filter.identify l = .case ↔
    "case".toList <+: l ∨ "default".toList <+: l := by
  have hcl : ∀ {p q : Str}, p <+: l → ¬ p <+: q → ¬ q <+: p → ¬ q <+: l :=
    fun hp h1 h2 hq => (List.prefix_or_prefix_of_prefix hp hq).elim h1 h2
  simp only [Filter.identify, find_eq_zero]
  constructor
  · intro h
    split_ifs at h with h1 h2 h3 h4
    · exact Or.inl h3
    · exact Or.inr h4
  · rintro (h | h)
    · rw [if_neg (hcl h (by decide) (by decide)), if_neg (hcl h (by decide) (by decide)), if_pos h]
    · rw [if_neg (hcl h (by decide) (by decide)), if_neg (hcl h (by decide) (by decide)),
        if_neg (hcl h (by decide) (by decide)), if_pos h]

theorem tag_eq_case {l : Str} : tag l = .case ↔ "case".toList <+: l ∨ "default".toList <+: l := by
  rw [tag, identify_eq_case, word_newline (by decide), word_newline (by decide)]

/-! ## The script in parts -/

/-- The commands that print whole lines. -/
def printCmds : List Cmd :=
  [.print (lits "asmlinkage".toList ++ dotStar),
   .print (lits "inline".toList ++ dotStar),
   .print (lits "const".toList ++ dotStar),
   .print (lits "unsigned".toList ++ dotStar),
   .print (lits "void".toList ++ dotStar),
   .print (lits "static".toList ++ dotStar),
   .print (lits "int".toList ++ dotStar),
   .print [.one (.oneOf "\x7b\x7d".toList)]]

def fetchCmds : List Cmd := [Subst.uuGetUser, .getUser, .copyFromUser].map Subst.cmd

def labelCmds : List Cmd := labelWords.map fun n => .subst (dotStar ++ lits n) n

theorem script_eq : script = .delete [.one (.oneOf ['#'])] ::
    .delete (lits "\x7d;".toList ++ dotStar) :: (printCmds ++ (fetchCmds ++ labelCmds)) := rfl

/-- The words a line printed in front of the labels begins with. -/
def otherWords : List Str :=
  ["asmlinkage".toList, "inline".toList, "const".toList, "unsigned".toList, "void".toList,
    "static".toList, "int".toList, ['\x7b'], ['\x7d'], "get_user".toList, "copy_from_user".toList]

theorem heads_printCmds : ∀ c ∈ printCmds, c.Heads otherWords := by
  have hword : ∀ {w : Str} (s : Str), w ∈ otherWords → (matchLen (lits w ++ dotStar) s).isSome = true →
      ∃ w ∈ otherWords, w <+: s := fun s hw h => ⟨_, hw, (matchLen_word _ s).1 h⟩
  simp only [printCmds, List.mem_cons, List.not_mem_nil, or_false, forall_eq_or_imp, forall_eq]
  refine ⟨fun s => hword s (by decide), fun s => hword s (by decide), fun s => hword s (by decide),
    fun s => hword s (by decide), fun s => hword s (by decide), fun s => hword s (by decide),
    fun s => hword s (by decide), fun s hs => ?_⟩
  rcases brace_of_matchLen hs with h | h
  · exact ⟨_, by decide, h⟩
  · exact ⟨_, by decide, h⟩

theorem heads_fetchCmds : ∀ c ∈ fetchCmds, c.Heads otherWords := by
  intro c hc
  obtain ⟨k, -, rfl⟩ := List.mem_map.1 hc
  refine ⟨k.name, ?_, List.prefix_refl _⟩
  cases k <;> decide

theorem heads_labelCmds : ∀ c ∈ labelCmds, c.Heads labelWords := by
  intro c hc
  obtain ⟨n, hn, rfl⟩ := List.mem_map.1 hc
  exact ⟨n, hn, List.prefix_refl _⟩

/-- No label begins with one of the other words. -/
theorem tag_ne_case {l : Str} (h : ∃ w ∈ otherWords, w <+: l) : tag l ≠ .case := by
  obtain ⟨w, hw, hl⟩ := h
  have hno : ∀ w ∈ otherWords, ∀ n ∈ labelWords, ¬ w <+: n ∧ ¬ n <+: w := by decide
  have key : ∀ n ∈ labelWords, ¬ n <+: l := fun n hn h =>
    (List.prefix_or_prefix_of_prefix hl h).elim (hno w hw n hn).1 (hno w hw n hn).2
  rw [ne_eq, tag_eq_case, not_or]
  exact ⟨key _ (by decide), key _ (by decide)⟩

theorem tag_case_of_word {l : Str} (h : ∃ w ∈ labelWords, w <+: l) : tag l = .case := by
  obtain ⟨w, hw, hl⟩ := h
  have hw : w = "case".toList ∨ w = "default".toList := by simpa [labelWords] using hw
  rcases hw with rfl | rfl
  · exact tag_eq_case.2 (Or.inl hl)
  · exact tag_eq_case.2 (Or.inr hl)

/-- The pattern space that the labels are looked for in. -/
def labelSpace (line : Str) : Str := Cmd.space fetchCmds line

/-- **The labels are printed last**, from what the fetches leave. -/
theorem run_script {line : Str} (h1 : ¬ "#".toList <+: line) (h2 : ¬ "\x7d;".toList <+: line) :
    Cmd.run script line =
      Cmd.run (printCmds ++ fetchCmds) line ++ Cmd.run labelCmds (labelSpace line) := by
  have hcs : (printCmds ++ fetchCmds).all (fun c => !c.isDelete) = true := rfl
  have hcs : ∀ c ∈ printCmds ++ fetchCmds, c.isDelete = false := by
    simpa using List.all_eq_true.1 hcs
  have hspace : Cmd.space (printCmds ++ fetchCmds) line = labelSpace line := rfl
  rw [script_eq, Cmd.run, matchLen_hash h1, Cmd.run, matchLen_close h2, ← List.append_assoc,
    run_append _ _ hcs, hspace]
  rfl

theorem tag_front {line l : Str} (hl : l ∈ Cmd.run (printCmds ++ fetchCmds) line) :
    tag l ≠ .case := by
  refine tag_ne_case (head_of_mem_run line (fun c hc => ?_) l hl)
  rcases List.mem_append.1 hc with hc | hc
  · exact heads_printCmds c hc
  · exact heads_fetchCmds c hc

theorem tag_labelCmds {w l : Str} (hl : l ∈ Cmd.run labelCmds w) : tag l = .case :=
  tag_case_of_word (head_of_mem_run w heads_labelCmds l hl)

/-- No label is printed in front of a fetch. -/
theorem no_label_before_fetch {line : Str} (h1 : ¬ "#".toList <+: line)
    (h2 : ¬ "\x7d;".toList <+: line) {l f : Str} (hl : tag l = .case) (hf : tag f = .trans) :
    ¬ [l, f].Sublist (Cmd.run script line) := by
  rw [run_script h1 h2]
  intro hs
  obtain ⟨L₁, L₂, he, hL₁, hL₂⟩ := List.sublist_append_iff.1 hs
  have hl₁ : l ∉ L₁ := fun hm => tag_front (hL₁.subset hm) hl
  cases L₁ with
  | nil =>
    have hf₂ : f ∈ L₂ := by rw [← show [l, f] = L₂ from he]; simp
    rw [tag_labelCmds (hL₂.subset hf₂)] at hf; cases hf
  | cons x L₁ =>
    obtain rfl := (List.cons.inj he).1
    exact hl₁ (List.mem_cons_self ..)

/-- A label is printed if one of the words occurs in the pattern space. -/
theorem exists_case_iff {line : Str} (h1 : ¬ "#".toList <+: line)
    (h2 : ¬ "\x7d;".toList <+: line) : (∃ l ∈ Cmd.run script line, tag l = .case) ↔
      ∃ n ∈ labelWords, n <:+: labelSpace line := by
  have hlabels : (∃ n ∈ labelWords, n <:+: labelSpace line) ↔
      Cmd.run labelCmds (labelSpace line) ≠ [] := by
    simp only [labelWords, labelCmds, List.mem_cons, List.not_mem_nil, or_false, exists_eq_or_imp,
      exists_eq_left, List.map_cons, List.map_nil, ← matchLen_dotStar_word, Cmd.run]
    cases matchLen (dotStar ++ lits "case".toList) (labelSpace line) with
    | some m => simp
    | none => cases matchLen (dotStar ++ lits "default".toList) (labelSpace line) <;> simp
  rw [hlabels, run_script h1 h2]
  constructor
  · rintro ⟨l, hl, ht⟩
    rcases List.mem_append.1 hl with hl | hl
    · exact absurd ht (tag_front hl)
    · exact List.ne_nil_of_mem hl
  · intro hne
    obtain ⟨l, hl⟩ := List.exists_mem_of_ne_nil _ hne
    exact ⟨l, List.mem_append_right _ hl, tag_labelCmds hl⟩

/-! ## The pattern space behind the fetches -/

/-- It is the text picked last, or the line. -/
theorem labelSpace_eq (line : Str) : labelSpace line = (Cmd.run fetchCmds line).getLastD line := by
  refine space_substs line fun c hc => ?_
  obtain ⟨k, -, rfl⟩ := List.mem_map.1 hc
  rfl

/-- Where the pattern space begins: no text picked begins further behind. -/
theorem labelSpace_spec (line : Str) : ∃ v, v ++ labelSpace line = line ∧
    (∀ k u t, u ++ t = line → Pick k u t → u.length ≤ v.length) ∧
    (v = [] ∨ ∃ k, Pick k v (labelSpace line)) := by
  have hp := prints line
  have hmem : ∀ t, t ∈ Cmd.run fetchCmds line ↔ ∃ k u, u ++ t = line ∧ Pick k u t := by
    intro t; rw [fetchCmds]; simpa using hp.mem t
  have hsort : (Cmd.run fetchCmds line).Pairwise fun a b => b.length < a.length := hp.sorted
  rw [labelSpace_eq]
  rcases List.eq_nil_or_concat' (Cmd.run fetchCmds line) with hnil | ⟨L, w, hL⟩
  · rw [hnil] at hmem ⊢
    refine ⟨[], rfl, fun k u t he hP => ?_, Or.inl rfl⟩
    exact absurd ((hmem t).2 ⟨k, u, he, hP⟩) List.not_mem_nil
  · rw [hL] at hmem hsort ⊢
    rw [List.getLastD_concat]
    obtain ⟨k, v, hv, hP⟩ := (hmem w).1 (by simp)
    refine ⟨v, hv, fun k' u t he hP' => ?_, Or.inr ⟨k, hP⟩⟩
    have hle : w.length ≤ t.length := by
      rcases List.mem_append.1 ((hmem t).2 ⟨k', u, he, hP'⟩) with ht | ht
      · exact ((List.pairwise_append.1 hsort).2.2 t ht w (by simp)).le
      · rw [List.mem_singleton.1 ht]
    have := congrArg List.length (he.trans hv.symm)
    simp only [List.length_append] at this
    omega

/-- A label word occurs, and not in front of a text that is picked. -/
def LabelShown (line : Str) : Prop :=
  ∃ u t, u ++ t = line ∧ (∃ n ∈ labelWords, n <+: t) ∧
    ∀ k u' t', u' ++ t' = line → Pick k u' t' → u'.length ≤ u.length

/-- **Where a label is printed.** -/
theorem labelShown_iff (line : Str) :
    LabelShown line ↔ ∃ n ∈ labelWords, n <:+: labelSpace line := by
  obtain ⟨v, hv, hlast, hpick⟩ := labelSpace_spec line
  constructor
  · rintro ⟨u, t, he, ⟨n, hn, ht⟩, hbehind⟩
    have hle : v.length ≤ u.length := by
      rcases hpick with rfl | ⟨k, hP⟩
      · exact Nat.zero_le _
      · exact hbehind k v _ hv hP
    obtain ⟨x, rfl⟩ := List.prefix_of_prefix_length_le ⟨_, hv⟩ ⟨_, he⟩ hle
    rw [← hv, List.append_assoc] at he
    rw [← List.append_cancel_left he]
    exact ⟨n, hn, ht.isInfix.trans (List.suffix_append ..).isInfix⟩
  · rintro ⟨n, hn, x, y, hxy⟩
    refine ⟨v ++ x, n ++ y, ?_, ⟨n, hn, List.prefix_append ..⟩, fun k u t he hP => ?_⟩
    · rw [← hv, ← hxy]; simp
    · have := hlast k u t he hP
      simp only [List.length_append]; omega

/-! ## On which lines the labels are printed -/

/-- The lines from which the labels are extracted. -/
structure LabelsExtractable (line : Str) : Prop where
  /-- No call stands behind a label. -/
  order : ¬ FetchBehindLabel line
  /-- If there is a label, a label word occurs behind all texts picked. -/
  shown : HasLabel line → LabelShown line
  /-- If there is none, no label word occurs there, as a part of an identifier. -/
  whole : ¬ HasLabel line → ¬ LabelShown line

/-- **Which labels are extracted faithfully.** -/
theorem labelsExtracted_iff (line : Str) (h1 : ¬ "#".toList <+: line)
    (h2 : ¬ "\x7d;".toList <+: line) : LabelsExtracted line ↔ LabelsExtractable line := by
  rw [LabelsExtracted, exists_case_iff h1 h2, ← labelShown_iff]
  constructor
  · rintro ⟨hiff, horder⟩
    refine ⟨fun hb => ?_, hiff.2, mt hiff.1⟩
    obtain ⟨l, f, hl, hf, hs⟩ := horder hb
    exact no_label_before_fetch h1 h2 hl hf hs
  · intro h
    exact ⟨⟨fun hs => by_contra fun hn => h.whole hn hs, h.shown⟩, fun hb => absurd hb h.order⟩

theorem FetchBehindLabel.calls {line : Str} (h : FetchBehindLabel line) : callTexts [] line ≠ [] := by
  obtain ⟨-, -, u, t, -, -, he, -, hc⟩ := h
  refine List.ne_nil_of_mem (mem_callTexts.2 ⟨u, he, ?_, hc⟩)
  rintro rfl
  simp [callAt, fetchNames] at hc

theorem labelsExtractable_case : LabelsExtractable "\tcase SIZE:".toList := by
  have hcalls : callTexts [] "\tcase SIZE:".toList = [] := by decide +kernel
  exact (labelsExtracted_iff _ (by decide) (by decide)).1
    ⟨by decide +kernel, fun h => absurd hcalls h.calls⟩

/-- The label in front of a call is lost, and a part of a name becomes a label. -/
theorem labels_not_extracted : ¬ LabelsExtracted "\tcase 1: return get_user(a, p);".toList ∧
    ¬ LabelsExtracted "\tget_user(lowercase, p);".toList := by
  refine ⟨fun h => ?_, fun h => ?_⟩
  · have := h.1.2 (by decide +kernel)
    revert this
    decide +kernel
  · have := h.1.1 (by decide +kernel)
    revert this
    decide +kernel

end DoubleFetch.Extract
