/-
  The extraction of skeleton lines (`scandir` in `text-filter/start.sh`).

  * `script` is the sed script run on every line of a source file; `transLines` are
    the lines it prints that the filters take for fetches;
  * `callTexts` are the calls of the four fetch functions in a line, in order: the
    rest of the line from the name on, without its leading underscores;
  * `Found`: what a substitution finds in the line.  The pattern space is the end of
    the line from the last text found, so the script prints what is found last by
    each substitution and has nothing of an earlier one behind it (`prints`);
  * `extractable_iff`: on which lines these are the calls.
-/
import DoubleFetch.Base.Sed
import DoubleFetch.TextFilter.Filter

namespace DoubleFetch.Extract

open Sed

/-! ## The script -/

/-- The script of `sed -n` in `scandir`. -/
def script : List Cmd :=
  [.delete [.one (.oneOf ['#'])],
   .delete (lits "\x7d;".toList ++ dotStar),
   .print (lits "asmlinkage".toList ++ dotStar),
   .print (lits "inline".toList ++ dotStar),
   .print (lits "const".toList ++ dotStar),
   .print (lits "unsigned".toList ++ dotStar),
   .print (lits "void".toList ++ dotStar),
   .print (lits "static".toList ++ dotStar),
   .print (lits "int".toList ++ dotStar),
   .print [.one (.oneOf "\x7b\x7d".toList)],
   .subst (dotStar ++ lits "__get_user".toList) "get_user".toList,
   .subst (dotStar ++ .one (.noneOf ['_']) :: lits "get_user".toList) "get_user".toList,
   .subst (dotStar ++ lits "copy_from_user".toList) "copy_from_user".toList,
   .subst (dotStar ++ lits "case".toList) "case".toList,
   .subst (dotStar ++ lits "default".toList) "default".toList]

/-- The tag the filters give to a printed line. -/
def tag (l : Str) : Kind := Filter.identify (l ++ "\n".toList)

/-- The printed lines that are tagged as fetches. -/
def transLines (line : Str) : List Str := (Cmd.run script line).filter (tag · = .trans)

/-! ## Calls -/

def isIdent (c : Char) : Bool := c.isAlphanum || c == '_'

/-- No identifier goes on behind `u`. -/
def boundary (u : Str) : Bool := !(u.getLast?.any isIdent)

/-- An opening parenthesis, possibly behind blanks. -/
def opens (t : Str) : Bool := (t.dropWhile fun c => c == ' ' || c == '\t').head? == some '('

def fetchNames : List Str := ["get_user".toList, "copy_from_user".toList]

/-- Behind `u`, the text `t` begins with a call of a fetch function; the name is a
    whole identifier, up to two leading underscores, which belong to `u`. -/
def callAt (u t : Str) : Bool :=
  fetchNames.any (fun n => n.isPrefixOf t && opens (t.drop n.length)) &&
    (boundary u || ("__".toList.isSuffixOf u && boundary (u.take (u.length - 2))))

/-- The calls in `t`, which stands behind `u`. -/
def callTexts (u : Str) : Str → List Str
  | [] => []
  | c :: t => if callAt u (c :: t) then (c :: t) :: callTexts (u ++ [c]) t
      else callTexts (u ++ [c]) t

theorem mem_callTexts {t : Str} : ∀ {u s : Str},
    t ∈ callTexts u s ↔ ∃ x, x ++ t = s ∧ t ≠ [] ∧ callAt (u ++ x) t = true
  | u, [] => by
    simp only [callTexts, List.not_mem_nil, false_iff]
    rintro ⟨x, hx, hne, -⟩
    exact hne (List.append_eq_nil_iff.1 hx).2
  | u, c :: s => by
    have ih := mem_callTexts (t := t) (u := u ++ [c]) (s := s)
    have htail : (∃ x, x ++ t = c :: s ∧ t ≠ [] ∧ callAt (u ++ x) t = true) ↔
        (t = c :: s ∧ callAt u t = true) ∨ t ∈ callTexts (u ++ [c]) s := by
      rw [ih]
      constructor
      · rintro ⟨x, hx, hne, hc⟩
        cases x with
        | nil => exact Or.inl ⟨hx, by simpa using hc⟩
        | cons d x =>
          simp only [List.cons_append, List.cons.injEq] at hx
          obtain ⟨rfl, hx⟩ := hx
          exact Or.inr ⟨x, hx, hne, by simpa using hc⟩
      · rintro (⟨rfl, hc⟩ | ⟨x, rfl, hne, hc⟩)
        · exact ⟨[], rfl, by simp, by simpa using hc⟩
        · exact ⟨c :: x, rfl, hne, by simpa using hc⟩
    rw [htail, callTexts]
    split_ifs with hc
    · rw [List.mem_cons]
      refine or_congr ⟨fun h => ⟨h, h ▸ hc⟩, And.left⟩ Iff.rfl
    · refine ⟨Or.inr, fun h => h.resolve_left ?_⟩
      rintro ⟨rfl, h⟩; exact hc h

theorem callTexts_pairwise : ∀ u s : Str,
    (callTexts u s).Pairwise fun a b => b.length < a.length
  | _, [] => List.Pairwise.nil
  | u, c :: s => by
    have ih := callTexts_pairwise (u ++ [c]) s
    rw [callTexts]
    split_ifs
    · refine List.pairwise_cons.2 ⟨fun t ht => ?_, ih⟩
      obtain ⟨x, rfl, -, -⟩ := mem_callTexts.1 ht
      simp only [List.length_cons, List.length_append]; omega
    · exact ih

/-! ## What the substitutions find -/

/-- The substitutions for fetches, in the order of the script. -/
inductive Subst where
  | uuGetUser | getUser | copyFromUser
  deriving DecidableEq

namespace Subst

def rank : Subst → ℕ
  | uuGetUser => 0
  | getUser => 1
  | copyFromUser => 2

/-- The text it leaves. -/
def name : Subst → Str
  | uuGetUser | getUser => "get_user".toList
  | copyFromUser => "copy_from_user".toList

/-- The pattern for what it removes before the name. -/
def headPattern : Subst → Pattern
  | uuGetUser => lits "__".toList
  | getUser => [.one (.noneOf ['_'])]
  | copyFromUser => []

/-- A text that `headPattern` matches. -/
def Head : Subst → Str → Prop
  | uuGetUser, h => h = "__".toList
  | getUser, h => ∃ c, h = [c] ∧ c ≠ '_'
  | copyFromUser, h => h = []

def pattern (k : Subst) : Pattern := k.headPattern ++ lits k.name

def cmd (k : Subst) : Cmd := .subst (dotStar ++ k.pattern) k.name

end Subst

/-- Behind `u`, the text `t` is what the substitution `k` leaves. -/
def Found (k : Subst) (u t : Str) : Prop := ∃ x h, u = x ++ h ∧ k.Head h ∧ k.name <+: t

/-- Nothing that a substitution up to `k` finds begins in `t` behind its first
    character. -/
def Clear (k : Subst) (u t : Str) : Prop :=
  ∀ j u' t', j.rank ≤ k.rank → u' ++ t' = u ++ t → u.length < u'.length → ¬ Found j u' t'

theorem matchLen_pattern (k : Subst) (s : Str) :
    (∃ h t, s = h ++ t ∧ k.Head h ∧ k.name <+: t ∧
      matchLen k.pattern s = some (h.length + k.name.length)) ∨
    (∀ h t, s = h ++ t → k.Head h → ¬ k.name <+: t) ∧ matchLen k.pattern s = none := by
  cases k with
  | uuGetUser =>
    rw [Subst.pattern, Subst.headPattern, matchLen_lits_append]
    split_ifs with h
    · obtain ⟨t, rfl⟩ := h
      rw [List.drop_left, matchLen_lits]
      split_ifs with ht
      · exact Or.inl ⟨_, t, rfl, rfl, ht, by simp [Nat.add_comm]⟩
      · refine Or.inr ⟨?_, rfl⟩
        rintro h' t' he rfl
        rwa [← List.append_cancel_left he]
    · refine Or.inr ⟨?_, rfl⟩
      rintro h' t' rfl rfl
      exact absurd (List.prefix_append ..) h
  | getUser =>
    cases s with
    | nil =>
      refine Or.inr ⟨?_, rfl⟩
      rintro h t he ⟨c, rfl, -⟩; simp at he
    | cons c t =>
      by_cases hc : c = '_'
      · refine Or.inr ⟨?_, by simp [Subst.pattern, Subst.headPattern, matchLen, Atom.test, hc]⟩
        rintro h t' he ⟨d, rfl, hd⟩
        simp only [List.cons_append, List.cons.injEq] at he
        exact absurd (he.1 ▸ hc) hd
      · have hstep : matchLen Subst.getUser.pattern (c :: t) =
            (matchLen (lits Subst.getUser.name) t).map (· + 1) := by
          simp [Subst.pattern, Subst.headPattern, matchLen, Atom.test, hc]
        rw [hstep, matchLen_lits]
        split_ifs with ht
        · exact Or.inl ⟨[c], t, rfl, ⟨c, rfl, hc⟩, ht, by simp [Nat.add_comm]⟩
        · refine Or.inr ⟨?_, rfl⟩
          rintro h t' he ⟨d, rfl, -⟩
          simp only [List.cons_append, List.cons.injEq] at he
          rw [← show t = t' from he.2]; exact ht
  | copyFromUser =>
    rw [Subst.pattern, Subst.headPattern, List.nil_append, matchLen_lits]
    split_ifs with ht
    · exact Or.inl ⟨[], s, rfl, rfl, ht, by simp⟩
    · refine Or.inr ⟨?_, rfl⟩
      rintro h t rfl rfl; exact ht

/-- **A substitution leaves what it finds last.** -/
theorem run_subst (k : Subst) (cs : List Cmd) (w : Str) :
    (∃ u t, u ++ t = w ∧ Found k u t ∧
      (∀ u' t', u' ++ t' = w → u.length < u'.length → ¬ Found k u' t') ∧
      Cmd.run (k.cmd :: cs) w = t :: Cmd.run cs t) ∨
    (∀ u t, u ++ t = w → ¬ Found k u t) ∧ Cmd.run (k.cmd :: cs) w = Cmd.run cs w := by
  rcases matchLen_dotStar k.pattern w with ⟨x, s, m, rfl, ⟨hm, hlast⟩, hlen⟩ | ⟨hnone, hlen⟩
  · rcases matchLen_pattern k s with ⟨h, t, rfl, hh, ⟨r, rfl⟩, hm'⟩ | ⟨-, hm'⟩
    swap; · rw [hm'] at hm; cases hm
    obtain rfl := Option.some.inj (hm'.symm.trans hm)
    refine Or.inl ⟨x ++ h, k.name ++ r, by simp, ⟨x, h, rfl, hh, List.prefix_append ..⟩, ?_, ?_⟩
    · rintro u' t' he hl ⟨x', h', rfl, hh', ht'⟩
      have hl' : h'.length = h.length := by
        cases k
        · rw [show h = _ from hh, show h' = _ from hh']
        · obtain ⟨c, rfl, -⟩ := hh; obtain ⟨d, rfl, -⟩ := hh'; rfl
        · rw [show h = _ from hh, show h' = _ from hh']
      simp only [List.length_append] at hl
      have hno := hlast x' (h' ++ t') (by simpa using he) (by omega)
      rcases matchLen_pattern k (h' ++ t') with ⟨_, _, -, -, -, hs⟩ | ⟨hs, -⟩
      · rw [hno] at hs; cases hs
      · exact hs h' t' rfl hh' ht'
    · have hdrop : (x ++ (h ++ (k.name ++ r))).drop (x.length + (h.length + k.name.length)) = r := by
        rw [← List.append_assoc, ← List.append_assoc]
        exact List.drop_left' (by simp)
      simp only [Subst.cmd, Cmd.run, hlen, hdrop]
  · refine Or.inr ⟨?_, by simp only [Subst.cmd, Cmd.run, hlen]⟩
    rintro u t rfl ⟨x, h, rfl, hh, ht⟩
    have hno := hnone x (h ++ t) (by simp)
    rcases matchLen_pattern k (h ++ t) with ⟨_, _, -, -, -, hs⟩ | ⟨hs, -⟩
    · rw [hno] at hs; cases hs
    · exact hs h t rfl hh ht

/-! ## Tags of printed lines -/

theorem identify_eq_trans {l : Str} : Filter.identify l = .trans ↔
    "get_user".toList <+: l ∨ "copy_from_user".toList <+: l := by
  simp only [Filter.identify, find_eq_zero]
  split_ifs <;> simp_all

/-- The newline does not matter for a word. -/
theorem word_newline {w l : Str} (hw : '\n' ∉ w) : w <+: l ++ "\n".toList ↔ w <+: l := by
  refine ⟨fun h => ?_, fun h => h.trans (List.prefix_append ..)⟩
  rcases List.prefix_concat_iff.1 (show w <+: l ++ ['\n'] from h) with rfl | h
  · exact absurd (by simp) hw
  · exact h

theorem tag_eq_trans {l : Str} :
    tag l = .trans ↔ "get_user".toList <+: l ∨ "copy_from_user".toList <+: l := by
  rw [tag, identify_eq_trans, word_newline (by decide), word_newline (by decide)]

theorem tag_trans_of_name {k : Subst} {t : Str} (h : k.name <+: t) : tag t = .trans := by
  rw [tag_eq_trans]
  cases k
  · exact Or.inl h
  · exact Or.inl h
  · exact Or.inr h

section
variable {w : Str} (hg : ¬ "get_user".toList <+: w ∧ ¬ w <+: "get_user".toList)
  (hc : ¬ "copy_from_user".toList <+: w ∧ ¬ w <+: "copy_from_user".toList)
include hg hc

/-- Lines that begin otherwise are no fetches. -/
theorem tag_ne_trans {l : Str} (hw : w <+: l) : tag l ≠ .trans := by
  rw [ne_eq, tag_eq_trans]
  rintro (h | h)
  · exact (List.prefix_or_prefix_of_prefix hw h).elim hg.2 hg.1
  · exact (List.prefix_or_prefix_of_prefix hw h).elim hc.2 hc.1

theorem filter_print (cs : List Cmd) (s : Str) :
    (Cmd.run (.print (lits w ++ dotStar) :: cs) s).filter (tag · = .trans) =
      (Cmd.run cs s).filter (tag · = .trans) := by
  rw [Cmd.run]
  split_ifs with h
  · exact List.filter_cons_of_neg (by simpa using tag_ne_trans hg hc ((matchLen_word w s).1 h))
  · rfl

theorem filter_subst {cs : List Cmd} (hcs : ∀ s, (Cmd.run cs s).filter (tag · = .trans) = [])
    (s : Str) : (Cmd.run (.subst (dotStar ++ lits w) w :: cs) s).filter (tag · = .trans) = [] := by
  rw [Cmd.run]
  split
  · rw [List.filter_cons_of_neg, hcs]
    simpa using tag_ne_trans hg hc (List.prefix_append w _)
  · exact hcs s

end

/-- Behind the substitutions for fetches, no more fetches are printed. -/
theorem filter_cmds {cs : List Cmd} (hcs : ∀ s, (Cmd.run cs s).filter (tag · = .trans) = []) :
    ∀ (ks : List Subst) (s : Str), (Cmd.run (ks.map Subst.cmd ++ cs) s).filter (tag · = .trans) =
      Cmd.run (ks.map Subst.cmd) s
  | [], s => hcs s
  | k :: ks, s => by
    have ih := filter_cmds hcs ks
    simp only [List.map_cons, List.cons_append, Subst.cmd, Cmd.run]
    split
    · rw [List.filter_cons_of_pos (by simpa using tag_trans_of_name (List.prefix_append ..))]
      exact congrArg _ (ih _)
    · exact ih s

theorem matchLen_hash {line : Str} (h : ¬ "#".toList <+: line) :
    matchLen [.one (.oneOf ['#'])] line = none := by
  cases line with
  | nil => rfl
  | cons c l =>
    have : c ≠ '#' := by rintro rfl; exact h (by simp)
    simp [matchLen, Atom.test, this]

theorem matchLen_close {line : Str} (h : ¬ "\x7d;".toList <+: line) :
    matchLen (lits "\x7d;".toList ++ dotStar) line = none :=
  Option.not_isSome_iff_eq_none.1 (mt (matchLen_word _ _).1 h)

theorem brace_of_matchLen {s : Str}
    (h : (matchLen [.one (.oneOf "\x7b\x7d".toList)] s).isSome = true) :
    ['\x7b'] <+: s ∨ ['\x7d'] <+: s := by
  cases s with
  | nil => simp [matchLen] at h
  | cons c s =>
    have hc : c = '\x7b' ∨ c = '\x7d' := by
      by_contra hc
      simp_all [matchLen, Atom.test]
    rcases hc with rfl | rfl
    · exact Or.inl (List.prefix_append ['\x7b'] s)
    · exact Or.inr (List.prefix_append ['\x7d'] s)

/-- The substitutions for fetches print the fetches. -/
theorem transLines_eq {line : Str} (h1 : ¬ "#".toList <+: line) (h2 : ¬ "\x7d;".toList <+: line) :
    transLines line =
      Cmd.run ([Subst.uuGetUser, .getUser, .copyFromUser].map Subst.cmd) line := by
  have hbrace : ∀ cs, (Cmd.run (.print [.one (.oneOf "\x7b\x7d".toList)] :: cs) line).filter
      (tag · = .trans) = (Cmd.run cs line).filter (tag · = .trans) := by
    intro cs
    rw [Cmd.run]
    split_ifs with h
    · refine List.filter_cons_of_neg ?_
      rcases brace_of_matchLen h with h | h
      · simpa using tag_ne_trans (by decide) (by decide) h
      · simpa using tag_ne_trans (by decide) (by decide) h
    · rfl
  rw [transLines, script, Cmd.run, matchLen_hash h1, Cmd.run, matchLen_close h2]
  simp only [Option.isSome_none, Bool.false_eq_true, if_false]
  iterate 7 rw [filter_print (by decide) (by decide)]
  rw [hbrace]
  have hlabels : ∀ s, (Cmd.run [.subst (dotStar ++ lits "case".toList) "case".toList,
      .subst (dotStar ++ lits "default".toList) "default".toList] s).filter (tag · = .trans) = [] :=
    filter_subst (by decide) (by decide) (filter_subst (by decide) (by decide) fun s => rfl)
  exact filter_cmds hlabels [Subst.uuGetUser, .getUser, .copyFromUser] line

/-! ## What the script prints -/

/-- What `k` finds, and prints. -/
def Pick (k : Subst) (u t : Str) : Prop := Found k u t ∧ Clear k u t

theorem found_name {j k : Subst} {u u' t : Str} (hj : Found j u t) (hk : Found k u' t) :
    j.name = k.name := by
  obtain ⟨-, -, -, -, hj⟩ := hj
  obtain ⟨-, -, -, -, hk⟩ := hk
  have h := List.prefix_or_prefix_of_prefix hj hk
  revert h; cases j <;> cases k <;> decide

theorem Found.uu {u t : Str} (h : Found .uuGetUser u t) : ∃ x, u = x ++ ['_', '_'] := by
  obtain ⟨x, h, rfl, rfl, -⟩ := h; exact ⟨x, rfl⟩

theorem Found.gu {u t : Str} (h : Found .getUser u t) : ∃ x c, u = x ++ [c] ∧ c ≠ '_' := by
  obtain ⟨x, h, rfl, ⟨c, rfl, hc⟩, -⟩ := h; exact ⟨x, c, rfl, hc⟩

/-- A text is found by one substitution. -/
theorem found_unique {j k : Subst} {u t : Str} (hj : Found j u t) (hk : Found k u t) : j = k := by
  have hdis : Found .uuGetUser u t → ¬ Found .getUser u t := by
    intro h1 h2
    obtain ⟨x, rfl⟩ := h1.uu
    obtain ⟨y, c, hy, hc⟩ := h2.gu
    rw [show x ++ ['_', '_'] = (x ++ ['_']) ++ ['_'] by simp] at hy
    exact hc (List.singleton_injective (List.append_inj' hy rfl).2).symm
  have hname := found_name hj hk
  cases j <;> cases k <;> first
    | rfl
    | exact absurd hk (hdis hj)
    | exact absurd hj (hdis hk)
    | exact absurd hname (by decide)

/-- The pattern space is `w`, the end of the line behind `v`; the substitutions before
    the `n`-th have run, and find nothing any more in the texts behind the first `m`
    characters. -/
structure Stage (line : Str) (n m : ℕ) (v w : Str) : Prop where
  split : v ++ w = line
  start : (m = 0 ∧ v = []) ∨ (m = v.length + 1 ∧ ∃ j : Subst, j.rank < n ∧ Found j v w)
  clear : ∀ (j : Subst) u t, j.rank < n → u ++ t = line → m ≤ u.length → ¬ Found j u t

/-- What is found in the pattern space is what is found in the line behind the first
    `m` characters. -/
theorem Stage.found {line v w : Str} {k : Subst} {m : ℕ} (h : Stage line k.rank m v w) {u t : Str} :
    (u ++ t = line ∧ m ≤ u.length ∧ Found k u t) ↔ ∃ u', u = v ++ u' ∧ u' ++ t = w ∧ Found k u' t := by
  obtain ⟨rfl, hst, -⟩ := h
  constructor
  · rintro ⟨he, hm, x, h, rfl, hh, ht⟩
    have hv : v.length ≤ (x ++ h).length := by
      rcases hst with ⟨-, rfl⟩ | ⟨rfl, -⟩
      · exact Nat.zero_le _
      · exact (Nat.le_succ _).trans hm
    obtain ⟨u', hu'⟩ := List.prefix_of_prefix_length_le (List.prefix_append v w) ⟨t, he⟩ hv
    have hw : u' ++ t = w := by
      rw [← hu', List.append_assoc] at he; exact List.append_cancel_left he
    -- the head lies in the pattern space
    have hlen : h.length ≤ u'.length := by
      rcases hst with ⟨-, rfl⟩ | ⟨rfl, j, hj, -⟩
      · rw [show u' = x ++ h from hu']; simp
      · have hu1 : 1 ≤ u'.length := by
          have := congrArg List.length hu'
          simp only [List.length_append] at this hm; omega
        cases k
        · exact absurd hj (Nat.not_lt_zero _)
        · obtain ⟨c, rfl, -⟩ := hh; exact hu1
        · rw [show h = [] from hh]; exact Nat.zero_le _
    obtain ⟨y, rfl⟩ := List.suffix_of_suffix_length_le (List.suffix_append x h)
      (hu' ▸ List.suffix_append v u') hlen
    exact ⟨y ++ h, hu'.symm, hw, y, h, rfl, hh, ht⟩
  · rintro ⟨u', rfl, rfl, hf⟩
    refine ⟨by simp, ?_, ?_⟩
    · rcases hst with ⟨rfl, -⟩ | ⟨rfl, j, hj, hjf⟩
      · exact Nat.zero_le _
      · -- something else begins the pattern space
        have hne : u' ≠ [] := by
          rintro rfl
          have hname := found_name hjf hf
          cases k
          · exact absurd hj (Nat.not_lt_zero _)
          · obtain ⟨x, c, hx, -⟩ := hf.gu; simp at hx
          · cases j
            · exact absurd hname (by decide)
            · exact absurd hname (by decide)
            · exact absurd hj (lt_irrefl _)
        have := List.length_pos_iff.2 hne
        simp only [List.length_append]; omega
    · obtain ⟨x, h, rfl, hh, ht⟩ := hf
      exact ⟨v ++ x, h, by simp, hh, ht⟩

theorem rank_injective {j k : Subst} (h : j.rank = k.rank) : j = k := by
  revert h; cases j <;> cases k <;> simp [Subst.rank]

/-- One substitution picks one text. -/
theorem pick_unique {k : Subst} {u t u₂ t₂ : Str} (he : u ++ t = u₂ ++ t₂) (h : Pick k u t)
    (h₂ : Pick k u₂ t₂) : t = t₂ := by
  rcases lt_trichotomy u.length u₂.length with hl | hl | hl
  · exact absurd h₂.1 (h.2 _ u₂ t₂ le_rfl he.symm hl)
  · exact (List.append_inj he hl).2
  · exact absurd h.1 (h₂.2 _ u t le_rfl he hl)

section
variable {line v w : Str} {k : Subst} {m : ℕ}

/-- What `k` finds last in the pattern space, it picks; the next stage begins there. -/
theorem Stage.pick (h : Stage line k.rank m v w) {u t : Str} (hw : u ++ t = w) (hf : Found k u t)
    (hlast : ∀ u' t', u' ++ t' = w → u.length < u'.length → ¬ Found k u' t') :
    v ++ u ++ t = line ∧ m ≤ (v ++ u).length ∧ Pick k (v ++ u) t ∧
      Stage line (k.rank + 1) ((v ++ u).length + 1) (v ++ u) t := by
  obtain ⟨hsplit, hm, hF⟩ := h.found.2 ⟨u, rfl, hw, hf⟩
  have hclear : Clear k (v ++ u) t := by
    intro j u₂ t₂ hj he hl hF₂
    rw [hsplit] at he
    rcases Nat.lt_or_eq_of_le hj with hj | hj
    · exact h.clear j u₂ t₂ hj he (hm.trans hl.le) hF₂
    · obtain rfl := rank_injective hj
      obtain ⟨u₂', rfl, hw₂, hf₂⟩ := h.found.1 ⟨he, hm.trans hl.le, hF₂⟩
      exact hlast u₂' t₂ hw₂ (by simpa using hl) hf₂
  exact ⟨hsplit, hm, ⟨hF, hclear⟩, hsplit, Or.inr ⟨rfl, k, Nat.lt_succ_self _, hF⟩,
    fun j u₂ t₂ hj he hl => hclear j u₂ t₂ (Nat.le_of_lt_succ hj) (he.trans hsplit.symm) hl⟩

/-- If `k` finds nothing in the pattern space, it picks nothing, and the stage goes on. -/
theorem Stage.skip (h : Stage line k.rank m v w) (hnone : ∀ u t, u ++ t = w → ¬ Found k u t) :
    (∀ u t, u ++ t = line → ¬ Pick k u t) ∧ Stage line (k.rank + 1) m v w := by
  have hno : ∀ u t, u ++ t = line → m ≤ u.length → ¬ Found k u t := by
    intro u t he hm hF
    obtain ⟨u', -, hw, hf⟩ := h.found.1 ⟨he, hm, hF⟩
    exact hnone u' t hw hf
  constructor
  · intro u t he hP
    -- what it finds lies before the text that an earlier one has left
    rcases h.start with ⟨rfl, -⟩ | ⟨rfl, j, hj, hF⟩
    · exact hno u t he (Nat.zero_le _) hP.1
    · rcases lt_trichotomy u.length v.length with hl | hl | hl
      · exact hP.2 j v w hj.le (h.split.trans he.symm) hl hF
      · obtain ⟨rfl, rfl⟩ := List.append_inj (he.trans h.split.symm) hl
        exact absurd (found_unique hF hP.1 ▸ hj) (lt_irrefl _)
      · exact hno u t he hl hP.1
  · have hstart : (m = 0 ∧ v = []) ∨
        (m = v.length + 1 ∧ ∃ j : Subst, j.rank < k.rank + 1 ∧ Found j v w) := by
      refine h.start.imp_right ?_
      rintro ⟨hm, j, hj, hF⟩
      exact ⟨hm, j, Nat.lt_succ_of_lt hj, hF⟩
    refine ⟨h.split, hstart, fun j u t hj he hm hF => ?_⟩
    rcases Nat.lt_or_eq_of_le (Nat.le_of_lt_succ hj) with hj | hj
    · exact h.clear j u t hj he hm hF
    · obtain rfl := rank_injective hj
      exact hno u t he hm hF

end

/-- What a run from a stage prints: what the substitutions from the `n`-th on pick, from
    left to right. -/
structure Prints (line : Str) (n m : ℕ) (L : List Str) : Prop where
  mem : ∀ t, t ∈ L ↔ ∃ (k : Subst) (u : Str), u ++ t = line ∧ n ≤ k.rank ∧ Pick k u t
  sorted : L.Pairwise fun a b => b.length < a.length
  behind : ∀ t ∈ L, t.length + m ≤ line.length

/-- **One substitution** prints what it picks, in front of what the later ones do. -/
theorem Prints.step {line : Str} {k : Subst} {cs : List Cmd}
    (ih : ∀ m v w, Stage line (k.rank + 1) m v w → Prints line (k.rank + 1) m (Cmd.run cs w))
    (m : ℕ) (v w : Str) (h : Stage line k.rank m v w) :
    Prints line k.rank m (Cmd.run (k.cmd :: cs) w) := by
  rcases run_subst k cs w with ⟨u, t, hw, hf, hlast, hrun⟩ | ⟨hnone, hrun⟩
  · obtain ⟨hsplit, hm, hpick, hnext⟩ := h.pick hw hf hlast
    have hlen : (v ++ u).length + t.length = line.length := by
      rw [← List.length_append, hsplit]
    have ih := ih _ (v ++ u) t hnext
    rw [hrun]
    refine ⟨fun t₂ => ?_, List.pairwise_cons.2 ⟨fun b hb => ?_, ih.sorted⟩, fun b hb => ?_⟩
    · rw [List.mem_cons, ih.mem]
      constructor
      · rintro (rfl | ⟨k₂, u₂, he, hk, hP⟩)
        · exact ⟨k, v ++ u, hsplit, le_rfl, hpick⟩
        · exact ⟨k₂, u₂, he, Nat.le_of_succ_le hk, hP⟩
      · rintro ⟨k₂, u₂, he, hk, hP⟩
        rcases Nat.lt_or_eq_of_le hk with hk | hk
        · exact Or.inr ⟨k₂, u₂, he, hk, hP⟩
        · obtain rfl := rank_injective hk
          exact Or.inl (pick_unique (he.trans hsplit.symm) hP hpick)
    · have := ih.behind b hb; omega
    · rcases List.mem_cons.1 hb with rfl | hb
      · omega
      · have := ih.behind b hb; omega
  · obtain ⟨hno, hnext⟩ := h.skip hnone
    have ih := ih m v w hnext
    rw [hrun]
    refine ⟨fun t => ?_, ih.sorted, ih.behind⟩
    rw [ih.mem]
    constructor
    · rintro ⟨k₂, u, he, hk, hP⟩
      exact ⟨k₂, u, he, Nat.le_of_succ_le hk, hP⟩
    · rintro ⟨k₂, u, he, hk, hP⟩
      rcases Nat.lt_or_eq_of_le hk with hk | hk
      · exact ⟨k₂, u, he, hk, hP⟩
      · obtain rfl := rank_injective hk
        exact absurd hP (hno u t he)

/-- **The lines printed for a source line** are what the substitutions pick. -/
theorem prints (line : Str) : Prints line 0 0
    (Cmd.run ([Subst.uuGetUser, .getUser, .copyFromUser].map Subst.cmd) line) := by
  have h3 : ∀ m v w, Stage line 3 m v w → Prints line 3 m (Cmd.run [] w) := by
    intro m v w _
    refine ⟨fun t => ⟨fun h => by simp [Cmd.run] at h, ?_⟩, List.Pairwise.nil, by simp [Cmd.run]⟩
    rintro ⟨k, -, -, hk, -⟩
    cases k <;> simp [Subst.rank] at hk
  have h2 := Prints.step (k := .copyFromUser) h3
  have h1 := Prints.step (k := .getUser) h2
  exact Prints.step (k := .uuGetUser) h1 0 [] line
    ⟨rfl, Or.inl ⟨rfl, rfl⟩, fun j _ _ hj => absurd hj (Nat.not_lt_zero _)⟩

/-! ## On which lines the calls are printed -/

theorem callAt_iff {u t : Str} : callAt u t = true ↔
    (∃ n ∈ fetchNames, n <+: t ∧ opens (t.drop n.length) = true) ∧
      (boundary u = true ∨ "__".toList <:+ u ∧ boundary (u.take (u.length - 2)) = true) := by
  simp [callAt]

theorem boundary_concat {u : Str} {c : Char} : boundary (u ++ [c]) = true ↔ isIdent c = false := by
  simp [boundary]

/-- Every call is found by a substitution, except one of `get_user` that begins the
    line. -/
theorem found_of_callAt {u t : Str} (h : callAt u t = true) :
    (∃ k, Found k u t) ∨ (u = [] ∧ "get_user".toList <+: t) := by
  obtain ⟨⟨n, hn, ht, -⟩, hb⟩ := callAt_iff.1 h
  have hn : n = "get_user".toList ∨ n = "copy_from_user".toList := by
    simpa [fetchNames] using hn
  rcases hn with rfl | rfl
  · rcases hb with hb | ⟨⟨x, hx⟩, -⟩
    · rcases List.eq_nil_or_concat' u with rfl | ⟨x, c, rfl⟩
      · exact Or.inr ⟨rfl, ht⟩
      · refine Or.inl ⟨.getUser, x, [c], rfl, ⟨c, rfl, ?_⟩, ht⟩
        rintro rfl
        exact absurd (boundary_concat.1 hb) (by decide)
    · exact Or.inl ⟨.uuGetUser, x, _, hx.symm, rfl, ht⟩
  · exact Or.inl ⟨.copyFromUser, u, [], by simp, rfl, ht⟩

/-- The lines from which every fetch is extracted. -/
structure Extractable (line : Str) : Prop where
  /-- The line does not begin with a call of `get_user`. -/
  column : callAt [] line = true → ¬ "get_user".toList <+: line
  /-- Behind a call there is nothing that its own substitution or an earlier one
      finds. -/
  clear : ∀ k u t, u ++ t = line → callAt u t = true → Found k u t → Clear k u t
  /-- What a substitution finds is a call, if there is nothing behind it that this or an
      earlier one finds. -/
  call : ∀ k u t, u ++ t = line → Found k u t → Clear k u t → callAt u t = true

/-- Two lists of texts of decreasing length with the same elements. -/
theorem eq_of_mem_iff {L M : List Str} (hL : L.Pairwise fun a b => b.length < a.length)
    (hM : M.Pairwise fun a b => b.length < a.length) (h : ∀ t, t ∈ L ↔ t ∈ M) : L = M := by
  have hnd : ∀ {L : List Str}, L.Pairwise (fun a b => b.length < a.length) → L.Nodup :=
    fun h => h.imp fun hab he => absurd (he ▸ hab) (lt_irrefl _)
  refine ((List.perm_ext_iff_of_nodup (hnd hL) (hnd hM)).2 h).eq_of_pairwise ?_ hL hM
  intro a b _ _ hab hba; omega

/-- **Which lines are extracted faithfully.** -/
theorem extractable_iff (line : Str) (h1 : ¬ "#".toList <+: line) (h2 : ¬ "\x7d;".toList <+: line) :
    transLines line = callTexts [] line ↔ Extractable line := by
  have hp := prints line
  rw [← transLines_eq h1 h2] at hp
  have hmem : ∀ t, t ∈ transLines line ↔ ∃ k u, u ++ t = line ∧ Pick k u t := by
    intro t; simpa using hp.mem t
  have hcall : ∀ t, t ∈ callTexts [] line ↔ ∃ u, u ++ t = line ∧ callAt u t = true := by
    intro t
    rw [mem_callTexts]
    refine exists_congr fun u => and_congr Iff.rfl ⟨And.right, fun h => ⟨?_, h⟩⟩
    rintro rfl
    exact absurd h (by simp [callAt, fetchNames])
  constructor
  · intro heq
    have hiff : ∀ u t, u ++ t = line → (callAt u t = true ↔ ∃ k, Pick k u t) := by
      intro u t he
      have h : (∃ k u, u ++ t = line ∧ Pick k u t) ↔ ∃ u, u ++ t = line ∧ callAt u t = true := by
        rw [← hmem, heq, hcall]
      have hu : ∀ {x}, x ++ t = line → x = u := fun hx => List.append_cancel_right (hx.trans he.symm)
      constructor
      · intro hc
        obtain ⟨k, x, hx, hP⟩ := h.2 ⟨u, he, hc⟩
        exact ⟨k, hu hx ▸ hP⟩
      · rintro ⟨k, hP⟩
        obtain ⟨x, hx, hc⟩ := h.1 ⟨k, u, he, hP⟩
        exact hu hx ▸ hc
    refine ⟨fun hc hg => ?_, fun k u t he hc hF => ?_, fun k u t he hF hC => ?_⟩
    · obtain ⟨k, hF, -⟩ := (hiff [] line rfl).1 hc
      cases k
      · obtain ⟨x, hx⟩ := hF.uu; simp at hx
      · obtain ⟨x, c, hx, -⟩ := hF.gu; simp at hx
      · obtain ⟨-, -, -, -, hF⟩ := hF
        exact absurd (List.prefix_or_prefix_of_prefix hg hF) (by decide)
    · obtain ⟨j, hF', hC⟩ := (hiff u t he).1 hc
      exact found_unique hF' hF ▸ hC
    · exact (hiff u t he).2 ⟨k, hF, hC⟩
  · intro h
    refine eq_of_mem_iff hp.sorted (callTexts_pairwise [] line) fun t => ?_
    rw [hmem, hcall]
    constructor
    · rintro ⟨k, u, he, hF, hC⟩
      exact ⟨u, he, h.call k u t he hF hC⟩
    · rintro ⟨u, he, hc⟩
      rcases found_of_callAt hc with ⟨k, hF⟩ | ⟨rfl, hg⟩
      · exact ⟨k, u, he, hF, h.clear k u t he hc hF⟩
      · exact absurd (he ▸ hg) (h.column (he ▸ hc))

theorem extractable_declaration : Extractable "\tint err = __get_user(a, p);".toList :=
  (extractable_iff _ (by decide) (by decide)).1 (by decide +kernel)

/-- Of two calls in one line the first is lost, and so is a call that begins its line. -/
theorem twoCalls_lost :
    transLines "\tif (get_user(a, p) || get_user(b, q))".toList ≠
        callTexts [] "\tif (get_user(a, p) || get_user(b, q))".toList ∧
      transLines "get_user(a, p);".toList ≠ callTexts [] "get_user(a, p);".toList := by
  decide +kernel

end DoubleFetch.Extract
