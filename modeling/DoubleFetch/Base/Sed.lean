/-
  The fragment of `sed -n` used to cut lines: commands `d`, `p` and `s/…/…/p` with
  patterns anchored at the beginning of the pattern space.

  * `matchLen` is the greedy match of a pattern: a starred element takes as much as
    lets the rest match;
  * `Cmd.run` runs a script on one line; `s` replaces in the pattern space, which
    the later commands read;
  * `LastAt`, `matchLen_dotStar`: a pattern behind `.*` matches at its last
    occurrence;
  * `Cmd.space` is the pattern space a script leaves: `run_append` cuts a script in
    two, and after `s` commands only, it is the last line printed (`space_substs`);
  * `Cmd.runFile` is the output for a file: the lines printed for its lines
    (`lines_runFile`).
-/
import Mathlib.Data.List.Basic
import Mathlib.Tactic.Common
import DoubleFetch.Base.Text

namespace DoubleFetch.Sed

/-- A pattern for one character: the character itself, `.`, `[…]` or `[^…]`. -/
inductive Atom where
  | lit (c : Char)
  | any
  | oneOf (cs : List Char)
  | noneOf (cs : List Char)

def Atom.test : Atom → Char → Bool
  | .lit c, d => c == d
  | .any, _ => true
  | .oneOf cs, d => cs.contains d
  | .noneOf cs, d => !cs.contains d

/-- An element of a pattern. -/
inductive Elem where
  | one (a : Atom)
  | star (a : Atom)

/-- A pattern, anchored at the beginning. -/
abbrev Pattern := List Elem

def lits (s : Str) : Pattern := s.map fun c => .one (.lit c)

def dotStar : Pattern := [.star .any]

/-- The greedy match of `a*` and the rest `k` of a pattern. -/
def starLen (a : Atom) (k : Str → Option ℕ) : Str → Option ℕ
  | [] => k []
  | c :: s =>
    if a.test c then
      match starLen a k s with
      | some n => some (n + 1)
      | none => k (c :: s)
    else k (c :: s)

/-- The length of the match of a pattern, if it matches. -/
def matchLen : Pattern → Str → Option ℕ
  | [], _ => some 0
  | .one _ :: _, [] => none
  | .one a :: p, c :: s => if a.test c then (matchLen p s).map (· + 1) else none
  | .star a :: p, s => starLen a (matchLen p) s

/-- The commands `/^p/d`, `/^p/p` and `s/^p/r/p`. -/
inductive Cmd where
  | delete (p : Pattern)
  | print (p : Pattern)
  | subst (p : Pattern) (r : Str)

/-- The lines a script prints, run on a pattern space. -/
def Cmd.run : List Cmd → Str → List Str
  | [], _ => []
  | .delete p :: cs, s => if (matchLen p s).isSome then [] else run cs s
  | .print p :: cs, s => if (matchLen p s).isSome then s :: run cs s else run cs s
  | .subst p r :: cs, s =>
    match matchLen p s with
    | some n => (r ++ s.drop n) :: run cs (r ++ s.drop n)
    | none => run cs s

/-! ## Matching -/

theorem matchLen_lits_append (w : Str) (p : Pattern) (s : Str) :
    matchLen (lits w ++ p) s =
      if w <+: s then (matchLen p (s.drop w.length)).map (· + w.length) else none := by
  induction w generalizing s with
  | nil => simp [lits]
  | cons c w ih =>
    cases s with
    | nil => simp [lits, matchLen]
    | cons d s =>
      have ih := ih s
      simp only [lits] at ih
      by_cases hcd : c = d
      · subst hcd
        simp only [lits, List.map_cons, List.cons_append, matchLen, Atom.test, beq_self_eq_true,
          if_true, ih, List.cons_prefix_cons, true_and, List.length_cons, List.drop_succ_cons]
        split_ifs <;> simp [Function.comp_def, Nat.add_assoc]
      · simp [lits, matchLen, Atom.test, hcd]

theorem matchLen_lits (w s : Str) : matchLen (lits w) s = if w <+: s then some w.length else none := by
  have := matchLen_lits_append w [] s
  simpa [matchLen] using this

theorem starLen_any_isSome (k : Str → Option ℕ) (h : (k []).isSome) : ∀ s, (starLen .any k s).isSome
  | [] => h
  | c :: s => by
    have := starLen_any_isSome k h s
    cases hs : starLen .any k s <;> simp_all [starLen, Atom.test]

/-- A word followed by anything. -/
theorem matchLen_word (w s : Str) : (matchLen (lits w ++ dotStar) s).isSome ↔ w <+: s := by
  rw [matchLen_lits_append]
  split_ifs with h
  · have := starLen_any_isSome (matchLen []) rfl (s.drop w.length)
    simpa [dotStar, matchLen, h] using this
  · simp [h]

/-! ## The last occurrence -/

/-- `t` is matched by `p` behind `u`, and nothing further behind in `u ++ t` is. -/
def LastAt (p : Pattern) (u t : Str) (m : ℕ) : Prop :=
  matchLen p t = some m ∧
    ∀ u' t', u' ++ t' = u ++ t → u.length < u'.length → matchLen p t' = none

/-- **Greed.**  Behind `.*`, a pattern matches at its last occurrence. -/
theorem matchLen_dotStar (p : Pattern) : ∀ s : Str,
    (∃ u t m, u ++ t = s ∧ LastAt p u t m ∧ matchLen (dotStar ++ p) s = some (u.length + m)) ∨
    (∀ u t, u ++ t = s → matchLen p t = none) ∧ matchLen (dotStar ++ p) s = none
  | [] => by
    cases h : matchLen p [] with
    | some m =>
      refine Or.inl ⟨[], [], m, rfl, ⟨h, fun u' t' he hl => ?_⟩, by simp [dotStar, matchLen, starLen, h]⟩
      simp only [List.append_nil, List.append_eq_nil_iff] at he
      simp [he.1] at hl
    | none =>
      refine Or.inr ⟨fun u t he => ?_, by simp [dotStar, matchLen, starLen, h]⟩
      rw [(List.append_eq_nil_iff.1 he).2, h]
  | c :: s => by
    have hstep : matchLen (dotStar ++ p) (c :: s) =
        match matchLen (dotStar ++ p) s with
        | some n => some (n + 1)
        | none => matchLen p (c :: s) := by simp [dotStar, matchLen, starLen, Atom.test]
    rcases matchLen_dotStar p s with ⟨u, t, m, rfl, ⟨hm, hlast⟩, hlen⟩ | ⟨hnone, hlen⟩
    · refine Or.inl ⟨c :: u, t, m, rfl, ⟨hm, fun u' t' he hl => ?_⟩, ?_⟩
      · cases u' with
        | nil => simp at hl
        | cons d u' =>
          simp only [List.cons_append, List.cons.injEq] at he
          exact hlast u' t' he.2 (by simpa using hl)
      · rw [hstep, hlen]; simp; omega
    · rw [hlen] at hstep
      have hbehind : ∀ u' t', u' ++ t' = c :: s → 0 < u'.length → matchLen p t' = none := by
        intro u' t' he hl
        cases u' with
        | nil => simp at hl
        | cons d u' =>
          simp only [List.cons_append, List.cons.injEq] at he
          exact hnone u' t' he.2
      cases h : matchLen p (c :: s) with
      | some m => exact Or.inl ⟨[], c :: s, m, rfl, ⟨h, hbehind⟩, by simp [hstep, h]⟩
      | none =>
        refine Or.inr ⟨fun u t he => ?_, by simp [hstep, h]⟩
        rcases Nat.eq_zero_or_pos u.length with hu | hu
        · rw [List.length_eq_zero_iff.1 hu] at he
          rw [show t = c :: s from he, h]
        · exact hbehind u t he hu

/-- A word behind anything. -/
theorem matchLen_dotStar_word (w s : Str) :
    (matchLen (dotStar ++ lits w) s).isSome = true ↔ w <:+: s := by
  rcases matchLen_dotStar (lits w) s with ⟨u, t, m, rfl, ⟨hm, -⟩, hlen⟩ | ⟨hnone, hlen⟩
  · rw [matchLen_lits] at hm
    split_ifs at hm with ht
    rw [hlen]
    exact ⟨fun _ => ht.isInfix.trans (List.suffix_append ..).isInfix, fun _ => rfl⟩
  · rw [hlen]
    refine ⟨fun h => absurd h (by simp), ?_⟩
    rintro ⟨u, v, rfl⟩
    have := hnone u (w ++ v) (by simp)
    rw [matchLen_lits, if_pos (List.prefix_append ..)] at this
    cases this

/-! ## Printed lines -/

/-- What the command prints begins with one of the words `W`. -/
def Cmd.Heads (W : List Str) : Cmd → Prop
  | .delete _ => True
  | .print p => ∀ s, (matchLen p s).isSome = true → ∃ w ∈ W, w <+: s
  | .subst _ r => ∃ w ∈ W, w <+: r

theorem head_of_mem_run {W : List Str} : ∀ {cs : List Cmd} (s : Str), (∀ c ∈ cs, c.Heads W) →
    ∀ l ∈ Cmd.run cs s, ∃ w ∈ W, w <+: l
  | [], _, _, l, hl => by simp [Cmd.run] at hl
  | c :: cs, s, h, l, hl => by
    rw [List.forall_mem_cons] at h
    have ih := fun s => head_of_mem_run s h.2
    cases c with
    | delete p =>
      simp only [Cmd.run] at hl
      split_ifs at hl
      · cases hl
      · exact ih s l hl
    | print p =>
      simp only [Cmd.run] at hl
      split_ifs at hl with hp
      · rcases List.mem_cons.1 hl with rfl | hl
        · exact h.1 l hp
        · exact ih s l hl
      · exact ih s l hl
    | subst p r =>
      obtain ⟨w, hw, hr⟩ := h.1
      simp only [Cmd.run] at hl
      split at hl
      · rcases List.mem_cons.1 hl with rfl | hl
        · exact ⟨w, hw, hr.trans (List.prefix_append ..)⟩
        · exact ih _ l hl
      · exact ih s l hl

/-! ## The pattern space -/

/-- The pattern space after a script that does not delete it. -/
def Cmd.space : List Cmd → Str → Str
  | [], s => s
  | .delete _ :: cs, s | .print _ :: cs, s => space cs s
  | .subst p r :: cs, s =>
    match matchLen p s with
    | some n => space cs (r ++ s.drop n)
    | none => space cs s

def Cmd.isDelete : Cmd → Bool
  | .delete _ => true
  | _ => false

theorem run_append : ∀ {cs : List Cmd} (ds : List Cmd) (s : Str), (∀ c ∈ cs, c.isDelete = false) →
    Cmd.run (cs ++ ds) s = Cmd.run cs s ++ Cmd.run ds (Cmd.space cs s)
  | [], _, _, _ => rfl
  | .delete p :: cs, ds, s, h => absurd (h _ (List.mem_cons_self ..)) (by simp [Cmd.isDelete])
  | .print p :: cs, ds, s, h => by
    have ih := run_append ds s fun c (hc : c ∈ cs) => h c (List.mem_cons_of_mem _ hc)
    simp only [List.cons_append, Cmd.run, Cmd.space, ih]
    split_ifs <;> simp
  | .subst p r :: cs, ds, s, h => by
    have ih := fun s => run_append ds s fun c (hc : c ∈ cs) => h c (List.mem_cons_of_mem _ hc)
    simp only [List.cons_append, Cmd.run, Cmd.space, ih]
    split <;> simp

def Cmd.isSubst : Cmd → Bool
  | .subst _ _ => true
  | _ => false

/-- Substitutions leave what they print last. -/
theorem space_substs : ∀ {cs : List Cmd} (s : Str), (∀ c ∈ cs, c.isSubst = true) →
    Cmd.space cs s = (Cmd.run cs s).getLastD s
  | [], _, _ => rfl
  | .delete p :: cs, s, h => absurd (h _ (List.mem_cons_self ..)) (by simp [Cmd.isSubst])
  | .print p :: cs, s, h => absurd (h _ (List.mem_cons_self ..)) (by simp [Cmd.isSubst])
  | .subst p r :: cs, s, h => by
    have ih := fun s => space_substs s fun c (hc : c ∈ cs) => h c (List.mem_cons_of_mem _ hc)
    simp only [Cmd.run, Cmd.space, ih]
    split
    · rw [List.getLastD_cons]
    · rfl

/-! ## Files -/

/-- The lines printed for a line of a file.  If it has no newline, neither has the last
    line printed. -/
def Cmd.runLine (cs : List Cmd) (l : Str) : List Str :=
  if l.getLast? = some '\n' then (run cs l.dropLast).map (· ++ ['\n'])
  else (run cs l).dropLast.map (· ++ ['\n']) ++ (run cs l).getLast?.toList

/-- The output of a script for a file. -/
def Cmd.runFile (cs : List Cmd) (s : Str) : Str := ((lines s).flatMap (runLine cs)).flatten

/-- A command that prints no empty line, and puts no newline into the pattern space. -/
def Cmd.plain : Cmd → Bool
  | .delete _ => true
  | .print p => (matchLen p []).isNone
  | .subst _ r => !r.isEmpty && !r.contains '\n'

/-- What plain commands print. -/
theorem plain_run : ∀ {cs : List Cmd} {s : Str}, (∀ c ∈ cs, c.plain = true) → '\n' ∉ s →
    ∀ l ∈ Cmd.run cs s, '\n' ∉ l ∧ l ≠ []
  | [], _, _, _, l, hl => by simp [Cmd.run] at hl
  | c :: cs, s, h, hs, l, hl => by
    rw [List.forall_mem_cons] at h
    cases c with
    | delete p =>
      simp only [Cmd.run] at hl
      split_ifs at hl
      · cases hl
      · exact plain_run h.2 hs l hl
    | print p =>
      simp only [Cmd.run] at hl
      split_ifs at hl with hp
      · rcases List.mem_cons.1 hl with rfl | hl
        · refine ⟨hs, ?_⟩
          rintro rfl
          rw [show (matchLen p []) = none by simpa [Cmd.plain] using h.1] at hp
          cases hp
        · exact plain_run h.2 hs l hl
      · exact plain_run h.2 hs l hl
    | subst p r =>
      have hr : r ≠ [] ∧ '\n' ∉ r := by simpa [Cmd.plain] using h.1
      simp only [Cmd.run] at hl
      split at hl
      · rename_i n _
        have hnl : '\n' ∉ r ++ s.drop n := by
          rw [List.mem_append, not_or]
          exact ⟨hr.2, fun hd => hs (List.mem_of_mem_drop hd)⟩
        rcases List.mem_cons.1 hl with rfl | hl
        · exact ⟨hnl, by simp [hr.1]⟩
        · exact plain_run h.2 hnl l hl
      · exact plain_run h.2 hs l hl

section
variable {cs : List Cmd} (h : ∀ c ∈ cs, c.plain = true)
include h

/-- The lines printed for a line with its newline. -/
theorem runLine_isLine {l : Str} (hl : IsLine l) : ∀ x ∈ Cmd.runLine cs l, IsLine x := by
  obtain ⟨l', rfl, hl'⟩ := hl
  intro x hx
  rw [Cmd.runLine, if_pos (by simp), List.dropLast_concat] at hx
  obtain ⟨y, hy, rfl⟩ := List.mem_map.1 hx
  exact ⟨y, rfl, (plain_run h hl' y hy).1⟩

/-- The lines printed for a line without one. -/
theorem lines_runLine {l : Str} (hl : '\n' ∉ l) :
    lines (Cmd.runLine cs l).flatten = Cmd.runLine cs l := by
  have hlast : l.getLast? ≠ some '\n' := fun he => hl (List.mem_of_getLast? he)
  have hrun := plain_run h hl
  rw [Cmd.runLine, if_neg hlast, List.flatten_append, lines_flatten_append]
  · congr 1
    cases hx : (Cmd.run cs l).getLast? with
    | none => rfl
    | some x =>
      have hx := hrun x (List.mem_of_getLast? hx)
      simpa using lines_singleton hx.1 hx.2
  · intro y hy
    obtain ⟨x, hx, rfl⟩ := List.mem_map.1 hy
    exact ⟨x, rfl, (hrun x (List.dropLast_subset _ hx)).1⟩

/-- **The lines of the output** are those printed. -/
theorem lines_runFile (s : Str) : lines (Cmd.runFile cs s) = (lines s).flatMap (Cmd.runLine cs) := by
  rw [Cmd.runFile]
  rcases lines_spec s with hs | ⟨ls, l, hs, hls, hl⟩
  · rw [hs]; rfl
  have hpre : ∀ x ∈ ls.flatMap (Cmd.runLine cs), IsLine x := by
    intro x hx
    obtain ⟨y, hy, hx⟩ := List.mem_flatMap.1 hx
    exact runLine_isLine h (hls y hy) x hx
  rw [hs, List.flatMap_append, List.flatMap_singleton, List.flatten_append,
    lines_flatten_append _ hpre]
  rcases hl with hl | ⟨hl, -⟩
  · rw [lines_flatten (runLine_isLine h hl)]
  · rw [lines_runLine h hl]

end

end DoubleFetch.Sed
