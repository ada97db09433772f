/-
  Text as lists of characters: substring search, and the lines of a file.

  * `find` is the leftmost occurrence of a pattern; `none` where Python's
    `str.find` returns `-1`.
  * `lines` are the strings that successive `readline` calls return: each ends
    with its newline, except possibly the last.
  * `lines_flatten_append`: terminated lines are read back as they were written.
-/
import Mathlib.Data.List.Basic
import Mathlib.Tactic.Common

namespace DoubleFetch

/-- A string, as the list of its characters. -/
abbrev Str := List Char

/-! ## Substring search -/

/-- `s.find(pat)`: the leftmost position of `pat` in `s`. -/
def find (s pat : Str) : Option ℕ :=
  match s with
  | [] => if pat.isPrefixOf [] then some 0 else none
  | c :: s' => if pat.isPrefixOf (c :: s') then some 0 else (find s' pat).map (· + 1)

/-- `s.find(pat, i)`. -/
def findFrom (s pat : Str) (i : ℕ) : Option ℕ := (find (s.drop i) pat).map (· + i)

/-- `s[a:b]` for non-negative bounds. -/
def slice (s : Str) (a b : ℕ) : Str := (s.take b).drop a

/-- `s.replace(" ", "")`. -/
def dropSpaces (s : Str) : Str := s.filter (· ≠ ' ')

theorem find_eq_zero {s pat : Str} : find s pat = some 0 ↔ pat <+: s := by
  cases s with
  | nil => simp [find]
  | cons c s => by_cases h : pat <+: c :: s <;> simp [find, h]

theorem find_lt {s pat : Str} (hp : pat ≠ []) : ∀ {i}, find s pat = some i → i < s.length := by
  induction s with
  | nil => intro i h; cases pat <;> simp_all [find]
  | cons c s ih =>
    intro i h
    simp only [find] at h
    split_ifs at h with hpre
    · cases h; simp
    · obtain ⟨j, hj, rfl⟩ := Option.map_eq_some_iff.1 h
      simpa using ih hj

theorem find_isSome {s pat : Str} : (find s pat).isSome = true ↔ pat <:+: s := by
  induction s with
  | nil =>
    rw [find, List.infix_nil]
    split_ifs with h
    · simpa using h
    · simpa using h
  | cons c s ih =>
    rw [find, List.infix_cons_iff]
    split_ifs with h
    · simpa using Or.inl (List.isPrefixOf_iff_prefix.1 h)
    · rw [Option.isSome_map, ih]
      simp only [List.isPrefixOf_iff_prefix] at h
      exact ⟨Or.inr, fun h' => h'.resolve_left h⟩

/-- The first occurrence of a character. -/
theorem find_char {A : Str} {c : Char} (r : Str) (h : c ∉ A) : find (A ++ c :: r) [c] = some A.length := by
  induction A with
  | nil => simp [find]
  | cons a A ih =>
    simp only [List.mem_cons, not_or] at h
    simp [find, h.1, ih h.2]

theorem find_char_none {s : Str} {c : Char} (h : c ∉ s) : find s [c] = none := by
  rw [← Option.not_isSome_iff_eq_none, find_isSome]
  exact fun hc => h (hc.subset (by simp))

/-- A pattern does not reach over a character that it does not have. -/
theorem infix_append_cons {p a b : Str} {c : Char} (hc : c ∉ p) :
    p <:+: a ++ c :: b ↔ p <:+: a ∨ p <:+: b := by
  constructor
  · rintro ⟨u, v, h⟩
    rcases List.append_eq_append_iff.1 h with ⟨a', rfl, -⟩ | ⟨c', h', hv⟩
    · exact Or.inl ⟨u, a', rfl⟩
    · rcases List.append_eq_append_iff.1 h' with ⟨a', rfl, rfl⟩ | ⟨u', rfl, rfl⟩
      · -- the pattern begins in `a`
        cases c' with
        | nil => exact Or.inl ⟨u, [], by simp⟩
        | cons x c' =>
          obtain rfl := (List.cons.inj hv).1
          exact absurd (by simp) hc
      · cases u' with
        | nil =>
          cases p with
          | nil => exact Or.inl List.nil_infix
          | cons x p =>
            obtain rfl := (List.cons.inj hv).1
            exact absurd (List.mem_cons_self ..) hc
        | cons x u' =>
          rw [List.cons_append, List.cons_append] at hv
          exact Or.inr ⟨u', v, (List.cons.inj hv).2.symm⟩
  · rintro (h | h)
    · exact h.trans (List.prefix_append ..).isInfix
    · exact h.trans ((List.suffix_cons ..).trans (List.suffix_append ..)).isInfix

@[simp] theorem dropSpaces_append (x y : Str) : dropSpaces (x ++ y) = dropSpaces x ++ dropSpaces y :=
  List.filter_append ..

theorem mem_dropSpaces {c : Char} {s : Str} (h : c ∈ dropSpaces s) : c ∈ s := List.mem_of_mem_filter h

/-! ## Lines -/

/-- The strings returned by successive calls of `readline`. -/
def lines : Str → List Str
  | [] => []
  | c :: s =>
    if c = '\n' then [c] :: lines s
    else match lines s with
      | [] => [[c]]
      | l :: ls => (c :: l) :: ls

/-- A line with its newline. -/
def IsLine (l : Str) : Prop := ∃ l', l = l' ++ ['\n'] ∧ '\n' ∉ l'

theorem lines_line_append : ∀ {l : Str} (s : Str), IsLine l → lines (l ++ s) = l :: lines s
  | _, s, ⟨l', rfl, hl⟩ => by
    induction l' with
    | nil => simp [lines]
    | cons c l' ih =>
      simp only [List.mem_cons, not_or] at hl
      have ih := ih hl.2
      simp only [List.append_assoc, List.singleton_append] at ih
      simp [lines, Ne.symm hl.1, ih]

/-- **Terminated lines are read back.** -/
theorem lines_flatten_append {ls : List Str} (s : Str) (h : ∀ l ∈ ls, IsLine l) :
    lines (ls.flatten ++ s) = ls ++ lines s := by
  induction ls with
  | nil => simp
  | cons l ls ih =>
    simp only [List.mem_cons, forall_eq_or_imp] at h
    rw [List.flatten_cons, List.append_assoc, lines_line_append _ h.1, ih h.2]; rfl

theorem lines_flatten {ls : List Str} (h : ∀ l ∈ ls, IsLine l) : lines ls.flatten = ls := by
  have := lines_flatten_append [] h
  simpa [lines] using this

/-- A text without a newline is one line. -/
theorem lines_singleton : ∀ {l : Str}, '\n' ∉ l → l ≠ [] → lines l = [l]
  | [], _, h => absurd rfl h
  | [c], hl, _ => by
    simp only [List.mem_singleton] at hl
    simp [lines, Ne.symm hl]
  | c :: d :: l, hl, _ => by
    rw [List.mem_cons, not_or] at hl
    rw [lines, if_neg (Ne.symm hl.1), lines_singleton hl.2 (by simp)]

/-- All lines of a file are terminated, except possibly the last. -/
theorem lines_spec (s : Str) : lines s = [] ∨ ∃ ls l, lines s = ls ++ [l] ∧
    (∀ x ∈ ls, IsLine x) ∧ (IsLine l ∨ ('\n' ∉ l ∧ l ≠ [])) := by
  induction s with
  | nil => exact Or.inl rfl
  | cons c s ih =>
    right
    by_cases hc : c = '\n'
    · have hl : IsLine ['\n'] := ⟨[], rfl, by simp⟩
      rcases ih with h | ⟨ls, l, h, hls, hl'⟩
      · exact ⟨[], ['\n'], by simp [lines, hc, h], by simp, Or.inl hl⟩
      · refine ⟨['\n'] :: ls, l, by simp [lines, hc, h], ?_, hl'⟩
        simpa using ⟨hl, hls⟩
    · rcases ih with h | ⟨ls, l, h, hls, hl'⟩
      · exact ⟨[], [c], by simp [lines, hc, h], by simp, Or.inr ⟨by simpa using Ne.symm hc, by simp⟩⟩
      · have hcons : ∀ x, IsLine x → IsLine (c :: x) := by
          rintro x ⟨x', rfl, hx⟩
          exact ⟨c :: x', rfl, by simpa using ⟨Ne.symm hc, hx⟩⟩
        cases ls with
        | nil =>
          refine ⟨[], c :: l, by simp [lines, hc, h], by simp, hl'.imp (hcons l) fun h => ?_⟩
          exact ⟨by simpa using ⟨Ne.symm hc, h.1⟩, by simp⟩
        | cons x ls =>
          simp only [List.mem_cons, forall_eq_or_imp] at hls
          refine ⟨(c :: x) :: ls, l, by simp [lines, hc, h], ?_, hl'⟩
          simpa using ⟨hcons x hls.1, hls.2⟩

/-- The same of any selection of its lines. -/
theorem lines_sublist {L : List Str} {s : Str} (h : L.Sublist (lines s)) :
    (∀ x ∈ L, IsLine x) ∨ ∃ ls l, L = ls ++ [l] ∧ (∀ x ∈ ls, IsLine x) ∧ '\n' ∉ l := by
  rcases lines_spec s with hs | ⟨ls, l, hs, hls, hl⟩
  · rw [hs] at h
    exact Or.inl (by simp [List.sublist_nil.1 h])
  rw [hs] at h
  obtain ⟨L₁, L₂, rfl, h₁, h₂⟩ := List.sublist_append_iff.1 h
  have hL₁ : ∀ x ∈ L₁, IsLine x := fun x hx => hls x (h₁.subset hx)
  rcases List.sublist_singleton.1 h₂ with rfl | rfl
  · exact Or.inl (by simpa using hL₁)
  · rcases hl with hl | hl
    · refine Or.inl fun x hx => ?_
      rcases List.mem_append.1 hx with hx | hx
      · exact hL₁ x hx
      · rwa [List.mem_singleton.1 hx]
    · exact Or.inr ⟨L₁, l, rfl, hL₁, hl.1⟩

end DoubleFetch
