/-
  The reports of the matcher: `post_match_process` in
  `cocci/pattern_match_linux.cocci`, which `cocci/pattern_match_freebsd.cocci` has
  too, word for word.

  * `postMatchProcess` drops a match whose lines are not in order or whose address
    expressions move, and logs any other: `postMatchProcess_eq`;
  * `movedDropped_iff`: it tells a `-` that moves the address from that of a member
    access only by whether `->` occurs at all.
-/
import DoubleFetch.Base.Text

namespace DoubleFetch.Cocci

/-! ## Numbers -/

/-- `str(n)` of a number. -/
def str (n : ℕ) : Str := Nat.toDigits 10 n

/-- `int(s)` of decimal digits. -/
def int (s : Str) : ℕ := Nat.ofDigitChars 10 s 0

@[simp] theorem int_str (n : ℕ) : int (str n) = n := Nat.ofDigitChars_ten_toDigits

theorem str_injective {m n : ℕ} (h : str m = str n) : m = n := by
  rw [← int_str m, h, int_str]

theorem isDigit_of_mem_str {c : Char} {n : ℕ} (h : c ∈ str n) : c.isDigit = true :=
  Nat.isDigit_of_mem_toDigits (by decide) (by decide) h

/-! ## `post_match_process` -/

/-- What a position metavariable is bound to. -/
structure Position where
  file : Str
  lineNumber : ℕ

/-- The line, which is a text. -/
def Position.line (p : Position) : Str := str p.lineNumber

/-- The global `count`, and the contents of `result.txt`. -/
structure Report where
  count : ℕ := 0
  logfile : Str := []

/-- The four writes to the log; the text printed to the terminal is left out. -/
def printAndLog (filename first second count : Str) (logfile : Str) : Str :=
  logfile ++ ("No.".toList ++ count ++ " File: \n".toList ++ filename ++ "\n".toList) ++
    ("--first fetch: line ".toList ++ first ++ "\n".toList) ++
    ("--second fetch: line ".toList ++ second ++ "\n".toList) ++
    "-------------------------------\n".toList

def postMatchProcess (p1 p2 : Position) (src ptr : Str) (v : Report) : Report :=
  let filename := p1.file
  let first := p1.line
  let second := p2.line
  if first = second then v
  else if int first > int second then v
  else if (find src ['+']).isSome ∨ (find ptr ['+']).isSome then v
  else if (find src ['[']).isSome ∨ (find ptr ['[']).isSome then v
  else if (find src ['-']).isSome ∧ ¬ (find src "->".toList).isSome then v
  else if (find ptr ['-']).isSome ∧ ¬ (find ptr "->".toList).isSome then v
  else if find src ['('] = some 0 ∨ find ptr ['('] = some 0 then v
  else
    { count := v.count + 1
      logfile := printAndLog filename first second (str v.count) v.logfile }

/-- The expression passes the tests. -/
def Passes (t : Str) : Prop :=
  '+' ∉ t ∧ '[' ∉ t ∧ ('-' ∈ t → "->".toList <:+: t) ∧ ¬ ['('] <+: t

instance (t : Str) : Decidable (Passes t) := inferInstanceAs (Decidable (_ ∧ _))

/-- The match is logged. -/
def Accepted (p1 p2 : Position) (src ptr : Str) : Prop :=
  p1.lineNumber < p2.lineNumber ∧ Passes src ∧ Passes ptr

instance (p1 p2 : Position) (src ptr : Str) : Decidable (Accepted p1 p2 src ptr) :=
  inferInstanceAs (Decidable (_ ∧ _))

/-- A match is logged under the next number. -/
def Report.log (v : Report) (p1 p2 : Position) : Report where
  count := v.count + 1
  logfile := printAndLog p1.file p1.line p2.line (str v.count) v.logfile

theorem find_char_isSome {s : Str} {c : Char} : (find s [c]).isSome = true ↔ c ∈ s := by
  rw [find_isSome]
  constructor
  · intro h; exact h.subset (by simp)
  · intro h
    obtain ⟨u, v, rfl⟩ := List.append_of_mem h
    exact ⟨u, v, by simp⟩

/-- **What is logged.** -/
theorem postMatchProcess_eq (p1 p2 : Position) (src ptr : Str) (v : Report) :
    postMatchProcess p1 p2 src ptr v = if Accepted p1 p2 src ptr then v.log p1 p2 else v := by
  have hline : p1.line = p2.line ↔ p1.lineNumber = p2.lineNumber :=
    ⟨str_injective, fun h => congrArg str h⟩
  have hint : ∀ p : Position, int p.line = p.lineNumber := fun p => int_str _
  unfold postMatchProcess
  simp only [hline, hint, find_char_isSome, find_eq_zero]
  simp only [find_isSome]
  by_cases hacc : Accepted p1 p2 src ptr
  · obtain ⟨hlt, ⟨h1, h2, h3, h4⟩, k1, k2, k3, k4⟩ := id hacc
    rw [if_pos hacc, if_neg (by omega), if_neg (by omega), if_neg (not_or.2 ⟨h1, k1⟩),
      if_neg (not_or.2 ⟨h2, k2⟩), if_neg fun h => h.2 (h3 h.1), if_neg fun h => h.2 (k3 h.1),
      if_neg (not_or.2 ⟨h4, k4⟩)]
    rfl
  · rw [if_neg hacc]
    split_ifs with h1 h2 h3 h4 h5 h6 h7
    iterate 7 rfl
    -- all tests are passed
    rw [not_or] at h3 h4 h7
    exact absurd ⟨by omega, ⟨h3.1, h4.1, fun h => by_contra fun hn => h5 ⟨h, hn⟩, h7.1⟩,
      ⟨h3.2, h4.2, fun h => by_contra fun hn => h6 ⟨h, hn⟩, h7.2⟩⟩ hacc

/-! ## Moved addresses -/

/-- A `-` that is not the first character of a `->`. -/
def BareMinus (t : Str) : Prop := ∃ u v, t = u ++ '-' :: v ∧ ¬ ['>'] <+: v

/-- The address expression moves: an increment or addition, a subscript, a decrement
    or subtraction, or a cast. -/
def Moves (t : Str) : Prop := '+' ∈ t ∨ '[' ∈ t ∨ BareMinus t ∨ ['('] <+: t

theorem arrow_of_minus {t : Str} (h : '-' ∈ t) (hb : ¬ BareMinus t) : "->".toList <:+: t := by
  obtain ⟨u, v, rfl⟩ := List.append_of_mem h
  have hv : ['>'] <+: v := by
    by_contra hv
    exact hb ⟨u, v, rfl, hv⟩
  obtain ⟨w, rfl⟩ := hv
  exact ⟨u, w, by simp⟩

theorem BareMinus.mem {t : Str} (h : BareMinus t) : '-' ∈ t := by
  obtain ⟨u, v, rfl, -⟩ := h
  simp

/-- The tests only miss a `-` beside a `->`. -/
theorem passes_iff {t : Str} : Passes t ∧ ¬ (BareMinus t ∧ "->".toList <:+: t) ↔ ¬ Moves t := by
  rw [Passes, Moves]
  constructor
  · rintro ⟨⟨h1, h2, h3, h4⟩, h5⟩ (h | h | h | h)
    · exact h1 h
    · exact h2 h
    · exact h5 ⟨h, h3 h.mem⟩
    · exact h4 h
  · intro h
    simp only [not_or] at h
    exact ⟨⟨h.1, h.2.1, fun hm => arrow_of_minus hm h.2.2.1, h.2.2.2⟩, fun hb => h.2.2.1 hb.1⟩

/-- A match is logged if its lines are in order and neither address moves, and
    otherwise nothing changes. -/
def MovedDropped (p1 p2 : Position) (src ptr : Str) (v : Report) : Prop :=
  (p1.lineNumber < p2.lineNumber ∧ ¬ Moves src ∧ ¬ Moves ptr →
    postMatchProcess p1 p2 src ptr v = v.log p1 p2) ∧
  (¬ (p1.lineNumber < p2.lineNumber ∧ ¬ Moves src ∧ ¬ Moves ptr) →
    postMatchProcess p1 p2 src ptr v = v)

theorem Report.log_ne (v : Report) (p1 p2 : Position) : v.log p1 p2 ≠ v := by
  intro h
  have := congrArg Report.count h
  simp [Report.log] at this

/-- **Which moved addresses are dropped**: all but those of a match that passes the
    other tests and has a `-` of its own beside a `->`. -/
theorem movedDropped_iff (p1 p2 : Position) (src ptr : Str) (v : Report) :
    MovedDropped p1 p2 src ptr v ↔ (Accepted p1 p2 src ptr →
      ∀ t ∈ [src, ptr], ¬ (BareMinus t ∧ "->".toList <:+: t)) := by
  have hwanted : p1.lineNumber < p2.lineNumber ∧ ¬ Moves src ∧ ¬ Moves ptr ↔
      Accepted p1 p2 src ptr ∧ ∀ t ∈ [src, ptr], ¬ (BareMinus t ∧ "->".toList <:+: t) := by
    simp only [← passes_iff, Accepted, List.mem_cons, List.not_mem_nil, or_false, forall_eq_or_imp,
      forall_eq]
    tauto
  rw [MovedDropped, hwanted, postMatchProcess_eq]
  constructor
  · rintro ⟨-, h⟩ hacc
    by_contra hn
    have := h fun hw => hn hw.2
    rw [if_pos hacc] at this
    exact v.log_ne p1 p2 this
  · intro h
    refine ⟨fun hw => if_pos hw.1, fun hn => if_neg fun hacc => hn ⟨hacc, h hacc⟩⟩

/-- A subtraction beside a member access is logged. -/
theorem subtraction_logged : ¬ MovedDropped ⟨"testdir/a.c".toList, 3⟩ ⟨"testdir/a.c".toList, 7⟩
    "p->buf - 4".toList "p->buf - 4".toList {} := by
  rintro ⟨-, h⟩
  have hbare : BareMinus "p->buf - 4".toList := ⟨"p->buf ".toList, " 4".toList, rfl, by decide⟩
  have hpass : Passes "p->buf - 4".toList := by decide +kernel
  have := h fun hw => hw.2.1 (Or.inr (Or.inr (Or.inl hbare)))
  rw [postMatchProcess_eq, if_pos ⟨by decide, hpass, hpass⟩] at this
  exact Report.log_ne _ _ _ this

end DoubleFetch.Cocci
