/-
  The names of the files that the scripts read and write.

  * `Name`: a name that `$(ls ..)` passes on to a loop as it is;
  * `WorkDir`: a directory whose path the scripts, which do not quote it, pass on as it is;
  * `numbered`: a name behind a number; from the result both can be told
    (`numbered_injective`, `numbered_right`);
  * `Lists`: a listing of a directory; `lsC` is that of the C locale.
-/
import DoubleFetch.Base.Brackets
import DoubleFetch.Cocci.Report
import Mathlib.Data.Char
import Mathlib.Data.Finset.Sort
import Mathlib.Data.List.Lex

namespace DoubleFetch

open Cocci (str str_injective isDigit_of_mem_str)

/-- Not a blank, where words are split, nor a character of file name patterns or paths. -/
def wordChar (c : Char) : Bool := !(" \t\n*?[]\\/".toList.contains c)

/-- A name that `ls` lists and that `$(ls ..)` passes on as one word. -/
def IsName (s : Str) : Prop := s ≠ [] ∧ s.head? ≠ some '.' ∧ ∀ c ∈ s, wordChar c = true

instance (s : Str) : Decidable (IsName s) :=
  decidable_of_iff (s ≠ [] ∧ s.head? ≠ some '.' ∧ s.all wordChar = true) (by rw [IsName, List.all_eq_true])

structure Name where
  text : Str
  ok : IsName text
  deriving DecidableEq

theorem isName_append {u v : Str} (hu : IsName u) (hv : ∀ c ∈ v, wordChar c = true) :
    IsName (u ++ v) := by
  obtain ⟨hne, hvis, hword⟩ := hu
  refine ⟨by simp [hne], by rwa [List.head?_append_of_ne_nil _ hne], fun c hc => ?_⟩
  exact (List.mem_append.1 hc).elim (hword c) (hv c)

theorem isName_str (n : ℕ) : IsName (str n) := by
  have hd : ∀ c : Char, c.isDigit = true → wordChar c = true ∧ c ≠ '.' := by
    intro c hc
    have hne : ∀ d : Char, d.isDigit = false → c ≠ d := by
      rintro d hd rfl
      rw [hc] at hd; cases hd
    refine ⟨?_, hne '.' rfl⟩
    rw [wordChar, Bool.not_eq_true', ← Bool.not_eq_true, List.contains_iff_mem]
    intro hm
    have hblank : " \t\n*?[]\\/".toList.all (fun d => d.isDigit == false) = true := by decide
    exact hne c (beq_iff_eq.1 (List.all_eq_true.1 hblank c hm)) rfl
  refine ⟨Nat.toDigits_ne_nil, fun h => ?_, fun c hc => (hd c (isDigit_of_mem_str hc)).1⟩
  exact (hd '.' (isDigit_of_mem_str (List.mem_of_head? h))).2 rfl

/-- `${num}-${curfile}` -/
def numbered (num : ℕ) (curfile : Name) : Name where
  text := str num ++ '-' :: curfile.text
  ok := isName_append (isName_str num) (List.forall_mem_cons.2 ⟨rfl, curfile.ok.2.2⟩)

/-- Different numbers make different names. -/
theorem numbered_injective {j k : ℕ} {m n : Name} (h : numbered j m = numbered k n) : j = k := by
  have hdash : ∀ i, '-' ∉ str i := by
    intro i hm
    have := isDigit_of_mem_str hm
    revert this; decide
  have hpre : ∀ i (s : Str), str i ++ ['-'] <+: str i ++ '-' :: s := fun i s => ⟨s, by simp⟩
  have ht : str j ++ '-' :: m.text = str k ++ '-' :: n.text := congrArg Name.text h
  exact str_injective (eq_of_marked (hdash j) (hdash k) (hpre j _) (ht ▸ hpre k _))

theorem numbered_right {j k : ℕ} {m n : Name} (h : numbered j m = numbered k n) : m = n := by
  have ht : str j ++ '-' :: m.text = str k ++ '-' :: n.text := congrArg Name.text h
  obtain rfl := numbered_injective h
  rw [Name.mk.injEq]
  exact (List.cons.inj (List.append_cancel_left ht)).2

/-- A path from the root that the scripts pass on as one word. -/
def IsPath (s : Str) : Prop := s.head? = some '/' ∧ ∀ c ∈ s, (wordChar c || c == '/') = true

instance (s : Str) : Decidable (IsPath s) :=
  decidable_of_iff (s.head? = some '/' ∧ s.all (fun c => wordChar c || c == '/') = true)
    (by rw [IsPath, List.all_eq_true])

/-- The directory that `$(pwd)` gives. -/
structure WorkDir where
  text : Str
  ok : IsPath text

theorem WorkDir.newline (d : WorkDir) : '\n' ∉ d.text :=
  fun h => absurd (d.ok.2 _ h) (by decide)

/-! ## Listings -/

/-- `ls` lists every file once. -/
def Lists (ls : Finset Name → List Name) : Prop := ∀ s, (ls s).Nodup ∧ ∀ n, n ∈ ls s ↔ n ∈ s

instance : Std.Total fun m n : Name => m.text ≤ n.text := ⟨fun m n => le_total m.text n.text⟩

instance : Std.Antisymm fun m n : Name => m.text ≤ n.text :=
  ⟨fun ⟨m, _⟩ ⟨n, _⟩ h h' => by
    obtain rfl : m = n := le_antisymm h h'
    rfl⟩

instance : IsTrans Name fun m n => m.text ≤ n.text := ⟨fun _ _ _ h h' => le_trans h h'⟩

/-- `ls` in the C locale. -/
def lsC (s : Finset Name) : List Name := s.sort fun m n => m.text ≤ n.text

theorem lists_lsC : Lists lsC := fun s => ⟨s.sort_nodup _, fun _ => s.mem_sort _⟩

end DoubleFetch
