/-
  `is_same` as the equality of sources.

  A line has a source as a `get_user` (`GetSource`: the text behind the first comma up to
  the parenthesis that closes the call) and one as a `copy_from_user` (`CopySource`: the
  text between the first two commas), at most one of each.

  * `same_iff_source`: two lines agree if both name `get_user` and have one source as such, or
    else both name `copy_from_user` and have one source as such;
  * `same_equivalence`: on the lines that name `get_user`, and on those that do not,
    `is_same` is a partial equivalence;
  * `same_close`: a `}` behind an unterminated line does not change its source.
-/
import DoubleFetch.TextFilter.Same

namespace DoubleFetch.Filter2

/-- The line names `get_user`. -/
def NamesGet (x : Str) : Prop := "get_user".toList <:+: dropSpaces x

/-- The line names `copy_from_user`. -/
def NamesCopy (x : Str) : Prop := "copy_from_user".toList <:+: dropSpaces x

/-- The text behind the first comma up to a mark, without an increment. -/
def SourceTo (mark : Char) (whole : Str → Prop) (x w : Str) : Prop :=
  ∃ A r, dropSpaces x = A ++ ',' :: r ∧ ',' ∉ A ∧ whole w ∧ w ++ [mark] <+: r ∧ ¬ "++".toList <:+: w

/-- The source as a `get_user`, up to the parenthesis that closes the call. -/
def GetSource : Str → Str → Prop := SourceTo ')' (Balanced '(' ')')

/-- The source as a `copy_from_user`, up to the next comma. -/
def CopySource : Str → Str → Prop := SourceTo ',' fun w => ',' ∉ w

variable {x y z w w' : Str}

/-- The first comma is at one place. -/
theorem first_comma {A B r r' : Str} (hA : ',' ∉ A) (hB : ',' ∉ B)
    (h : A ++ ',' :: r = B ++ ',' :: r') : A = B ∧ r = r' := by
  have hAB : A = B := eq_of_marked hA hB (u := A ++ ',' :: r) ⟨r, by simp⟩ ⟨r', by simp [h]⟩
  subst hAB
  exact ⟨rfl, (List.cons.inj (List.append_cancel_left h)).2⟩

theorem GetSource.unique (h : GetSource x w) (h' : GetSource x w') : w = w' := by
  obtain ⟨A, r, hx, hA, hw, hp, -⟩ := h
  obtain ⟨B, r', hx', hB, hw', hp', -⟩ := h'
  obtain ⟨rfl, rfl⟩ := first_comma hA hB (hx.symm.trans hx')
  exact hw.eq_of_closed (by decide) hw' hp hp'

theorem CopySource.unique (h : CopySource x w) (h' : CopySource x w') : w = w' := by
  obtain ⟨A, r, hx, hA, hw, hp, -⟩ := h
  obtain ⟨B, r', hx', hB, hw', hp', -⟩ := h'
  obtain ⟨rfl, rfl⟩ := first_comma hA hB (hx.symm.trans hx')
  exact eq_of_marked hw hw' hp hp'

/-- Without a comma nothing agrees. -/
theorem isSame_no_comma (h : ',' ∉ dropSpaces x) : isSame x y = .ok false := by
  rw [isSame]
  simp only [find_char_none h, ite_self, pure_eq_ok]

theorem comma_split (h : ',' ∈ dropSpaces x) : ∃ A r, dropSpaces x = A ++ ',' :: r ∧ ',' ∉ A := by
  obtain ⟨A, r, hx, hA⟩ := List.eq_append_cons_of_mem h
  exact ⟨A, r, hx, hA⟩

theorem same_eq_ok : same x y = true ↔ isSame x y = .ok true := by rw [isSame_eq, Except.ok.injEq]

/-- Lines that agree have a comma. -/
theorem comma_of_same (h : isSame x y = .ok true) : ',' ∈ dropSpaces x ∧ ',' ∈ dropSpaces y := by
  constructor
  · by_contra hx
    rw [isSame_no_comma hx] at h; cases h
  · by_contra hy
    rw [isSame_comm, isSame_no_comma hy] at h; cases h

theorem SourceTo.comma {mark : Char} {whole : Str → Prop} (h : SourceTo mark whole x w) :
    ',' ∈ dropSpaces x := by
  obtain ⟨A, r, hx, -⟩ := h
  rw [hx]; simp

theorem SourceTo.split {mark : Char} {whole : Str → Prop} {A r : Str} (h : SourceTo mark whole x w)
    (hx : dropSpaces x = A ++ ',' :: r) (hA : ',' ∉ A) :
    whole w ∧ w ++ [mark] <+: r ∧ ¬ "++".toList <:+: w := by
  obtain ⟨B, r', hx', hB, hw⟩ := h
  obtain ⟨rfl, rfl⟩ := first_comma hA hB (hx.symm.trans hx')
  exact hw

/-- Two lines that name `get_user`. -/
theorem same_getUser (hgx : NamesGet x) (hgy : NamesGet y) :
    same x y = true ↔ ∃ w, GetSource x w ∧ GetSource y w := by
  rw [same_eq_ok]
  by_cases hc : ',' ∈ dropSpaces x ∧ ',' ∈ dropSpaces y
  swap
  · refine iff_of_false (mt comma_of_same hc) ?_
    rintro ⟨w, h₁, h₂⟩
    exact hc ⟨h₁.comma, h₂.comma⟩
  obtain ⟨A, r₁, hx, hA⟩ := comma_split hc.1
  obtain ⟨B, r₂, hy, hB⟩ := comma_split hc.2
  rw [isSame_both_getUser hx hA hy hB hgx hgy]
  constructor
  · rintro ⟨w, hw, h₁, h₂, hpp⟩
    exact ⟨w, ⟨A, r₁, hx, hA, hw, h₁, hpp⟩, B, r₂, hy, hB, hw, h₂, hpp⟩
  · rintro ⟨w, hsx, hsy⟩
    obtain ⟨hw, h₁, hpp⟩ := hsx.split hx hA
    exact ⟨w, hw, h₁, (hsy.split hy hB).2.1, hpp⟩

/-- Two lines of which one does not name `get_user`. -/
theorem same_not_getUser (hg : ¬ (NamesGet x ∧ NamesGet y)) :
    same x y = true ↔ NamesCopy x ∧ NamesCopy y ∧ ∃ w, CopySource x w ∧ CopySource y w := by
  rw [same_eq_ok]
  by_cases hc : ',' ∈ dropSpaces x ∧ ',' ∈ dropSpaces y
  swap
  · refine iff_of_false (mt comma_of_same hc) ?_
    rintro ⟨-, -, w, h₁, h₂⟩
    exact hc ⟨h₁.comma, h₂.comma⟩
  obtain ⟨A, r₁, hx, hA⟩ := comma_split hc.1
  obtain ⟨B, r₂, hy, hB⟩ := comma_split hc.2
  by_cases hn : NamesCopy x ∧ NamesCopy y
  · rw [isSame_both_copyFromUser hx hA hy hB hg hn.1 hn.2]
    constructor
    · rintro ⟨w, hw, h₁, h₂, hpp⟩
      exact ⟨hn.1, hn.2, w, ⟨A, r₁, hx, hA, hw, h₁, hpp⟩, B, r₂, hy, hB, hw, h₂, hpp⟩
    · rintro ⟨-, -, w, hsx, hsy⟩
      obtain ⟨hw, h₁, hpp⟩ := hsx.split hx hA
      exact ⟨w, hw, h₁, (hsy.split hy hB).2.1, hpp⟩
  -- the names differ
  have hfalse : isSame x y = .ok false := by
    by_cases h₁ : NamesGet x ∧ NamesCopy y
    · exact isSame_mixed hx hA hy hB h₁.1 (fun h => hg ⟨h₁.1, h⟩) (fun h => hn ⟨h, h₁.2⟩) h₁.2
    by_cases h₂ : NamesGet y ∧ NamesCopy x
    · rw [isSame_comm]
      exact isSame_mixed hy hB hx hA h₂.1 (fun h => hg ⟨h, h₂.1⟩) (fun h => hn ⟨h₂.2, h⟩) h₂.2
    · simp only [NamesGet, NamesCopy, ← find_isSome] at hg hn h₁ h₂
      rw [isSame]
      simp only [if_neg hg, if_neg hn, if_neg h₁, if_neg fun h => h₂ (And.symm h), pure_eq_ok]
  rw [hfalse]
  refine iff_of_false (by simp) ?_
  rintro ⟨h₁, h₂, -⟩
  exact hn ⟨h₁, h₂⟩

/-- **`is_same` compares sources.** -/
theorem same_iff_source : same x y = true ↔
    (NamesGet x ∧ NamesGet y ∧ ∃ w, GetSource x w ∧ GetSource y w) ∨
    (¬ (NamesGet x ∧ NamesGet y) ∧ NamesCopy x ∧ NamesCopy y ∧
      ∃ w, CopySource x w ∧ CopySource y w) := by
  by_cases hg : NamesGet x ∧ NamesGet y
  · rw [same_getUser hg.1 hg.2]
    simp [hg]
  · rw [same_not_getUser hg]
    constructor
    · exact fun h => Or.inr ⟨hg, h⟩
    · rintro (⟨h₁, h₂, -⟩ | ⟨-, h⟩)
      · exact absurd ⟨h₁, h₂⟩ hg
      · exact h

theorem same_comm (x y : Str) : same x y = same y x := by rw [same, same, isSame_comm]

/-- **`is_same` is a partial equivalence** on the lines that name `get_user`, and on those
    that do not. -/
theorem same_equivalence (hxy : NamesGet x ↔ NamesGet y) (hyz : NamesGet y ↔ NamesGet z) :
    (same x y = true → same y x = true ∧ same x x = true) ∧
      (same x y = true → same y z = true → same x z = true) := by
  by_cases hx : NamesGet x
  · have hy := hxy.1 hx
    have hz := hyz.1 hy
    rw [same_getUser hx hy, same_getUser hy hx, same_getUser hx hx, same_getUser hy hz, same_getUser hx hz]
    constructor
    · rintro ⟨w, h₁, h₂⟩; exact ⟨⟨w, h₂, h₁⟩, w, h₁, h₁⟩
    · rintro ⟨w, h₁, h₂⟩ ⟨w', h₃, h₄⟩
      obtain rfl := h₂.unique h₃
      exact ⟨w, h₁, h₄⟩
  · have hy := mt hxy.2 hx
    rw [same_not_getUser (hx ·.1), same_not_getUser (hy ·.1), same_not_getUser (hx ·.1),
      same_not_getUser (hy ·.1), same_not_getUser (hx ·.1)]
    constructor
    · rintro ⟨hcx, hcy, w, h₁, h₂⟩
      exact ⟨⟨hcy, hcx, w, h₂, h₁⟩, hcx, hcx, w, h₁, h₁⟩
    · rintro ⟨hcx, -, w, h₁, h₂⟩ ⟨-, hcz, w', h₃, h₄⟩
      obtain rfl := h₂.unique h₃
      exact ⟨hcx, hcz, w, h₁, h₄⟩

theorem same_equivalence_getUser : same "get_user(a, p);".toList "get_user(c, p);".toList = true := by
  have hx : NamesGet "get_user(a, p);".toList := by unfold NamesGet; decide +kernel
  have hy : NamesGet "__get_user(b, p);".toList := by unfold NamesGet; decide +kernel
  have hz : NamesGet "get_user(c, p);".toList := by unfold NamesGet; decide +kernel
  exact (same_equivalence (iff_of_true hx hy) (iff_of_true hy hz)).2 (by decide +kernel) (by decide +kernel)

/-- A line of both names agrees with lines of either kind, which do not agree. -/
example : same "copy_from_user(d,p,n);".toList "get_user(copy_from_user(d,p,n));".toList = true ∧
    same "get_user(copy_from_user(d,p,n));".toList "get_user(d,p,n);".toList = true ∧
    same "copy_from_user(d,p,n);".toList "get_user(d,p,n);".toList = false := by decide +kernel

/-! ## Unterminated lines -/

/-- A marked prefix does not reach into a text without the mark. -/
theorem marked_append {α : Type*} {a : α} {p r t : List α} (ha : a ∉ t) :
    p ++ [a] <+: r ++ t ↔ p ++ [a] <+: r := by
  refine ⟨fun h => ?_, fun h => h.trans (List.prefix_append ..)⟩
  rcases List.prefix_or_prefix_of_prefix h (List.prefix_append r t) with h' | ⟨v, hv⟩
  · exact h'
  · rcases List.eq_nil_or_concat' v with rfl | ⟨v', b, rfl⟩
    · rw [← hv, List.append_nil]
    · -- the mark is the last character of the text behind `r`
      rw [← List.append_assoc] at hv
      obtain rfl := List.singleton_injective (List.append_inj' hv rfl).2
      obtain ⟨q, hq⟩ := h
      rw [← hv, List.append_assoc, List.append_assoc] at hq
      have hq := List.append_cancel_left hq
      exact absurd (by rw [← hq]; simp) ha

theorem dropSpaces_close (x : Str) : dropSpaces (x ++ "\x7d\n".toList) = dropSpaces x ++ "\x7d\n".toList := by
  rw [dropSpaces_append]; rfl

theorem infix_close {p s : Str} (h₁ : '\x7d' ∉ p) (h₂ : ¬ p <:+: "\n".toList) :
    p <:+: s ++ "\x7d\n".toList ↔ p <:+: s :=
  (infix_append_cons h₁).trans (or_iff_left h₂)

theorem sourceTo_close {mark : Char} {whole : Str → Prop} (hm : mark ∉ "\x7d\n".toList) :
    SourceTo mark whole (x ++ "\x7d\n".toList) w ↔ SourceTo mark whole x w := by
  simp only [SourceTo, dropSpaces_close]
  constructor
  · rintro ⟨A, r, hx, hA, hw, hp, hpp⟩
    have hc : ',' ∈ dropSpaces x := by
      have : ',' ∈ dropSpaces x ++ "\x7d\n".toList := by rw [hx]; simp
      exact (List.mem_append.1 this).resolve_right (by decide)
    obtain ⟨B, r', hx', hB⟩ := comma_split hc
    rw [hx', List.append_assoc] at hx
    obtain ⟨rfl, rfl⟩ := first_comma hB hA hx
    exact ⟨B, r', hx', hB, hw, (marked_append hm).1 hp, hpp⟩
  · rintro ⟨A, r, hx, hA, hw, hp, hpp⟩
    exact ⟨A, r ++ "\x7d\n".toList, by rw [hx, List.append_assoc]; rfl, hA, hw,
      hp.trans (List.prefix_append ..), hpp⟩

/-- **A `}` behind a line does not change what the line agrees with.** -/
theorem same_close : same (x ++ "\x7d\n".toList) y = same x y := by
  have hget : NamesGet (x ++ "\x7d\n".toList) ↔ NamesGet x := by
    rw [NamesGet, dropSpaces_close]; exact infix_close (by decide) (by decide)
  have hcopy : NamesCopy (x ++ "\x7d\n".toList) ↔ NamesCopy x := by
    rw [NamesCopy, dropSpaces_close]; exact infix_close (by decide) (by decide)
  rw [Bool.eq_iff_iff]
  by_cases hg : NamesGet x ∧ NamesGet y
  · rw [same_getUser (hget.2 hg.1) hg.2, same_getUser hg.1 hg.2]
    simp only [GetSource, sourceTo_close (show ')' ∉ "\x7d\n".toList by decide)]
  · rw [same_not_getUser (by rwa [hget]), same_not_getUser hg, hcopy]
    simp only [CopySource, sourceTo_close (show ',' ∉ "\x7d\n".toList by decide)]

end DoubleFetch.Filter2
