/-
  What `is_same` compares.

  A line is looked at behind its first comma.  There `get_user` lines are compared
  up to the parenthesis that closes the call (`isSame_both_getUser`), lines of
  `copy_from_user` up to the next comma (`isSame_both_copyFromUser`), and a line of
  each kind never agrees (`isSame_mixed`): the slice of the first has the comma.
-/
import DoubleFetch.Base.Brackets
import DoubleFetch.TextFilter.Filter2

namespace DoubleFetch.Filter2

theorem sameSlice_iff {x y : Str} : sameSlice x y = true ↔ x = y ∧ ¬ "++".toList <:+: x := by
  rw [sameSlice, ← find_isSome]
  by_cases h : x = y
  · by_cases h' : (find x "++".toList).isSome = true
    · rw [if_pos h, if_pos h']
      exact ⟨fun hf => absurd hf Bool.false_ne_true, fun hf => absurd h' hf.2⟩
    · rw [if_pos h, if_neg h']
      exact ⟨fun _ => ⟨h, h'⟩, fun _ => rfl⟩
  · rw [if_neg h]
    exact ⟨fun hf => absurd hf Bool.false_ne_true, fun hf => absurd hf.1 h⟩

theorem isSame_eq_false {x y : Str} : isSame x y = .ok false ↔ ¬ isSame x y = .ok true := by
  rw [isSame_eq]
  cases same x y <;> simp

theorem sameSlice_comm (x y : Str) : sameSlice x y = sameSlice y x := by
  rw [Bool.eq_iff_iff, sameSlice_iff, sameSlice_iff]
  constructor
  · rintro ⟨rfl, h⟩; exact ⟨rfl, h⟩
  · rintro ⟨rfl, h⟩; exact ⟨rfl, h⟩

/-- **`is_same` is symmetric**: the first two branches treat their lines alike, and
    the last two are each other's mirror image. -/
theorem isSame_comm (x y : Str) : isSame x y = isSame y x := by
  have hend : ∀ {s : Str} {i : ℕ}, find s [','] = some i → ∃ r, getEndLoc s i = .ok r :=
    fun h => getEndLoc_ok (find_lt (by simp) h).le
  rw [isSame, isSame]
  simp only
  cases hx : find (dropSpaces x) [','] with
  | none => cases find (dropSpaces y) [','] <;> simp only [ite_self]
  | some i =>
    cases hy : find (dropSpaces y) [','] with
    | none => simp only [ite_self]
    | some j =>
      obtain ⟨r, hr⟩ := hend hx
      obtain ⟨r', hr'⟩ := hend hy
      simp only [hr, hr', ok_bind]
      -- the branch is chosen by the names in the lines
      generalize (find (dropSpaces x) "get_user".toList).isSome = gx
      generalize (find (dropSpaces y) "get_user".toList).isSome = gy
      generalize (find (dropSpaces x) "copy_from_user".toList).isSome = cx
      generalize (find (dropSpaces y) "copy_from_user".toList).isSome = cy
      cases gx <;> cases gy <;> cases cx <;> cases cy <;>
        simp only [Bool.false_eq_true, and_self, and_false, false_and, if_true, if_false] <;>
        cases r <;> cases r' <;> cases findFrom (dropSpaces x) [','] (i + 1) <;>
        cases findFrom (dropSpaces y) [','] (j + 1) <;> simp only [sameSlice_comm]

/-! ## The closing parenthesis -/

/-- One iteration of `get_end_loc`. -/
theorem endLoop_step (A r : Str) (x : Char) (left right : ℕ) :
    endLoop (A ++ x :: r) A.length left right =
      if x = ')' ∧ left = right then .ok (some A.length)
      else if r = [] then .ok none
      else endLoop ((A ++ [x]) ++ r) (A ++ [x]).length (left + [x].count '(')
        (right + [x].count ')') := by
  have hx : (A ++ x :: r)[A.length]? = some x := by simp
  rw [endLoop]
  split
  · rename_i h; rw [hx] at h; cases h
  · rename_i ch h
    rw [hx] at h
    obtain rfl := Option.some.inj h
    have hr : A.length + 1 = A.length + (x :: r).length ↔ r = [] := by
      rw [← List.length_eq_zero_iff, List.length_cons]; omega
    have hleft : (if x = '(' then left + 1 else left) = left + [x].count '(' := by
      rw [List.count_singleton]
      by_cases hx : x = '(' <;> simp [hx]
    have hright : (if x = ')' then right + 1 else right) = right + [x].count ')' := by
      rw [List.count_singleton]
      by_cases hx : x = ')' <;> simp [hx]
    have hclose : (x = ')' ∧ left + [x].count '(' + 1 = right + [x].count ')') ↔
        x = ')' ∧ left = right := by
      refine and_congr_right ?_
      rintro rfl
      simp
    simp only [hleft, hright, hclose, hr, pure_eq_ok, List.length_append, List.length_singleton,
      List.append_assoc, List.singleton_append]

/-- The counters of the scan at the head of `u`: none of its prefixes is closed. -/
def Unclosed (u : Str) (left right : ℕ) : Prop :=
  ∀ p, p <+: u → right + p.count ')' ≤ left + p.count '('

theorem Unclosed.step {x : Char} {u : Str} {left right : ℕ} (h : Unclosed (x :: u) left right) :
    ¬ (x = ')' ∧ left = right) ∧
      Unclosed u (left + [x].count '(') (right + [x].count ')') := by
  constructor
  · rintro ⟨rfl, rfl⟩
    have := h [')'] (List.cons_prefix_cons.2 ⟨rfl, List.nil_prefix⟩)
    rw [List.count_singleton_self, List.count_singleton] at this
    simp only [beq_iff_eq, Char.reduceEq, if_false] at this
    omega
  · intro p hp
    have := h ([x] ++ p) (List.cons_prefix_cons.2 ⟨rfl, hp⟩)
    rw [List.count_append, List.count_append] at this
    omega

/-- The scan stops at the parenthesis that closes. -/
theorem endLoop_closed (t : Str) : ∀ (u A : Str) (left right : ℕ), Unclosed u left right →
    right + u.count ')' = left + u.count '(' →
    endLoop (A ++ (u ++ ')' :: t)) A.length left right = .ok (some (A.length + u.length))
  | [], A, left, right, _, hc => by
    rw [List.nil_append, endLoop_step, if_pos ⟨rfl, hc.symm⟩]
    rfl
  | x :: u, A, left, right, h, hc => by
    obtain ⟨hne, hu⟩ := h.step
    have hcount : right + [x].count ')' + u.count ')' = left + [x].count '(' + u.count '(' := by
      rw [← List.singleton_append, List.count_append, List.count_append] at hc
      omega
    rw [List.cons_append, endLoop_step, if_neg hne, if_neg (by simp), endLoop_closed t u _ _ _ hu hcount]
    simp only [List.length_append, List.length_cons, List.length_nil, Except.ok.injEq, Option.some.injEq]
    omega

/-- If nothing closes, it stops at the end of the line. -/
theorem endLoop_open : ∀ (u A : Str) (left right : ℕ), u ≠ [] → Unclosed u left right →
    endLoop (A ++ u) A.length left right = .ok none
  | [], _, _, _, hne, _ => absurd rfl hne
  | x :: u, A, left, right, _, h => by
    obtain ⟨hne, hu⟩ := h.step
    rw [endLoop_step, if_neg hne]
    split_ifs with hnil
    · rfl
    · exact endLoop_open u _ _ _ hnil hu

theorem unclosed_comma {u : Str} (h : NoExcess '(' ')' u) : Unclosed (',' :: u) 0 0 := by
  intro p hp
  rcases List.prefix_cons_iff.1 hp with rfl | ⟨q, rfl, hq⟩
  · simp
  · have := h q hq
    rw [List.count_cons_of_ne (by decide), List.count_cons_of_ne (by decide)]
    omega

theorem slice_append (A u t : Str) : slice (A ++ (u ++ t)) A.length (A.length + u.length) = u := by
  rw [slice, List.take_length_add_append, List.take_left, List.drop_left]

/-- **`get_end_loc` from the comma in front of `r`**: it finds the end of the
    balanced text that is closed in `r`, if there is one. -/
theorem getEndLoc_spec (A r : Str) :
    (NoExcess '(' ')' r ∧ getEndLoc (A ++ ',' :: r) A.length = .ok none) ∨
    ∃ w, Balanced '(' ')' w ∧ w ++ [')'] <+: r ∧ ∃ e,
      getEndLoc (A ++ ',' :: r) A.length = .ok (some e) ∧
      slice (A ++ ',' :: r) A.length e = ',' :: w := by
  have hstart : (A ++ ',' :: r).length ≠ A.length := by simp
  rw [getEndLoc, if_neg hstart]
  rcases noExcess_or_closed (show '(' ≠ ')' by decide) r with h | ⟨w, t, rfl, hw⟩
  · exact Or.inl ⟨h, endLoop_open _ A 0 0 (by simp) (unclosed_comma h)⟩
  · have hc : 0 + (',' :: w).count ')' = 0 + (',' :: w).count '(' := by
      rw [List.count_cons_of_ne (by decide), List.count_cons_of_ne (by decide), hw.count]
    rw [← List.cons_append]
    exact Or.inr ⟨w, hw, ⟨t, by simp⟩, _, endLoop_closed t _ A 0 0 (unclosed_comma hw.noExcess) hc,
      slice_append ..⟩

/-- The next comma. -/
theorem findFrom_spec (A r : Str) :
    (',' ∉ r ∧ findFrom (A ++ ',' :: r) [','] (A.length + 1) = none) ∨
    ∃ w, ',' ∉ w ∧ w ++ [','] <+: r ∧ ∃ e, findFrom (A ++ ',' :: r) [','] (A.length + 1) = some e ∧
      slice (A ++ ',' :: r) (A.length + 1) e = w := by
  have hcat : A ++ ',' :: r = (A ++ [',']) ++ r := by simp
  have hlen : A.length + 1 = (A ++ [',']).length := by simp
  rw [findFrom, hcat, hlen, List.drop_left]
  by_cases h : ',' ∈ r
  · obtain ⟨w, t, rfl, hw⟩ := List.eq_append_cons_of_mem h
    rw [find_char t hw]
    refine Or.inr ⟨w, hw, ⟨t, by simp⟩, (A ++ [',']).length + w.length, ?_, slice_append ..⟩
    rw [Option.map_some, Nat.add_comm]
  · exact Or.inl ⟨h, by rw [find_char_none h]; rfl⟩

/-! ## The branches -/

theorem plusPlus_comma {w : Str} : "++".toList <:+: ',' :: w ↔ "++".toList <:+: w := by
  rw [← List.nil_append (',' :: w), infix_append_cons (by decide)]
  exact or_iff_right (by decide)

section
variable {x y A B r₁ r₂ : Str} (hx : dropSpaces x = A ++ ',' :: r₁) (hA : ',' ∉ A)
  (hy : dropSpaces y = B ++ ',' :: r₂) (hB : ',' ∉ B)
include hx hA hy hB

/-- **Two calls of `get_user`**: the texts from the first comma up to the closing
    parentheses agree. -/
theorem isSame_both_getUser (hgx : "get_user".toList <:+: dropSpaces x)
    (hgy : "get_user".toList <:+: dropSpaces y) :
    isSame x y = .ok true ↔ ∃ w, Balanced '(' ')' w ∧ w ++ [')'] <+: r₁ ∧ w ++ [')'] <+: r₂ ∧
      ¬ "++".toList <:+: w := by
  have hoc : '(' ≠ ')' := by decide
  rw [← find_isSome, hx] at hgx
  rw [← find_isSome, hy] at hgy
  rw [isSame]
  simp only [hx, hy, hgx, hgy, and_self, if_true, find_char _ hA, find_char _ hB]
  rcases getEndLoc_spec A r₁ with ⟨h₁, he₁⟩ | ⟨w₁, hw₁, hp₁, e₁, he₁, hs₁⟩ <;>
    rcases getEndLoc_spec B r₂ with ⟨h₂, he₂⟩ | ⟨w₂, hw₂, hp₂, e₂, he₂, hs₂⟩ <;>
    simp only [he₁, he₂, ok_bind, pure_eq_ok, Except.ok.injEq, Bool.false_eq_true, false_iff]
  · rintro ⟨w, hw, hp, -⟩; exact hw.not_closed hoc h₁ hp
  · rintro ⟨w, hw, hp, -⟩; exact hw.not_closed hoc h₁ hp
  · rintro ⟨w, hw, -, hp, -⟩; exact hw.not_closed hoc h₂ hp
  · rw [hs₁, hs₂, sameSlice_iff, plusPlus_comma, List.cons.injEq]
    constructor
    · rintro ⟨⟨-, rfl⟩, hpp⟩; exact ⟨w₁, hw₁, hp₁, hp₂, hpp⟩
    · rintro ⟨w, hw, h₁, h₂, hpp⟩
      obtain rfl := hw.eq_of_closed hoc hw₁ h₁ hp₁
      obtain rfl := hw.eq_of_closed hoc hw₂ h₂ hp₂
      exact ⟨⟨rfl, rfl⟩, hpp⟩

/-- **Two calls of `copy_from_user`**: the texts between the first two commas
    agree. -/
theorem isSame_both_copyFromUser
    (hg : ¬ ("get_user".toList <:+: dropSpaces x ∧ "get_user".toList <:+: dropSpaces y))
    (hcx : "copy_from_user".toList <:+: dropSpaces x)
    (hcy : "copy_from_user".toList <:+: dropSpaces y) :
    isSame x y = .ok true ↔ ∃ w, ',' ∉ w ∧ w ++ [','] <+: r₁ ∧ w ++ [','] <+: r₂ ∧
      ¬ "++".toList <:+: w := by
  rw [← find_isSome, ← find_isSome, hx, hy] at hg
  rw [← find_isSome, hx] at hcx
  rw [← find_isSome, hy] at hcy
  rw [isSame]
  simp only [hx, hy, hg, hcx, hcy, and_self, if_true, if_false, find_char _ hA, find_char _ hB]
  rcases findFrom_spec A r₁ with ⟨h₁, he₁⟩ | ⟨w₁, hw₁, hp₁, e₁, he₁, hs₁⟩ <;>
    rcases findFrom_spec B r₂ with ⟨h₂, he₂⟩ | ⟨w₂, hw₂, hp₂, e₂, he₂, hs₂⟩ <;>
    simp only [he₁, he₂, pure_eq_ok, Except.ok.injEq, Bool.false_eq_true, false_iff]
  · rintro ⟨w, -, hp, -⟩; exact h₁ (hp.subset (by simp))
  · rintro ⟨w, -, hp, -⟩; exact h₁ (hp.subset (by simp))
  · rintro ⟨w, -, -, hp, -⟩; exact h₂ (hp.subset (by simp))
  · rw [hs₁, hs₂, sameSlice_iff]
    constructor
    · rintro ⟨rfl, hpp⟩; exact ⟨w₁, hw₁, hp₁, hp₂, hpp⟩
    · rintro ⟨w, hw, h₁, h₂, hpp⟩
      obtain rfl := eq_of_marked hw hw₁ h₁ hp₁
      obtain rfl := eq_of_marked hw hw₂ h₂ hp₂
      exact ⟨rfl, hpp⟩

/-- **A call of each**: the slice of `get_user` has the first comma, the other one
    has none. -/
theorem isSame_mixed (hgx : "get_user".toList <:+: dropSpaces x)
    (hgy : ¬ "get_user".toList <:+: dropSpaces y)
    (hcx : ¬ "copy_from_user".toList <:+: dropSpaces x)
    (hcy : "copy_from_user".toList <:+: dropSpaces y) : isSame x y = .ok false := by
  rw [← find_isSome, hx] at hgx hcx
  rw [← find_isSome, hy] at hgy hcy
  rw [isSame]
  simp only [hx, hy, hgx, hgy, hcx, hcy, Bool.false_eq_true, and_self, and_false, false_and, if_true,
    if_false, find_char _ hA, find_char _ hB]
  rcases getEndLoc_spec A r₁ with ⟨h₁, he₁⟩ | ⟨w₁, -, -, e₁, he₁, hs₁⟩
  · simp only [he₁, ok_bind, pure_eq_ok]
  · rcases findFrom_spec B r₂ with ⟨h₂, he₂⟩ | ⟨w₂, hw₂, -, e₂, he₂, hs₂⟩
    · simp only [he₁, he₂, ok_bind, pure_eq_ok]
    · simp only [he₁, he₂, ok_bind, pure_eq_ok, hs₁, hs₂, Except.ok.injEq]
      rw [← Bool.not_eq_true, sameSlice_iff]
      rintro ⟨rfl, -⟩
      exact hw₂ (List.mem_cons_self ..)

end

/-! ## Calls

The lines of the fetches with their arguments: a destination `d`, a source `s`, for
`copy_from_user` a size `n`, and the rest `t` of the line. -/

def getUserCall (d s t : Str) : Str :=
  "get_user(".toList ++ d ++ [','] ++ s ++ [')'] ++ t

def copyFromUserCall (d s n t : Str) : Str :=
  "copy_from_user(".toList ++ d ++ [','] ++ s ++ [','] ++ n ++ [')'] ++ t

/-- A call of `get_user` that is cut off. -/
def getUserCut (d u : Str) : Str := "get_user(".toList ++ d ++ [','] ++ u

/-- The sources are equal up to spaces, and without an increment. -/
def SameSource (s₁ s₂ : Str) : Prop :=
  dropSpaces s₁ = dropSpaces s₂ ∧ ¬ "++".toList <:+: dropSpaces s₁

instance (s₁ s₂ : Str) : Decidable (SameSource s₁ s₂) := inferInstanceAs (Decidable (_ ∧ _))

section
variable {d s n t u : Str}

theorem dropSpaces_names : dropSpaces "get_user(".toList = "get_user(".toList ∧
    dropSpaces "copy_from_user(".toList = "copy_from_user(".toList := by decide

theorem dropSpaces_marks (r : Str) : dropSpaces (',' :: r) = ',' :: dropSpaces r ∧
    dropSpaces (')' :: r) = ')' :: dropSpaces r := ⟨rfl, rfl⟩

theorem dropSpaces_getUserCall : dropSpaces (getUserCall d s t) =
    ("get_user(".toList ++ dropSpaces d) ++ ',' :: (dropSpaces s ++ ')' :: dropSpaces t) := by
  unfold getUserCall
  simp only [dropSpaces_append, dropSpaces_names, dropSpaces_marks, List.append_assoc,
    List.cons_append, List.nil_append]

theorem dropSpaces_getUserCut : dropSpaces (getUserCut d u) =
    ("get_user(".toList ++ dropSpaces d) ++ ',' :: dropSpaces u := by
  unfold getUserCut
  simp only [dropSpaces_append, dropSpaces_names, dropSpaces_marks, List.append_assoc,
    List.cons_append, List.nil_append]

theorem dropSpaces_copyFromUserCall : dropSpaces (copyFromUserCall d s n t) =
    ("copy_from_user(".toList ++ dropSpaces d) ++
      ',' :: (dropSpaces s ++ ',' :: (dropSpaces n ++ ')' :: dropSpaces t)) := by
  unfold copyFromUserCall
  simp only [dropSpaces_append, dropSpaces_names, dropSpaces_marks, List.append_assoc,
    List.cons_append, List.nil_append]

/-- The names begin their calls. -/
theorem name_infix {p w : Str} (h : p <+: w) (r : Str) : p <:+: (w ++ dropSpaces d) ++ r :=
  (h.trans ((List.prefix_append ..).trans (List.prefix_append ..))).isInfix

theorem getUser_infix (r : Str) : "get_user".toList <:+: ("get_user(".toList ++ dropSpaces d) ++ r :=
  name_infix (by decide) r

theorem copyFromUser_infix (r : Str) :
    "copy_from_user".toList <:+: ("copy_from_user(".toList ++ dropSpaces d) ++ r :=
  name_infix (by decide) r

/-- There is no comma in front of the source. -/
theorem comma_destination {w : Str} (hw : ',' ∉ w) (hd : ',' ∉ d) : ',' ∉ w ++ dropSpaces d := by
  rw [List.mem_append, not_or]
  exact ⟨hw, mt mem_dropSpaces hd⟩

theorem comma_getUser (hd : ',' ∉ d) : ',' ∉ "get_user(".toList ++ dropSpaces d :=
  comma_destination (by decide) hd

theorem comma_copyFromUser (hd : ',' ∉ d) : ',' ∉ "copy_from_user(".toList ++ dropSpaces d :=
  comma_destination (by decide) hd

theorem balanced_dropSpaces (hs : Balanced '(' ')' s) : Balanced '(' ')' (dropSpaces s) :=
  hs.filter (by decide) (by decide)

end

/-! ## Two calls of `get_user` -/

/-- **`is_same` decides whether two calls of `get_user` read the same source**; a
    call that is cut off is the same as no other. -/
theorem isSame_getUser :
    (∀ d₁ d₂ s₁ s₂ t₁ t₂ : Str, ',' ∉ d₁ → ',' ∉ d₂ → Balanced '(' ')' s₁ → Balanced '(' ')' s₂ →
      (isSame (getUserCall d₁ s₁ t₁) (getUserCall d₂ s₂ t₂) = .ok true ↔ SameSource s₁ s₂)) ∧
    ∀ d u y : Str, ',' ∉ d → NoExcess '(' ')' u → "get_user".toList <:+: dropSpaces y →
      isSame (getUserCut d u) y = .ok false ∧ isSame y (getUserCut d u) = .ok false := by
  have hoc : '(' ≠ ')' := by decide
  constructor
  · intro d₁ d₂ s₁ s₂ t₁ t₂ hd₁ hd₂ hs₁ hs₂
    have hb₁ := balanced_dropSpaces hs₁
    have hb₂ := balanced_dropSpaces hs₂
    rw [isSame_both_getUser dropSpaces_getUserCall (comma_getUser hd₁) dropSpaces_getUserCall
      (comma_getUser hd₂) (dropSpaces_getUserCall ▸ getUser_infix _)
      (dropSpaces_getUserCall ▸ getUser_infix _)]
    constructor
    · rintro ⟨w, hw, h₁, h₂, hpp⟩
      obtain rfl := hw.eq_of_closed hoc hb₁ h₁ ⟨dropSpaces t₁, by simp⟩
      exact ⟨hw.eq_of_closed hoc hb₂ h₂ ⟨dropSpaces t₂, by simp⟩, hpp⟩
    · rintro ⟨h, hpp⟩
      exact ⟨dropSpaces s₁, hb₁, ⟨dropSpaces t₁, by simp⟩, ⟨dropSpaces t₂, by simp [h]⟩, hpp⟩
  · intro d u y hd hu hy
    have hcut : isSame (getUserCut d u) y = .ok false := by
      by_cases hc : ',' ∈ dropSpaces y
      · obtain ⟨B, r, hB, hB'⟩ := List.eq_append_cons_of_mem hc
        rw [isSame_eq_false, isSame_both_getUser dropSpaces_getUserCut (comma_getUser hd) hB hB'
          (dropSpaces_getUserCut ▸ getUser_infix _) hy]
        rintro ⟨w, hw, h, -⟩
        exact hw.not_closed hoc (hu.filter (by decide) (by decide)) h
      · rw [isSame]
        simp only [find_char_none hc]
        cases find (dropSpaces (getUserCut d u)) [','] <;> simp only [ite_self, pure_eq_ok]
    exact ⟨hcut, (isSame_comm ..).trans hcut⟩

theorem isSame_getUser_nested :
    isSame (getUserCall "a".toList "f(p, q)".toList ";".toList)
      (getUserCall "b".toList "f(p,q)".toList ";".toList) = .ok true ∧
    isSame (getUserCut "a".toList "f(p".toList)
      (getUserCall "b".toList "f(p)".toList ";".toList) = .ok false := by
  obtain ⟨h₁, h₂⟩ := isSame_getUser
  exact ⟨(h₁ _ _ _ _ _ _ (by decide) (by decide) (by decide) (by decide)).2 (by decide),
    (h₂ _ _ _ (by decide) (by decide) (by decide)).1⟩

/-! ## A call of each -/

/-- `is_same` recognises a source across the two kinds of fetch. -/
def Recognised (x y s₁ s₂ : Str) : Prop :=
  (isSame x y = .ok true ↔ SameSource s₁ s₂) ∧ (isSame y x = .ok true ↔ SameSource s₁ s₂)

section
variable {d₁ d₂ s₁ s₂ t₁ t₂ n : Str} (hd₁ : ',' ∉ d₁) (hd₂ : ',' ∉ d₂) (hs₁ : Balanced '(' ')' s₁)
  (hs₂ : Balanced '(' ')' s₂) (hc₁ : ',' ∉ s₁) (hc₂ : ',' ∉ s₂)
include hd₁ hd₂ hs₁ hs₂ hc₁ hc₂

/-- The two kinds are never the same, also where a line has both names. -/
theorem isSame_getUser_copyFromUser :
    isSame (getUserCall d₁ s₁ t₁) (copyFromUserCall d₂ s₂ n t₂) = .ok false := by
  have hb₁ := balanced_dropSpaces hs₁
  have hb₂ := balanced_dropSpaces hs₂
  have hx : dropSpaces (getUserCall d₁ s₁ t₁) = _ := dropSpaces_getUserCall
  have hy : dropSpaces (copyFromUserCall d₂ s₂ n t₂) = _ := dropSpaces_copyFromUserCall
  have hA := comma_getUser hd₁
  have hB := comma_copyFromUser hd₂
  have hgx : "get_user".toList <:+: dropSpaces (getUserCall d₁ s₁ t₁) := hx ▸ getUser_infix _
  have hcy : "copy_from_user".toList <:+: dropSpaces (copyFromUserCall d₂ s₂ n t₂) :=
    hy ▸ copyFromUser_infix _
  -- one source is closed where the other one is cut at a comma
  have key : ∀ {u}, dropSpaces s₁ ++ [')'] <+: u → dropSpaces s₂ ++ [','] <+: u → False := by
    intro u h₁ h₂
    rcases marked_cases h₁ h₂ with ⟨-, h⟩ | h | h
    · revert h; decide
    · exact hb₁.not_closed (by decide) hb₂.noExcess h
    · exact hc₁ (mem_dropSpaces (h.subset (by simp)))
  by_cases hgy : "get_user".toList <:+: dropSpaces (copyFromUserCall d₂ s₂ n t₂)
  · rw [isSame_eq_false, isSame_both_getUser hx hA hy hB hgx hgy]
    rintro ⟨w, hw, h₁, h₂, -⟩
    obtain rfl := hw.eq_of_closed (by decide) hb₁ h₁ ⟨dropSpaces t₁, by simp⟩
    exact key h₂ ⟨dropSpaces n ++ ')' :: dropSpaces t₂, by simp⟩
  · by_cases hcx : "copy_from_user".toList <:+: dropSpaces (getUserCall d₁ s₁ t₁)
    · rw [isSame_eq_false, isSame_both_copyFromUser hx hA hy hB (fun h => hgy h.2) hcx hcy]
      rintro ⟨w, hw, h₁, h₂, -⟩
      obtain rfl := eq_of_marked hw (mt mem_dropSpaces hc₂) h₂
        ⟨dropSpaces n ++ ')' :: dropSpaces t₂, by simp⟩
      exact key ⟨dropSpaces t₁, by simp⟩ h₁
    · exact isSame_mixed hx hA hy hB hgx hgy hcx hcy

/-- **No source is recognised across the kinds**: the answer is right exactly for
    different sources. -/
theorem recognised_iff :
    Recognised (getUserCall d₁ s₁ t₁) (copyFromUserCall d₂ s₂ n t₂) s₁ s₂ ↔ ¬ SameSource s₁ s₂ := by
  have h : isSame (getUserCall d₁ s₁ t₁) (copyFromUserCall d₂ s₂ n t₂) = .ok false :=
    isSame_getUser_copyFromUser hd₁ hd₂ hs₁ hs₂ hc₁ hc₂
  rw [Recognised, isSame_comm (copyFromUserCall d₂ s₂ n t₂), h]
  simp

end

/-- The length is fetched, then the buffer that begins with it: the classic double
    fetch is not recognised. -/
theorem lengthThenBuffer_not_recognised : SameSource "p".toList "p".toList ∧
    ¬ Recognised (getUserCall "len".toList "p".toList ";".toList)
      (copyFromUserCall "buf".toList "p".toList "len".toList ";".toList) "p".toList "p".toList := by
  have h : isSame (getUserCall "len".toList "p".toList ";".toList)
      (copyFromUserCall "buf".toList "p".toList "len".toList ";".toList) = .ok false :=
    isSame_getUser_copyFromUser (by decide) (by decide) (by decide) (by decide) (by decide) (by decide)
  have hs : SameSource "p".toList "p".toList := by decide
  refine ⟨hs, fun hr => ?_⟩
  have := hr.1.2 hs
  rw [h] at this
  cases this

theorem recognised_iff_twoBuffers :
    Recognised (getUserCall "len".toList "p".toList ";".toList)
      (copyFromUserCall "buf".toList "q".toList "len".toList ";".toList) "p".toList "q".toList :=
  (recognised_iff (by decide) (by decide) (by decide) (by decide) (by decide) (by decide)).2
    (by decide)

/-! ## Two calls of `copy_from_user` -/

/-- The source up to its first comma, and the rest. -/
def beforeComma (s : Str) : Str := s.takeWhile (· ≠ ',')

def fromComma (s : Str) : Str := s.dropWhile (· ≠ ',')

/-- The sources do not part behind the first comma: if they agree in front of it,
    without an increment, then also from there on. -/
def AgreeBehindComma (s₁ s₂ : Str) : Prop :=
  beforeComma s₁ = beforeComma s₂ ∧ ¬ "++".toList <:+: beforeComma s₁ →
    fromComma s₁ = fromComma s₂ ∧ ¬ "++".toList <:+: fromComma s₁

/-- The texts agree up to the parenthesis that closes them, without an increment. -/
def AgreeToClose (r₁ r₂ : Str) : Prop :=
  ∃ w, Balanced '(' ')' w ∧ w ++ [')'] <+: r₁ ∧ w ++ [')'] <+: r₂ ∧ ¬ "++".toList <:+: w

section
variable {s r : Str}

theorem comma_beforeComma : ',' ∉ beforeComma s := by
  intro h
  have := List.all_eq_true.1 List.all_takeWhile _ h
  simp at this

theorem beforeComma_append : beforeComma s ++ fromComma s = s := List.takeWhile_append_dropWhile

theorem fromComma_cases : fromComma s = [] ∨ ∃ t, fromComma s = ',' :: t := by
  induction s with
  | nil => exact Or.inl rfl
  | cons x s ih =>
    rw [fromComma, List.dropWhile_cons]
    split_ifs with hx
    · exact ih
    · obtain rfl : x = ',' := by simpa using hx
      exact Or.inr ⟨s, rfl⟩

theorem beforeComma_marked : beforeComma s ++ [','] <+: s ++ ',' :: r := by
  have hs := beforeComma_append (s := s)
  rcases fromComma_cases (s := s) with h | ⟨t, h⟩
  · rw [h, List.append_nil] at hs
    exact ⟨r, by rw [hs]; simp⟩
  · rw [h] at hs
    refine ⟨t ++ ',' :: r, ?_⟩
    conv_rhs => rw [← hs]
    simp

theorem plusPlus_beforeComma :
    "++".toList <:+: s ↔ "++".toList <:+: beforeComma s ∨ "++".toList <:+: fromComma s := by
  have hs := beforeComma_append (s := s)
  rcases fromComma_cases (s := s) with h | ⟨t, h⟩
  · rw [h, List.append_nil] at hs
    rw [hs, h]
    exact (or_iff_left (by decide)).symm
  · rw [h] at hs ⊢
    rw [plusPlus_comma, ← infix_append_cons (show ',' ∉ "++".toList by decide), hs]

end

/-- Where the answer for two calls of `copy_from_user` is right: the sources do not
    part behind the first comma.  Lines that both contain the other name (as in
    `get_ user`) are compared up to the closing parentheses; there, the rest of the
    arguments must not part calls of the same source. -/
def SourceSeen (d₁ s₁ n₁ t₁ d₂ s₂ n₂ t₂ : Str) : Prop :=
  if "get_user".toList <:+: dropSpaces (copyFromUserCall d₁ s₁ n₁ t₁) ∧
      "get_user".toList <:+: dropSpaces (copyFromUserCall d₂ s₂ n₂ t₂) then
    SameSource s₁ s₂ →
      AgreeToClose (dropSpaces (n₁ ++ [')'] ++ t₁)) (dropSpaces (n₂ ++ [')'] ++ t₂))
  else AgreeBehindComma (dropSpaces s₁) (dropSpaces s₂)

section
variable {d₁ d₂ s₁ s₂ n₁ n₂ t₁ t₂ : Str} (hd₁ : ',' ∉ d₁) (hd₂ : ',' ∉ d₂)

/-- The parts of the sources in front of their first commas are compared. -/
theorem agreeBehindComma_iff : AgreeBehindComma s₁ s₂ ↔
    ((beforeComma s₁ = beforeComma s₂ ∧ ¬ "++".toList <:+: beforeComma s₁) ↔
      (s₁ = s₂ ∧ ¬ "++".toList <:+: s₁)) := by
  rw [AgreeBehindComma, plusPlus_beforeComma (s := s₁), not_or]
  constructor
  · intro h
    constructor
    · rintro ⟨he, hpp⟩
      obtain ⟨hf, hpp'⟩ := h ⟨he, hpp⟩
      exact ⟨by rw [← beforeComma_append (s := s₁), he, hf, beforeComma_append], hpp, hpp'⟩
    · rintro ⟨rfl, hpp, -⟩; exact ⟨rfl, hpp⟩
  · intro h hb
    obtain ⟨rfl, -, hpp⟩ := h.1 hb
    exact ⟨rfl, hpp⟩

include hd₁ hd₂

/-- Up to the first comma. -/
theorem isSame_copyFromUser_comma
    (hg : ¬ ("get_user".toList <:+: dropSpaces (copyFromUserCall d₁ s₁ n₁ t₁) ∧
      "get_user".toList <:+: dropSpaces (copyFromUserCall d₂ s₂ n₂ t₂))) :
    isSame (copyFromUserCall d₁ s₁ n₁ t₁) (copyFromUserCall d₂ s₂ n₂ t₂) = .ok true ↔
      beforeComma (dropSpaces s₁) = beforeComma (dropSpaces s₂) ∧
        ¬ "++".toList <:+: beforeComma (dropSpaces s₁) := by
  have hx : dropSpaces (copyFromUserCall d₁ s₁ n₁ t₁) = _ := dropSpaces_copyFromUserCall
  have hy : dropSpaces (copyFromUserCall d₂ s₂ n₂ t₂) = _ := dropSpaces_copyFromUserCall
  rw [isSame_both_copyFromUser hx (comma_copyFromUser hd₁) hy (comma_copyFromUser hd₂) hg
    (hx ▸ copyFromUser_infix _) (hy ▸ copyFromUser_infix _)]
  constructor
  · rintro ⟨w, hw, h₁, h₂, hpp⟩
    obtain rfl := eq_of_marked hw comma_beforeComma h₁ beforeComma_marked
    exact ⟨eq_of_marked hw comma_beforeComma h₂ beforeComma_marked, hpp⟩
  · rintro ⟨he, hpp⟩
    exact ⟨_, comma_beforeComma, beforeComma_marked, he ▸ beforeComma_marked, hpp⟩

/-- Up to the closing parenthesis. -/
theorem isSame_copyFromUser_close (hs₁ : Balanced '(' ')' s₁) (hs₂ : Balanced '(' ')' s₂)
    (hc₁ : Nested '(' ')' ',' s₁) (hc₂ : Nested '(' ')' ',' s₂)
    (hgx : "get_user".toList <:+: dropSpaces (copyFromUserCall d₁ s₁ n₁ t₁))
    (hgy : "get_user".toList <:+: dropSpaces (copyFromUserCall d₂ s₂ n₂ t₂)) :
    isSame (copyFromUserCall d₁ s₁ n₁ t₁) (copyFromUserCall d₂ s₂ n₂ t₂) = .ok true ↔
      SameSource s₁ s₂ ∧
        AgreeToClose (dropSpaces (n₁ ++ [')'] ++ t₁)) (dropSpaces (n₂ ++ [')'] ++ t₂)) := by
  have hx : dropSpaces (copyFromUserCall d₁ s₁ n₁ t₁) = _ := dropSpaces_copyFromUserCall
  have hy : dropSpaces (copyFromUserCall d₂ s₂ n₂ t₂) = _ := dropSpaces_copyFromUserCall
  have hrest : ∀ n t, dropSpaces (n ++ [')'] ++ t) = dropSpaces n ++ ')' :: dropSpaces t := by
    intro n t
    simp only [dropSpaces_append, dropSpaces_marks, List.append_assoc, List.cons_append,
      List.nil_append]
  rw [isSame_both_getUser hx (comma_copyFromUser hd₁) hy (comma_copyFromUser hd₂) hgx hgy, hrest,
    hrest]
  have hb₁ := balanced_dropSpaces hs₁
  have hb₂ := balanced_dropSpaces hs₂
  have hco : ',' ≠ '(' := by decide
  have hcc : ',' ≠ ')' := by decide
  constructor
  · rintro ⟨w, hw, h₁, h₂, hpp⟩
    obtain ⟨w₁, hw₁, hb, hp₁⟩ := hb₁.split_sep (by decide) hco hcc hw h₁
    obtain ⟨w₂, hw₂, -, hp₂⟩ := hb₂.split_sep (by decide) hco hcc hw h₂
    have he : dropSpaces s₁ = dropSpaces s₂ :=
      hb₁.eq_of_sep hb₂ (hc₁.filter (by decide) (by decide)) (hc₂.filter (by decide) (by decide))
        (u := w) ⟨w₁, by rw [hw₁]; simp⟩ ⟨w₂, by rw [hw₂]; simp⟩
    rw [hw₁, he] at hw₂
    obtain rfl := (List.cons.inj (List.append_cancel_left hw₂)).2
    rw [hw₁, infix_append_cons (by decide), not_or] at hpp
    exact ⟨⟨he, hpp.1⟩, w₁, hb, hp₁, hp₂, hpp.2⟩
  · rintro ⟨⟨he, hpp⟩, w, hw, h₁, h₂, hpp'⟩
    refine ⟨dropSpaces s₁ ++ ',' :: w, hb₁.join_sep hco hcc hw, ?_, ?_, ?_⟩
    · rw [List.append_assoc, List.prefix_append_right_inj]
      exact List.cons_prefix_cons.2 ⟨rfl, h₁⟩
    · rw [he, List.append_assoc, List.prefix_append_right_inj]
      exact List.cons_prefix_cons.2 ⟨rfl, h₂⟩
    · rw [infix_append_cons (by decide)]
      exact not_or.2 ⟨hpp, hpp'⟩

/-- **Where two calls of `copy_from_user` are told apart by their sources.** -/
theorem isSame_copyFromUser_iff (hs₁ : Balanced '(' ')' s₁) (hs₂ : Balanced '(' ')' s₂)
    (hc₁ : Nested '(' ')' ',' s₁) (hc₂ : Nested '(' ')' ',' s₂) :
    (isSame (copyFromUserCall d₁ s₁ n₁ t₁) (copyFromUserCall d₂ s₂ n₂ t₂) = .ok true ↔
      SameSource s₁ s₂) ↔ SourceSeen d₁ s₁ n₁ t₁ d₂ s₂ n₂ t₂ := by
  unfold SourceSeen
  split_ifs with hg
  · rw [isSame_copyFromUser_close hd₁ hd₂ hs₁ hs₂ hc₁ hc₂ hg.1 hg.2]
    exact and_iff_left_iff_imp
  · rw [isSame_copyFromUser_comma hd₁ hd₂ hg, agreeBehindComma_iff, SameSource]

end

/-- Two sources that part behind a comma. -/
theorem sameUpToComma_not_told_apart :
    ¬ (isSame (copyFromUserCall "a".toList "f(x,y)".toList "n".toList ";".toList)
      (copyFromUserCall "a".toList "f(x,z)".toList "n".toList ";".toList) = .ok true ↔
        SameSource "f(x,y)".toList "f(x,z)".toList) := by
  have h : isSame (copyFromUserCall "a".toList "f(x,y)".toList "n".toList ";".toList)
      (copyFromUserCall "a".toList "f(x,z)".toList "n".toList ";".toList) = .ok true :=
    (isSame_copyFromUser_comma (by decide) (by decide) (by decide)).2 (by decide)
  rw [h]
  decide

theorem isSame_copyFromUser_iff_nested :
    isSame (copyFromUserCall "a".toList "f(x, y)".toList "n".toList ";".toList)
      (copyFromUserCall "b".toList "f(x,y)".toList "m".toList ";".toList) = .ok true ↔
        SameSource "f(x, y)".toList "f(x,y)".toList := by
  refine (isSame_copyFromUser_iff (by decide) (by decide) (by decide) (by decide) (by decide)
    (by decide)).2 ?_
  unfold SourceSeen
  rw [if_neg (by decide)]
  unfold AgreeBehindComma
  decide

end DoubleFetch.Filter2
