/-
  Patterns with gaps, as in semantic patches: statement patterns with `...` between
  them, matched against a path.

  A match cuts the path into pieces, one for each element of the pattern.  A gap has
  no match of its `when !=` clauses; unless it says `when any`, it has no match of the
  patterns on its two sides either.

  * `matchFrom_unique`: a path is cut in one way only, if no gap says `when any`, except
    for the one in front of the last statement (`determined`);
  * `placed_iff`: what a match says about the positions of its statements (`Placed`), if
    there is a gap on both sides of each (`alternating`).
-/
import Mathlib.Data.List.Basic
import Mathlib.Tactic.Common

namespace DoubleFetch.Smpl

variable {α : Type*}

/-- An element of a pattern: a statement, or `...` with `when any` and `when !=`. -/
inductive Elem (α : Type*) where
  | stmt (p : α → Bool)
  | dots (whenAny : Bool) (whenNot : List (α → Bool))

/-- The statement pattern that comes next. -/
def front : List (Elem α) → α → Bool
  | .stmt p :: _ => p
  | _ => fun _ => false

/-- The pieces match the elements; `left` is the pattern to the left. -/
def matchFrom (left : α → Bool) : List (Elem α) → List (List α) → Bool
  | [], [] => true
  | .stmt p :: es, [s] :: ps => p s && matchFrom p es ps
  | .dots whenAny whenNot :: es, ss :: ps =>
    ss.all (fun s => !whenNot.any (fun c => c s) && (whenAny || !left s && !front es s)) &&
      matchFrom (fun _ => false) es ps
  | _, _ => false

/-- The pieces are a match of the pattern, on the path `ps.flatten`. -/
def Match (es : List (Elem α)) (ps : List (List α)) : Prop :=
  matchFrom (fun _ => false) es ps = true

instance (es : List (Elem α)) (ps : List (List α)) : Decidable (Match es ps) :=
  inferInstanceAs (Decidable (_ = _))

section
variable {left p : α → Bool} {es : List (Elem α)} {ps : List (List α)}

theorem matchFrom_nil (h : matchFrom left [] ps = true) : ps = [] := by
  cases ps with
  | nil => rfl
  | cons => simp [matchFrom] at h

theorem matchFrom_stmt (h : matchFrom left (.stmt p :: es) ps = true) :
    ∃ s ps', ps = [s] :: ps' ∧ p s = true ∧ matchFrom p es ps' = true := by
  match ps, h with
  | [s] :: ps', h =>
    simp only [matchFrom, Bool.and_eq_true] at h
    exact ⟨s, ps', rfl, h⟩

/-- A gap has no match of its clauses. -/
theorem matchFrom_dots {whenAny : Bool} {whenNot : List (α → Bool)}
    (h : matchFrom left (.dots whenAny whenNot :: es) ps = true) :
    ∃ ss ps', ps = ss :: ps' ∧ (∀ s ∈ ss, ∀ c ∈ whenNot, c s = false) ∧
      matchFrom (fun _ => false) es ps' = true := by
  match ps, h with
  | ss :: ps', h =>
    simp only [matchFrom, Bool.and_eq_true, List.all_eq_true, Bool.not_eq_true'] at h
    refine ⟨ss, ps', rfl, fun s hs c hc => ?_, h.2⟩
    simpa using List.any_eq_false.1 (h.1 s hs).1 c hc

/-- A gap in a match. -/
theorem matchFrom_dots_cons {whenAny : Bool} {whenNot : List (α → Bool)} {ss : List α} :
    matchFrom left (.dots whenAny whenNot :: es) (ss :: ps) = true ↔
      (∀ s ∈ ss, (∀ c ∈ whenNot, c s = false) ∧
        (whenAny = false → left s = false ∧ front es s = false)) ∧
      matchFrom (fun _ => false) es ps = true := by
  cases whenAny <;> simp [matchFrom]

/-- A statement in a match. -/
theorem matchFrom_stmt_cons {s : α} : matchFrom left (.stmt p :: es) ([s] :: ps) = true ↔
    p s = true ∧ matchFrom p es ps = true := by
  simp [matchFrom]

end

/-! ## Where a path is cut -/

/-- No gap says `when any`, except for the one in front of the last statement. -/
def determined : List (Elem α) → Bool
  | [.dots _ _] => true
  | [.dots true _, .stmt _, .dots false _] => true
  | .dots false _ :: .stmt _ :: es => determined es
  | _ => false

section
variable {p : α → Bool} {u v s t : List α} {a b : α}

/-- The first element with `p` is at one place. -/
theorem first_unique : ∀ {u v : List α}, (∀ x ∈ u, p x = false) → (∀ x ∈ v, p x = false) →
    p a = true → p b = true → u ++ a :: s = v ++ b :: t → u = v ∧ a = b ∧ s = t
  | [], [], _, _, _, _, h => ⟨rfl, (List.cons.inj h).1, (List.cons.inj h).2⟩
  | [], y :: v, _, hv, ha, _, h => by
    have := hv y (by simp)
    rw [← (List.cons.inj h).1, ha] at this; cases this
  | x :: u, [], hu, _, _, hb, h => by
    have := hu x (by simp)
    rw [(List.cons.inj h).1, hb] at this; cases this
  | x :: u, y :: v, hu, hv, ha, hb, h => by
    simp only [List.mem_cons, forall_eq_or_imp] at hu hv
    obtain ⟨rfl, htail⟩ := List.cons.inj h
    obtain ⟨rfl, hrest⟩ := first_unique hu.2 hv.2 ha hb htail
    exact ⟨rfl, hrest⟩

/-- The last element with `p` is at one place. -/
theorem last_unique (hs : ∀ x ∈ s, p x = false) (ht : ∀ x ∈ t, p x = false) (ha : p a = true)
    (hb : p b = true) (h : u ++ a :: s = v ++ b :: t) : u = v ∧ a = b ∧ s = t := by
  have hr := congrArg List.reverse h
  simp only [List.reverse_append, List.reverse_cons, List.append_assoc, List.singleton_append] at hr
  obtain ⟨h₁, h₂, h₃⟩ := first_unique (by simpa using hs) (by simpa using ht) ha hb hr
  exact ⟨List.reverse_injective h₃, h₂, List.reverse_injective h₁⟩

end

/-- **A path is cut in one way only.** -/
theorem matchFrom_unique : ∀ {es : List (Elem α)} {left : α → Bool} {ps ps' : List (List α)},
    determined es = true → matchFrom left es ps = true → matchFrom left es ps' = true →
    ps.flatten = ps'.flatten → ps = ps' := by
  intro es
  induction es using determined.induct with
  | case1 whenAny whenNot =>
    intro left ps ps' _ h h' hf
    obtain ⟨ss, _, rfl, -, h⟩ := matchFrom_dots h
    obtain ⟨ss', _, rfl, -, h'⟩ := matchFrom_dots h'
    obtain rfl := matchFrom_nil h
    obtain rfl := matchFrom_nil h'
    simpa using hf
  | case2 whenNot p whenNot' =>
    intro left ps ps' _ h h' hf
    obtain ⟨u, _, rfl, -, h⟩ := matchFrom_dots h
    obtain ⟨a, _, rfl, ha, h⟩ := matchFrom_stmt h
    obtain ⟨s, _, rfl, -, hnil⟩ := matchFrom_dots h
    obtain rfl := matchFrom_nil hnil
    obtain ⟨v, _, rfl, -, h'⟩ := matchFrom_dots h'
    obtain ⟨b, _, rfl, hb, h'⟩ := matchFrom_stmt h'
    obtain ⟨t, _, rfl, -, hnil'⟩ := matchFrom_dots h'
    obtain rfl := matchFrom_nil hnil'
    -- behind the last statement no other matches its pattern
    have hs : ∀ x ∈ s, p x = false := fun x hx => ((matchFrom_dots_cons.1 h).1 x hx).2 rfl |>.1
    have ht : ∀ x ∈ t, p x = false := fun x hx => ((matchFrom_dots_cons.1 h').1 x hx).2 rfl |>.1
    obtain ⟨rfl, rfl, rfl⟩ := last_unique hs ht ha hb (by simpa using hf)
    rfl
  | case3 whenNot p es ih =>
    intro left ps ps' hd h h' hf
    obtain ⟨u, ps₁, rfl, -, hs⟩ := matchFrom_dots h
    obtain ⟨a, ps₂, rfl, ha, hrest⟩ := matchFrom_stmt hs
    obtain ⟨v, ps₁', rfl, -, hs'⟩ := matchFrom_dots h'
    obtain ⟨b, ps₂', rfl, hb, hrest'⟩ := matchFrom_stmt hs'
    -- in front of a statement no other matches its pattern
    have hu : ∀ x ∈ u, p x = false := fun x hx => ((matchFrom_dots_cons.1 h).1 x hx).2 rfl |>.2
    have hv : ∀ x ∈ v, p x = false := fun x hx => ((matchFrom_dots_cons.1 h').1 x hx).2 rfl |>.2
    obtain ⟨rfl, rfl, htail⟩ := first_unique hu hv ha hb (by simpa using hf)
    rw [ih (by simpa [determined] using hd) hrest hrest' htail]
  | case4 es h₁ h₂ h₃ =>
    intro left ps ps' hd
    simp [determined] at hd

/-! ## Positions -/

/-- The elements from position `i` on, in front of `j`, have `q`. -/
def Gap (path : List α) (i j : ℕ) (q : α → Prop) : Prop :=
  ∀ k, i ≤ k → k < j → ∀ s ∈ path[k]?, q s

/-- What an element of a gap has, between the patterns `left` and `right`. -/
def Free (left : α → Bool) (whenAny : Bool) (whenNot : List (α → Bool)) (right : α → Bool) (s : α) :
    Prop :=
  (∀ c ∈ whenNot, c s = false) ∧ (whenAny = false → left s = false ∧ right s = false)

/-- An element with `p` is at the position. -/
def At (path : List α) (p : α → Bool) (i : ℕ) : Prop := ∃ s ∈ path[i]?, p s = true

/-- The pattern matches the path from position `k` on, with its statements at the positions
    given. -/
def Placed (path : List α) : (α → Bool) → List (Elem α) → ℕ → List ℕ → Prop
  | left, [.dots whenAny whenNot], k, [] =>
    Gap path k path.length (Free left whenAny whenNot fun _ => false)
  | left, .dots whenAny whenNot :: .stmt p :: es, k, i :: is =>
    k ≤ i ∧ Gap path k i (Free left whenAny whenNot p) ∧ At path p i ∧ Placed path p es (i + 1) is
  | _, _, _, _ => False

/-- Gaps and statements alternate, with a gap at both ends. -/
def alternating : List (Elem α) → Bool
  | [.dots _ _] => true
  | .dots _ _ :: .stmt _ :: es => alternating es
  | _ => false

/-- The positions of the statements in the pieces, from `k` on. -/
def positions : ℕ → List (List α) → List ℕ
  | k, g :: f :: ps => (k + g.length) :: positions (k + g.length + f.length) ps
  | _, _ => []

section
variable {path : List α} {q : α → Prop} {k i : ℕ}

theorem gap_length : Gap path k path.length q ↔ ∀ s ∈ path.drop k, q s := by
  constructor
  · intro h s hs
    obtain ⟨m, hm, rfl⟩ := List.mem_drop_iff_getElem.1 hs
    exact h (k + m) (Nat.le_add_right k m) (by omega) _ (List.getElem?_eq_getElem _)
  · intro h m hkm _ s hs
    obtain ⟨m, rfl⟩ := Nat.exists_eq_add_of_le hkm
    rw [← List.getElem?_drop] at hs
    exact h s (List.mem_of_getElem? hs)

/-- Where a path is cut in front of an element. -/
theorem cut_drop {g rest : List α} {a : α} (h : path.drop k = g ++ a :: rest) :
    path[k + g.length]? = some a ∧ path.drop (k + g.length + 1) = rest ∧
      (Gap path k (k + g.length) q ↔ ∀ s ∈ g, q s) := by
  have hget : ∀ m, path[k + m]? = (g ++ a :: rest)[m]? := by
    intro m
    rw [← h, List.getElem?_drop]
  refine ⟨by rw [hget]; simp, ?_, ?_⟩
  · rw [Nat.add_assoc, ← List.drop_drop, h, List.drop_append]
    simp
  · constructor
    · intro hgap s hs
      obtain ⟨m, hm, rfl⟩ := List.mem_iff_getElem.1 hs
      refine hgap (k + m) (Nat.le_add_right k m) (Nat.add_lt_add_left hm k) _ ?_
      rw [hget, List.getElem?_append_left hm, List.getElem?_eq_getElem hm]
      rfl
    · intro hall m hkm hm s hs
      obtain ⟨m, rfl⟩ := Nat.exists_eq_add_of_le hkm
      rw [hget, List.getElem?_append_left (by omega)] at hs
      exact hall s (List.mem_of_getElem? hs)

theorem exists_cut_drop (hki : k ≤ i) {a : α} (h : path[i]? = some a) :
    ∃ g, path.drop k = g ++ a :: path.drop (i + 1) ∧ k + g.length = i := by
  obtain ⟨m, rfl⟩ := Nat.exists_eq_add_of_le hki
  obtain ⟨hi, rfl⟩ := List.getElem?_eq_some_iff.1 h
  refine ⟨(path.drop k).take m, ?_, ?_⟩
  · rw [← List.drop_eq_getElem_cons hi, ← List.drop_drop, List.take_append_drop]
  · rw [List.length_take, List.length_drop]
    omega

end

/-- **A match by the positions of its statements.** -/
theorem placed_iff {path : List α} : ∀ {es : List (Elem α)}, alternating es = true →
    ∀ {left : α → Bool} {k : ℕ} {is : List ℕ},
      (∃ ps, ps.flatten = path.drop k ∧ matchFrom left es ps = true ∧ positions k ps = is) ↔
        Placed path left es k is := by
  intro es
  induction es using alternating.induct with
  | case1 whenAny whenNot =>
    intro _ left k is
    constructor
    · rintro ⟨ps, hf, h, rfl⟩
      obtain ⟨g, _, rfl, -, hnil⟩ := matchFrom_dots h
      obtain rfl := matchFrom_nil hnil
      rw [List.flatten_singleton] at hf
      change Gap path k path.length _
      rw [gap_length, ← hf]
      exact (matchFrom_dots_cons.1 h).1
    · intro h
      cases is with
      | nil =>
        replace h := gap_length.1 h
        exact ⟨[path.drop k], List.flatten_singleton, matchFrom_dots_cons.2 ⟨h, rfl⟩, rfl⟩
      | cons i is => exact False.elim h
  | case2 whenAny whenNot p es ih =>
    intro halt left k is
    rw [alternating] at halt
    constructor
    · rintro ⟨ps, hf, h, rfl⟩
      obtain ⟨g, _, rfl, -, hs⟩ := matchFrom_dots h
      obtain ⟨a, ps, rfl, ha, hrest⟩ := matchFrom_stmt hs
      have hcut : path.drop k = g ++ a :: ps.flatten := by rw [← hf]; simp
      obtain ⟨hat, hdrop, hgap⟩ := cut_drop (q := Free left whenAny whenNot p) hcut
      rw [positions, Placed]
      refine ⟨Nat.le_add_right .., hgap.2 (matchFrom_dots_cons.1 h).1, ⟨a, hat, ha⟩, ?_⟩
      exact (ih halt).1 ⟨ps, hdrop.symm, hrest, rfl⟩
    · intro h
      cases is with
      | nil => exact False.elim h
      | cons i is =>
        rw [Placed] at h
        obtain ⟨hki, hfree, ⟨a, hat, ha⟩, hrest⟩ := h
        obtain ⟨ps, hf, hm, hpos⟩ := (ih halt).2 hrest
        obtain ⟨g, hcut, rfl⟩ := exists_cut_drop hki hat
        obtain ⟨-, -, hgap⟩ := cut_drop (q := Free left whenAny whenNot p) hcut
        refine ⟨g :: [a] :: ps, by rw [hcut, ← hf]; simp, ?_, by rw [positions, ← hpos]; rfl⟩
        exact matchFrom_dots_cons.2 ⟨hgap.1 hfree, matchFrom_stmt_cons.2 ⟨ha, hm⟩⟩
  | case3 es h₁ h₂ =>
    intro halt
    rw [alternating] at halt
    · cases halt
    · exact h₁
    · exact h₂

section
variable {path : List α} {left right p : α → Bool} {es : List (Elem α)} {whenAny : Bool}
  {whenNot : List (α → Bool)} {k i j : ℕ} {is : List ℕ}

theorem placed_cons : Placed path left (.dots whenAny whenNot :: .stmt p :: es) k is ↔
    ∃ i is', is = i :: is' ∧ k ≤ i ∧ Gap path k i (Free left whenAny whenNot p) ∧ At path p i ∧
      Placed path p es (i + 1) is' := by
  cases is with
  | nil => exact ⟨False.elim, fun ⟨_, _, h, _⟩ => by cases h⟩
  | cons i is =>
    constructor
    · exact fun h => ⟨i, is, rfl, h⟩
    · rintro ⟨i', is', h, hp⟩
      obtain ⟨rfl, rfl⟩ := List.cons.inj h
      exact hp

theorem placed_last : Placed path left [.dots whenAny whenNot] k is ↔
    is = [] ∧ Gap path k path.length (Free left whenAny whenNot fun _ => false) := by
  cases is with
  | nil => exact ⟨fun h => ⟨rfl, h⟩, And.right⟩
  | cons i is => exact ⟨False.elim, fun h => by cases h.1⟩

theorem At.lt (h : At path p i) : i < path.length := by
  obtain ⟨s, hs, -⟩ := h
  exact (List.getElem?_eq_some_iff.1 hs).1

/-- No statement with `p` is in the gap. -/
theorem gap_false : Gap path i j (fun s => p s = false) ↔ ∀ k, At path p k → i ≤ k → j ≤ k := by
  constructor
  · rintro h k ⟨s, hs, hp⟩ hik
    by_contra hkj
    have hno : p s = false := h k hik (Nat.not_le.1 hkj) s hs
    rw [hp] at hno; cases hno
  · intro h k hik hkj s hs
    by_contra hp
    exact Nat.not_le.2 hkj (h k ⟨s, hs, Bool.not_eq_false _ ▸ hp⟩ hik)

/-- A gap without `when any`. -/
theorem gap_free : Gap path i j (Free left false whenNot right) ↔
    Gap path i j (fun s => ∀ c ∈ whenNot, c s = false) ∧
      (∀ k, At path left k → i ≤ k → j ≤ k) ∧ ∀ k, At path right k → i ≤ k → j ≤ k := by
  rw [← gap_false, ← gap_false]
  constructor
  · intro h
    refine ⟨fun k hi hj s hs => (h k hi hj s hs).1, fun k hi hj s hs => ?_, fun k hi hj s hs => ?_⟩
    · exact ((h k hi hj s hs).2 rfl).1
    · exact ((h k hi hj s hs).2 rfl).2
  · rintro ⟨h, hl, hr⟩ k hi hj s hs
    exact ⟨h k hi hj s hs, fun _ => ⟨hl k hi hj s hs, hr k hi hj s hs⟩⟩

theorem gap_nil : Gap path i j fun s => ∀ c ∈ ([] : List (α → Bool)), c s = false :=
  fun _ _ _ _ _ _ hc => absurd hc List.not_mem_nil

/-- Nothing has the pattern at the ends of a path. -/
theorem absent_none : ∀ k, At path (fun _ => false) k → i ≤ k → j ≤ k := by
  rintro k ⟨s, -, h⟩; cases h

/-- What the gaps on both sides of a statement say about its pattern. -/
theorem only_iff {lo hi : ℕ} (hlo : lo ≤ i) (hhi : i ≤ hi) :
    ((∀ k, At path p k → lo ≤ k → i ≤ k) ∧ ∀ k, At path p k → i + 1 ≤ k → hi ≤ k) ↔
      ∀ k, At path p k → lo ≤ k → k < hi → k = i := by
  constructor
  · rintro ⟨h₁, h₂⟩ k hk hk₁ hk₂
    have := h₁ k hk hk₁
    have := h₂ k hk
    omega
  · intro h
    refine ⟨fun k hk hk₁ => ?_, fun k hk hik => ?_⟩
    · by_contra hki
      have := h k hk hk₁ (by omega)
      omega
    · by_contra hkh
      have := h k hk (by omega) (by omega)
      omega

/-- A gap with `when any`. -/
theorem gap_free_any : Gap path i j (Free left true whenNot right) ↔
    Gap path i j fun s => ∀ c ∈ whenNot, c s = false := by
  simp [Gap, Free]

end

/-- The positions are where the pieces say. -/
theorem getElem?_positions : ∀ {m k : ℕ} {ps : List (List α)}, 2 * m + 1 < ps.length →
    (positions k ps)[m]? = some (k + (ps.take (2 * m + 1)).flatten.length)
  | 0, k, g :: f :: ps, _ => by simp [positions]
  | m + 1, k, g :: f :: ps, h => by
    have hm : 2 * m + 1 < ps.length := by simp only [List.length_cons] at h; omega
    rw [positions, List.getElem?_cons_succ, getElem?_positions hm,
      show 2 * (m + 1) + 1 = 2 * m + 1 + 1 + 1 by omega, List.take_succ_cons, List.take_succ_cons]
    simp only [List.flatten_cons, List.length_append, Nat.add_assoc]

theorem matchFrom_length : ∀ {es : List (Elem α)} {left : α → Bool} {ps : List (List α)},
    matchFrom left es ps = true → ps.length = es.length
  | [], left, ps, h => by rw [matchFrom_nil h]; rfl
  | .stmt p :: es, left, ps, h => by
    obtain ⟨s, ps, rfl, -, h⟩ := matchFrom_stmt h
    rw [List.length_cons, List.length_cons, matchFrom_length h]
  | .dots whenAny whenNot :: es, left, ps, h => by
    obtain ⟨g, ps, rfl, -, h⟩ := matchFrom_dots h
    rw [List.length_cons, List.length_cons, matchFrom_length h]

end DoubleFetch.Smpl
