/-
  Rules 5 and 6 of `cocci/pattern_match_linux.cocci` on execution paths: a fetch from a member,
  then one of the whole structure.

  * `MemberStmt`: the statements of a path, with the fetches from members;
  * `memberRule`: the pattern of rule 5, where `src` is a pointer, and of rule 6, where `&src`
    stands for it;
  * `member_reports_iff`: the pairs of fetches that are reported;
  * `member_sound`: the second fetch reads from a pointer, and the first one, if it takes the
    address of the member, from the offset of the member behind that pointer.
-/
import DoubleFetch.Cocci.Paths

namespace DoubleFetch.Cocci

open Smpl

variable {Var Member : Type} [DecidableEq Var] [DecidableEq Member]

/-! ## Paths -/

/-- The operand of a fetch from a member. -/
inductive MemberForm where
  /-- `src->e`, the pointer stored in the member, or `(T)src->e` -/
  | value (cast : Bool)
  /-- `&(src->e)` -/
  | address
  deriving DecidableEq

/-- A statement of a path. -/
inductive MemberStmt (Var Member : Type) where
  | plain (s : Stmt Var)
  /-- `fn(dst, src->e)`, or `fn(dst, &(src->e))` -/
  | member (fn : FetchFn) (dst : Dest Var) (form : MemberForm) (src : Var) (e : Member)

/-- What a statement does to the pointers. -/
def memberStep (ρ : Var → Val) : MemberStmt Var Member → Var → Val
  | .plain s => step ρ s
  | .member _ (.ptr x v) _ _ _ => Function.update ρ x v
  | .member _ .data _ _ _ => ρ

def memberRun (ρ : Var → Val) (ss : List (MemberStmt Var Member)) : Var → Val := ss.foldl memberStep ρ

/-! ## The rules -/

/-- The alternatives of a fetch from the member `e` of `src`. -/
def fetchMember (src : Var) (e : Member) : MemberStmt Var Member → Bool
  | .member _ _ _ y e' => y == src && e' == e
  | .plain _ => false

/-- A pattern for the other statements. -/
def onPlain (c : Stmt Var → Bool) : MemberStmt Var Member → Bool
  | .plain s => c s
  | .member .. => false

/-- First element, then ptr, where `src` is the pointer. -/
def memberRule (src : Var) (e : Member) : List (Elem (MemberStmt Var Member)) :=
  [.dots false [],
   .stmt (fetchMember src e),
   .dots false ((notMoved src).map onPlain),
   .stmt (onPlain (fetchFrom src)),
   .dots false []]

/-- `src->e1`, then `src`, where `src` is a pointer. -/
def rule5 (src : Var) (e1 : Member) : List (Elem (MemberStmt Var Member)) := memberRule src e1

/-- `src.e1`, then `&src`, where `src` is a structure.  The variable is its address, which no
    statement moves. -/
def rule6 (src : Var) (e1 : Member) : List (Elem (MemberStmt Var Member)) := memberRule src e1

inductive MemberRuleName where
  | rule5 | rule6
  deriving DecidableEq

def MemberRuleName.pattern : MemberRuleName → Var → Member → List (Elem (MemberStmt Var Member))
  | rule5 => Cocci.rule5
  | rule6 => Cocci.rule6

/-- The rule reports the fetches at the positions `i` and `j` of the path. -/
def MemberReports (r : MemberRuleName) (src : Var) (e : Member) (path : List (MemberStmt Var Member))
    (i j : ℕ) : Prop :=
  ∃ ps, ps.flatten = path ∧ Match (r.pattern src e) ps ∧ positions 0 ps = [i, j]

/-- No `when !=` clause for `x` matches behind the position `i` and in front of `j`. -/
def MemberGuarded (x : Var) (path : List (MemberStmt Var Member)) (i j : ℕ) : Prop :=
  ∀ k, i < k → k < j → ∀ s, path[k]? = some (.plain s) → ∀ c ∈ notMoved x, c s = false

variable {r : MemberRuleName} {src : Var} {e : Member} {path : List (MemberStmt Var Member)} {i j : ℕ}

omit [DecidableEq Member] in
theorem memberGuarded_iff : MemberGuarded src path i j ↔
    Gap path (i + 1) j fun s => ∀ c ∈ (notMoved src).map onPlain, c s = false := by
  constructor
  · intro h k hik hkj s hs c hc
    obtain ⟨c', hc', rfl⟩ := List.mem_map.1 hc
    cases s with
    | plain s => exact h k hik hkj s hs c' hc'
    | member => rfl
  · intro h k hik hkj s hs c hc
    exact h k hik hkj _ hs _ (List.mem_map_of_mem hc)

theorem memberReports_iff_placed : MemberReports r src e path i j ↔
    Placed path (fun _ => false) (memberRule src e) 0 [i, j] := by
  have hpat : r.pattern src e = memberRule src e := by cases r <;> rfl
  have halt : alternating (memberRule src e) = true := rfl
  rw [← placed_iff halt, List.drop_zero, ← hpat]
  rfl

/-- The fetches reported. -/
theorem MemberReports.pair (h : MemberReports r src e path i j) :
    i < j ∧ At path (fetchMember src e) i ∧ At path (onPlain (fetchFrom src)) j ∧
      (∀ k, At path (fetchMember src e) k → k < j → k = i) ∧
      (∀ k, At path (onPlain (fetchFrom src)) k → i < k → k = j) ∧ MemberGuarded src path i j := by
  rw [memberReports_iff_placed, memberRule] at h
  simp only [placed_cons, placed_last, gap_free] at h
  obtain ⟨i', _, his, -, ⟨-, -, h₀⟩, hi, j', _, rfl, hij, ⟨hg, h₁, h₂⟩, hj, rfl, -, h₃, -⟩ := h
  obtain ⟨rfl, htail⟩ := List.cons.inj his
  obtain ⟨rfl, -⟩ := List.cons.inj htail
  have hfirst := (only_iff (Nat.zero_le i) (Nat.le_of_succ_le hij)).1 ⟨h₀, h₁⟩
  have hsecond := (only_iff hij hj.lt.le).1 ⟨h₂, h₃⟩
  exact ⟨hij, hi, hj, fun k hk => hfirst k hk (Nat.zero_le k), fun k hk hik => hsecond k hk hik hk.lt,
    memberGuarded_iff.2 hg⟩

/-- **What rules 5 and 6 report**: the only fetch from the member in front of the second fetch,
    and the only fetch from the pointer behind the first one, if nothing between them moves the
    pointer. -/
theorem member_reports_iff (r : MemberRuleName) (src : Var) (e : Member)
    (path : List (MemberStmt Var Member)) (i j : ℕ) : MemberReports r src e path i j ↔
      i < j ∧ At path (fetchMember src e) i ∧ At path (onPlain (fetchFrom src)) j ∧
        (∀ k, At path (fetchMember src e) k → k < j → k = i) ∧
        (∀ k, At path (onPlain (fetchFrom src)) k → i < k → k = j) ∧ MemberGuarded src path i j := by
  refine ⟨MemberReports.pair, ?_⟩
  rintro ⟨hij, hi, hj, hfirst, hsecond, hg⟩
  rw [memberReports_iff_placed, memberRule]
  simp only [placed_cons, placed_last, gap_free]
  obtain ⟨h₀, h₁⟩ := (only_iff (Nat.zero_le i) hij.le).2 fun k hk _ => hfirst k hk
  obtain ⟨h₂, h₃⟩ := (only_iff hij hj.lt.le).2 fun k hk hik _ => hsecond k hk hik
  exact ⟨i, _, rfl, Nat.zero_le i, ⟨gap_nil, absent_none, h₀⟩, hi, j, _, rfl, hij,
    ⟨memberGuarded_iff.1 hg, h₁, h₂⟩, hj, rfl, gap_nil, h₃, absent_none⟩

/-! ## What the fetches read -/

/-- The address a fetch reads from; that of `src->e` is stored in the structure, and left
    open. -/
def readsAt (offset : Member → Val) (ρ : Var → Val) : MemberStmt Var Member → Option Val
  | .plain s => (source s).map ρ
  | .member _ _ .address x e => some (ρ x + offset e)
  | .member _ _ (.value _) _ _ => none

/-- A fetch into data. -/
def memberIntoData : MemberStmt Var Member → Bool
  | .plain s => intoData s
  | .member _ (.ptr _ _) _ _ _ => false
  | .member _ .data _ _ _ => true

omit [DecidableEq Member] in
/-- A statement that neither moves the pointer nor fetches into a pointer. -/
theorem memberStep_eq {x : Var} {s : MemberStmt Var Member} (hd : memberIntoData s = true)
    (hs : ∀ s', s = .plain s' → ∀ c ∈ notMoved x, c s' = false) (ρ : Var → Val) :
    memberStep ρ s x = ρ x := by
  cases s with
  | plain s =>
    have hstep := step_notMoved (hs s rfl) ρ
    rw [delivered_intoData (by simpa [memberIntoData] using hd)] at hstep
    exact hstep
  | member fn dst form y e =>
    cases dst with
    | data => rfl
    | ptr z v => cases hd

omit [DecidableEq Member] in
theorem memberRun_eq {x : Var} {ss : List (MemberStmt Var Member)}
    (hd : ∀ s ∈ ss, memberIntoData s = true)
    (hs : ∀ s, MemberStmt.plain s ∈ ss → ∀ c ∈ notMoved x, c s = false) (ρ : Var → Val) :
    memberRun ρ ss x = ρ x := by
  induction ss generalizing ρ with
  | nil => rfl
  | cons s ss ih =>
    have hone : memberStep ρ s x = ρ x :=
      memberStep_eq (hd s (by simp)) (fun s' hs' => hs s' (by simp [hs'])) ρ
    have hrest := ih (fun s' hs' => hd s' (by simp [hs'])) (fun s' hs' => hs s' (by simp [hs']))
      (memberStep ρ s)
    exact hrest.trans hone

/-- **Rules 5 and 6 are sound for members by address**, if fetches deliver data only: the two
    fetches of a report read from one pointer, the first one behind it by the offset of the
    member. -/
theorem member_sound (offset : Member → Val) (ρ : Var → Val) (h : MemberReports r src e path i j)
    (hd : ∀ s ∈ path, memberIntoData s = true) :
    ∃ p s₁ s₂, path[i]? = some s₁ ∧ path[j]? = some s₂ ∧
      readsAt offset (memberRun ρ (path.take j)) s₂ = some p ∧
      ∀ a, readsAt offset (memberRun ρ (path.take i)) s₁ = some a → a = p + offset e := by
  obtain ⟨hij, ⟨s₁, h₁, hm⟩, ⟨s₂, h₂, hf⟩, -, -, hg⟩ := h.pair
  have hsplit : path.take j = path.take i ++ (path.drop i).take (j - i) := by
    rw [← List.take_add, Nat.add_sub_cancel' hij.le]
  -- the first fetch and the gap do not move the pointer
  have hkeep : ∀ s, MemberStmt.plain s ∈ (path.drop i).take (j - i) → ∀ c ∈ notMoved src, c s = false := by
    intro s hs
    obtain ⟨m, hm', hget⟩ := List.mem_take_iff_getElem.1 hs
    rw [List.getElem_drop] at hget
    have hat : path[i + m]? = some (.plain s) := by rw [← hget]; exact List.getElem?_eq_getElem _
    rcases Nat.eq_zero_or_pos m with rfl | hpos
    · rw [Nat.add_zero, h₁] at hat
      obtain rfl := Option.some.inj hat
      cases hm
    · exact hg (i + m) (by omega) (by omega) s hat
  have hrun : memberRun ρ (path.take j) src = memberRun ρ (path.take i) src := by
    rw [hsplit, memberRun, List.foldl_append]
    exact memberRun_eq (fun s hs => hd s (List.mem_of_mem_drop (List.mem_of_mem_take hs))) hkeep _
  refine ⟨memberRun ρ (path.take j) src, s₁, s₂, h₁, h₂, ?_, fun a ha => ?_⟩
  · cases s₂ with
    | plain s => rw [readsAt, (of_fetchFrom hf).1]; rfl
    | member => cases hf
  · cases s₁ with
    | plain s => cases hm
    | member fn dst form y e' =>
      obtain ⟨rfl, rfl⟩ : y = src ∧ e' = e := by simpa [fetchMember] using hm
      cases form with
      | value cast => cases ha
      | address => rw [hrun]; exact (Option.some.inj ha).symm

/-- `get_user(n, &(src->e)); copy_from_user(buf, src, n);` -/
def lengthThenAll : List (MemberStmt PtrVar Unit) :=
  [.member .get_user .data .address .src (), .plain (.fetch .copy_from_user .data false .src)]

theorem member_sound_lengthThenAll : ∃ p s₁ s₂, lengthThenAll[0]? = some s₁ ∧ lengthThenAll[1]? = some s₂ ∧
    readsAt (fun _ => 4) (memberRun (fun _ => 8) (lengthThenAll.take 1)) s₂ = some p ∧
      ∀ a, readsAt (fun _ => 4) (memberRun (fun _ => 8) (lengthThenAll.take 0)) s₁ = some a → a = p + 4 := by
  have h : MemberReports .rule5 PtrVar.src () lengthThenAll 0 1 :=
    ⟨[[], [.member .get_user .data .address .src ()], [],
      [.plain (.fetch .copy_from_user .data false .src)], []], rfl, by decide, rfl⟩
  exact member_sound (fun _ => 4) _ h (by decide)

end DoubleFetch.Cocci
