/-
  Rules 1 to 4 of `cocci/pattern_match_linux.cocci` on execution paths.

  * `Stmt`: the statements of a path, as far as they change pointers; `run` is what
    they do to the pointer variables;
  * `rule1` to `rule4`: the patterns, with the metavariables `src` and `ptr` bound to
    variables;
  * `sameSource_iff`: when the two fetches of a match read the same pointer value.
    The gaps behind the first fetch are guarded by `notMoved`.  The gap between the
    early alias `ptr = src` and the first fetch is not (rules 2 and 3), and no clause
    speaks of a fetch into the pointer itself.
-/
import DoubleFetch.Base.Smpl
import Mathlib.Logic.Function.Basic

namespace DoubleFetch.Cocci

open Smpl

/-- The value of a pointer. -/
abbrev Val := BitVec 64

variable {Var : Type} [DecidableEq Var]

/-! ## Paths -/

inductive Expr (Var : Type) where
  | var (x : Var)
  /-- `(T)e` -/
  | cast (e : Expr Var)
  | add (e offset : Expr Var)
  | sub (e offset : Expr Var)
  | other (f : (Var → Val) → Val)

inductive FetchFn where
  | get_user | uu_get_user | copy_from_user | uu_copy_from_user
  deriving DecidableEq

/-- Where a fetch puts what it reads: into data, or `v` into the pointer `x`. -/
inductive Dest (Var : Type) where
  | data
  | ptr (x : Var) (v : Val)

/-- A statement of a path. -/
inductive Stmt (Var : Type) where
  /-- `fn(dst, x)`, or `fn(dst, (T)x)` -/
  | fetch (fn : FetchFn) (dst : Dest Var) (cast : Bool) (x : Var)
  /-- `x = e` -/
  | assign (x : Var) (e : Expr Var)
  /-- `x += e` -/
  | addAssign (x : Var) (e : Expr Var)
  /-- `x -= e` -/
  | subAssign (x : Var) (e : Expr Var)
  /-- `x++`, where `x` points to elements of `size` bytes -/
  | incr (x : Var) (size : Val)
  /-- `x--` -/
  | decr (x : Var) (size : Val)
  /-- a statement that changes no pointer -/
  | other

/-- The value of an expression; a cast keeps the pointer. -/
def Expr.eval (ρ : Var → Val) : Expr Var → Val
  | .var x => ρ x
  | .cast e => e.eval ρ
  | .add e offset => e.eval ρ + offset.eval ρ
  | .sub e offset => e.eval ρ - offset.eval ρ
  | .other f => f ρ

/-- What a statement does to the pointers. -/
def step (ρ : Var → Val) : Stmt Var → Var → Val
  | .fetch _ (.ptr x v) _ _ => Function.update ρ x v
  | .fetch _ .data _ _ | .other => ρ
  | .assign x e => Function.update ρ x (e.eval ρ)
  | .addAssign x e => Function.update ρ x (ρ x + e.eval ρ)
  | .subAssign x e => Function.update ρ x (ρ x - e.eval ρ)
  | .incr x size => Function.update ρ x (ρ x + size)
  | .decr x size => Function.update ρ x (ρ x - size)

def run (ρ : Var → Val) (ss : List (Stmt Var)) : Var → Val := ss.foldl step ρ

/-- The pointer a fetch reads from. -/
def source : Stmt Var → Option Var
  | .fetch _ _ _ x => some x
  | _ => none

/-! ## The rules -/

/-- The alternatives of a fetch from `x`. -/
def fetchFrom (x : Var) : Stmt Var → Bool
  | .fetch _ _ _ y => y == x
  | _ => false

/-- `ptr = (T0)src | ptr = src` -/
def aliasOf (ptr src : Var) : Stmt Var → Bool
  | .assign y (.var z) => y == ptr && z == src
  | .assign y (.cast (.var z)) => y == ptr && z == src
  | _ => false

/-- The clauses `when != x += offset`, …, `when != x = addr`. -/
def notMoved (x : Var) : List (Stmt Var → Bool) :=
  [fun | .addAssign y _ => y == x | _ => false,
   fun | .assign y (.add (.var z) _) => y == x && z == x | _ => false,
   fun | .incr y _ => y == x | _ => false,
   fun | .subAssign y _ => y == x | _ => false,
   fun | .assign y (.sub (.var z) _) => y == x && z == x | _ => false,
   fun | .decr y _ => y == x | _ => false,
   fun | .assign y _ => y == x | _ => false]

/-- Normal case without src assignment. -/
def rule1 (src _ptr : Var) : List (Elem (Stmt Var)) :=
  [.dots false [],
   .stmt (fetchFrom src),
   .dots true (notMoved src),
   .stmt (fetchFrom src),
   .dots false []]

/-- `ptr = src` at beginning, ptr first. -/
def rule2 (src ptr : Var) : List (Elem (Stmt Var)) :=
  [.dots false [],
   .stmt (aliasOf ptr src),
   .dots false [],
   .stmt (fetchFrom ptr),
   .dots false (notMoved src),
   .stmt (fetchFrom src),
   .dots false []]

/-- `ptr = src` at beginning, src first. -/
def rule3 (src ptr : Var) : List (Elem (Stmt Var)) :=
  [.dots false [],
   .stmt (aliasOf ptr src),
   .dots false [],
   .stmt (fetchFrom src),
   .dots false (notMoved ptr),
   .stmt (fetchFrom ptr),
   .dots false []]

/-- `ptr = src` at middle. -/
def rule4 (src ptr : Var) : List (Elem (Stmt Var)) :=
  [.dots false [],
   .stmt (fetchFrom src),
   .dots false (notMoved src),
   .stmt (aliasOf ptr src),
   .dots false (notMoved ptr),
   .stmt (fetchFrom ptr),
   .dots false []]

inductive RuleName where
  | rule1 | rule2 | rule3 | rule4
  deriving DecidableEq

def RuleName.pattern : RuleName → Var → Var → List (Elem (Stmt Var))
  | rule1 => Cocci.rule1
  | rule2 => Cocci.rule2
  | rule3 => Cocci.rule3
  | rule4 => Cocci.rule4

/-- The element of the pattern at position `p1`. -/
def RuleName.p1 : RuleName → ℕ
  | rule1 | rule4 => 1
  | rule2 | rule3 => 3

/-- The element of the pattern at position `p2`. -/
def RuleName.p2 : RuleName → ℕ
  | rule1 => 3
  | rule2 | rule3 | rule4 => 5

/-! ## What the fetches read -/

/-- The pointers before the `i`-th piece of a path. -/
def before (ρ : Var → Val) (ps : List (List (Stmt Var))) (i : ℕ) : Var → Val :=
  run ρ (ps.take i).flatten

/-- The pointer value that the fetch in the `i`-th piece reads from. -/
def readFrom (ρ : Var → Val) (ps : List (List (Stmt Var))) (i : ℕ) : Option Val :=
  match ps[i]? with
  | some [s] => (source s).map (before ρ ps i)
  | _ => none

/-- The fetches at `p1` and `p2` read from the same pointer value. -/
def SameSource (r : RuleName) (ρ : Var → Val) (ps : List (List (Stmt Var))) : Prop :=
  ∃ v, readFrom ρ ps r.p1 = some v ∧ readFrom ρ ps r.p2 = some v

/-- The value last delivered into `x` by a fetch, or `v`. -/
def delivered (x : Var) (v : Val) (ss : List (Stmt Var)) : Val :=
  ss.foldl (fun v s => match s with
    | .fetch _ (.ptr y w) _ _ => if y = x then w else v
    | _ => v) v

/-- The pieces from the `i`-th up to the `j`-th. -/
def between (ps : List (List (Stmt Var))) (i j : ℕ) : List (Stmt Var) :=
  ((ps.take j).drop i).flatten

/-- The alias holds at the first fetch (rules 2 and 3), and no fetch from the first up
    to the second one delivers another value into the pointer that is read second. -/
def Unmoved (r : RuleName) (src ptr : Var) (ρ : Var → Val) (ps : List (List (Stmt Var))) : Prop :=
  let σ := before ρ ps r.p1
  match r with
  | .rule1 => delivered src (σ src) (between ps 1 3) = σ src
  | .rule2 => delivered src (σ src) (between ps 3 5) = σ ptr
  | .rule3 => delivered ptr (σ ptr) (between ps 3 5) = σ src
  | .rule4 => delivered ptr (delivered src (σ src) (between ps 1 3)) (between ps 4 5) = σ src

/-! ## What the guards say -/

@[simp] theorem run_cons (ρ : Var → Val) (s : Stmt Var) (ss : List (Stmt Var)) :
    run ρ (s :: ss) = run (step ρ s) ss := rfl

@[simp] theorem run_append (ρ : Var → Val) (ss ss' : List (Stmt Var)) :
    run ρ (ss ++ ss') = run (run ρ ss) ss' := List.foldl_append

theorem of_fetchFrom {x : Var} {s : Stmt Var} (h : fetchFrom x s = true) :
    source s = some x ∧ ∀ y, ∀ c ∈ notMoved y, c s = false := by
  cases s with
  | fetch fn dst cast y =>
    simp only [fetchFrom, beq_iff_eq] at h
    exact ⟨by rw [source, h], by simp [notMoved]⟩
  | _ => simp [fetchFrom] at h

theorem step_alias {ptr src : Var} {s : Stmt Var} (h : aliasOf ptr src s = true) (ρ : Var → Val) :
    step ρ s ptr = ρ src := by
  unfold aliasOf at h
  split at h
  · simp only [Bool.and_eq_true, beq_iff_eq] at h
    obtain ⟨rfl, rfl⟩ := h
    simp [step, Expr.eval]
  · simp only [Bool.and_eq_true, beq_iff_eq] at h
    obtain ⟨rfl, rfl⟩ := h
    simp [step, Expr.eval]
  · cases h

/-- **A guarded statement** changes the pointer only by a fetch into it. -/
theorem step_notMoved {x : Var} {s : Stmt Var} (h : ∀ c ∈ notMoved x, c s = false) (ρ : Var → Val) :
    step ρ s x = delivered x (ρ x) [s] := by
  simp only [notMoved, List.mem_cons, List.not_mem_nil, or_false, forall_eq_or_imp, forall_eq] at h
  obtain ⟨h1, -, h2, h3, -, h4, h5⟩ := h
  have hne : ∀ {y : Var} {v : Val}, (y == x) = false → Function.update ρ y v x = ρ x := by
    intro y v hy
    have : x ≠ y := fun h => by simp [h] at hy
    simp [Function.update_of_ne this]
  cases s with
  | fetch fn dst cast y =>
    cases dst with
    | data => rfl
    | ptr z w =>
      by_cases hz : z = x
      · subst hz; simp [step, delivered]
      · simp [step, delivered, hz, hne (beq_false_of_ne hz)]
  | assign y e => exact hne h5
  | addAssign y e => exact hne h1
  | subAssign y e => exact hne h3
  | incr y size => exact hne h2
  | decr y size => exact hne h4
  | other => rfl

/-- **A guarded gap.** -/
theorem run_notMoved {x : Var} {ss : List (Stmt Var)} (h : ∀ s ∈ ss, ∀ c ∈ notMoved x, c s = false)
    (ρ : Var → Val) : run ρ ss x = delivered x (ρ x) ss := by
  induction ss generalizing ρ with
  | nil => rfl
  | cons s ss ih =>
    have hs := step_notMoved (h s (by simp)) ρ
    have ih := ih (fun s' hs' => h s' (by simp [hs'])) (step ρ s)
    rw [hs] at ih
    exact ih

/-- A guarded gap, with the fetch before it. -/
theorem run_fetch_notMoved {x y : Var} {f : Stmt Var} {ss : List (Stmt Var)}
    (hf : fetchFrom y f = true) (h : ∀ s ∈ ss, ∀ c ∈ notMoved x, c s = false) (ρ : Var → Val) :
    run (step ρ f) ss x = delivered x (ρ x) (f :: ss) := by
  have hall : ∀ s ∈ f :: ss, ∀ c ∈ notMoved x, c s = false := by
    intro s hs
    rcases List.mem_cons.1 hs with rfl | hs
    · exact (of_fetchFrom hf).2 x
    · exact h s hs
  exact run_notMoved hall ρ

/-! ## The rules are sound where the alias holds -/

section
variable {src ptr : Var} {ps : List (List (Stmt Var))} (ρ : Var → Val)

theorem readFrom_eq {i : ℕ} {s : Stmt Var} {x : Var} (hi : ps[i]? = some [s])
    (hs : fetchFrom x s = true) : readFrom ρ ps i = some (before ρ ps i x) := by
  simp [readFrom, hi, (of_fetchFrom hs).1]

theorem sameSource_of_reads {r : RuleName} {v w : Val} (h1 : readFrom ρ ps r.p1 = some v)
    (h2 : readFrom ρ ps r.p2 = some w) : SameSource r ρ ps ↔ w = v := by
  rw [SameSource, h1, h2]
  simp [eq_comm]

theorem rule1_iff (h : Match (rule1 src ptr) ps) :
    SameSource .rule1 ρ ps ↔ Unmoved .rule1 src ptr ρ ps := by
  obtain ⟨g₀, _, rfl, -, h⟩ := matchFrom_dots h
  obtain ⟨f₁, _, rfl, hf₁, h⟩ := matchFrom_stmt h
  obtain ⟨g₁, _, rfl, hg₁, h⟩ := matchFrom_dots h
  obtain ⟨f₂, _, rfl, hf₂, h⟩ := matchFrom_stmt h
  obtain ⟨g₂, _, rfl, -, h⟩ := matchFrom_dots h
  obtain rfl := matchFrom_nil h
  rw [sameSource_of_reads ρ (readFrom_eq ρ rfl hf₁) (readFrom_eq ρ rfl hf₂)]
  have hrun := run_fetch_notMoved hf₁ hg₁ (run ρ g₀)
  simp [Unmoved, RuleName.p1, RuleName.p2, before, between, hrun]

/-- The rules with the alias at the beginning: `x` is read first, `y` second. -/
theorem early_iff {r : RuleName} (h1 : r.p1 = 3) (h2 : r.p2 = 5) {x y : Var}
    (h : Match [.dots false [], .stmt (aliasOf ptr src), .dots false [], .stmt (fetchFrom x),
      .dots false (notMoved y), .stmt (fetchFrom y), .dots false []] ps) :
    SameSource r ρ ps ↔
      delivered y (before ρ ps 3 y) (between ps 3 5) = before ρ ps 3 x := by
  obtain ⟨g₀, _, rfl, -, h⟩ := matchFrom_dots h
  obtain ⟨a, _, rfl, -, h⟩ := matchFrom_stmt h
  obtain ⟨g₁, _, rfl, -, h⟩ := matchFrom_dots h
  obtain ⟨f₁, _, rfl, hf₁, h⟩ := matchFrom_stmt h
  obtain ⟨g₂, _, rfl, hg₂, h⟩ := matchFrom_dots h
  obtain ⟨f₂, _, rfl, hf₂, h⟩ := matchFrom_stmt h
  obtain ⟨g₃, _, rfl, -, h⟩ := matchFrom_dots h
  obtain rfl := matchFrom_nil h
  rw [sameSource_of_reads ρ (readFrom_eq ρ (by rw [h1]; rfl) hf₁)
    (readFrom_eq ρ (by rw [h2]; rfl) hf₂), h1, h2]
  have hrun := run_fetch_notMoved hf₁ hg₂ (run (step (run ρ g₀) a) g₁)
  simp [before, between, hrun]

theorem rule4_iff (h : Match (rule4 src ptr) ps) :
    SameSource .rule4 ρ ps ↔ Unmoved .rule4 src ptr ρ ps := by
  obtain ⟨g₀, _, rfl, -, h⟩ := matchFrom_dots h
  obtain ⟨f₁, _, rfl, hf₁, h⟩ := matchFrom_stmt h
  obtain ⟨g₁, _, rfl, hg₁, h⟩ := matchFrom_dots h
  obtain ⟨a, _, rfl, ha, h⟩ := matchFrom_stmt h
  obtain ⟨g₂, _, rfl, hg₂, h⟩ := matchFrom_dots h
  obtain ⟨f₂, _, rfl, hf₂, h⟩ := matchFrom_stmt h
  obtain ⟨g₃, _, rfl, -, h⟩ := matchFrom_dots h
  obtain rfl := matchFrom_nil h
  rw [sameSource_of_reads ρ (readFrom_eq ρ rfl hf₁) (readFrom_eq ρ rfl hf₂)]
  -- up to the alias `src` is guarded, from the alias on `ptr` is
  have hrun₁ := run_fetch_notMoved hf₁ hg₁ (run ρ g₀)
  have hrun₂ := run_notMoved hg₂ (step (run (step (run ρ g₀) f₁) g₁) a)
  rw [step_alias ha, hrun₁] at hrun₂
  simp [Unmoved, RuleName.p1, RuleName.p2, before, between, hrun₂]

/-- **When the two fetches of a match read the same pointer value.** -/
theorem sameSource_iff (r : RuleName) (h : Match (r.pattern src ptr) ps) :
    SameSource r ρ ps ↔ Unmoved r src ptr ρ ps := by
  cases r with
  | rule1 => exact rule1_iff ρ h
  | rule2 => exact early_iff ρ rfl rfl h
  | rule3 => exact early_iff ρ rfl rfl h
  | rule4 => exact rule4_iff ρ h

/-- A fetch into data. -/
def intoData : Stmt Var → Bool
  | .fetch _ (.ptr _ _) _ _ => false
  | _ => true

theorem delivered_intoData {x : Var} {v : Val} {ss : List (Stmt Var)}
    (h : ∀ s ∈ ss, intoData s = true) : delivered x v ss = v := by
  induction ss with
  | nil => rfl
  | cons s ss ih =>
    simp only [List.mem_cons, forall_eq_or_imp] at h
    have hs : delivered x v (s :: ss) = delivered x v ss := by
      cases s with
      | fetch fn dst cast y => cases dst <;> simp_all [delivered, intoData]
      | _ => rfl
    rw [hs, ih h.2]

omit [DecidableEq Var] in
theorem mem_between {i j : ℕ} {s : Stmt Var} (h : s ∈ between ps i j) : s ∈ ps.flatten := by
  obtain ⟨ss, hss, hs⟩ := List.mem_flatten.1 h
  exact List.mem_flatten.2 ⟨ss, List.mem_of_mem_take (List.mem_of_mem_drop hss), hs⟩

/-- On paths whose fetches deliver data only, rules 1 and 4 are sound, and rules 2 and 3
    are where the alias holds at the first fetch. -/
theorem sameSource_intoData (r : RuleName) (h : Match (r.pattern src ptr) ps)
    (hd : ∀ s ∈ ps.flatten, intoData s = true) :
    SameSource r ρ ps ↔
      (r = .rule2 ∨ r = .rule3 → before ρ ps 3 ptr = before ρ ps 3 src) := by
  have hdel : ∀ (x : Var) (v : Val) i j, delivered x v (between ps i j) = v :=
    fun x v i j => delivered_intoData fun s hs => hd s (mem_between hs)
  cases r with
  | rule1 =>
    have h : Match (rule1 src ptr) ps := h
    simp [rule1_iff ρ h, Unmoved, hdel]
  | rule2 => simp [early_iff (r := .rule2) ρ rfl rfl h, hdel, eq_comm]
  | rule3 => simp [early_iff (r := .rule3) ρ rfl rfl h, hdel]
  | rule4 => simp [rule4_iff ρ h, Unmoved, hdel]

end

/-! ## A moved alias -/

inductive PtrVar where
  | src | ptr
  deriving DecidableEq

/-- `ptr = src; src += 4; get_user(a, ptr); get_user(b, src);` -/
def movedSrc : List (List (Stmt PtrVar)) :=
  [[], [.assign .ptr (.var .src)], [.addAssign .src (.other fun _ => 4)],
   [.fetch .get_user .data false .ptr], [], [.fetch .get_user .data false .src], []]

theorem movedSrc_match : Match (RuleName.rule2.pattern PtrVar.src .ptr) movedSrc := by decide

/-- Rule 2 matches, and the second fetch reads four bytes behind the first. -/
theorem movedSrc_not_sameSource :
    Match (RuleName.rule2.pattern PtrVar.src .ptr) movedSrc ∧
      ¬ SameSource .rule2 (fun _ => 0) movedSrc := by
  refine ⟨movedSrc_match, ?_⟩
  rintro ⟨v, h1, h2⟩
  exact absurd (h1.trans h2.symm) (by decide)

theorem sameSource_iff_movedSrc : SameSource .rule2 (fun _ => 0) movedSrc ↔
    Unmoved .rule2 PtrVar.src .ptr (fun _ => 0) movedSrc :=
  sameSource_iff _ .rule2 movedSrc_match

end DoubleFetch.Cocci
