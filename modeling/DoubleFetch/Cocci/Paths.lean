/-
  What rules 1 to 4 report on a path.

  * `Reports r src ptr path i j`: rule `r` has a match on the path, with `p1` at its `i`-th
    and `p2` at its `j`-th statement;
  * `reports_unique`: for given `src` and `ptr` a rule reports at most one pair of fetches
    on a path;
  * `rule1_reports_iff`: rule 1 reports the first and the last fetch from `src`, if nothing
    between them moves `src`;
  * `rule1_sound`: then all fetches from `src` on the path read the same pointer value;
  * `early_reports_iff`, `rule4_reports_iff`: with an alias, the pair is reported only if
    there are no other fetches beside it.

  What moves a pointer is here what the `when !=` clauses name: a fetch that delivers into
  the pointer itself is not among them.
-/
import DoubleFetch.Cocci.Rules
import Mathlib.Data.Set.Subsingleton

namespace DoubleFetch.Cocci

open Smpl

variable {Var : Type} [DecidableEq Var]

/-- Rule `r` reports the fetches at the positions `i` and `j` of the path. -/
def Reports (r : RuleName) (src ptr : Var) (path : List (Stmt Var)) (i j : ℕ) : Prop :=
  ∃ ps, ps.flatten = path ∧ Match (r.pattern src ptr) ps ∧
    (ps.take r.p1).flatten.length = i ∧ (ps.take r.p2).flatten.length = j

theorem determined_pattern (r : RuleName) (src ptr : Var) : determined (r.pattern src ptr) = true := by
  cases r <;> rfl

/-- **A rule reports one pair of fetches on a path** at most, for each `src` and `ptr`. -/
theorem reports_unique (r : RuleName) (src ptr : Var) (path : List (Stmt Var)) :
    {p : ℕ × ℕ | Reports r src ptr path p.1 p.2}.Subsingleton := by
  rintro ⟨i, j⟩ ⟨ps, hf, hm, rfl, rfl⟩ ⟨i', j'⟩ ⟨ps', hf', hm', rfl, rfl⟩
  obtain rfl := matchFrom_unique (determined_pattern r src ptr) hm hm' (hf.trans hf'.symm)
  rfl

variable {src ptr : Var} {path : List (Stmt Var)} {i j k : ℕ}

/-- A fetch from `x` is at the position. -/
def FetchAt (x : Var) (path : List (Stmt Var)) (i : ℕ) : Prop := At path (fetchFrom x) i

/-- A statement `ptr = src` is at the position. -/
def AliasAt (ptr src : Var) (path : List (Stmt Var)) (i : ℕ) : Prop := At path (aliasOf ptr src) i

/-- No `when !=` clause for `x` matches behind the position `i` and in front of `j`. -/
def Guarded (x : Var) (path : List (Stmt Var)) (i j : ℕ) : Prop :=
  ∀ k, i < k → k < j → ∀ s ∈ path[k]?, ∀ c ∈ notMoved x, c s = false

/-- The pointer that is read at `p1`. -/
def RuleName.first (src ptr : Var) : RuleName → Var
  | rule1 | rule3 | rule4 => src
  | rule2 => ptr

/-- The pointer that is read at `p2`. -/
def RuleName.second (src ptr : Var) : RuleName → Var
  | rule1 | rule2 => src
  | rule3 | rule4 => ptr

/-- The positions that a rule reports are among those of a match. -/
theorem reports_iff_placed {r : RuleName} : Reports r src ptr path i j ↔
    ∃ is, Placed path (fun _ => false) (r.pattern src ptr) 0 is ∧
      is[r.p1 / 2]? = some i ∧ is[r.p2 / 2]? = some j := by
  have halt : alternating (r.pattern src ptr) = true := by cases r <;> rfl
  have hpos : ∀ {ps : List (List (Stmt Var))} {n k : ℕ}, Match (r.pattern src ptr) ps →
      n = r.p1 ∨ n = r.p2 → ((positions 0 ps)[n / 2]? = some k ↔ (ps.take n).flatten.length = k) := by
    intro ps n k hm hn
    have hlen : n = 2 * (n / 2) + 1 ∧ n < ps.length := by
      rw [matchFrom_length hm]
      rcases hn with rfl | rfl <;> cases r <;>
        simp [RuleName.p1, RuleName.p2, RuleName.pattern, rule1, rule2, rule3, rule4]
    have hget := getElem?_positions (hlen.1 ▸ hlen.2) (k := 0)
    rw [hget, ← hlen.1, Nat.zero_add, Option.some.injEq]
  constructor
  · rintro ⟨ps, hf, hm, h₁, h₂⟩
    exact ⟨positions 0 ps, (placed_iff halt).1 ⟨ps, hf, hm, rfl⟩, (hpos hm (Or.inl rfl)).2 h₁,
      (hpos hm (Or.inr rfl)).2 h₂⟩
  · rintro ⟨is, hp, h₁, h₂⟩
    obtain ⟨ps, hf, hm, rfl⟩ := (placed_iff halt).2 hp
    exact ⟨ps, hf, hm, (hpos hm (Or.inl rfl)).1 h₁, (hpos hm (Or.inr rfl)).1 h₂⟩

/-! ## Rule 1 -/

/-- What rule 1 reports are the first and the last fetch, and nothing between them moves
    `src`. -/
theorem Reports.ends (h : Reports .rule1 src ptr path i j) :
    i < j ∧ FetchAt src path i ∧ FetchAt src path j ∧ (∀ k, FetchAt src path k → i ≤ k ∧ k ≤ j) ∧
      Guarded src path i j := by
  obtain ⟨_, h, hi, hj⟩ := reports_iff_placed.1 h
  simp only [RuleName.pattern, rule1, placed_cons, placed_last, gap_free, gap_free_any] at h
  obtain ⟨i', _, rfl, -, ⟨-, -, h₀⟩, h₁, j', _, rfl, hij, hg, h₂, rfl, -, h₃, -⟩ := h
  obtain rfl : i' = i := Option.some.inj hi
  obtain rfl : j' = j := Option.some.inj hj
  refine ⟨hij, h₁, h₂, fun k hk => ⟨h₀ k hk (Nat.zero_le k), ?_⟩, hg⟩
  by_contra hkj
  exact Nat.not_le.2 hk.lt (h₃ k hk (Nat.not_le.1 hkj))

/-- The first and the last fetch are reported. -/
theorem reports_of_ends (hij : i < j) (h₁ : FetchAt src path i) (h₂ : FetchAt src path j)
    (hends : ∀ k, FetchAt src path k → i ≤ k ∧ k ≤ j) (hg : Guarded src path i j) :
    Reports .rule1 src ptr path i j := by
  refine reports_iff_placed.2 ⟨[i, j], ?_, rfl, rfl⟩
  simp only [RuleName.pattern, rule1, placed_cons, placed_last, gap_free, gap_free_any]
  exact ⟨i, [j], rfl, Nat.zero_le i, ⟨gap_nil, absent_none, fun k hk _ => (hends k hk).1⟩, h₁, j, [],
    rfl, hij, hg, h₂, rfl, gap_nil, fun k hk hjk => absurd (hends k hk).2 (Nat.not_le.2 hjk), absent_none⟩

/-- **What rule 1 reports**: the first and the last fetch, if nothing between them moves
    `src`. -/
theorem rule1_reports_iff (src ptr : Var) (path : List (Stmt Var)) (i j : ℕ) :
    Reports .rule1 src ptr path i j ↔
      i < j ∧ FetchAt src path i ∧ FetchAt src path j ∧ (∀ k, FetchAt src path k → i ≤ k ∧ k ≤ j) ∧
        Guarded src path i j :=
  ⟨Reports.ends, fun ⟨hij, h₁, h₂, hends, hg⟩ => reports_of_ends hij h₁ h₂ hends hg⟩

/-- A move in front of a third fetch hides the first two. -/
example (i j : ℕ) : ¬ Reports .rule1 PtrVar.src .ptr
    [.fetch .get_user .data false .src, .fetch .get_user .data false .src,
      .addAssign .src (.other fun _ => 4), .fetch .get_user .data false .src] i j := by
  intro h
  obtain ⟨-, -, -, hends, hg⟩ := h.ends
  have hfirst := hends 0 ⟨_, rfl, rfl⟩
  have hlast := hends 3 ⟨_, rfl, rfl⟩
  have hmove := hg 2 (by omega) (by omega) _ rfl
  revert hmove; decide

/-- **Where rule 1 reports, all fetches read the same pointer value**, if fetches deliver data
    only. -/
theorem rule1_sound (h : Reports .rule1 src ptr path i j) (hd : ∀ s ∈ path, intoData s = true)
    (ρ : Var → Val) (hk : FetchAt src path k) :
    run ρ (path.take k) src = run ρ (path.take i) src := by
  obtain ⟨-, ⟨f, hf, hff⟩, -, hends, hg⟩ := h.ends
  obtain ⟨hik, hkj⟩ := hends k hk
  have hsplit : path.take k = path.take i ++ (path.drop i).take (k - i) := by
    rw [← List.take_add, Nat.add_sub_cancel' hik]
  have hmem : ∀ s ∈ (path.drop i).take (k - i), ∀ c ∈ notMoved src, c s = false := by
    intro s hs
    obtain ⟨m, hm, rfl⟩ := List.mem_take_iff_getElem.1 hs
    rw [List.getElem_drop]
    rcases Nat.eq_zero_or_pos m with rfl | hpos
    · obtain ⟨hi, rfl⟩ := List.getElem?_eq_some_iff.1 hf
      exact (of_fetchFrom hff).2 src
    · exact hg _ (by omega) (by omega) _ (List.getElem?_eq_getElem _)
  rw [hsplit, run_append, run_notMoved hmem, delivered_intoData fun s hs =>
    hd s (List.mem_of_mem_drop (List.mem_of_mem_take hs))]

/-- `get_user(a, src); ptr += 4; copy_from_user(b, src, n);` -/
def twoReads : List (Stmt PtrVar) :=
  [.fetch .get_user .data false .src, .addAssign .ptr (.other fun _ => 4),
    .fetch .copy_from_user .data false .src]

theorem twoReads_reports : Reports .rule1 PtrVar.src .ptr twoReads 0 2 :=
  ⟨[[], [.fetch .get_user .data false .src], [.addAssign .ptr (.other fun _ => 4)],
    [.fetch .copy_from_user .data false .src], []], rfl, by decide, rfl, rfl⟩

theorem rule1_sound_twoReads :
    run (fun _ => 8) (twoReads.take 2) .src = run (fun _ => 8) (twoReads.take 0) .src :=
  rule1_sound twoReads_reports (by decide) _ ⟨_, rfl, rfl⟩

/-! ## Rules 2 to 4 -/

/-- **What rules 2 and 3 report**: the only fetch from the one pointer between the first alias
    and the second fetch, and the only fetch from the other behind it; no second alias comes
    in front. -/
theorem early_reports_iff (r : RuleName) (hr : r = .rule2 ∨ r = .rule3) (src ptr : Var)
    (path : List (Stmt Var)) (i j : ℕ) : Reports r src ptr path i j ↔
      ∃ a, a < i ∧ i < j ∧ AliasAt ptr src path a ∧ FetchAt (r.first src ptr) path i ∧
        FetchAt (r.second src ptr) path j ∧ (∀ k, AliasAt ptr src path k → k < i → k = a) ∧
        (∀ k, FetchAt (r.first src ptr) path k → a < k → k < j → k = i) ∧
        (∀ k, FetchAt (r.second src ptr) path k → i < k → k = j) ∧
        Guarded (r.second src ptr) path i j := by
  have hpat : r.pattern src ptr = [.dots false [], .stmt (aliasOf ptr src), .dots false [],
      .stmt (fetchFrom (r.first src ptr)), .dots false (notMoved (r.second src ptr)),
      .stmt (fetchFrom (r.second src ptr)), .dots false []] := by
    rcases hr with rfl | rfl <;> rfl
  have hp : r.p1 / 2 = 1 ∧ r.p2 / 2 = 2 := by
    rcases hr with rfl | rfl <;> exact ⟨rfl, rfl⟩
  rw [reports_iff_placed, hpat, hp.1, hp.2]
  simp only [placed_cons, placed_last, gap_free]
  constructor
  · rintro ⟨_, ⟨a, _, rfl, -, ⟨-, -, h₀⟩, ha, i', _, rfl, hai, ⟨-, h₁, h₂⟩, hi, j', _, rfl, hij,
      ⟨hg, h₃, h₄⟩, hj, rfl, -, h₅, -⟩, hi', hj'⟩
    obtain rfl : i' = i := Option.some.inj hi'
    obtain rfl : j' = j := Option.some.inj hj'
    have halias := (only_iff (Nat.zero_le a) (Nat.le_of_succ_le hai)).1 ⟨h₀, h₁⟩
    have hfirst := (only_iff hai (Nat.le_of_succ_le hij)).1 ⟨h₂, h₃⟩
    have hsecond := (only_iff hij hj.lt.le).1 ⟨h₄, h₅⟩
    exact ⟨a, hai, hij, ha, hi, hj, fun k hk => halias k hk (Nat.zero_le k), hfirst,
      fun k hk hik => hsecond k hk hik hk.lt, hg⟩
  · rintro ⟨a, hai, hij, ha, hi, hj, halias, hfirst, hsecond, hg⟩
    obtain ⟨h₀, h₁⟩ := (only_iff (Nat.zero_le a) hai.le).2 fun k hk _ => halias k hk
    obtain ⟨h₂, h₃⟩ := (only_iff hai hij.le).2 hfirst
    obtain ⟨h₄, h₅⟩ := (only_iff hij hj.lt.le).2 fun k hk hik _ => hsecond k hk hik
    exact ⟨[a, i, j], ⟨a, _, rfl, Nat.zero_le a, ⟨gap_nil, absent_none, h₀⟩, ha, i, _, rfl, hai,
      ⟨gap_nil, h₁, h₂⟩, hi, j, _, rfl, hij, ⟨hg, h₃, h₄⟩, hj, rfl, gap_nil, h₅, absent_none⟩, rfl, rfl⟩

/-- Another fetch from `src` hides the two in front of it. -/
theorem early_reports_iff_thirdFetch : ¬ Reports .rule2 PtrVar.src .ptr
    [.assign .ptr (.var .src), .fetch .get_user .data false .ptr, .fetch .get_user .data false .src,
      .fetch .get_user .data false .src] 1 2 := by
  rw [early_reports_iff .rule2 (Or.inl rfl)]
  rintro ⟨a, -, -, -, -, -, -, -, hsecond, -⟩
  exact absurd (hsecond 3 ⟨_, rfl, rfl⟩ (by decide)) (by decide)

/-- **What rule 4 reports**: the only fetch from `src` in front of the alias, and the only fetch
    from `ptr` behind it. -/
theorem rule4_reports_iff (src ptr : Var) (path : List (Stmt Var)) (i j : ℕ) :
    Reports .rule4 src ptr path i j ↔
      ∃ a, i < a ∧ a < j ∧ FetchAt src path i ∧ AliasAt ptr src path a ∧ FetchAt ptr path j ∧
        (∀ k, FetchAt src path k → k < a → k = i) ∧
        (∀ k, AliasAt ptr src path k → i < k → k < j → k = a) ∧
        (∀ k, FetchAt ptr path k → a < k → k = j) ∧ Guarded src path i a ∧ Guarded ptr path a j := by
  rw [reports_iff_placed]
  simp only [RuleName.pattern, rule4, placed_cons, placed_last, gap_free]
  constructor
  · rintro ⟨_, ⟨i', _, rfl, -, ⟨-, -, h₀⟩, hi, a, _, rfl, hia, ⟨hg, h₁, h₂⟩, ha, j', _, rfl, haj,
      ⟨hg', h₃, h₄⟩, hj, rfl, -, h₅, -⟩, hi', hj'⟩
    obtain rfl : i' = i := Option.some.inj hi'
    obtain rfl : j' = j := Option.some.inj hj'
    have hfirst := (only_iff (Nat.zero_le i') (Nat.le_of_succ_le hia)).1 ⟨h₀, h₁⟩
    have halias := (only_iff hia (Nat.le_of_succ_le haj)).1 ⟨h₂, h₃⟩
    have hsecond := (only_iff haj hj.lt.le).1 ⟨h₄, h₅⟩
    exact ⟨a, hia, haj, hi, ha, hj, fun k hk => hfirst k hk (Nat.zero_le k), halias,
      fun k hk hak => hsecond k hk hak hk.lt, hg, hg'⟩
  · rintro ⟨a, hia, haj, hi, ha, hj, hfirst, halias, hsecond, hg, hg'⟩
    obtain ⟨h₀, h₁⟩ := (only_iff (Nat.zero_le i) hia.le).2 fun k hk _ => hfirst k hk
    obtain ⟨h₂, h₃⟩ := (only_iff hia haj.le).2 halias
    obtain ⟨h₄, h₅⟩ := (only_iff haj hj.lt.le).2 fun k hk hak _ => hsecond k hk hak
    exact ⟨[i, a, j], ⟨i, _, rfl, Nat.zero_le i, ⟨gap_nil, absent_none, h₀⟩, hi, a, _, rfl, hia,
      ⟨hg, h₁, h₂⟩, ha, j, _, rfl, haj, ⟨hg', h₃, h₄⟩, hj, rfl, gap_nil, h₅, absent_none⟩, rfl, rfl⟩

end DoubleFetch.Cocci
