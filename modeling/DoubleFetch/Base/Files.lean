/-
  Directories, and loops that write files into them.

  For each of its items a loop writes a file, or nothing (`put`): a file of the same name
  is overwritten, all others stay.  So a loop leaves what it writes into an empty directory
  (`written`), over what was there (`putAll_eq_union`), and running it again changes
  nothing (`putAll_putAll`).

  * `lookup_written`: where the names are pairwise different, nothing written is
    overwritten, and no content is lost (`contents_written`);
  * `putAll_eq_written_iff`: what was there before is gone if its names are written;
  * `numberedWrites` are the writes of a loop that numbers its items, and uses the number
    in the name: no name comes twice (`nodup_numberedWrites`);
  * `Tree` are the entries of a directory as they are listed, `Tree.walk` its files with
    the directories they are in; another listing has the same files (`Tree.Relisted.walk`).
-/
import Mathlib.Data.Finmap
import Mathlib.Tactic.Common

namespace DoubleFetch

/-- The files of a directory: their contents by name. -/
abbrev Files (N C : Type*) := Finmap fun _ : N => C

namespace Files

variable {N C : Type*} [DecidableEq N]

/-- Writing a file, if there is something to write. -/
def put (d : Files N C) (w : N × Option C) : Files N C :=
  match w.2 with
  | some c => d.insert w.1 c
  | none => d

/-- The writes of a loop. -/
def putAll (d : Files N C) (ws : List (N × Option C)) : Files N C := ws.foldl put d

/-- The writes of a loop into an empty directory. -/
def written (ws : List (N × Option C)) : Files N C := putAll ∅ ws

variable {d : Files N C} {ws : List (N × Option C)} {n : N} {c : C}

theorem mem_put {w : N × Option C} : n ∈ d.put w ↔ n ∈ d ∨ n = w.1 ∧ w.2.isSome = true := by
  obtain ⟨m, x⟩ := w
  cases x with
  | none => simp [put]
  | some c => simp [put, Finmap.mem_insert, or_comm]

theorem putAll_union : ∀ (ws : List (N × Option C)) (a d : Files N C),
    putAll (a ∪ d) ws = putAll a ws ∪ d
  | [], _, _ => rfl
  | (m, x) :: ws, a, d => by
    have hput : put (a ∪ d) (m, x) = put a (m, x) ∪ d := by
      cases x with
      | none => rfl
      | some c => exact Finmap.insert_union
    change putAll (put (a ∪ d) (m, x)) ws = putAll (put a (m, x)) ws ∪ d
    rw [hput, putAll_union ws]

/-- **What a loop leaves.** -/
theorem putAll_eq_union (d : Files N C) (ws : List (N × Option C)) :
    putAll d ws = written ws ∪ d := by
  have h := putAll_union ws ∅ d
  rwa [Finmap.empty_union] at h

theorem union_self (d : Files N C) : d ∪ d = d :=
  Finmap.ext_lookup fun n => by
    by_cases h : n ∈ d
    · exact Finmap.lookup_union_left h
    · exact Finmap.lookup_union_right h

/-- **Running a loop again.** -/
theorem putAll_putAll (d : Files N C) (ws : List (N × Option C)) :
    putAll (putAll d ws) ws = putAll d ws := by
  rw [putAll_eq_union d, putAll_eq_union, ← Finmap.union_assoc, union_self]

/-- What is in a directory afterwards was there, or has been written. -/
theorem mem_putAll : ∀ {ws : List (N × Option C)} {d : Files N C},
    n ∈ putAll d ws ↔ n ∈ d ∨ ∃ c, (n, some c) ∈ ws
  | [], d => by simp [putAll]
  | (m, x) :: ws, d => by
    change n ∈ putAll (put d (m, x)) ws ↔ _
    rw [mem_putAll, mem_put]
    cases x with
    | none => simp
    | some c =>
      simp only [Option.isSome_some, and_true, List.mem_cons, Prod.mk.injEq, Option.some.injEq]
      constructor
      · rintro ((h | rfl) | ⟨c', h⟩)
        · exact Or.inl h
        · exact Or.inr ⟨c, Or.inl ⟨rfl, rfl⟩⟩
        · exact Or.inr ⟨c', Or.inr h⟩
      · rintro (h | ⟨c', ⟨rfl, -⟩ | h⟩)
        · exact Or.inl (Or.inl h)
        · exact Or.inl (Or.inr rfl)
        · exact Or.inr ⟨c', h⟩

theorem mem_written : n ∈ written ws ↔ ∃ c, (n, some c) ∈ ws := by
  rw [written, mem_putAll]
  exact or_iff_right Finmap.notMem_empty

/-- A file that no item writes stays. -/
theorem lookup_putAll_of_not (h : ∀ c, (n, some c) ∉ ws) :
    (putAll d ws).lookup n = d.lookup n := by
  rw [putAll_eq_union]
  exact Finmap.lookup_union_right fun hn => (mem_written.1 hn).elim h

theorem lookup_putAll_of_mem (hn : (ws.map Prod.fst).Nodup) (h : (n, some c) ∈ ws) :
    (putAll d ws).lookup n = some c := by
  induction ws generalizing d with
  | nil => cases h
  | cons w ws ih =>
    rw [List.map_cons, List.nodup_cons] at hn
    change (putAll (put d w) ws).lookup n = some c
    rcases List.mem_cons.1 h with rfl | h
    · -- no later item has this name
      rw [lookup_putAll_of_not fun c' hc' => hn.1 (List.mem_map.2 ⟨_, hc', rfl⟩)]
      exact Finmap.lookup_insert d
    · exact ih hn.2 h

/-- **What a loop has written**, if no name comes twice. -/
theorem lookup_written (hn : (ws.map Prod.fst).Nodup) :
    (written ws).lookup n = some c ↔ (n, some c) ∈ ws := by
  constructor
  · intro h
    obtain ⟨c', hc'⟩ := mem_written.1 (Finmap.mem_of_lookup_eq_some h)
    have h' := lookup_putAll_of_mem (d := ∅) hn hc'
    obtain rfl := Option.some.inj (h.symm.trans h')
    exact hc'
  · exact lookup_putAll_of_mem hn

/-- **The directory after a loop**: the files it has written, and those it has not
    touched. -/
theorem lookup_putAll (hn : (ws.map Prod.fst).Nodup) : (putAll d ws).lookup n = some c ↔
    (n, some c) ∈ ws ∨ (∀ c', (n, some c') ∉ ws) ∧ d.lookup n = some c := by
  by_cases h : ∃ c', (n, some c') ∈ ws
  · obtain ⟨c', hc'⟩ := h
    rw [lookup_putAll_of_mem hn hc', Option.some.injEq]
    constructor
    · rintro rfl; exact Or.inl hc'
    · rintro (h | ⟨h, -⟩)
      · have h₁ := lookup_putAll_of_mem (d := d) hn hc'
        exact Option.some.inj (h₁.symm.trans (lookup_putAll_of_mem hn h))
      · exact absurd hc' (h c')
  · rw [not_exists] at h
    rw [lookup_putAll_of_not h]
    exact ⟨fun hd => Or.inr ⟨h, hd⟩, fun h' => h'.elim (fun hw => absurd hw (h c)) And.right⟩

/-- **When nothing is left over** of what was there before. -/
theorem putAll_eq_written_iff : putAll d ws = written ws ↔ ∀ n ∈ d, n ∈ written ws := by
  rw [putAll_eq_union]
  constructor
  · intro h n hn
    rw [← h]
    exact Finmap.mem_union.2 (Or.inr hn)
  · intro h
    refine Finmap.ext_lookup fun n => ?_
    by_cases hw : n ∈ written ws
    · exact Finmap.lookup_union_left hw
    · rw [Finmap.lookup_union_right hw, Finmap.lookup_eq_none.2 hw,
        Finmap.lookup_eq_none.2 fun hd => hw (h n hd)]

/-- The contents of the files. -/
def contents (d : Files N C) : Multiset C := d.entries.map Sigma.snd

theorem contents_putAll : ∀ {ws : List (N × Option C)} {d : Files N C},
    (ws.map Prod.fst).Nodup → (∀ w ∈ ws, w.1 ∉ d) →
      contents (putAll d ws) = contents d + (ws.filterMap Prod.snd : List C)
  | [], d, _, _ => by simp [putAll]
  | (m, x) :: ws, d, hn, hd => by
    rw [List.map_cons, List.nodup_cons] at hn
    rw [List.forall_mem_cons] at hd
    have hlater : ∀ w ∈ ws, w.1 ∉ put d (m, x) := by
      intro w hw hput
      rcases mem_put.1 hput with h | ⟨h, -⟩
      · exact hd.2 w hw h
      · exact hn.1 (List.mem_map.2 ⟨w, hw, h⟩)
    change contents (putAll (put d (m, x)) ws) = _
    rw [contents_putAll hn.2 hlater]
    cases x with
    | none => rfl
    | some c =>
      have hc : contents (put d (m, some c)) = c ::ₘ contents d := by
        rw [contents, put, Finmap.entries_insert_of_notMem hd.1, Multiset.map_cons]; rfl
      have hws : ((m, some c) :: ws).filterMap Prod.snd = c :: ws.filterMap Prod.snd := rfl
      rw [hc, hws, ← Multiset.cons_coe, Multiset.cons_add, Multiset.add_cons]

/-- **A loop has written all of it**, if no name comes twice. -/
theorem contents_written (hn : (ws.map Prod.fst).Nodup) :
    contents (written ws) = (ws.filterMap Prod.snd : List C) := by
  rw [written, contents_putAll hn fun _ _ => Finmap.notMem_empty]
  exact zero_add _

/-! ## Numbered files -/

section
variable {A : Type*} {name : ℕ → A → N} {content : ℕ → A → Option C} {k : ℕ} {l : List A}

/-- The writes of a loop that numbers its items from `k` on. -/
def numberedWrites (name : ℕ → A → N) (content : ℕ → A → Option C) (k : ℕ) (l : List A) :
    List (N × Option C) := (l.zipIdx k).map fun p => (name p.2 p.1, content p.2 p.1)

omit [DecidableEq N] in
theorem numberedWrites_cons (a : A) : numberedWrites name content k (a :: l) =
    (name k a, content k a) :: numberedWrites name content (k + 1) l := by
  simp [numberedWrites, List.zipIdx_cons]

omit [DecidableEq N] in
theorem mem_numberedWrites {x : Option C} : (n, x) ∈ numberedWrites name content k l ↔
    ∃ i a, l[i]? = some a ∧ name (k + i) a = n ∧ content (k + i) a = x := by
  simp only [numberedWrites, List.mem_map, Prod.exists, Prod.mk.injEq]
  constructor
  · rintro ⟨a, j, h, hn, hx⟩
    obtain ⟨hle, hget⟩ := List.mk_mem_zipIdx_iff_le_and_getElem?_sub.1 h
    obtain ⟨i, rfl⟩ := Nat.exists_eq_add_of_le hle
    exact ⟨i, a, by rwa [Nat.add_sub_cancel_left] at hget, hn, hx⟩
  · rintro ⟨i, a, h, hn, hx⟩
    exact ⟨a, k + i, List.mk_add_mem_zipIdx_iff_getElem?.2 h, hn, hx⟩

omit [DecidableEq N] in
/-- **Numbered names come once.** -/
theorem nodup_numberedWrites (hname : ∀ {i j a b}, name i a = name j b → i = j) :
    ((numberedWrites name content k l).map Prod.fst).Nodup := by
  have hidx : ((l.zipIdx k).map Prod.snd).Nodup := by
    rw [List.zipIdx_map_snd]; exact List.nodup_range'
  rw [List.Nodup, List.pairwise_map] at hidx
  rw [numberedWrites, List.map_map, List.Nodup, List.pairwise_map]
  exact hidx.imp fun hne he => hne (hname he)

/-- **What a numbered loop has written.** -/
theorem lookup_numberedWrites (hname : ∀ {i j a b}, name i a = name j b → i = j) :
    (written (numberedWrites name content k l)).lookup n = some c ↔
      ∃ i a, l[i]? = some a ∧ name (k + i) a = n ∧ content (k + i) a = some c := by
  rw [lookup_written (nodup_numberedWrites hname), mem_numberedWrites]

/-- **Which numbered files are there afterwards.** -/
theorem mem_putAll_numberedWrites (hname : ∀ {i j a b}, name i a = name j b → i = j) {i : ℕ} {a : A}
    (h : l[i]? = some a) : name (k + i) a ∈ putAll d (numberedWrites name content k l) ↔
      name (k + i) a ∈ d ∨ (content (k + i) a).isSome = true := by
  rw [mem_putAll, Option.isSome_iff_exists]
  refine or_congr_right (exists_congr fun c => ?_)
  rw [mem_numberedWrites]
  constructor
  · rintro ⟨j, b, hj, hn, hc⟩
    obtain rfl := Nat.add_left_cancel (hname hn)
    obtain rfl := Option.some.inj (hj.symm.trans h)
    exact hc
  · exact fun hc => ⟨i, a, h, rfl, hc⟩

omit [DecidableEq N] in
/-- The contents, if they do not depend on the number. -/
theorem filterMap_numberedWrites {f : A → Option C} :
    ∀ {k : ℕ} {l : List A}, (numberedWrites name (fun _ => f) k l).filterMap Prod.snd = l.filterMap f
  | _, [] => rfl
  | k, a :: l => by
    rw [numberedWrites_cons, List.filterMap_cons, List.filterMap_cons, filterMap_numberedWrites]

omit [DecidableEq N] in
theorem numberedWrites_congr {content' : ℕ → A → Option C}
    (h : ∀ i a, l[i]? = some a → content (k + i) a = content' (k + i) a) :
    numberedWrites name content k l = numberedWrites name content' k l :=
  List.map_congr_left fun p hp => by
    obtain ⟨a, j⟩ := p
    obtain ⟨hle, hget⟩ := List.mk_mem_zipIdx_iff_le_and_getElem?_sub.1 hp
    obtain ⟨i, rfl⟩ := Nat.exists_eq_add_of_le hle
    rw [h i a (by rwa [Nat.add_sub_cancel_left] at hget)]

end

end Files

/-! ## Trees -/

/-- The entries of a directory, in the order in which they are listed. -/
inductive Tree (N C : Type*) where
  | nil
  | file (name : N) (content : C) (rest : Tree N C)
  | dir (name : N) (sub rest : Tree N C)

/-- The files below a directory `d`, as they come; `extend` enters a directory. -/
def Tree.walk {D N C : Type*} (extend : D → N → D) (d : D) : Tree N C → List (D × N × C)
  | nil => []
  | file name content rest => (d, name, content) :: rest.walk extend d
  | dir name sub rest => sub.walk extend (extend d name) ++ rest.walk extend d

/-- The same directory, listed in another order. -/
inductive Tree.Relisted {N C : Type*} : Tree N C → Tree N C → Prop
  | nil : Relisted nil nil
  | file (name : N) (content : C) {t t' : Tree N C} : Relisted t t' →
      Relisted (file name content t) (file name content t')
  | dir (name : N) {u u' t t' : Tree N C} : Relisted u u' → Relisted t t' →
      Relisted (dir name u t) (dir name u' t')
  | files (m n : N) (b c : C) (t : Tree N C) :
      Relisted (file m b (file n c t)) (file n c (file m b t))
  | fileDir (m n : N) (c : C) (u t : Tree N C) : Relisted (file m c (dir n u t)) (dir n u (file m c t))
  | dirFile (m n : N) (c : C) (u t : Tree N C) : Relisted (dir n u (file m c t)) (file m c (dir n u t))
  | dirs (m n : N) (u v t : Tree N C) : Relisted (dir m u (dir n v t)) (dir n v (dir m u t))
  | trans {t t' t'' : Tree N C} : Relisted t t' → Relisted t' t'' → Relisted t t''

/-- **Another listing has the same files.** -/
theorem Tree.Relisted.walk {D N C : Type*} {t t' : Tree N C} (h : t.Relisted t') (extend : D → N → D)
    (d : D) : (t.walk extend d).Perm (t'.walk extend d) := by
  induction h generalizing d with
  | nil => exact .nil
  | file name content _ ih => exact (ih d).cons _
  | dir name _ _ ihu ih => exact (ihu (extend d name)).append (ih d)
  | files m n b c t => exact .swap ..
  | fileDir m n c u t => exact List.perm_middle.symm
  | dirFile m n c u t => exact List.perm_middle
  | dirs m n u v t =>
    simp only [Tree.walk, ← List.append_assoc]
    exact List.perm_append_comm.append_right _
  | trans _ _ ih ih' => exact (ih d).trans (ih' d)

/-- Trees of the same names, with related contents. -/
inductive Tree.Rel {N C : Type*} (R : C → C → Prop) : Tree N C → Tree N C → Prop
  | nil : Rel R nil nil
  | file (name : N) {c' c : C} {t' t : Tree N C} : R c' c → Rel R t' t →
      Rel R (file name c' t') (file name c t)
  | dir (name : N) {u' u t' t : Tree N C} : Rel R u' u → Rel R t' t → Rel R (dir name u' t') (dir name u t)

/-- The files of related trees come in the same order. -/
theorem Tree.Rel.walk {D N C : Type*} {R : C → C → Prop} {t' t : Tree N C} (h : t'.Rel R t)
    (extend : D → N → D) (d : D) :
    List.Forall₂ (fun a b => a.1 = b.1 ∧ a.2.1 = b.2.1 ∧ R a.2.2 b.2.2) (t'.walk extend d)
      (t.walk extend d) := by
  induction h generalizing d with
  | nil => exact .nil
  | file name hc _ ih => exact .cons ⟨rfl, rfl, hc⟩ (ih d)
  | dir name _ _ ihu ih => exact List.rel_append (ihu (extend d name)) (ih d)

end DoubleFetch
