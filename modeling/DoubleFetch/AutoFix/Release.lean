/-
  Does the patch release what it allocates?

  The inserted code calls `kfree(hd)` in one place only, where the check finds a difference,
  and the function itself does not mention `hd`.  So every other way out leaks the buffer.

  * `Released`: every buffer has been freed exactly once, and nothing else has;
  * `Mark`: what the inserted code has come to in a state of the run; it has got a buffer or
    none, or its check has found a difference;
  * `Paired`: each buffer is followed at once by a difference, and there is no other;
  * `released_iff`: a run that returns has released what it has allocated if and only if
    its marks are paired.
-/
import DoubleFetch.AutoFix.Scope
import Mathlib.Data.List.Count

namespace DoubleFetch.AutoFix

/-- Every buffer has been freed exactly once, and `kfree` has not been called without one. -/
def Released (es : List Event) : Prop :=
  (∀ id, .kmalloc (some id) ∈ es → es.count (.kfree (bufferAt id)) = 1) ∧ .kfree .null ∉ es

/-- Where the first `if` is left `kmalloc` succeeds or fails; behind the second one the
    check finds a difference. -/
inductive Mark where
  | allocated
  | failed
  | differs

/-- Each `kmalloc` that succeeds is followed, before the next one and before the end, by
    exactly one difference, and no difference is found otherwise. -/
def Paired : List Mark → Prop
  | [] => True
  | .failed :: ms => Paired ms
  | .allocated :: .differs :: ms => Paired ms
  | _ => False

variable {V P : Type}

/-- What the inserted code comes to in the state `c`. -/
def Patched.mark (f : Func V P) (w : World) (c : Patched V P) : Option Mark :=
  match c.pt with
  | .behind1 => some (if w.kmalloc c.events.length then .allocated else .failed)
  | .fetch2 =>
    match w.fails c.k, f.check (c.second f w) with
    | none, some false => some .differs
    | _, _ => none
  | _ => none

/-- The marks of the first `n` states of the run from `c₀`. -/
def marks (f : Func V P) (w : World) (c₀ : Cfg V P) (n : ℕ) : List Mark :=
  (states (Patched.step f w) n { toCfg := c₀ }).filterMap (Patched.mark f w)

/-! ## Paired marks -/

/-- A list of marks is cut in front of anything but a difference. -/
theorem paired_append {ms' : List Mark} (h : ∀ l, ms' ≠ .differs :: l) :
    ∀ ms, Paired (ms ++ ms') ↔ Paired ms ∧ Paired ms'
  | [] => (true_and _).to_iff.symm
  | .failed :: ms => paired_append h ms
  | .allocated :: .differs :: ms => paired_append h ms
  | [.allocated] => by
    cases ms' with
    | nil => simp [Paired]
    | cons m l =>
      cases m with
      | differs => exact absurd rfl (h l)
      | allocated | failed => simp [Paired]
  | .allocated :: .allocated :: _ | .allocated :: .failed :: _ | .differs :: _ => by simp [Paired]

theorem not_paired_differs : ∀ ms, ¬ Paired (ms ++ [.differs, .differs])
  | [] | [.allocated] => id
  | .failed :: ms | .allocated :: .differs :: ms => not_paired_differs ms
  | .allocated :: .allocated :: _ | .allocated :: .failed :: _ | .differs :: _ => id

/-! ## The calls made -/

@[simp] theorem bufferAt_inj {i j : ℕ} : bufferAt i = bufferAt j ↔ i = j := by simp [bufferAt]

/-- The calls that the inserted code makes, and `hd` behind them. -/
inductive Ledger : List Event → Ptr → Prop
  | start : Ledger [] .unset
  | allocated {es : List Event} {hd : Ptr} (h : Ledger es hd) :
      Ledger (es ++ [.kmalloc (some es.length)]) (bufferAt es.length)
  | failed {es : List Event} {hd : Ptr} (h : Ledger es hd) : Ledger (es ++ [.kmalloc none]) .null
  | freed {es : List Event} {id : ℕ} (h : Ledger es (bufferAt id)) :
      Ledger (es ++ [.kfree (bufferAt id)]) (bufferAt id)

def Event.mark : Event → Mark
  | kmalloc (some _) => .allocated
  | kmalloc none => .failed
  | kfree _ => .differs

section
variable {es : List Event} {hd : Ptr}

/-- `hd` is what the last `kmalloc` has returned. -/
theorem Ledger.malloc (h : Ledger es hd) {l : Loc} (hl : hd = .loc l) :
    ∃ id, hd = bufferAt id ∧ .kmalloc (some id) ∈ es := by
  induction h with
  | start | failed => cases hl
  | @allocated es => exact ⟨es.length, rfl, by simp⟩
  | freed h ih =>
    obtain ⟨id, hid, hm⟩ := ih hl
    exact ⟨id, hid, by simp [hm]⟩

/-- The next buffer is a new one. -/
theorem Ledger.lt (h : Ledger es hd) {id : ℕ}
    (hid : .kmalloc (some id) ∈ es ∨ .kfree (bufferAt id) ∈ es) : id < es.length := by
  induction h with
  | start => simp at hid
  | allocated h ih =>
    rw [List.length_append, List.length_singleton]
    simp only [List.mem_append, List.mem_singleton, Event.kmalloc.injEq, Option.some.injEq,
      reduceCtorEq, or_false] at hid
    rcases hid with (hm | rfl) | hf
    · exact Nat.lt_succ_of_lt (ih (Or.inl hm))
    · exact Nat.lt_succ_self _
    · exact Nat.lt_succ_of_lt (ih (Or.inr hf))
  | failed h ih =>
    have := ih (by simpa using hid)
    simp only [List.length_append, List.length_singleton]
    omega
  | @freed es i h ih =>
    have : id < es.length := by
      rcases hid with hm | hf
      · exact ih (Or.inl (by simpa using hm))
      · rcases List.mem_append.1 hf with hf | hf
        · exact ih (Or.inr hf)
        · obtain rfl : id = i := by simpa using hf
          obtain ⟨j, hj, hm⟩ := h.malloc rfl
          exact ih (Or.inl (bufferAt_inj.1 hj ▸ hm))
    simp only [List.length_append, List.length_singleton]
    omega

/-- `kfree` is called on buffers only. -/
theorem Ledger.kfree (h : Ledger es hd) {q : Ptr} (hq : .kfree q ∈ es) :
    ∃ id, q = bufferAt id ∧ .kmalloc (some id) ∈ es := by
  induction h with
  | start => simp at hq
  | allocated h ih | failed h ih =>
    obtain ⟨id, hid, hm⟩ := ih (by simpa using hq)
    exact ⟨id, hid, List.mem_append_left _ hm⟩
  | freed h ih =>
    rcases List.mem_append.1 hq with hq | hq
    · obtain ⟨id, hid, hm⟩ := ih hq
      exact ⟨id, hid, List.mem_append_left _ hm⟩
    · obtain rfl : q = _ := by simpa using hq
      obtain ⟨id, hid, hm⟩ := h.malloc rfl
      exact ⟨id, hid, List.mem_append_left _ hm⟩

theorem Ledger.not_null (h : Ledger es hd) : .kfree .null ∉ es := by
  intro hm
  obtain ⟨id, hid, -⟩ := h.kfree hm
  cases hid

/-- **Calls and marks.**  Released is what has paired marks; and what the next `kfree(hd)`
    makes of it. -/
theorem Ledger.paired (h : Ledger es hd) :
    (Released es ↔ Paired (es.map Event.mark)) ∧
      ∀ id, hd = bufferAt id → (Released (es ++ [.kfree (bufferAt id)]) ↔
        Paired (es.map Event.mark ++ [.differs])) := by
  induction h with
  | start => exact ⟨by simp [Released, Paired], by rintro id ⟨⟩⟩
  | @allocated es hd h ih =>
    have hnew : es.count (.kfree (bufferAt es.length)) = 0 :=
      List.count_eq_zero.2 fun hm => Nat.lt_irrefl _ (h.lt (Or.inr hm))
    constructor
    · -- the new buffer has not been freed
      have hno : ¬ Released (es ++ [Event.kmalloc (some es.length)]) := by
        intro hr
        have := hr.1 es.length (by simp)
        simp [List.count_append, hnew] at this
      have hno' : ¬ Paired ((es ++ [Event.kmalloc (some es.length)]).map Event.mark) := by
        rw [List.map_append, paired_append (by rintro l ⟨⟩)]
        exact fun hp => hp.2
      exact iff_of_false hno hno'
    · intro id hid
      obtain rfl : es.length = id := bufferAt_inj.1 hid
      have hpair : Paired ((es ++ [Event.kmalloc (some es.length)]).map Event.mark ++ [.differs]) ↔
          Paired (es.map Event.mark) := by
        rw [List.map_append, List.append_assoc]
        exact (paired_append (by rintro l ⟨⟩) _).trans (and_true _).to_iff
      rw [hpair, ← ih.1]
      constructor
      · refine fun hr => ⟨fun i hi => ?_, h.not_null⟩
        have hne : es.length ≠ i := Nat.ne_of_gt (h.lt (Or.inl hi))
        have := hr.1 i (by simp [hi])
        simpa [List.count_append, List.count_singleton, hne] using this
      · refine fun hr => ⟨fun i hi => ?_, by simpa [bufferAt] using hr.2⟩
        by_cases hne : es.length = i
        · subst hne; simp [List.count_append, hnew]
        · have hi' : .kmalloc (some i) ∈ es := by simpa [Ne.symm hne] using hi
          simpa [List.count_append, List.count_singleton, hne] using hr.1 i hi'
  | failed h ih =>
    refine ⟨?_, by rintro id ⟨⟩⟩
    rw [List.map_append, paired_append (by rintro l ⟨⟩), ← ih.1]
    simp [Released, List.count_append, Paired, Event.mark]
  | @freed es i h ih =>
    refine ⟨by rw [List.map_append]; exact ih.2 i rfl, fun id hid => ?_⟩
    obtain rfl : i = id := bufferAt_inj.1 hid
    obtain ⟨j, hj, hm⟩ := h.malloc rfl
    obtain rfl : i = j := bufferAt_inj.1 hj
    -- freed twice
    have hno : ¬ Released (es ++ [.kfree (bufferAt i)] ++ [.kfree (bufferAt i)]) := by
      intro hr
      have := hr.1 i (by simp [hm])
      simp [List.count_append] at this
    have hno' : ¬ Paired ((es ++ [Event.kfree (bufferAt i)]).map Event.mark ++ [.differs]) := by
      rw [List.map_append, List.append_assoc]
      exact not_paired_differs _
    exact iff_of_false hno hno'

end

/-! ## Runs -/

/-- A step from `c` to `c'`: `hd` and the calls made stay, or what becomes of them. -/
inductive Calls (f : Func V P) (w : World) (c c' : Patched V P) : Prop
  | quiet (hedge : Edge f c.pt c'.pt) (hhd : c'.ins.hd = c.ins.hd) (hev : c'.events = c.events)
  | alloc (hhd : c'.ins.hd = bufferAt c.events.length)
      (hev : c'.events = c.events ++ [.kmalloc (some c.events.length)])
  | allocFails (hpt : c'.pt = f.cleanup) (hhd : c'.ins.hd = .null)
      (hev : c'.events = c.events ++ [.kmalloc none])
  | reject (hr : c.Rejecting f w) (hpt : c'.pt = f.cleanup) (hhd : c'.ins.hd = c.ins.hd)
      (hev : c'.events = c.events ++ [.kfree c.ins.hd])

section
variable {f : Func V P} {w : World} (hs : f.alt.saves = true)
include hs

/-- A check that finds a difference has read from `hd`. -/
theorem Patched.Rejecting.hd_loc {c : Patched V P} (hk : KeepsHd f) (h : c.Rejecting f w) :
    ∃ l, c.ins.hd = .loc l := by
  obtain ⟨-, -, hcheck⟩ := h
  have hleft : (f.operands (c.second f w)).1.left = c.ins.hd := by
    rw [← hk.second hs c (w := w)]
    simp only [Func.operands, hs, if_true]
  rw [Func.check, View.memcmp, hleft] at hcheck
  cases hhd : c.ins.hd with
  | loc l => exact ⟨l, rfl⟩
  | unset => rw [hhd] at hcheck; cases hcheck
  | null =>
    rw [hhd] at hcheck
    simp only at hcheck
    split_ifs at hcheck
    cases hcheck

/-- **What a step does** to `hd` and to the list of the calls. -/
theorem KeepsHd.calls (hk : KeepsHd f) {c c' : Patched V P} (hstep : c.step f w = .next c') :
    Calls f w c c' := by
  cases Patched.step_cases hstep with
  | @own p pt v hpt hcode =>
    have hscope : (c.view f w (f.scope p)).scope = f.scope p := by
      simp only [Patched.view, Patched.on, hs, if_true]
    exact .quiet (hpt ▸ .own hcode) ((hk.code p _ pt v hscope hcode).trans (view_hd hs c _)) rfl
  | first hpt hok hr =>
    subst hr
    exact .quiet (hpt ▸ .first) ((hk.args1 _).trans (view_hd hs c _)) rfl
  | firstFails hpt hok => exact .quiet (hpt ▸ .fail1) ((hk.args1 _).trans (view_hd hs c _)) rfl
  | alloc _ hpt hm => exact .alloc (hk.allocated c _) rfl
  | allocFails _ hpt hm => exact .allocFails rfl (hk.notAllocated c) rfl
  | skip hno => rw [hs] at hno; cases hno
  | accept hpt hok hcheck =>
    exact .quiet (hpt ▸ .after2) ((hk.operands _).trans (hk.second hs c)) rfl
  | reject _ hr =>
    have hv := (hk.operands (c.second f w)).trans (hk.second hs c)
    exact .reject hr rfl ((hk.error _).trans hv) (by rw [hv])
  | rejectOnly hno => rw [hs] at hno; cases hno
  | secondFails hpt hok => exact .quiet (hpt ▸ .fail2) ((hk.args2 _).trans (view_hd hs c _)) rfl

theorem Ledger.step (hk : KeepsHd f) {c c' : Patched V P} (h : Ledger c.events c.ins.hd)
    (hstep : c.step f w = .next c') : Ledger c'.events c'.ins.hd := by
  cases hk.calls hs hstep with
  | quiet _ hhd hev => rw [hhd, hev]; exact h
  | alloc hhd hev => rw [hhd, hev]; exact h.allocated
  | allocFails _ hhd hev => rw [hhd, hev]; exact h.failed
  | reject hr _ hhd hev =>
    obtain ⟨l, hl⟩ := hr.hd_loc hs hk
    obtain ⟨id, hid, -⟩ := h.malloc hl
    rw [hid] at h hhd hev
    rw [hhd, hev]
    exact h.freed

/-- A mark is a call. -/
theorem mark_step {c c' : Patched V P} (hstep : c.step f w = .next c') :
    c'.events.map Event.mark = c.events.map Event.mark ++ (c.mark f w).toList := by
  cases Patched.step_cases hstep with
  | own hpt | first hpt | firstFails hpt => simp [Patched.mark, Patched.put, hpt]
  | alloc _ hpt hk | allocFails _ hpt hk => simp [Patched.mark, hpt, hk, Event.mark]
  | accept hpt hok hcheck => simp [Patched.mark, Patched.put, hpt, hok, hcheck]
  | reject _ hr => simp [Patched.mark, hr.1, hr.2.1, hr.2.2, Event.mark]
  | secondFails hpt hok => simp [Patched.mark, Patched.put, hpt, hok]
  | skip hno | rejectOnly hno => rw [hs] at hno; cases hno

theorem marks_eq {c₀ : Cfg V P} {n : ℕ} {c : Patched V P}
    (hn : run (Patched.step f w) n { toCfg := c₀ } = .next c) :
    marks f w c₀ n = c.events.map Event.mark := by
  refine run_invariant (I := fun n c => marks f w c₀ n = c.events.map Event.mark) rfl ?_ hn
  intro n c c' hn h hstep
  rw [marks, states_snoc hn, List.filterMap_append, ← marks, h, mark_step hs hstep]
  cases hm : c.mark f w <;> simp [hm]

theorem KeepsHd.ledger (hk : KeepsHd f) {c₀ : Cfg V P} {n : ℕ} {c : Patched V P}
    (hn : run (Patched.step f w) n { toCfg := c₀ } = .next c) : Ledger c.events c.ins.hd :=
  run_invariant (I := fun _ c => Ledger c.events c.ins.hd) .start
    (fun _ _ _ _ h hstep => h.step hs hk hstep) hn

end

/-- **When the patch releases what it allocates**: wherever a run has come to, and so where
    the function returns. -/
theorem released_iff (f : Func V P) (w : World) (hs : f.alt.saves = true) (hno : NoHd f)
    {c₀ : Cfg V P} {n : ℕ} {c : Patched V P}
    (hn : run (Patched.step f w) n { toCfg := c₀ } = .next c) :
    Released c.events ↔ Paired (marks f w c₀ n) := by
  rw [marks_eq hs hn]
  exact (hno.keeps.ledger hs hn).paired.1

/-- The function has returned 0, and has not freed the buffer. -/
theorem copyOnce_leaks : ∃ c st, run (Patched.step copyOnce calm) 4 { toCfg := start } = .next c ∧
    c.step copyOnce calm = .ret (0, st) ∧ ¬ Released c.events :=
  ⟨_, _, rfl, rfl, fun h => absurd (h.1 0 (by decide)) (by decide)⟩

/-- The check rejects, and the buffer has been freed. -/
theorem copyOnce_released :
    ∃ c st, run (Patched.step copyOnce changing) 4 { toCfg := start } = .next c ∧
      c.step copyOnce changing = .ret (-14, st) ∧ Released c.events := by
  obtain ⟨c, st, hn, hr⟩ : ∃ c st,
      run (Patched.step copyOnce changing) 4 { toCfg := start } = .next c ∧
        c.step copyOnce changing = .ret (-14, st) := ⟨_, _, rfl, rfl⟩
  refine ⟨c, st, hn, hr, (released_iff copyOnce changing rfl copyOnce_noHd hn).2 ?_⟩
  have hmarks : marks copyOnce changing start 4 = [.allocated, .differs] := rfl
  rw [hmarks]
  trivial

end DoubleFetch.AutoFix
