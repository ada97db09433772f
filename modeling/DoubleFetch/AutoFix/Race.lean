/-
  Does the inserted check close the race?

  The user chooses the bytes that the second fetch delivers.  The check is a set of
  equations between bytes that the second fetch does not write, those saved in `hd` among
  them, and bytes that it does write: `closesRace_iff` is the library's `forced_iff` on
  these bytes.

  * `ClosesRace`: in every world, what passes the check agrees with the first fetch on the
    bytes that both have read;
  * `closesRace_iff`: when it does, exactly if the second fetches do not move the operands
    of the check and to evaluate these does not write memory;
  * `saved_closes`: alternatives 1 and 2 do in a `Fresh` function, if nothing jumps into
    the error branch of the first `if`, `len` holds all of `size1`, the fetches do not move
    `dst`, and `hd` is live at the second fetch;
  * `headWritten_not_closes`: alternative 3 does not if the gap writes to `head`.
-/
import DoubleFetch.AutoFix.Scope
import DoubleFetch.Base.Forced

namespace DoubleFetch.AutoFix

open Forced Relation

instance : Nontrivial Byte := ⟨0, 1, by decide⟩

variable {V P : Type} (f : Func V P)

/-! ## The check as equations -/

/-- The bytes that the check compares. -/
def Operands.Compared (o : Operands) (x y : Loc) : Prop :=
  ∃ l, o.left = .loc l ∧ ∃ j < o.len, x = l.add j ∧ y = o.right.add j

/-- The check does not read through an invalid pointer. -/
def Operands.Valid (o : Operands) : Prop := o.left ≠ .unset ∧ (o.left = .null → o.len = 0)

/-- **The check is a set of equations.** -/
theorem memcmp_eq_true {v : View V} {o : Operands} : v.memcmp o = some true ↔
    o.Valid ∧ ∀ x y, o.Compared x y → v.byte x = v.byte y := by
  unfold View.memcmp Operands.Valid Operands.Compared
  cases o.left with
  | unset => simp
  | null => simp
  | loc l =>
    simp only [Option.some.injEq, decide_eq_true_eq]
    constructor
    · refine fun h => ⟨⟨by rintro ⟨⟩, by rintro ⟨⟩⟩, ?_⟩
      rintro x y ⟨_, hl, j, hj, rfl, rfl⟩
      cases hl
      exact h j hj
    · exact fun h j hj => h.2 _ _ ⟨l, rfl, j, hj, rfl, rfl⟩

/-- The `n` places from `p` on. -/
def places (p : Loc) (n : ℕ) : Set Loc := {x | ∃ i < n, x = p.add i}

/-- The value the place should have if `e` has been delivered to `p`. -/
def delivers (p : Loc) (e : ℕ → Byte) (x : Loc) : Byte :=
  match p.dist x with
  | some i => e i
  | none => 0

theorem delivers_add {p : Loc} {e : ℕ → Byte} {i : ℕ} : delivers p e (p.add i) = e i := by
  rw [delivers, Loc.dist_eq_some.2 rfl]

/-! ## Closing the race -/

section
variable (r : Args × View V)

/-- With the arguments `r` of the second fetch: whatever it delivers, if the check passes
    the first `min size1 size2` bytes are those in `e`, where `n₁` is the value that
    `size1` had at the first fetch. -/
def Closes (n₁ : ℕ) (e : ℕ → Byte) : Prop :=
  ∀ u : Mem, f.check (copied u r) = some true →
    ∀ i < min n₁ r.1.size, u (r.1.src + i) = e i

/-- Each of these bytes of the destination is linked, by what the operands `o` compare, to
    a byte that the second fetch does not write and that holds what the first one has
    delivered. -/
def Guards (o : Operands) (n₁ : ℕ) (e : ℕ → Byte) : Prop :=
  Covered o.Compared (places r.1.dst r.1.size) r.2.byte
    (places r.1.dst (min n₁ r.1.size)) (delivers r.1.dst e)

/-- Linked bytes that the second fetch does not write differ already before it. -/
def Rejects (o : Operands) : Prop :=
  Contradictory o.Compared (places r.1.dst r.1.size) r.2.byte

/-- To evaluate the operands of the check does not write memory. -/
def NoWrite (v : View V) : Prop := (f.operands v).2.byte = v.byte

/-- Nor does the second fetch move them. -/
def Stable : Prop :=
  ∀ u, NoWrite f (copied u r) ∧ (f.operands (copied u r)).1 = (f.operands r.2).1

end

/-- Where the operands write no memory, the check is about the bytes behind the fetch. -/
theorem check_eq_true {v : View V} (h : NoWrite f v) : f.check v = some true ↔
    (f.operands v).1.Valid ∧ ∀ x y, (f.operands v).1.Compared x y → v.byte x = v.byte y := by
  rw [Func.check, memcmp_eq_true, h]

/-- The solutions of the equations are the memories after the second fetch that pass. -/
theorem solves_copied {o : Operands} {u : Mem} {r : Args × View V}
    (h : ∀ x y, o.Compared x y → (copied u r).byte x = (copied u r).byte y) :
    Solves o.Compared (places r.1.dst r.1.size) r.2.byte (copied u r).byte :=
  ⟨fun _ hx => View.byte_store_of_not fun i hi hl => hx ⟨i, hi, hl⟩, h⟩

/-- Every solution is delivered by some user memory. -/
theorem exists_copied {r : Args × View V} {b : Loc → Byte}
    (hk : ∀ x ∉ places r.1.dst r.1.size, b x = r.2.byte x) :
    ∃ u : Mem, ∀ x, (copied u r).byte x = b x := by
  refine ⟨fun y => b (r.1.dst.add (y - r.1.src)), fun x => ?_⟩
  by_cases hx : x ∈ places r.1.dst r.1.size
  · obtain ⟨i, hi, rfl⟩ := hx
    rw [copied, View.byte_store_add hi, Nat.add_sub_cancel_left]
  · rw [copied, View.byte_store_of_not fun i hi hl => hx ⟨i, hi, hl⟩, hk x hx]

variable {f} {r : Args × View V} {n₁ : ℕ} {e : ℕ → Byte}

/-- A check that guards what both fetches read closes the race, also if its operands are
    moved by the second fetch. -/
theorem closes_of_guarded (h : ∀ u, NoWrite f (copied u r) ∧
    ((f.operands (copied u r)).1.Valid → Rejects r (f.operands (copied u r)).1 ∨
      Guards r (f.operands (copied u r)).1 n₁ e)) : Closes f r n₁ e := by
  intro u hc i hi
  obtain ⟨hw, hg⟩ := h u
  obtain ⟨hvalid, heq⟩ := (check_eq_true f hw).1 hc
  have hi₂ : i < r.1.size := lt_of_lt_of_le hi (Nat.min_le_right _ _)
  have := forced_iff.2 (hg hvalid) _ (solves_copied heq) (r.1.dst.add i) ⟨i, hi, rfl⟩
  rwa [delivers_add, copied, View.byte_store_add hi₂] at this

/-- **Exactly when the check closes the race.** -/
theorem closes_iff_of_stable (hs : Stable f r) : Closes f r n₁ e ↔
    ((f.operands r.2).1.Valid →
      Rejects r (f.operands r.2).1 ∨ Guards r (f.operands r.2).1 n₁ e) := by
  constructor
  · intro h hvalid
    refine forced_iff.1 fun b hb x hx => ?_
    obtain ⟨u, hu⟩ := exists_copied hb.known
    obtain ⟨i, hi, rfl⟩ := hx
    have hi₂ : i < r.1.size := lt_of_lt_of_le hi (Nat.min_le_right _ _)
    obtain ⟨hw, ho⟩ := hs u
    have hc : f.check (copied u r) = some true := by
      refine (check_eq_true f hw).2 ?_
      rw [ho]
      refine ⟨hvalid, fun x y hxy => ?_⟩
      rw [hu, hu]; exact hb.eqns x y hxy
    rw [delivers_add, ← hu, copied, View.byte_store_add hi₂]
    exact h u hc i hi
  · refine fun h => closes_of_guarded fun u => ⟨(hs u).1, ?_⟩
    rw [(hs u).2]; exact h

/-! ## Runs -/

/-- Before the second fetch, in the world `w`: past the check, the bytes it delivers are
    those that the first one has delivered, as far as both have read. -/
def Patched.Agrees (f : Func V P) (w : World) (c : Patched V P) : Prop :=
  ∀ n₁ e, c.fetched = some (n₁, e) → f.check (c.second f w) = some true →
    ∀ i < min n₁ (c.args2 f w).1.size, w.user c.k ((c.args2 f w).1.src + i) = e i

/-- In the world `w` the patched function comes from `c₀` to `c`, before a second fetch
    that succeeds. -/
def AtSecond (f : Func V P) (w : World) (c₀ : Cfg V P) (c : Patched V P) : Prop :=
  ∃ n, run (Patched.step f w) n { toCfg := c₀ } = .next c ∧ c.pt = .fetch2 ∧ w.fails c.k = none

/-- **The patch closes the race**: in every world, at every second fetch. -/
def ClosesRace (f : Func V P) (c₀ : Cfg V P) : Prop :=
  ∀ w c, AtSecond f w c₀ c → c.Agrees f w

/-- The check rejects whatever is delivered, or the operands `o` guard the bytes that both
    fetches read. -/
def Patched.Guarded (f : Func V P) (w : World) (c : Patched V P) (o : Operands) : Prop :=
  ∀ n₁ e, c.fetched = some (n₁, e) → o.Valid →
    Rejects (c.args2 f w) o ∨ Guards (c.args2 f w) o n₁ e

theorem Patched.step_withUser {w : World} {k : ℕ} {u : Mem} {c : Patched V P}
    (h : c.pt = .fetch1 ∨ c.pt = .fetch2 → c.k ≠ k) :
    c.step f w = c.step f (w.withUser k u) := by
  unfold Patched.step
  cases hpt : c.pt with
  | own p => rfl
  | behind1 => rfl
  | fetch1 => simp only [World.withUser, Function.update_of_ne (h (Or.inl hpt))]; rfl
  | fetch2 =>
    have hsecond : c.second f (w.withUser k u) = c.second f w := by
      simp only [Patched.second, World.withUser, Function.update_of_ne (h (Or.inr hpt))]; rfl
    simp only [hsecond]; rfl

/-- What user memory holds at a second fetch does not matter before. -/
theorem AtSecond.withUser {w : World} {c₀ : Cfg V P} {c : Patched V P} (h : AtSecond f w c₀ c)
    (u : Mem) : AtSecond f (w.withUser c.k u) c₀ c := by
  obtain ⟨n, hn, hpt, hok⟩ := h
  refine ⟨n, ?_, hpt, hok⟩
  rw [← run_congr n fun m hm c₁ hc₁ => Patched.step_withUser fun hf => ?_, hn]
  obtain ⟨c₂, hc₂⟩ := run_le (Nat.succ_le_of_lt hm) hn
  have h₁ : c₁.k < c₂.k := (Patched.step_k (run_snoc hc₁ ▸ hc₂)).2 hf
  have h₂ : c₂.k ≤ c.k :=
    run_mono (fun _ _ hs => (Patched.step_k hs).1) (Nat.succ_le_of_lt hm) hc₂ hn
  omega

/-- Closing the race in every run is closing it whatever each second fetch delivers. -/
theorem closesRace_iff_closes {c₀ : Cfg V P} : ClosesRace f c₀ ↔ ∀ w c, AtSecond f w c₀ c →
    ∀ n₁ e, c.fetched = some (n₁, e) → Closes f (c.args2 f w) n₁ e := by
  constructor
  · intro h w c hc n₁ e hf u hcheck
    have := h (w.withUser c.k u) c (hc.withUser u) n₁ e hf
    simp only [Patched.second, World.withUser, Function.update_self] at this
    exact this hcheck
  · exact fun h w c hc n₁ e hf => h w c hc n₁ e hf (w.user c.k)

/-- **When the patch closes the race.**  If the second fetches move the operands of the
    check, it is enough that they guard the bytes wherever they are moved to. -/
theorem closesRace_iff (f : Func V P) (c₀ : Cfg V P) :
    ((∀ w c, AtSecond f w c₀ c → Stable f (c.args2 f w)) →
      (ClosesRace f c₀ ↔
        ∀ w c, AtSecond f w c₀ c → c.Guarded f w (f.operands (c.args2 f w).2).1)) ∧
    ∀ w, (∀ c, AtSecond f w c₀ c → ∀ u, NoWrite f (copied u (c.args2 f w)) ∧
        c.Guarded f w (f.operands (copied u (c.args2 f w))).1) →
      ∀ c, AtSecond f w c₀ c → c.Agrees f w := by
  constructor
  · intro hs
    rw [closesRace_iff_closes]
    constructor
    · intro h w c hc n₁ e hf
      exact (closes_iff_of_stable (hs w c hc)).1 (h w c hc n₁ e hf)
    · intro h w c hc n₁ e hf
      exact (closes_iff_of_stable (hs w c hc)).2 (h w c hc n₁ e hf)
  · intro w h c hc n₁ e hf
    exact closes_of_guarded (fun u => ⟨(h c hc u).1, (h c hc u).2 n₁ e hf⟩) (w.user c.k)

/-! ## Alternatives 1 and 2 -/

/-- The point is neither in the error branch of the first `if` nor at its end. -/
def Outside (branch : P → Prop) : Point P → Prop
  | .own p => ¬ branch p
  | .behind1 => False
  | _ => True

/-- The first `if` is left behind the first fetch, or at the end of its error branch, which
    is entered behind a first fetch that fails only. -/
structure Structured (f : Func V P) (branch : P → Prop) : Prop where
  code : ∀ p v pt v', ¬ branch p → f.code p v = .next (pt, v') → Outside branch pt
  after1 : Outside branch f.after1
  after2 : Outside branch f.after2
  fail2 : Outside branch f.fail2
  cleanup : Outside branch f.cleanup

/-- The fetches do not move the buffer and its size. -/
structure Unmoved (f : Func V P) : Prop where
  size1 : ∀ u v, (f.size1 (copied u (f.args1 v))).1 = (f.args1 v).1.size
  head : ∀ u v, (f.head (copied u (f.args1 v))).1 = (f.args1 v).1.dst
  msg : ∀ u v, (f.msg (copied u (f.args2 v))).1 = (f.args2 v).1.dst

/-- What the first fetch has delivered, `n₁` bytes `e`, is in the buffer behind it, and from
    then on in `hd`, as long as that is not freed. -/
structure Saved (f : Func V P) (branch : P → Prop) (c : Patched V P) (n₁ : ℕ) (e : ℕ → Byte) :
    Prop where
  behind : c.pt = .behind1 → (f.size1 (.plain c.st)).1 = n₁ ∧
    ∀ j < n₁, (View.plain c.st).byte ((f.head (.plain c.st)).1.add j) = e j
  outside : c.pt ≠ .behind1 → Outside branch c.pt
  saved : c.pt ≠ .behind1 → ∀ id, c.ins.hd = bufferAt id → .kfree (bufferAt id) ∉ c.events →
    c.ins.len = n₁ ∧ ∀ j < n₁, c.bufs id j = e j

/-- Outside the first `if`, `hd` keeps what has been saved. -/
theorem Saved.keep {branch : P → Prop} {w : World} {c c' : Patched V P}
    (h : Saved f branch c n₁ e) (hpt : c.pt ≠ .behind1) (hout : Outside branch c'.pt)
    (hins : c'.ins = c.ins) (hbufs : c'.bufs = c.buffers w) (hev : c'.events = c.events) :
    Saved f branch c' n₁ e := by
  refine ⟨fun hb => ?_, fun _ => hout, fun _ id hid hfree => ?_⟩
  · rw [hb] at hout; exact hout.elim
  · rw [hins] at hid ⊢
    rw [hev] at hfree
    rw [hbufs, Patched.buffers, if_neg hfree]
    exact h.saved hpt id hid hfree

section
variable {w : World} {branch : P → Prop} (hsaves : f.alt.saves = true)
  (hf : Fresh f) (hst : Structured f branch) (hun : Unmoved f)
  (hlen : ∀ v, (f.size1 v).1 < 2 ^ 32)
include hsaves hf

include hun in
/-- Behind the first fetch. -/
theorem Saved.first {c : Patched V P} {u : Mem} {v : View V} (hpt : c.pt = .behind1)
    (hst : c.st = (copied u (f.args1 v)).toSt) :
    Saved f branch c (f.args1 v).1.size fun i => u ((f.args1 v).1.src + i) := by
  have hsize := fst_plain (fun s i b => (hf.operands hsaves s i b).size1) (copied u (f.args1 v))
  have hhead := fst_plain (fun s i b => (hf.operands hsaves s i b).head) (copied u (f.args1 v))
  refine ⟨fun _ => ⟨?_, fun j hj => ?_⟩, fun h => absurd hpt h, fun h => absurd hpt h⟩
  · rw [hst, hsize, hun.size1]
  · rw [hst, hhead, hun.head]
    obtain ⟨x, hx⟩ : ∃ x, (f.args1 v).1.dst = .kernel x := hf.kernel_head hsaves v
    have hbyte : (copied u (f.args1 v)).byte ((f.args1 v).1.dst.add j) =
        u ((f.args1 v).1.src + j) := View.byte_store_add hj
    rw [hx] at hbyte ⊢
    exact hbyte

include hst hun hlen

/-- A step keeps the saved bytes. -/
theorem Saved.step {c c' : Patched V P}
    (h : ∀ n₁ e, c.fetched = some (n₁, e) → Saved f branch c n₁ e)
    (hstep : c.step f w = .next c') :
    ∀ n₁ e, c'.fetched = some (n₁, e) → Saved f branch c' n₁ e := by
  have hkeep := hf.keeps hsaves
  intro n₁ e hfetched
  cases Patched.step_cases hstep with
  | @own p pt v hpt hcode =>
    have hsaved := h n₁ e hfetched
    have hne : c.pt ≠ .behind1 := by simp [hpt]
    have hp : ¬ branch p := by have := hsaved.outside hne; rwa [hpt] at this
    rw [hf.code_on] at hcode
    cases hplain : f.code p (.plain c.st) with
    | next r =>
      rw [hplain] at hcode
      cases hcode
      exact hsaved.keep hne (hst.code _ _ _ _ hp hplain) (on_ins hsaves _ _ _)
        (on_bufs hsaves _ _ _) rfl
    | ret r => rw [hplain] at hcode; cases hcode
    | oops => rw [hplain] at hcode; cases hcode
  | first hpt hok hr =>
    subst hr
    cases hfetched
    exact Saved.first hsaves hf hun rfl rfl
  | firstFails => cases hfetched
  | alloc _ hpt hk =>
    obtain ⟨hsize, hbytes⟩ := (h n₁ e hfetched).behind hpt
    obtain ⟨-, hins, hbufs⟩ := hf.allocated hsaves c (w := w) c.events.length
    have hn : (f.size1 (.plain c.st)).1 % 2 ^ 32 = n₁ := (Nat.mod_eq_of_lt (hlen _)).trans hsize
    rw [hn] at hins hbufs
    refine ⟨fun hb => ?_, fun _ => hst.after1, fun _ id hid _ => ?_⟩
    · exact (show Outside branch .behind1 from hb ▸ hst.after1).elim
    · change (c.allocated f w c.events.length).ins.hd = _ at hid
      rw [hins] at hid
      obtain rfl : c.events.length = id := by simpa [bufferAt] using hid
      refine ⟨congrArg Inserted.len hins, fun j hj => ?_⟩
      exact (hbufs j hj).trans (hbytes j hj)
  | allocFails _ hpt hk =>
    refine ⟨fun hb => ?_, fun _ => hst.cleanup, fun _ id hid _ => ?_⟩
    · exact (show Outside branch .behind1 from hb ▸ hst.cleanup).elim
    · cases (hkeep.notAllocated c (w := w)).symm.trans hid
  | skip hno => rw [hsaves] at hno; cases hno
  | accept hpt hok hcheck =>
    have hne : c.pt ≠ .behind1 := by simp [hpt]
    rw [hf.operands_snd, hf.second]
    exact (h n₁ e hfetched).keep hne hst.after2 (on_ins hsaves _ _ _) (on_bufs hsaves _ _ _) rfl
  | reject _ hr =>
    refine ⟨fun hb => ?_, fun _ => hst.cleanup, fun _ id hid hfree => ?_⟩
    · exact (show Outside branch .behind1 from hb ▸ hst.cleanup).elim
    · -- the buffer has just been freed
      change (f.error _).ins.hd = _ at hid
      rw [hkeep.error] at hid
      exact absurd (by simp [hid]) hfree
  | rejectOnly hno => rw [hsaves] at hno; cases hno
  | secondFails hpt hok =>
    have hne : c.pt ≠ .behind1 := by simp [hpt]
    rw [hf.secondFails]
    exact (h n₁ e hfetched).keep hne hst.fail2 (on_ins hsaves _ _ _) (on_bufs hsaves _ _ _) rfl

omit hst hlen in
/-- The saved bytes guard those that both fetches read. -/
theorem Saved.guards {c : Patched V P} (h : Saved f branch c n₁ e) (hpt : c.pt = .fetch2)
    (hlive : c.Live) (u : Mem) :
    Guards (c.args2 f w) (f.operands (copied u (c.args2 f w))).1 n₁ e := by
  obtain ⟨id, hid, -, hfree⟩ := hlive
  obtain ⟨hl, hbytes⟩ := h.saved (by simp [hpt]) id hid hfree
  obtain ⟨x, hx⟩ : ∃ x, (c.args2 f w).1.dst = .kernel x := hf.kernel hsaves _
  have hins : (copied u (c.args2 f w)).ins = c.ins := by
    rw [copied, View.store_ins, Patched.args2, Patched.view, (hf.ignoring c true).args2]
    exact on_ins hsaves _ _ _
  have hops : (f.operands (copied u (c.args2 f w))).1 = ⟨bufferAt id, (c.args2 f w).1.dst, n₁⟩ := by
    simp only [Func.operands, hsaves, if_true, hf.msg _, hins, hid, hl]
    rw [Patched.args2, hun.msg]
  rw [hops]
  rintro y ⟨i, hi, rfl⟩
  have hi₁ : i < n₁ := lt_of_lt_of_le hi (Nat.min_le_left _ _)
  have hlink : Operands.Compared ⟨bufferAt id, (c.args2 f w).1.dst, n₁⟩ ((Loc.buffer id 0).add i)
      ((c.args2 f w).1.dst.add i) := ⟨_, rfl, i, hi₁, rfl, rfl⟩
  refine ⟨(Loc.buffer id 0).add i, ?_, (EqvGen.rel _ _ hlink).symm, ?_⟩
  · rintro ⟨k, -, hk⟩
    rw [hx] at hk
    cases hk
  · rw [delivers_add, Patched.args2, Patched.view, (hf.ignoring c true).args2]
    simp only [Loc.add, Nat.zero_add, View.byte, on_bufs hsaves]
    rw [Patched.buffers, if_neg hfree]
    exact hbytes i hi₁

/-- **Alternatives 1 and 2 close the race** in a `Structured` function whose code does not
    use the inserted variables, where `len` holds all of `size1`, the fetches do not move the
    buffer, and the saved copy is there at the second fetch. -/
theorem saved_closes {c₀ : Cfg V P} (hlive : ∀ w c, AtSecond f w c₀ c → c.Live) :
    ClosesRace f c₀ := by
  intro w c hc n₁ e hfetched
  obtain ⟨n, hn, hpt, -⟩ := id hc
  have hsaved := run_invariant
    (I := fun _ c => ∀ n₁ e, c.fetched = some (n₁, e) → Saved f branch c n₁ e) (by rintro n₁ e ⟨⟩)
    (fun _ _ _ _ hI hs => Saved.step hsaves hf hst hun hlen hI hs) hn n₁ e hfetched
  refine closes_of_guarded (fun u => ⟨?_, fun _ => Or.inr ?_⟩) (w.user c.k)
  · rw [NoWrite, hf.operands_snd]
  · exact hsaved.guards hsaves hf hun hpt (hlive w c hc) u

end

/-! ## A gap that writes to `head` -/

/-- The gap is `*head = 2;`, with `head` at 0. -/
def headWritten : Func ℤ Label := sample .alt3 0 1 fun v => v.store (.kernel 0) 1 fun _ => 2

/-- The check compares what the gap has written to `head`, and lets the changed byte pass. -/
theorem headWritten_not_closes : ¬ ClosesRace headWritten start := by
  intro h
  have := h changing _ ⟨3, rfl, rfl, rfl⟩ 1 _ rfl (by decide) 0 (by decide)
  exact absurd this (by decide)

/-- Alternative 1 has saved the byte that the first fetch has delivered. -/
theorem copyOnce_agrees : ∀ c, AtSecond copyOnce changing start c → c.Agrees copyOnce changing := by
  refine (closesRace_iff copyOnce start).2 changing ?_
  rintro c ⟨n, hn, hpt, -⟩ u
  match n, hn with
  | 0, hn | 1, hn | 2, hn | 4, hn => cases hn; cases hpt
  | 3, hn =>
    cases hn
    refine ⟨rfl, ?_⟩
    rintro n₁ e hf -
    cases hf
    right
    rintro x ⟨i, hi, rfl⟩
    obtain rfl : i = 0 := by
      have : i < 1 := lt_of_lt_of_le hi (Nat.min_le_left _ _)
      omega
    refine ⟨.buffer 0 0, ?_, (EqvGen.rel _ _ ⟨_, rfl, 0, Nat.one_pos, rfl, rfl⟩).symm, rfl⟩
    rintro ⟨k, -, hk⟩; cases hk
  | n + 5, hn => cases hn

/-- The gap is `len = 0;`, for a variable `len` of the function. -/
def ownLen : Func ℤ Label :=
  sample .alt1 8 1 fun v => if v.scope then { v with ins := ⟨v.ins.hd, 0⟩ } else v

/-- The patch hides this variable: nothing is compared, and the changed byte passes. -/
example : ¬ ClosesRace ownLen start := by
  intro h
  have := h changing _ ⟨3, rfl, rfl, rfl⟩ 1 _ rfl (by decide) 0 (by decide)
  exact absurd this (by decide)

end DoubleFetch.AutoFix
