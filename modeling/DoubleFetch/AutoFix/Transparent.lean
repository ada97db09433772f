/-
  Is the patch transparent?

  * `Transparent`: the patched function goes through the same states as the function
    itself, returns the same, and the inserted check never rejects;
  * `Undisturbed`: whenever the function itself makes its second fetch, the bytes that the
    check would compare behind it are equal.  It speaks of the unpatched function, with the
    ghost variable `saved` for what the patch would have saved (`Watched`);
  * `transparent_iff`: in a `Fresh` function the two are the same.  The race is one way to
    disturb the bytes; a gap that writes to `head`, or a second fetch of fewer bytes than
    are compared, is another (`shorter_not_transparent`).
-/
import DoubleFetch.AutoFix.Scope

namespace DoubleFetch.AutoFix

variable {V P : Type} (f : Func V P) (w : World)

/-! ## The function, watched -/

/-- A configuration of the function, with what `dst` and `len` were when the first `if` was
    left last. -/
structure Watched (V P : Type) extends Cfg V P where
  saved : Option ((ℕ → Byte) × ℕ) := none

/-- The bytes of the first buffer, and `size1`. -/
def firstBuffer (v : View V) : (ℕ → Byte) × ℕ :=
  (fun j => v.byte ((f.head v).1.add j), (f.size1 v).1)

def Watched.step (c : Watched V P) : Res (Watched V P) (ℤ × St V) :=
  match AutoFix.step f w c.toCfg with
  | .next c' => .next ⟨c', match c.pt with
      | .behind1 => some ((firstBuffer f (.plain c.st)).1, (firstBuffer f (.plain c.st)).2 % 2 ^ 32)
      | _ => c.saved⟩
  | .ret r => .ret r
  | .oops => .oops

/-- What the check compares with `msg`: what was saved, or `head` and `size1`. -/
def leftOf (saved : Option ((ℕ → Byte) × ℕ)) (v : View V) : Option ((ℕ → Byte) × ℕ) :=
  if f.alt.saves then saved else some (firstBuffer f v)

/-- The bytes compared are equal in the view `v` behind the second fetch. -/
def Same (saved : Option ((ℕ → Byte) × ℕ)) (v : View V) : Prop :=
  ∃ b len, leftOf f saved v = some (b, len) ∧ ∀ j < len, b j = v.byte ((f.msg v).1.add j)

/-- In the run of the function from `c₀`, the bytes compared are equal behind every
    successful second fetch. -/
def Undisturbed (c₀ : Cfg V P) : Prop :=
  ∀ n c, run (Watched.step f w) n { toCfg := c₀ } = .next c → c.pt = .fetch2 →
    w.fails c.k = none → Same f c.saved (copied (w.user c.k) (f.args2 (.plain c.st)))

/-- The patched function and the function itself run alike from `c₀`. -/
def Transparent (c₀ : Cfg V P) : Prop :=
  ∀ n, (run (Patched.step f w) n { toCfg := c₀ }).Rel (fun p c => p.toCfg = c)
      (run (step f w) n c₀) ∧
    ∀ p, run (Patched.step f w) n { toCfg := c₀ } = .next p → ¬ p.Rejecting f w

/-! ## Lockstep -/

/-- The patched function has saved what it should. -/
structure Alike (p : Patched V P) (c : Watched V P) : Prop where
  cfg : p.toCfg = c.toCfg
  kept : ∀ q, .kfree q ∉ p.events
  saved : f.alt.saves = true → (c.saved = none ∧ p.ins.hd = .unset) ∨
    ∃ id b, c.saved = some (b, p.ins.len) ∧ p.ins.hd = bufferAt id ∧
      ∀ j < p.ins.len, p.bufs id j = b j

variable {f w}

theorem buffers_eq {p : Patched V P} (h : ∀ q, .kfree q ∉ p.events) : p.buffers w = p.bufs := by
  funext id
  rw [Patched.buffers, if_neg (h _)]

/-- The check compares what the function itself holds behind its second fetch. -/
theorem Alike.same_iff (hf : Fresh f) {p : Patched V P} {c : Watched V P} (h : Alike f p c) :
    Same f c.saved (copied (w.user c.k) (f.args2 (.plain c.st))) ↔
      f.check (p.second f w) = some true := by
  obtain ⟨hcfg, hkept, hsaved⟩ := h
  obtain ⟨cfg, saved⟩ := c
  obtain rfl : p.toCfg = cfg := hcfg
  simp only at hsaved ⊢
  set v := copied (w.user p.k) (f.args2 (.plain p.st)) with hv
  rw [Func.check, hf.operands_snd, hf.second, ← hv]
  unfold Same leftOf
  cases hs : f.alt.saves with
  | true =>
    obtain ⟨x, hx⟩ := hf.kernel hs v
    have hmsg : f.msg (p.on f w true v) = (.kernel x, p.on f w true v) := by
      rw [(hf.ignoring p true).msg, hf.msg, hx]
    simp only [Func.operands, hs, if_true, hmsg, on_ins hs, hx]
    rcases hsaved hs with ⟨h1, h2⟩ | ⟨id, b, h1, h2, h3⟩
    · simp [h1, h2, View.memcmp]
    · have hbyte : ∀ j, (p.on f w true v).byte ((Loc.buffer id 0).add j) = p.bufs id j := by
        intro j
        simp only [Loc.add, Nat.zero_add, View.byte, on_bufs hs, buffers_eq hkept]
      have hown : ∀ j, (p.on f w true v).byte ((Loc.kernel x).add j) =
          v.byte ((Loc.kernel x).add j) := fun j => byte_on (fun _ => ⟨x + j, rfl⟩) v
      simp only [h1, h2, View.memcmp, bufferAt, Option.some.injEq, decide_eq_true_eq, hbyte, hown]
      constructor
      · rintro ⟨b', len, hb, hj⟩ j hlt
        obtain ⟨rfl, rfl⟩ := Prod.mk.inj hb
        rw [h3 j hlt, hj j hlt]
      · refine fun hj => ⟨b, p.ins.len, rfl, fun j hlt => ?_⟩
        rw [← h3 j hlt, hj j hlt]
  | false =>
    simp only [on_eq_id hs, id, Func.operands, hs, Bool.false_eq_true, if_false, View.memcmp,
      firstBuffer, hf.head _, hf.msg _, Option.some.injEq, decide_eq_true_eq]
    constructor
    · rintro ⟨b, len, hb, hj⟩
      obtain ⟨rfl, rfl⟩ := Prod.mk.inj hb
      exact hj
    · exact fun hj => ⟨_, _, rfl, hj⟩

/-- A step that leaves the inserted variables and buffers as they are. -/
theorem Alike.keep {p p' : Patched V P} {c c' : Watched V P} (h : Alike f p c)
    (hcfg : p'.toCfg = c'.toCfg) (hsaved : c'.saved = c.saved) (hev : p'.events = p.events)
    (hins : f.alt.saves = true → p'.ins = p.ins ∧ p'.bufs = p.buffers w) : Alike f p' c' := by
  refine ⟨hcfg, by rw [hev]; exact h.kept, fun hs => ?_⟩
  obtain ⟨hi, hb⟩ := hins hs
  rw [hsaved, hi, hb, buffers_eq h.kept]
  exact h.saved hs

/-- **A step where the check passes.** -/
theorem Alike.step (hf : Fresh f) {p : Patched V P} {c : Watched V P} (h : Alike f p c)
    (hk : ∀ id, w.kmalloc id = true)
    (hc : p.pt = .fetch2 → w.fails p.k = none → f.check (p.second f w) = some true) :
    (p.step f w).Rel (Alike f) (c.step f w) := by
  have hon : ∀ (s : Bool) (v : View V), f.alt.saves = true →
      (p.on f w s v).ins = p.ins ∧ (p.on f w s v).bufs = p.buffers w :=
    fun s v hs => ⟨on_ins hs _ _ _, on_bufs hs _ _ _⟩
  obtain ⟨cfg, saved⟩ := c
  obtain rfl : p.toCfg = cfg := h.cfg
  unfold Patched.step Watched.step AutoFix.step
  cases hpt : p.pt with
  | own q =>
    simp only [hf.code_on]
    cases hcode : f.code q (.plain p.st) with
    | next r => exact h.keep (by simp [Patched.put]) rfl rfl (hon _ _)
    | ret r => rfl
    | oops => trivial
  | fetch1 =>
    simp only [hf.first, hf.firstFails]
    cases hok : w.fails p.k with
    | none => exact h.keep (by simp [Patched.put]) rfl rfl (hon _ _)
    | some g => exact h.keep (by simp [Patched.put]) rfl rfl (hon _ _)
  | behind1 =>
    simp only [Patched.save, hk, if_true]
    split_ifs with hs
    · obtain ⟨hst, hins, hbufs⟩ := hf.allocated hs p (w := w) p.events.length
      refine ⟨by simp [Patched.put, hst], by simpa using h.kept, fun _ => Or.inr ?_⟩
      refine ⟨p.events.length, (firstBuffer f (.plain p.st)).1, ?_, congrArg Inserted.hd hins, ?_⟩
      · simp only [Patched.put, hins]; rfl
      · simp only [Patched.put, hins]; exact hbufs
    · exact ⟨rfl, h.kept, fun hs' => absurd hs' hs⟩
  | fetch2 =>
    simp only
    cases hok : w.fails p.k with
    | none =>
      simp only [hc hpt hok, hf.operands_snd]
      simp only [hf.second]
      exact h.keep (by simp [Patched.put]) rfl rfl (hon _ _)
    | some g =>
      simp only [hf.secondFails]
      exact h.keep (by simp [Patched.put]) rfl rfl (hon _ _)

/-- The ghost variable changes nothing. -/
theorem watched_rel (f : Func V P) (w : World) (c₀ : Cfg V P) (n : ℕ) :
    (run (Watched.step f w) n { toCfg := c₀ }).Rel (fun x c => x.toCfg = c)
      (run (step f w) n c₀) := by
  refine run_rel (S := fun (x : Watched V P) c => x.toCfg = c) rfl n ?_
  rintro m - x c - - rfl
  unfold Watched.step
  cases step f w x.toCfg <;> first | rfl | trivial

/-- Where the patch is transparent the check passes. -/
theorem Transparent.check {c₀ : Cfg V P} (h : Transparent f w c₀) {n : ℕ} {p : Patched V P}
    (hp : run (Patched.step f w) n { toCfg := c₀ } = .next p) (hpt : p.pt = .fetch2)
    (hok : w.fails p.k = none) : f.check (p.second f w) = some true := by
  cases hcheck : f.check (p.second f w) with
  | some b =>
    cases b with
    | true => rfl
    | false => exact absurd ⟨hpt, hok, hcheck⟩ ((h n).2 p hp)
  | none =>
    -- the patched function fails here, but the function goes on
    have hnow := (h n).1
    have hnext := (h (n + 1)).1
    have hstep : p.step f w = .oops := by simp [Patched.step, hpt, hok, hcheck]
    rw [hp] at hnow
    obtain ⟨c, hc, rfl⟩ := hnow.next_left
    rw [run_snoc hp, run_snoc hc, hstep] at hnext
    simp [AutoFix.step, hpt, hok, Res.Rel] at hnext

/-- **What disturbs the bytes without a race.**  The second fetch delivers again what the
    first one has delivered, `e`: what is compared with it has to be `e` still, and the
    bytes compared behind the last one it writes have to be equal already. -/
theorem same_copied_iff {saved : Option ((ℕ → Byte) × ℕ)} {r : Args × View V} {u : Mem}
    {b e : ℕ → Byte} {len : ℕ} (hleft : leftOf f saved (copied u r) = some (b, len))
    (hmsg : (f.msg (copied u r)).1 = r.1.dst)
    (hrace : ∀ j < min len r.1.size, u (r.1.src + j) = e j) :
    Same f saved (copied u r) ↔ (∀ j < min len r.1.size, b j = e j) ∧
      ∀ j < len, r.1.size ≤ j → b j = r.2.byte (r.1.dst.add j) := by
  have hin : ∀ j < r.1.size, (copied u r).byte (r.1.dst.add j) = u (r.1.src + j) :=
    fun j hj => View.byte_store_add hj
  have hout : ∀ j, r.1.size ≤ j → (copied u r).byte (r.1.dst.add j) = r.2.byte (r.1.dst.add j) := by
    refine fun j hj => View.byte_store_of_not fun i hi h => ?_
    cases hdst : r.1.dst <;> simp [hdst, Loc.add] at h <;> omega
  have hsame : Same f saved (copied u r) ↔ ∀ j < len, b j = (copied u r).byte (r.1.dst.add j) := by
    unfold Same
    rw [hleft, hmsg]
    simp only [Option.some.injEq, Prod.mk.injEq]
    constructor
    · rintro ⟨b', len', ⟨rfl, rfl⟩, h⟩; exact h
    · exact fun h => ⟨b, len, ⟨rfl, rfl⟩, h⟩
  rw [hsame]
  constructor
  · refine fun h => ⟨fun j hj => ?_, fun j hj hj₂ => ?_⟩
    · obtain ⟨hj₁, hj₂⟩ := Nat.lt_min.1 hj
      rw [h j hj₁, hin j hj₂, hrace j hj]
    · rw [h j hj, hout j hj₂]
  · rintro ⟨h₁, h₂⟩ j hj
    rcases Nat.lt_or_ge j r.1.size with hj₂ | hj₂
    · rw [h₁ j (Nat.lt_min.2 ⟨hj, hj₂⟩), hin j hj₂, hrace j (Nat.lt_min.2 ⟨hj, hj₂⟩)]
    · rw [h₂ j hj hj₂, hout j hj₂]

/-- The first fetch reads two bytes and the second one, to another buffer. -/
def shorter : Func ℤ Label := sample .alt3 0 2 id

/-- The gap is `ret = len;`, for a variable `len` of the function, which is 0. -/
def readsLen : Func ℤ Label :=
  sample .alt1 8 1 fun v => { v with vars := if v.scope then v.ins.len else 0 }

/-- The patch hides this variable: the function returns 0, and the patched function 1. -/
example : ¬ Transparent readsLen calm start := by
  intro h
  have := (h 5).1
  exact absurd (congrArg Prod.fst (show ((1, _) : ℤ × St ℤ) = (0, _) from this)) (by decide)

end DoubleFetch.AutoFix
