/-
  Code of the function, and the names that the patch inserts.

  * `NoHd`: the code does not mention `hd`;
  * `Fresh`: in the scope of the inserted declarations it uses neither `hd` nor `len`, and
    it has no effect to evaluate the operands that the inserted code evaluates again;
  * `KeepsHd`: the code leaves the inserted `hd` as it is, which both imply.

  In the patched function the code of a `Fresh` function sees the view `c.on scope v`
  wherever it sees `v` in the function itself, and does the same there (`Fresh.code_on`,
  `Fresh.first`, `Fresh.second`, `Fresh.error_on`).
-/
import DoubleFetch.AutoFix.Machine

namespace DoubleFetch.AutoFix

variable {V P : Type}

/-- `g` neither reads nor writes what `t` changes. -/
def Ignores {α : Type} (t : View V → View V) (g : View V → α × View V) : Prop :=
  ∀ v, g (t v) = ((g v).1, t (g v).2)

/-- To evaluate `g` has no effect. -/
def NoEffect {α : Type} (g : View V → α × View V) : Prop := ∀ v, (g v).2 = v

/-- The operands and `ret = ERROR` neither read nor write what `t` changes. -/
structure Func.Ignoring (f : Func V P) (t : View V → View V) : Prop where
  head : Ignores t f.head
  msg : Ignores t f.msg
  src : Ignores t f.src
  size1 : Ignores t f.size1
  size2 : Ignores t f.size2
  error : ∀ v, f.error (t v) = t (f.error v)

def View.setHd (hd : Ptr) (v : View V) : View V := { v with ins := ⟨hd, v.ins.len⟩ }

/-- The state of `v`, with all that the patch adds to it. -/
def View.frame (scope : Bool) (ins : Inserted) (bufs : ℕ → Mem) (v : View V) : View V :=
  { v with scope := scope, ins := ins, bufs := bufs }

/-- The function's own code does not mention `hd`. -/
structure NoHd (f : Func V P) : Prop where
  code : ∀ p v hd, f.code p (v.setHd hd) = (f.code p v).map fun r => (r.1, r.2.setHd hd)
  operands : ∀ hd, f.Ignoring (View.setHd hd)

/-- The function's own code uses neither `hd` nor `len` in the scope of the inserted
    declarations, its pointers do not point into the inserted buffers, and the operands
    that are evaluated again have no side effects. -/
structure Fresh (f : Func V P) : Prop where
  code : f.alt.saves = true → ∀ p st ins bufs,
    f.code p ((View.plain st).frame (f.scope p) ins bufs) =
      (f.code p (.plain st)).map fun r => (r.1, r.2.frame (f.scope p) ins bufs)
  operands : f.alt.saves = true → ∀ scope ins bufs, f.Ignoring (View.frame scope ins bufs)
  kernel : f.alt.saves = true → ∀ v, ∃ x, (f.msg v).1 = .kernel x
  head : NoEffect f.head
  msg : NoEffect f.msg
  size1 : NoEffect f.size1

/-- The function's own code leaves the inserted `hd` as it is. -/
structure KeepsHd (f : Func V P) : Prop where
  code : ∀ p v pt v', v.scope = f.scope p → f.code p v = .next (pt, v') → v'.ins.hd = v.ins.hd
  head : ∀ v, (f.head v).2.ins.hd = v.ins.hd
  msg : ∀ v, (f.msg v).2.ins.hd = v.ins.hd
  src : ∀ v, (f.src v).2.ins.hd = v.ins.hd
  size1 : ∀ v, (f.size1 v).2.ins.hd = v.ins.hd
  size2 : ∀ v, (f.size2 v).2.ins.hd = v.ins.hd
  error : ∀ v, (f.error v).ins.hd = v.ins.hd

variable {f : Func V P} {w : World}

/-- What ignores a change that keeps `hd` leaves `hd` as it is. -/
theorem Ignores.hd {α : Type} {g : View V → α × View V} {t : View V → View V} {v : View V}
    (hg : Ignores t g) (hv : t v = v) (ht : ∀ v', (t v').ins.hd = v.ins.hd) :
    (g v).2.ins.hd = v.ins.hd := by
  have hgv := hg v
  rw [hv] at hgv
  rw [hgv]
  exact ht _

/-- The operands leave `hd` as it is if they ignore that it is set to what it is. -/
theorem KeepsHd.of_ignoring (hcode : ∀ p v pt v', v.scope = f.scope p →
      f.code p v = .next (pt, v') → v'.ins.hd = v.ins.hd)
    (hop : ∀ v, ∃ t, f.Ignoring t ∧ t v = v ∧ ∀ v', (t v').ins.hd = v.ins.hd) : KeepsHd f where
  code := hcode
  head v := by obtain ⟨t, h, hv, ht⟩ := hop v; exact h.head.hd hv ht
  msg v := by obtain ⟨t, h, hv, ht⟩ := hop v; exact h.msg.hd hv ht
  src v := by obtain ⟨t, h, hv, ht⟩ := hop v; exact h.src.hd hv ht
  size1 v := by obtain ⟨t, h, hv, ht⟩ := hop v; exact h.size1.hd hv ht
  size2 v := by obtain ⟨t, h, hv, ht⟩ := hop v; exact h.size2.hd hv ht
  error v := by
    obtain ⟨t, h, hv, ht⟩ := hop v
    have he := h.error v
    rw [hv] at he
    rw [he]
    exact ht _

theorem NoHd.keeps (h : NoHd f) : KeepsHd f := by
  refine .of_ignoring (fun p v pt v' _ hcode => ?_)
    fun v => ⟨View.setHd v.ins.hd, h.operands _, rfl, fun _ => rfl⟩
  -- what is left of `hd` is what has been set
  have hv := h.code p v v.ins.hd
  rw [show v.setHd v.ins.hd = v from rfl, hcode] at hv
  have := congrArg (fun r => r.2.ins.hd) (Res.next.inj hv)
  exact this

/-- What ignores the inserted variables has the value that it has without them. -/
theorem fst_plain {α : Type} {g : View V → α × View V}
    (hg : ∀ scope ins bufs, Ignores (View.frame scope ins bufs) g) (v : View V) :
    (g (.plain v.toSt)).1 = (g v).1 :=
  (congrArg Prod.fst (hg v.scope v.ins v.bufs (.plain v.toSt))).symm

theorem Fresh.keeps (h : Fresh f) (hs : f.alt.saves = true) : KeepsHd f := by
  refine .of_ignoring (fun p v pt v' hscope hcode => ?_)
    fun v => ⟨View.frame v.scope v.ins v.bufs, h.operands hs _ _ _, rfl, fun _ => rfl⟩
  have hv := h.code hs p v.toSt v.ins v.bufs
  rw [← hscope, show (View.plain v.toSt).frame v.scope v.ins v.bufs = v from rfl, hcode] at hv
  cases hplain : f.code p (.plain v.toSt) with
  | next r => rw [hplain] at hv; exact congrArg (fun r => r.2.ins.hd) (Res.next.inj hv)
  | ret r => rw [hplain] at hv; cases hv
  | oops => rw [hplain] at hv; cases hv

/-! ## `hd` -/

section
variable (h : KeepsHd f) (v : View V)
include h

theorem KeepsHd.args1 : (f.args1 v).2.ins.hd = v.ins.hd := by
  simp only [Func.args1, h.size1, h.src, h.head]

theorem KeepsHd.args2 : (f.args2 v).2.ins.hd = v.ins.hd := by
  simp only [Func.args2, h.size2, h.src, h.msg]

theorem KeepsHd.operands : (f.operands v).2.ins.hd = v.ins.hd := by
  unfold Func.operands
  split_ifs
  · exact h.msg v
  · simp only [h.size1, h.msg, h.head]

end

section
variable (h : KeepsHd f) (hs : f.alt.saves = true) (c : Patched V P)
include hs

theorem view_hd (scope : Bool) : (c.view f w scope).ins.hd = c.ins.hd := by
  simp only [Patched.view, Patched.on, hs, if_true]

include h

theorem KeepsHd.second : (c.second f w).ins.hd = c.ins.hd := by
  rw [Patched.second, copied, View.store_ins, Patched.args2, h.args2, view_hd hs]

omit hs

theorem KeepsHd.allocated (id : ℕ) : (c.allocated f w id).ins.hd = bufferAt id := by
  rw [Patched.allocated, View.store_ins, h.head]

theorem KeepsHd.notAllocated : (c.notAllocated f w).ins.hd = .null := by
  rw [Patched.notAllocated, h.error]

end

/-! ## Fresh names -/

@[simp] theorem on_toSt (c : Patched V P) (scope : Bool) (v : View V) :
    (c.on f w scope v).toSt = v.toSt := by
  unfold Patched.on
  split_ifs <;> rfl

/-- In alternatives 1 and 2 the inserted variables are added to what the function sees. -/
theorem on_eq_frame (hs : f.alt.saves = true) (c : Patched V P) (scope : Bool) :
    c.on f w scope = View.frame scope c.ins (c.buffers w) := by
  funext v
  simp only [Patched.on, hs, if_true, View.frame]

theorem on_ins (hs : f.alt.saves = true) (c : Patched V P) (scope : Bool) (v : View V) :
    (c.on f w scope v).ins = c.ins := by
  rw [on_eq_frame hs]; rfl

theorem on_bufs (hs : f.alt.saves = true) (c : Patched V P) (scope : Bool) (v : View V) :
    (c.on f w scope v).bufs = c.buffers w := by
  rw [on_eq_frame hs]; rfl

theorem on_eq_id (hs : f.alt.saves = false) (c : Patched V P) (scope : Bool) :
    c.on f w scope = id := by
  funext v
  simp only [Patched.on, hs, Bool.false_eq_true, if_false, id]

theorem Func.Ignoring.args1 {t : View V → View V} (h : f.Ignoring t) : Ignores t f.args1 := by
  intro v
  simp only [Func.args1, h.head v, h.src (f.head v).2, h.size1 (f.src (f.head v).2).2]

theorem Func.Ignoring.args2 {t : View V → View V} (h : f.Ignoring t) : Ignores t f.args2 := by
  intro v
  simp only [Func.args2, h.msg v, h.src (f.msg v).2, h.size2 (f.src (f.msg v).2).2]

section
variable (h : Fresh f) (c : Patched V P) (scope : Bool)
include h

theorem Fresh.ignoring : f.Ignoring (c.on f w scope) := by
  cases hs : f.alt.saves with
  | true => rw [on_eq_frame hs]; exact h.operands hs _ _ _
  | false =>
    rw [on_eq_id hs]
    constructor <;> intro <;> rfl

/-- An own statement does what it does in the function itself. -/
theorem Fresh.code_on (p : P) : f.code p (c.view f w (f.scope p)) =
    (f.code p (.plain c.st)).map fun r => (r.1, c.on f w (f.scope p) r.2) := by
  unfold Patched.view
  cases hs : f.alt.saves with
  | true => rw [on_eq_frame hs]; exact h.code hs _ _ _ _
  | false => rw [on_eq_id hs]; exact (Res.map_id _).symm

theorem Fresh.error_on (v : View V) : f.error (c.on f w scope v) = c.on f w scope (f.error v) :=
  (h.ignoring c scope).error v

theorem Fresh.operands_snd (v : View V) : (f.operands v).2 = v := by
  unfold Func.operands
  split_ifs
  · exact h.msg v
  · simp only [h.size1 _, h.msg _, h.head _]

/-- The destinations of the fetches are not in an inserted buffer. -/
theorem Fresh.kernel_head (hs : f.alt.saves = true) (v : View V) :
    ∃ x, (f.head v).1 = .kernel x := by
  rw [f.dst hs]; exact h.kernel hs v

end

section
variable {c : Patched V P} {scope : Bool}

/-- The function's own memory does not see the inserted variables. -/
theorem byte_on {l : Loc} (hl : f.alt.saves = true → ∃ x, l = .kernel x) (v : View V) :
    (c.on f w scope v).byte l = v.byte l := by
  cases hs : f.alt.saves with
  | true => obtain ⟨x, rfl⟩ := hl hs; rw [on_eq_frame hs]; rfl
  | false => rw [on_eq_id hs, id]

theorem store_on {p : Loc} (hp : f.alt.saves = true → ∃ x, p = .kernel x) (v : View V) (n : ℕ)
    (d : Mem) : (c.on f w scope v).store p n d = c.on f w scope (v.store p n d) := by
  cases hs : f.alt.saves with
  | true => obtain ⟨x, rfl⟩ := hp hs; rw [on_eq_frame hs]; rfl
  | false => simp only [on_eq_id hs, id]

variable {r : Args × View V} (hdst : f.alt.saves = true → ∃ x, r.1.dst = .kernel x)
include hdst

theorem copied_on (u : Mem) :
    copied u (r.1, c.on f w scope r.2) = c.on f w scope (copied u r) := store_on hdst _ _ _

theorem notCopied_on (g : Mem → Mem) :
    notCopied g (r.1, c.on f w scope r.2) = c.on f w scope (notCopied g r) := by
  have hbyte : ∀ i, (c.on f w scope r.2).byte (r.1.dst.add i) = r.2.byte (r.1.dst.add i) := by
    intro i
    refine byte_on (fun hs => ?_) _
    obtain ⟨x, hx⟩ := hdst hs
    exact ⟨x + i, by rw [hx]; rfl⟩
  simp only [notCopied, hbyte]
  exact store_on hdst _ _ _

end

section
variable (h : Fresh f) (c : Patched V P)
include h

theorem Fresh.first (u : Mem) (scope : Bool) : copied u (f.args1 (c.view f w scope)) =
    c.on f w scope (copied u (f.args1 (.plain c.st))) := by
  rw [Patched.view, (h.ignoring c scope).args1]
  exact copied_on (fun hs => h.kernel_head hs _) u

theorem Fresh.firstFails (g : Mem → Mem) (scope : Bool) :
    notCopied g (f.args1 (c.view f w scope)) =
      c.on f w scope (notCopied g (f.args1 (.plain c.st))) := by
  rw [Patched.view, (h.ignoring c scope).args1]
  exact notCopied_on (fun hs => h.kernel_head hs _) g

theorem Fresh.second : c.second f w =
    c.on f w true (copied (w.user c.k) (f.args2 (.plain c.st))) := by
  rw [Patched.second, Patched.args2, Patched.view, (h.ignoring c true).args2]
  exact copied_on (fun hs => h.kernel hs _) _

theorem Fresh.secondFails (g : Mem → Mem) : notCopied g (c.args2 f w) =
    c.on f w true (notCopied g (f.args2 (.plain c.st))) := by
  rw [Patched.args2, Patched.view, (h.ignoring c true).args2]
  exact notCopied_on (fun hs => h.kernel hs _) g

end

section
variable (h : Fresh f) (hs : f.alt.saves = true) (c : Patched V P)
include h hs

theorem Fresh.declare : c.declare f w = (View.plain c.st).frame true
    ⟨.unset, (f.size1 (.plain c.st)).1 % 2 ^ 32⟩ (c.buffers w) := by
  have hsize := (h.operands hs true ⟨.unset, w.stack c.k⟩ (c.buffers w)).size1 (.plain c.st)
  rw [h.size1] at hsize
  simp only [Patched.declare, Patched.view, on_eq_frame hs]
  change (let size := f.size1 ((View.plain c.st).frame true ⟨.unset, w.stack c.k⟩ (c.buffers w));
    ({ size.2 with ins := ⟨size.2.ins.hd, size.1 % 2 ^ 32⟩ } : View V)) = _
  rw [hsize]
  rfl

theorem Fresh.notAllocated : (c.notAllocated f w).toSt = (f.error (.plain c.st)).toSt := by
  have herror := (h.operands hs true ⟨.null, (f.size1 (.plain c.st)).1 % 2 ^ 32⟩
    (c.buffers w)).error (.plain c.st)
  rw [Patched.notAllocated, h.declare hs]
  exact (congrArg View.toSt herror).trans rfl

/-- The new buffer holds what `dst` holds. -/
theorem Fresh.allocated (id : ℕ) : (c.allocated f w id).toSt = c.st ∧
    (c.allocated f w id).ins = ⟨bufferAt id, (f.size1 (.plain c.st)).1 % 2 ^ 32⟩ ∧
    ∀ j < (f.size1 (.plain c.st)).1 % 2 ^ 32, (c.allocated f w id).bufs id j =
      (View.plain c.st).byte ((f.head (.plain c.st)).1.add j) := by
  set len := (f.size1 (.plain c.st)).1 % 2 ^ 32 with hlen
  obtain ⟨x, hx⟩ := h.kernel_head hs (.plain c.st)
  have hdst := (h.operands hs true ⟨bufferAt id, len⟩
    (Function.update (c.buffers w) id (w.garbage c.k))).head (.plain c.st)
  rw [h.head, hx] at hdst
  set v := (View.plain c.st).frame true ⟨bufferAt id, len⟩
    (Function.update (c.buffers w) id (w.garbage c.k)) with hv
  have halloc : c.allocated f w id = v.store (.buffer id 0) len fun i => c.st.mem (x + i) := by
    rw [Patched.allocated, h.declare hs]
    change (let dst := f.head v; dst.2.store (.buffer id 0) dst.2.ins.len fun i =>
      dst.2.byte (dst.1.add i)) = _
    rw [hdst]
    rfl
  rw [halloc]
  refine ⟨rfl, rfl, fun j hj => ?_⟩
  have hbyte : (v.store (.buffer id 0) len fun i => c.st.mem (x + i)).byte
      ((Loc.buffer id 0).add j) = c.st.mem (x + j) := View.byte_store_add hj
  rw [Loc.add, Nat.zero_add] at hbyte
  rw [hx]
  exact hbyte

end

/-! ## A function that is matched -/

theorem copyOnce_noHd : NoHd copyOnce := by
  refine ⟨?_, fun hd => ?_⟩
  · rintro (_ | _ | _ | _) v hd <;> rfl
  · constructor <;> exact fun _ => rfl

theorem copyOnce_fresh : Fresh copyOnce := by
  refine ⟨fun _ => ?_, fun _ s i b => ?_, fun _ v => ⟨8, rfl⟩, fun _ => rfl, fun _ => rfl,
    fun _ => rfl⟩
  · rintro (_ | _ | _ | _) st ins bufs <;> rfl
  · constructor <;> exact fun _ => rfl

end DoubleFetch.AutoFix
