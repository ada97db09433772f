/-
  The functions that `auto_fix/fix.cocci` matches, and their patches.

  * `Func` is a function matched by one of the four alternatives of `rule1`: two
    fetches, and code of its own between and around them, which may jump anywhere and
    return anywhere;
  * `step` runs the function, `Patched.step` the function with the code that the patch
    inserts: alternatives 1 and 2 save what the first fetch has read in a buffer `hd`
    and compare it after the second fetch, alternatives 3 and 4 compare `head` with
    `msg`;
  * `World` decides what user memory holds at each fetch, which fetches fail, and
    whether the inserted `kmalloc` succeeds.

  The patch inserts the names `hd` and `len` as they are.  If the function has variables
  of these names, its code means the inserted ones in the scope of their declarations: a
  piece of code acts on a `View`, which holds them.  The operands of the fetches are
  evaluated wherever they stand, with their side effects, and the arguments of a call
  from left to right.  The second `if` lies in the scope of the inserted declarations.
-/
import DoubleFetch.Base.Run
import Mathlib.Algebra.Order.Ring.Int
import Mathlib.Logic.Function.Basic

namespace DoubleFetch.AutoFix

/-! ## Memory -/

abbrev Byte := BitVec 8

/-- The content of a memory. -/
abbrev Mem := ℕ → Byte

/-- A place in kernel memory: in what the function works on, or in the buffer of an
    inserted `kmalloc`. -/
inductive Loc where
  | kernel (x : ℕ)
  | buffer (id x : ℕ)
  deriving DecidableEq

/-- The place `i` bytes further. -/
def Loc.add (i : ℕ) : Loc → Loc
  | kernel x => kernel (x + i)
  | buffer id x => buffer id (x + i)

/-- How far `l` lies behind `p`. -/
def Loc.dist : Loc → Loc → Option ℕ
  | kernel x, kernel y => if x ≤ y then some (y - x) else none
  | buffer i x, buffer j y => if i = j ∧ x ≤ y then some (y - x) else none
  | _, _ => none

theorem Loc.dist_eq_some {p l : Loc} {i : ℕ} : p.dist l = some i ↔ l = p.add i := by
  cases p <;> cases l <;> simp [Loc.dist, Loc.add] <;> omega

/-- The value of a pointer variable. -/
inductive Ptr where
  | unset
  | null
  | loc (l : Loc)
  deriving DecidableEq

/-- The variables `hd` and `len` that the patch inserts. -/
structure Inserted where
  hd : Ptr := .unset
  len : ℕ := 0

/-- A state of the function: its variables, and kernel memory. -/
structure St (V : Type) where
  vars : V
  mem : Mem

/-- What a piece of code sees: the state, the inserted variables, and the inserted
    buffers.  In the scope of their declarations the names `hd` and `len` mean the
    inserted variables, elsewhere variables of the function. -/
structure View (V : Type) extends St V where
  scope : Bool := false
  ins : Inserted := {}
  bufs : ℕ → Mem := fun _ _ => 0

variable {V P : Type}

/-- What the function that has not been patched sees. -/
def View.plain (st : St V) : View V := { toSt := st }

def View.byte (v : View V) : Loc → Byte
  | .kernel x => v.mem x
  | .buffer id x => v.bufs id x

/-- The `n` bytes from `p` on become `d`. -/
def View.store (v : View V) (p : Loc) (n : ℕ) (d : Mem) : View V :=
  let put (l : Loc) : Byte :=
    match p.dist l with
    | some i => if i < n then d i else v.byte l
    | none => v.byte l
  { v with mem := fun x => put (.kernel x), bufs := fun id x => put (.buffer id x) }

@[simp] theorem View.store_ins (v : View V) (p : Loc) (n : ℕ) (d : Mem) :
    (v.store p n d).ins = v.ins := rfl

/-- A byte that is stored. -/
theorem View.byte_store_add {v : View V} {p : Loc} {n i : ℕ} {d : Mem} (hi : i < n) :
    (v.store p n d).byte (p.add i) = d i := by
  have hp : p.dist (p.add i) = some i := Loc.dist_eq_some.2 rfl
  cases p <;> simp only [Loc.add] at hp <;> simp [View.store, View.byte, Loc.add, hp, hi]

/-- A byte that stays. -/
theorem View.byte_store_of_not {v : View V} {p l : Loc} {n : ℕ} {d : Mem}
    (hl : ∀ i < n, l ≠ p.add i) : (v.store p n d).byte l = v.byte l := by
  cases hp : p.dist l with
  | none => cases l <;> simp [View.store, View.byte, hp]
  | some i =>
    have hi : ¬ i < n := fun hi => hl i hi (Loc.dist_eq_some.1 hp)
    cases l <;> simp [View.store, View.byte, hp, hi]

/-! ## The function -/

/-- A point of the function: one of its own statements, a fetch, or the end of the `if`
    around the first fetch. -/
inductive Point (P : Type) where
  | own (p : P)
  | fetch1
  | behind1
  | fetch2

/-- The alternatives of `rule1`. -/
inductive Alt where
  | alt1 | alt2 | alt3 | alt4
  deriving DecidableEq

/-- The alternatives in which both fetches have the destination `dst`: the patch saves
    what the first one has read. -/
def Alt.saves : Alt → Bool
  | alt1 | alt2 => true
  | alt3 | alt4 => false

/-- A function matched by an alternative. -/
structure Func (V P : Type) where
  alt : Alt
  /-- The function's own statements. -/
  code : P → View V → Res (Point P × View V) (ℤ × St V)
  /-- The statements in the scope of what the patch declares behind the first `if`. -/
  scope : P → Bool
  /-- The destination of the first fetch: `dst`, or `head`. -/
  head : View V → Loc × View V
  /-- The destination of the second fetch: `dst`, or `msg`. -/
  msg : View V → Loc × View V
  dst : alt.saves = true → head = msg
  src : View V → ℕ × View V
  size1 : View V → ℕ × View V
  size2 : View V → ℕ × View V
  /-- The statement behind the first `if`, and the error branch, which may end there. -/
  after1 : Point P
  fail1 : Point P
  /-- The statement behind the second `if`, and its error branch. -/
  after2 : Point P
  fail2 : Point P
  /-- `ret = ERROR` -/
  error : View V → View V
  cleanup : Point P

/-- What a function does not decide: at the `k`-th fetch, what user memory holds, whether
    the fetch fails and what the bytes of its destination become then, what a buffer reads
    that has been freed or not been written, and what `len` holds before it is initialised;
    and whether an inserted `kmalloc` succeeds. -/
structure World where
  user : ℕ → Mem
  fails : ℕ → Option (Mem → Mem)
  garbage : ℕ → Mem
  stack : ℕ → ℕ
  kmalloc : ℕ → Bool

/-- The arguments of a fetch. -/
structure Args where
  dst : Loc
  src : ℕ
  size : ℕ

/-- After a fetch that succeeds, where user memory is `u`. -/
def copied (u : Mem) (r : Args × View V) : View V :=
  r.2.store r.1.dst r.1.size fun i => u (r.1.src + i)

/-- After a fetch that fails. -/
def notCopied (g : Mem → Mem) (r : Args × View V) : View V :=
  r.2.store r.1.dst r.1.size (g fun i => r.2.byte (r.1.dst.add i))

variable (f : Func V P) (w : World)

/-- The arguments of the first fetch. -/
def Func.args1 (v : View V) : Args × View V :=
  let dst := f.head v
  let src := f.src dst.2
  let size := f.size1 src.2
  (⟨dst.1, src.1, size.1⟩, size.2)

/-- The arguments of the second fetch. -/
def Func.args2 (v : View V) : Args × View V :=
  let dst := f.msg v
  let src := f.src dst.2
  let size := f.size2 src.2
  (⟨dst.1, src.1, size.1⟩, size.2)

/-- A configuration; `k` fetches have been made. -/
structure Cfg (V P : Type) where
  pt : Point P
  st : St V
  k : ℕ := 0

def step (c : Cfg V P) : Res (Cfg V P) (ℤ × St V) :=
  match c.pt with
  | .own p =>
    match f.code p (.plain c.st) with
    | .next (pt, v) => .next ⟨pt, v.toSt, c.k⟩
    | .ret r => .ret r
    | .oops => .oops
  | .fetch1 =>
    match w.fails c.k with
    | none => .next ⟨.behind1, (copied (w.user c.k) (f.args1 (.plain c.st))).toSt, c.k + 1⟩
    | some g => .next ⟨f.fail1, (notCopied g (f.args1 (.plain c.st))).toSt, c.k + 1⟩
  | .behind1 => .next ⟨f.after1, c.st, c.k⟩
  | .fetch2 =>
    match w.fails c.k with
    | none => .next ⟨f.after2, (copied (w.user c.k) (f.args2 (.plain c.st))).toSt, c.k + 1⟩
    | some g => .next ⟨f.fail2, (notCopied g (f.args2 (.plain c.st))).toSt, c.k + 1⟩

/-! ## The patched function -/

/-- The calls of `kmalloc` and `kfree` in the inserted code.  A buffer is named by the
    number of such calls before it was allocated. -/
inductive Event where
  | kmalloc (id : Option ℕ)
  | kfree (p : Ptr)
  deriving DecidableEq

/-- The pointer that `kmalloc` returns. -/
def bufferAt (id : ℕ) : Ptr := .loc (.buffer id 0)

/-- A configuration of the patched function.  The ghost variable `fetched` holds the size
    of the last first fetch and the bytes it has delivered, if it has succeeded. -/
structure Patched (V P : Type) extends Cfg V P where
  ins : Inserted := {}
  bufs : ℕ → Mem := fun _ _ => 0
  events : List Event := []
  fetched : Option (ℕ × (ℕ → Byte)) := none

/-- `hd` points to a buffer that has to be freed yet. -/
def Patched.Live (c : Patched V P) : Prop :=
  ∃ id, c.ins.hd = bufferAt id ∧ .kmalloc (some id) ∈ c.events ∧ .kfree (bufferAt id) ∉ c.events

/-- The content of the buffers; that of a freed one is not known. -/
def Patched.buffers (c : Patched V P) (id : ℕ) : Mem :=
  if .kfree (bufferAt id) ∈ c.events then w.garbage c.k else c.bufs id

/-- The view `v` of the function, in the patched function. -/
def Patched.on (c : Patched V P) (scope : Bool) (v : View V) : View V :=
  if f.alt.saves then { v with scope := scope, ins := c.ins, bufs := c.buffers w } else v

/-- What a piece of code sees in the patched function. -/
def Patched.view (c : Patched V P) (scope : Bool) : View V := c.on f w scope (.plain c.st)

/-- A piece of code has left the view `v`. -/
def Patched.put (c : Patched V P) (v : View V) : Patched V P :=
  { c with st := v.toSt, ins := v.ins, bufs := v.bufs }

/-- `char* hd; unsigned int len = size1;` -/
def Patched.declare (c : Patched V P) : View V :=
  let size := f.size1 { c.view f w true with ins := ⟨.unset, w.stack c.k⟩ }
  { size.2 with ins := ⟨size.2.ins.hd, size.1 % 2 ^ 32⟩ }

/-- `memcpy(hd, dst, len)`, where `hd` is the new buffer `id`. -/
def Patched.allocated (c : Patched V P) (id : ℕ) : View V :=
  let v := c.declare f w
  let dst := f.head { v with
    ins := ⟨bufferAt id, v.ins.len⟩, bufs := Function.update v.bufs id (w.garbage c.k) }
  dst.2.store (.buffer id 0) dst.2.ins.len fun i => dst.2.byte (dst.1.add i)

/-- `ret = ERROR`, where `hd` is `NULL`. -/
def Patched.notAllocated (c : Patched V P) : View V :=
  let v := c.declare f w
  f.error { v with ins := ⟨.null, v.ins.len⟩ }

/-- The code inserted behind the first `if`. -/
def Patched.save (c : Patched V P) : Patched V P :=
  if f.alt.saves then
    let id := c.events.length
    if w.kmalloc id then
      { c.put (c.allocated f w id) with
        pt := f.after1, events := c.events ++ [.kmalloc (some id)] }
    else
      { c.put (c.notAllocated f w) with
        pt := f.cleanup, events := c.events ++ [.kmalloc none] }
  else { c with pt := f.after1 }

/-- The arguments of the inserted `memcmp`. -/
structure Operands where
  left : Ptr
  right : Loc
  len : ℕ

/-- `hd, dst, len` or `head, msg, size1` -/
def Func.operands (v : View V) : Operands × View V :=
  if f.alt.saves then
    let dst := f.msg v
    (⟨v.ins.hd, dst.1, dst.2.ins.len⟩, dst.2)
  else
    let head := f.head v
    let msg := f.msg head.2
    let size1 := f.size1 msg.2
    (⟨.loc head.1, msg.1, size1.1⟩, size1.2)

/-- `memcmp(..) == 0`; `none` where it reads through an invalid pointer. -/
def View.memcmp (v : View V) (o : Operands) : Option Bool :=
  match o.left with
  | .unset => none
  | .null => if o.len = 0 then some true else none
  | .loc l => some (decide (∀ j < o.len, v.byte (l.add j) = v.byte (o.right.add j)))

/-- The inserted comparison. -/
def Func.check (v : View V) : Option Bool := (f.operands v).2.memcmp (f.operands v).1

/-- The arguments of the second fetch, in the patched function. -/
def Patched.args2 (c : Patched V P) : Args × View V := f.args2 (c.view f w true)

/-- The view behind a second fetch that succeeds. -/
def Patched.second (c : Patched V P) : View V := copied (w.user c.k) (c.args2 f w)

/-- The inserted branch taken where the comparison finds a difference, in the view `v`. -/
def Patched.reject (c : Patched V P) (v : View V) : Patched V P :=
  if f.alt.saves then
    { c.put (f.error v) with
      pt := f.cleanup, k := c.k + 1, events := c.events ++ [.kfree v.ins.hd] }
  else { c.put (f.error v) with pt := f.cleanup, k := c.k + 1 }

def Patched.step (c : Patched V P) : Res (Patched V P) (ℤ × St V) :=
  match c.pt with
  | .own p =>
    match f.code p (c.view f w (f.scope p)) with
    | .next (pt, v) => .next { c.put v with pt := pt }
    | .ret r => .ret r
    | .oops => .oops
  | .fetch1 =>
    let r := f.args1 (c.view f w false)
    match w.fails c.k with
    | none => .next { c.put (copied (w.user c.k) r) with
        pt := .behind1, k := c.k + 1
        fetched := some (r.1.size, fun i => w.user c.k (r.1.src + i)) }
    | some g => .next { c.put (notCopied g r) with pt := f.fail1, k := c.k + 1, fetched := none }
  | .behind1 => .next (c.save f w)
  | .fetch2 =>
    match w.fails c.k with
    | none =>
      let v := (f.operands (c.second f w)).2
      match f.check (c.second f w) with
      | none => .oops
      | some true => .next { c.put v with pt := f.after2, k := c.k + 1 }
      | some false => .next (c.reject f v)
    | some g => .next { c.put (notCopied g (c.args2 f w)) with
        pt := f.fail2, k := c.k + 1 }

/-- The inserted check is about to find a difference. -/
def Patched.Rejecting (c : Patched V P) : Prop :=
  c.pt = .fetch2 ∧ w.fails c.k = none ∧ f.check (c.second f w) = some false

/-! ## What a step can do -/

/-- The steps of the patched function. -/
inductive Patched.Step (c : Patched V P) : Patched V P → Prop
  | own {p : P} {pt : Point P} {v : View V} (hpt : c.pt = .own p)
      (hcode : f.code p (c.view f w (f.scope p)) = .next (pt, v)) :
      Step c { c.put v with pt := pt }
  | first {r : Args × View V} (hpt : c.pt = .fetch1) (hok : w.fails c.k = none)
      (hr : f.args1 (c.view f w false) = r) :
      Step c { c.put (copied (w.user c.k) r) with
        pt := .behind1, k := c.k + 1
        fetched := some (r.1.size, fun i => w.user c.k (r.1.src + i)) }
  | firstFails {g : Mem → Mem} (hpt : c.pt = .fetch1) (hok : w.fails c.k = some g) :
      Step c { c.put (notCopied g (f.args1 (c.view f w false))) with
        pt := f.fail1, k := c.k + 1, fetched := none }
  | alloc (hs : f.alt.saves = true) (hpt : c.pt = .behind1)
      (hk : w.kmalloc c.events.length = true) :
      Step c { c.put (c.allocated f w c.events.length) with
        pt := f.after1, events := c.events ++ [.kmalloc (some c.events.length)] }
  | allocFails (hs : f.alt.saves = true) (hpt : c.pt = .behind1)
      (hk : w.kmalloc c.events.length = false) :
      Step c { c.put (c.notAllocated f w) with
        pt := f.cleanup, events := c.events ++ [.kmalloc none] }
  | skip (hs : f.alt.saves = false) (hpt : c.pt = .behind1) : Step c { c with pt := f.after1 }
  | accept (hpt : c.pt = .fetch2) (hok : w.fails c.k = none)
      (hcheck : f.check (c.second f w) = some true) :
      Step c { c.put (f.operands (c.second f w)).2 with pt := f.after2, k := c.k + 1 }
  | reject (hs : f.alt.saves = true) (hr : c.Rejecting f w) :
      Step c { c.put (f.error (f.operands (c.second f w)).2) with
        pt := f.cleanup, k := c.k + 1
        events := c.events ++ [.kfree (f.operands (c.second f w)).2.ins.hd] }
  | rejectOnly (hs : f.alt.saves = false) (hr : c.Rejecting f w) :
      Step c { c.put (f.error (f.operands (c.second f w)).2) with pt := f.cleanup, k := c.k + 1 }
  | secondFails {g : Mem → Mem} (hpt : c.pt = .fetch2) (hok : w.fails c.k = some g) :
      Step c { c.put (notCopied g (c.args2 f w)) with
        pt := f.fail2, k := c.k + 1 }

/-- The control flow of the function, up to where the first `if` is left. -/
inductive Edge (f : Func V P) : Point P → Point P → Prop
  | own {p : P} {v v' : View V} {pt : Point P} (h : f.code p v = .next (pt, v')) : Edge f (.own p) pt
  | first : Edge f .fetch1 .behind1
  | fail1 : Edge f .fetch1 f.fail1
  | after2 : Edge f .fetch2 f.after2
  | fail2 : Edge f .fetch2 f.fail2

/-- The world where user memory holds `u` at the `k`-th fetch. -/
def World.withUser (k : ℕ) (u : Mem) : World := { w with user := Function.update w.user k u }

variable {f w}

theorem Patched.step_cases {c c' : Patched V P} (h : c.step f w = .next c') : c.Step f w c' := by
  unfold Patched.step at h
  cases hpt : c.pt with
  | own p =>
    simp only [hpt] at h
    cases hcode : f.code p (c.view f w (f.scope p)) with
    | next r => rw [hcode] at h; cases h; exact .own hpt hcode
    | ret r => rw [hcode] at h; cases h
    | oops => rw [hcode] at h; cases h
  | fetch1 =>
    simp only [hpt] at h
    cases hok : w.fails c.k with
    | none => rw [hok] at h; cases h; exact .first hpt hok rfl
    | some g => rw [hok] at h; cases h; exact .firstFails hpt hok
  | behind1 =>
    simp only [hpt] at h
    cases h
    cases hs : f.alt.saves with
    | false => simp only [Patched.save, hs]; exact .skip hs hpt
    | true =>
      cases hk : w.kmalloc c.events.length with
      | true => simp only [Patched.save, hs, hk, if_true]; exact .alloc hs hpt hk
      | false => simp only [Patched.save, hs, hk, if_true]; exact .allocFails hs hpt hk
  | fetch2 =>
    simp only [hpt] at h
    cases hok : w.fails c.k with
    | none =>
      simp only [hok] at h
      cases hcheck : f.check (c.second f w) with
      | none => rw [hcheck] at h; cases h
      | some b =>
        rw [hcheck] at h
        cases b with
        | true => cases h; exact .accept hpt hok hcheck
        | false =>
          cases h
          cases hs : f.alt.saves with
          | true => simp only [Patched.reject, hs, if_true]; exact .reject hs ⟨hpt, hok, hcheck⟩
          | false => simp only [Patched.reject, hs]; exact .rejectOnly hs ⟨hpt, hok, hcheck⟩
    | some g => rw [hok] at h; cases h; exact .secondFails hpt hok

/-- A fetch is counted. -/
theorem Patched.step_k {c c' : Patched V P} (h : c.step f w = .next c') :
    c.k ≤ c'.k ∧ (c.pt = .fetch1 ∨ c.pt = .fetch2 → c.k < c'.k) := by
  cases Patched.step_cases h with
  | reject _ hr | rejectOnly _ hr => simp [hr.1]
  | _ => simp_all [Patched.put]

/-! ## A function that is matched -/

inductive Label where
  | gap | early | failed | cleanup

/-- `if (copy_from_user(head, src, size1)) return -EFAULT;`
    `gap;`
    `if (copy_from_user(msg, src, 1)) { ret = -EFAULT; goto cleanup; }`
    `cleanup: return ret;`
    with `msg` at 8 and `src` at 0.  The only variable that it reads is `ret`; where both
    fetches have the destination `dst`, it is `msg`. -/
def sample (alt : Alt) (head size1 : ℕ) (gap : View ℤ → View ℤ) : Func ℤ Label where
  alt := alt
  code
    | .gap, v => .next (.fetch2, gap v)
    | .early, v => .ret (-14, v.toSt)
    | .failed, v => .next (.own .cleanup, { v with vars := -14 })
    | .cleanup, v => .ret (v.vars, v.toSt)
  scope
    | .early => false
    | _ => true
  head v := (.kernel (if alt.saves then 8 else head), v)
  msg v := (.kernel 8, v)
  dst h := by simp only [h, if_true]
  src v := (0, v)
  size1 v := (size1, v)
  size2 v := (1, v)
  after1 := .own .gap
  fail1 := .own .early
  after2 := .own .cleanup
  fail2 := .own .failed
  error v := { v with vars := -14 }
  cleanup := .own .cleanup

/-- At the `k`-th fetch user memory holds the byte `b k` everywhere; no fetch fails, and
    no `kmalloc`. -/
def worldOf (b : ℕ → Byte) : World where
  user k := fun _ => b k
  fails _ := none
  garbage _ _ := 0
  stack _ := 0
  kmalloc _ := true

/-- One buffer, and an empty gap. -/
def copyOnce : Func ℤ Label := sample .alt1 8 1 id

/-- User memory never changes. -/
def calm : World := worldOf fun _ => 1

/-- User memory holds 1, and 2 from the second fetch on. -/
def changing : World := worldOf fun k => if k = 0 then 1 else 2

/-- Before the first fetch of a sample; kernel memory is zero. -/
def start : Cfg ℤ Label := { pt := .fetch1, st := ⟨0, fun _ => 0⟩ }

end DoubleFetch.AutoFix
