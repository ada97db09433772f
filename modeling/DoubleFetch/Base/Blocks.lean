/-
  A line format of blocks: a head line, an opening line, entries, and a closing
  line; any other line is skipped.

  The reader is a state machine (`next`), which emits a block with the line that
  closes it (`emit`); a block still open at the end of the input is emitted there
  (`flush`).  `closesHead` says whether a closing line takes back a head line that
  was not opened.

  * `blocks_append`: between two functions the reader can be cut;
  * `blocks_close`: closing the last block by hand changes nothing;
  * `blocks_render`: the blocks written in the format are read back, also if
    the last of them is not closed.
-/
import Mathlib.Data.List.Basic
import Mathlib.Tactic.Common

namespace DoubleFetch

/-- The role of a line. -/
inductive Role where
  | head | openB | close | entry | other
  deriving DecidableEq

/-- The state of the reader: the current head line, and the entries read. -/
inductive Phase (α : Type*) where
  | idle
  | head (d : α)
  | opened (d : α)
  | inside (d : α) (es : List α)

namespace Phase

variable {α : Type*} (role : α → Role) (closesHead : Bool)

/-- The state after a line. -/
def next : Phase α → α → Phase α
  | idle, l => if role l = .head then head l else idle
  | head d, l =>
    match role l with
    | .head => head l
    | .openB => opened d
    | .close => if closesHead then idle else head d
    | _ => head d
  | opened d, l =>
    match role l with
    | .close => idle
    | .entry => inside d [l]
    | _ => opened d
  | inside d es, l =>
    match role l with
    | .close => idle
    | .entry => inside d (es ++ [l])
    | _ => inside d es

/-- The block that a line completes. -/
def emit : Phase α → α → List (α × List α)
  | inside d es, l => if role l = .close then [(d, es)] else []
  | _, _ => []

/-- The block that the end of the input completes. -/
def flush : Phase α → List (α × List α)
  | inside d es => [(d, es)]
  | _ => []

/-- The state after some lines. -/
def after (p : Phase α) (ls : List α) : Phase α := ls.foldl (next role closesHead) p

/-- The blocks completed by some lines. -/
def closed : Phase α → List α → List (α × List α)
  | _, [] => []
  | p, l :: ls => emit role p l ++ closed (next role closesHead p l) ls

/-- The blocks of an input. -/
def blocks (p : Phase α) (ls : List α) : List (α × List α) :=
  closed role closesHead p ls ++ (after role closesHead p ls).flush

variable {role closesHead}

/-- Only the entries of a block lead inside. -/
theorem next_ne_inside {p : Phase α} {l : α} (hp : ∀ d es, p ≠ inside d es)
    (hl : ∀ d, p = opened d → role l ≠ .entry) : ∀ d es, next role closesHead p l ≠ inside d es := by
  intro d es
  cases p with
  | idle => simp only [next]; split_ifs <;> simp
  | head d' => cases hr : role l <;> cases closesHead <;> simp [next, hr]
  | opened d' => cases hr : role l <;> simp_all [next]
  | inside d' es' => exact absurd rfl (hp d' es')

theorem emit_eq_nil {p : Phase α} (hp : ∀ d es, p ≠ inside d es) (l : α) : emit role p l = [] := by
  cases p with
  | inside d es => exact absurd rfl (hp d es)
  | _ => rfl

@[simp] theorem after_nil (p : Phase α) : after role closesHead p [] = p := rfl

@[simp] theorem after_cons (p : Phase α) (l : α) (ls : List α) :
    after role closesHead p (l :: ls) = after role closesHead (next role closesHead p l) ls := rfl

theorem after_append (p : Phase α) (A B : List α) : after role closesHead p (A ++ B) =
    after role closesHead (after role closesHead p A) B := List.foldl_append

@[simp] theorem blocks_nil (p : Phase α) : blocks role closesHead p [] = p.flush := rfl

theorem blocks_cons (p : Phase α) (l : α) (ls : List α) : blocks role closesHead p (l :: ls) =
    emit role p l ++ blocks role closesHead (next role closesHead p l) ls := by
  simp [blocks, closed]

theorem closed_append (p : Phase α) (A B : List α) : closed role closesHead p (A ++ B) =
    closed role closesHead p A ++ closed role closesHead (after role closesHead p A) B := by
  induction A generalizing p with
  | nil => rfl
  | cons l A ih => simp [closed, ih]

theorem blocks_append' (p : Phase α) (A B : List α) : blocks role closesHead p (A ++ B) =
    closed role closesHead p A ++ blocks role closesHead (after role closesHead p A) B := by
  simp [blocks, closed_append, after_append]

/-- A head line starts afresh. -/
theorem blocks_head {l : α} (hl : role l = .head) (d : α) (ls : List α) :
    blocks role closesHead (head d) (l :: ls) = blocks role closesHead idle (l :: ls) := by
  simp [blocks_cons, next, emit, hl]

variable (role) in
/-- The reader can be cut before `B`: it is between functions, or after a head line
    that `B` replaces. -/
def Cut (p : Phase α) (B : List α) : Prop :=
  p = idle ∨ ∃ d, p = head d ∧ ∃ l B', B = l :: B' ∧ role l = .head

/-- **Cutting.** -/
theorem blocks_append {A B : List α}
    (h : Cut role (after role closesHead idle A) B) :
    blocks role closesHead idle (A ++ B) =
      blocks role closesHead idle A ++ blocks role closesHead idle B := by
  rw [blocks_append']
  rcases h with h | ⟨d, h, l, B', rfl, hl⟩
  · simp [blocks, h, flush]
  · rw [h, blocks_head hl]; simp [blocks, h, flush]

/-- **Closing the input.** -/
theorem blocks_close {l : α} (hl : role l = .close) (p : Phase α) (S : List α) :
    blocks role closesHead p (S ++ [l]) = blocks role closesHead p S := by
  rw [blocks_append', blocks_cons, blocks_nil, blocks]
  cases after role closesHead p S with
  | head d => cases closesHead <;> simp [next, emit, flush, hl]
  | _ => simp [next, emit, flush, hl]

/-! ## Writing blocks -/

/-- The lines of a block. -/
def render (o c : α) (b : α × List α) : List α := b.1 :: o :: b.2 ++ [c]

/-- A block that can be written: a head line and some entries. -/
structure Writable (role : α → Role) (b : α × List α) : Prop where
  head : role b.1 = .head
  ne : b.2 ≠ []
  entry : ∀ e ∈ b.2, role e = .entry

theorem after_entries {d : α} : ∀ {es fs : List α}, (∀ e ∈ fs, role e = .entry) →
    after role closesHead (inside d es) fs = inside d (es ++ fs)
  | es, [], _ => by simp
  | es, e :: fs, h => by
    simp only [List.mem_cons, forall_eq_or_imp] at h
    rw [after_cons, next, h.1, after_entries h.2]; simp

theorem closed_entries {d : α} : ∀ {es fs : List α}, (∀ e ∈ fs, role e = .entry) →
    closed role closesHead (inside d es) fs = []
  | es, [], _ => rfl
  | es, e :: fs, h => by
    simp only [List.mem_cons, forall_eq_or_imp] at h
    simp [closed, next, emit, h.1, closed_entries h.2]

variable {o c : α}

variable (closesHead) in
/-- The state before the closing line of a block. -/
theorem open_block (ho : role o = .openB) {b : α × List α} (hb : Writable role b) :
    after role closesHead idle (b.1 :: o :: b.2) = inside b.1 b.2 ∧
      closed role closesHead idle (b.1 :: o :: b.2) = [] := by
  obtain ⟨d, es⟩ := b
  obtain ⟨hd, hne, hes⟩ := hb
  cases es with
  | nil => exact absurd rfl hne
  | cons e es =>
    simp only [List.mem_cons, forall_eq_or_imp] at hes hd
    simp [closed, next, emit, hd, ho, hes.1, after_entries hes.2, closed_entries hes.2]

/-- **A written block is read back.** -/
theorem blocks_render_append (ho : role o = .openB) (hc : role c = .close) {b : α × List α}
    (hb : Writable role b) (ls : List α) :
    blocks role closesHead idle (render o c b ++ ls) = b :: blocks role closesHead idle ls := by
  obtain ⟨h1, h2⟩ := open_block closesHead ho hb
  rw [show render o c b ++ ls = (b.1 :: o :: b.2) ++ (c :: ls) by simp [render], blocks_append', h1,
    h2, blocks_cons]
  simp [next, emit, hc]

/-- **Written blocks are read back.** -/
theorem blocks_render (ho : role o = .openB) (hc : role c = .close) {bs : List (α × List α)}
    (hb : ∀ b ∈ bs, Writable role b) (ls : List α) :
    blocks role closesHead idle (bs.flatMap (render o c) ++ ls) =
      bs ++ blocks role closesHead idle ls := by
  induction bs with
  | nil => rfl
  | cons b bs ih =>
    simp only [List.mem_cons, forall_eq_or_imp] at hb
    rw [List.flatMap_cons, List.append_assoc, blocks_render_append ho hc hb.1, ih hb.2]; rfl

/-- A last block that is not closed is read too. -/
theorem blocks_unclosed (ho : role o = .openB) {b : α × List α} (hb : Writable role b) :
    blocks role closesHead idle (b.1 :: o :: b.2) = [b] := by
  obtain ⟨h1, h2⟩ := open_block closesHead ho hb
  simp [blocks, h1, h2, flush]

/-! ## The blocks of an input -/

/-- The lines held by the reader. -/
def held : Phase α → List α
  | idle => []
  | head d | opened d => [d]
  | inside d es => d :: es

/-- What the reader holds is well formed. -/
def Ok (role : α → Role) : Phase α → Prop
  | idle => True
  | head d | opened d => role d = .head
  | inside d es => Writable role (d, es)

theorem Ok.next {p : Phase α} (h : p.Ok role) (l : α) : (p.next role closesHead l).Ok role := by
  cases p with
  | idle => simp only [Phase.next]; split_ifs with hl <;> simp [Ok, hl]
  | head d =>
    simp only [Phase.next]
    split
    · assumption
    · exact h
    · split_ifs <;> first | exact h | trivial
    · exact h
  | opened d =>
    simp only [Phase.next]
    split
    · trivial
    · rename_i hl; exact ⟨h, by simp, by simpa using hl⟩
    · exact h
  | inside d es =>
    simp only [Phase.next]
    split
    · trivial
    · rename_i hl
      refine ⟨h.head, by simp, fun e he => ?_⟩
      rcases List.mem_append.1 he with he | he
      · exact h.entry e he
      · rwa [List.mem_singleton.1 he]
    · exact h

theorem Ok.emit {p : Phase α} (h : p.Ok role) (l : α) : ∀ b ∈ p.emit role l, Writable role b := by
  cases p with
  | inside d es =>
    simp only [Phase.emit]
    split_ifs
    · simp only [List.mem_singleton, forall_eq]; exact h
    · simp
  | _ => simp [Phase.emit]

/-- **Every block read is well formed.** -/
theorem Ok.blocks {p : Phase α} (h : p.Ok role) (ls : List α) :
    ∀ b ∈ p.blocks role closesHead ls, Writable role b := by
  induction ls generalizing p with
  | nil => cases p <;> simp_all [flush, Ok]
  | cons l ls ih =>
    simp only [blocks_cons, List.mem_append]
    rintro b (hb | hb)
    · exact h.emit l b hb
    · exact ih (h.next l) b hb

variable (role closesHead) in
/-- The lines emitted and held after a line were held before it, or are that line. -/
theorem emit_held_sublist (p : Phase α) (l : α) :
    ((p.emit role l).flatMap (fun b => b.1 :: b.2) ++ (p.next role closesHead l).held).Sublist
      (p.held ++ [l]) := by
  cases hr : role l <;> cases p <;> cases closesHead <;> simp [next, emit, held, hr]

/-- The lines of the blocks come from the input, in its order. -/
theorem blocks_sublist (p : Phase α) (ls : List α) :
    ((p.blocks role closesHead ls).flatMap fun b => b.1 :: b.2).Sublist (p.held ++ ls) := by
  induction ls generalizing p with
  | nil => cases p <;> simp [flush, held]
  | cons l ls ih =>
    have hstep := (emit_held_sublist role closesHead p l).append
      (List.Sublist.refl ls)
    have htail := (List.Sublist.refl ((p.emit role l).flatMap fun b => b.1 :: b.2)).append
      (ih (p.next role closesHead l))
    rw [blocks_cons, List.flatMap_append]
    refine htail.trans ?_
    simpa using hstep

end Phase

end DoubleFetch
