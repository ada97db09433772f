/-
  The file between the phases.

  * `format_roundtrip`: `filter2.py` reads back the blocks that `filter.py` wrote;
  * `phase2_safe`: whatever the input of `filter.py`, no call of
    `process_skeleton` leaves its list or flags a wrong label.  An input whose last
    line has no newline is the hard case: its last entry is written in one line
    with the `}` behind it (`lines_unterminated_block`);
  * `phase2_idempotent`: run on its own output, phase 2 writes it again;
  * `main_append`: both filters judge a function on its own.
-/
import DoubleFetch.TextFilter.Main

namespace DoubleFetch

open Phase

/-! ## Reading what was written -/

theorem role_lbrace : role "\x7b\n".toList = .openB := by decide

theorem role_rbrace : role "\x7d\n".toList = .close := by decide

theorem isLine_lbrace : IsLine "\x7b\n".toList := ⟨['{'], rfl, by decide⟩

theorem isLine_rbrace : IsLine "\x7d\n".toList := ⟨['}'], rfl, by decide⟩

theorem isLine_header {origin : Str} (ho : '\n' ∉ origin) : IsLine (origin ++ "\n".toList) :=
  ⟨origin, rfl, ho⟩

/-- The lines a block is made of. -/
def ownLines (b : Str × List Str) : List Str := b.1 :: b.2

theorem isLine_writeLines {b : Str × List Str} (h : ∀ l ∈ ownLines b, IsLine l) :
    ∀ l ∈ writeLines b, IsLine l := by
  intro l hl
  simp only [writeLines, render, List.mem_append, List.mem_cons, List.not_mem_nil, or_false] at hl
  rcases hl with (rfl | rfl | hl) | rfl
  · exact h _ (by simp [ownLines])
  · exact isLine_lbrace
  · exact h _ (by simp [ownLines, hl])
  · exact isLine_rbrace

theorem isLine_flatMap {bs : List (Str × List Str)} (h : ∀ l ∈ bs.flatMap ownLines, IsLine l) :
    ∀ l ∈ bs.flatMap writeLines, IsLine l := by
  intro l hl
  obtain ⟨b, hb, hl⟩ := List.mem_flatMap.1 hl
  exact isLine_writeLines (fun l hl => h l (List.mem_flatMap.2 ⟨b, hb, hl⟩)) l hl

/-- The lines of a file of terminated lines. -/
theorem lines_header {header : Str} {bs : List (Str × List Str)} (hh : IsLine header)
    (h : ∀ l ∈ bs.flatMap ownLines, IsLine l) (s : Str) :
    lines ((header :: bs.flatMap writeLines).flatten ++ s) =
      header :: (bs.flatMap writeLines ++ lines s) := by
  refine lines_flatten_append s ?_
  simpa using ⟨hh, by simpa using isLine_flatMap h⟩

theorem readBack {bs : List (Str × List Str)} (hb : ∀ b ∈ bs, Writable role b) (ls : List Str) :
    blocks role false idle (bs.flatMap writeLines ++ ls) = bs ++ blocks role false idle ls :=
  blocks_render role_lbrace role_rbrace hb ls

theorem collected_entries {es : List Str} (h : ∀ e ∈ es, role e = .entry) :
    Collected (es.map Filter.mkItem) := by
  intro it hit
  obtain ⟨e, he, rfl⟩ := List.mem_map.1 hit
  exact ⟨rfl, role_entry.1 (h e he)⟩

/-- The lines of a selection of items come from the lines of the items. -/
theorem map_line_sublist {L : List Item} {es : List Str} (h : L.Sublist (es.map Filter.mkItem)) :
    (L.map (·.line)).Sublist es := by
  have := h.map (·.line)
  rwa [List.map_map, show (fun it : Item => it.line) ∘ Filter.mkItem = id from rfl,
    List.map_id] at this

/-! ## The blocks written by phase 1 -/

namespace Filter

theorem written_spec {b c : Str × List Str} (h : written b = some c) (hb : Writable role b) :
    Writable role c ∧ c.2.Sublist b.2 ∧ Headed Item.isCase (c.2.map mkItem) ∧
      Skeleton (c.2.map mkItem) := by
  simp only [written, Option.ite_none_right_eq_some, Option.some.injEq] at h
  obtain ⟨⟨-, hne⟩, rfl⟩ := h
  have hcol := collected_entries hb.entry
  have hs : (selected (b.2.map mkItem)).Sublist (b.2.map mkItem) := keep_sublist _ _ _
  have hsub := map_line_sublist hs
  have hback := (hcol.sublist hs).map_mkItem
  rw [Filter2.mkItem_eq] at hback
  refine ⟨⟨hb.head, hne, fun e he => hb.entry e (hsub.subset he)⟩, hsub, ?_, ?_⟩
  · rw [hback]; exact keep_headed _ _ _
  · rw [hback]; exact (hcol.sublist hs).skeleton

/-- The lines of the blocks written come from the input, in its order. -/
theorem written_sublist (bs : List (Str × List Str)) (hb : ∀ b ∈ bs, Writable role b) :
    ((bs.filterMap written).flatMap ownLines).Sublist (bs.flatMap ownLines) := by
  induction bs with
  | nil => simp
  | cons b bs ih =>
    simp only [List.mem_cons, forall_eq_or_imp] at hb
    cases h : written b with
    | none =>
      rw [List.filterMap_cons_none h, List.flatMap_cons]
      exact (ih hb.2).trans (List.sublist_append_right ..)
    | some c =>
      rw [List.filterMap_cons_some h, List.flatMap_cons, List.flatMap_cons]
      refine List.Sublist.append ?_ (ih hb.2)
      have hc : c.1 = b.1 := by
        simp only [written, Option.ite_none_right_eq_some, Option.some.injEq] at h
        rw [← h.2]
      rw [ownLines, ownLines, hc]
      exact (written_spec h hb.1).2.1.cons_cons _

/-- What phase 1 writes, and where its lines come from. -/
theorem main_wrote {origin : Str} {file : List Str} {v : Vars} (hv : main origin file = .ok v)
    {f : Str} (hf : v.outFile = some f) :
    f = ((origin ++ "\n".toList) :: v.blocks.flatMap writeLines).flatten ∧ v.blocks ≠ [] ∧
      (v.blocks.flatMap ownLines).Sublist file ∧
      ∀ b ∈ v.blocks, Writable role b ∧ Headed Item.isCase (b.2.map mkItem) ∧
        Skeleton (b.2.map mkItem) := by
  obtain ⟨v', hv', hb, hw, -⟩ := main_spec origin file
  obtain rfl : v' = v := by rw [hv'] at hv; exact Except.ok.inj hv
  have hin : ∀ b ∈ blocks role true idle file, Writable role b :=
    Ok.blocks (p := idle) trivial file
  rw [Vars.outFile, hw.file, Option.ite_none_left_eq_some, Option.some.injEq] at hf
  obtain ⟨hne, rfl⟩ := hf
  refine ⟨rfl, hne, ?_, ?_⟩
  · rw [hb]
    exact (written_sublist _ hin).trans (blocks_sublist idle file)
  · intro c hc
    rw [hb] at hc
    obtain ⟨b, hbin, hbc⟩ := List.mem_filterMap.1 hc
    have h := written_spec hbc (hin b hbin)
    exact ⟨h.1, h.2.2⟩

end Filter

/-! ## The round trip -/

/-- The items of a block are what the pair scan can handle. -/
def Scannable (b : Str × List Str) : Prop :=
  Headed Item.isCase (b.2.map Filter.mkItem) ∧ Skeleton (b.2.map Filter.mkItem)

theorem Scannable.run {b : Str × List Str} (h : Scannable b) :
    ∃ sk, Filter2.runSkeleton (b.2.map Filter2.mkItem) = .ok sk ∧
      ∀ a ∈ sk.trace, a.Safe (b.2.map Filter2.mkItem) := by
  have hfresh : Fresh (b.2.map Filter.mkItem) := by
    intro it hit
    obtain ⟨e, -, rfl⟩ := List.mem_map.1 hit; rfl
  obtain ⟨sk, h1, -, h3⟩ := Filter2.runSkeleton_spec h.2 h.1 hfresh
  exact ⟨sk, h1, h3⟩

theorem Scannable.succeeds {b : Str × List Str} (h : Scannable b) : Filter2.Succeeds b := by
  obtain ⟨sk, hsk, -⟩ := h.run
  exact ⟨outLines sk.inList, by rw [Filter2.processSkeleton, hsk]; rfl⟩

/-- Phase 2 on a file with these blocks. -/
theorem Filter2.main_blocks (header : Str) {file : List Str} {bs : List (Str × List Str)}
    (hb : blocks role false idle file = bs) (hs : ∀ b ∈ bs, Scannable b) :
    ∃ w, Filter2.main (header :: file) = .ok w ∧ w.origin = header ∧
      w.calls = bs.map Filter2.call := by
  rcases Filter2.main_spec header file with ⟨w, h1, -, h3, h4, -⟩ | ⟨-, b, hmem, hns⟩
  · exact ⟨w, h1, h4, by rw [h3.calls, hb]⟩
  · exact absurd (hs b (hb ▸ hmem)).succeeds hns

/-- **The file format.**  Phase 2 reads the header and the blocks that phase 1
    wrote. -/
theorem format_roundtrip (origin : Str) (ho : '\n' ∉ origin) (S : List Str)
    (hS : ∀ l ∈ S, IsLine l) (v : Filter.Vars) (hv : Filter.main origin S = .ok v) (f : Str)
    (hf : v.outFile = some f) :
    f = ((origin ++ "\n".toList) :: v.blocks.flatMap writeLines).flatten ∧
    ∃ w, Filter2.main (lines f) = .ok w ∧ w.origin = origin ++ "\n".toList ∧
      w.calls = v.blocks.map fun b => (b.1, b.2.map Filter.mkItem) := by
  obtain ⟨hf, -, hsub, hb⟩ := Filter.main_wrote hv hf
  have hlines := lines_header (isLine_header ho) (fun l hl => hS l (hsub.subset hl)) []
  rw [List.append_nil, ← hf] at hlines
  refine ⟨hf, ?_⟩
  rw [hlines]
  refine Filter2.main_blocks _ ?_ fun b hm => (hb b hm).2
  simpa [lines, flush] using readBack (fun b hm => (hb b hm).1) []

/-- A skeleton of one function, which both phases keep. -/
def sample : List Str :=
  ["f()\n".toList, "\x7b\n".toList, "get_user(a,p);\n".toList, "get_user(b,p);\n".toList, "\x7d\n".toList]

theorem map_eq_ok {α β : Type} {x : Except PyErr α} {g : α → β} {y : β} (h : x.map g = .ok y) :
    ∃ a, x = .ok a ∧ g a = y := by
  cases x with
  | ok a => exact ⟨a, rfl, Except.ok.inj h⟩
  | error e => cases h

theorem format_roundtrip_sample : ∃ v f w, Filter.main "a.c".toList sample = .ok v ∧
    v.outFile = some f ∧ Filter2.main (lines f) = .ok w ∧ w.origin = "a.c\n".toList ∧
    w.calls = v.blocks.map fun b => (b.1, b.2.map Filter.mkItem) := by
  have hlines : ∀ l ∈ sample, IsLine l := by
    have : ∀ l ∈ sample, l = l.dropLast ++ ['\n'] ∧ '\n' ∉ l.dropLast := by decide
    exact fun l hl => ⟨_, this l hl⟩
  obtain ⟨v, hv, hf⟩ := map_eq_ok (show (Filter.main "a.c".toList sample).map Filter.Vars.outFile =
    .ok (some ("a.c\n".toList ++ sample.flatten)) by decide +kernel)
  obtain ⟨-, w, hw⟩ := format_roundtrip "a.c".toList (by decide) sample hlines v hv _ hf
  exact ⟨v, _, w, hv, hf, hw⟩

/-! ## Truncated inputs -/

/-- The tag of a fetch or label does not depend on what follows it in the line. -/
theorem identify_append {l : Str} (h : role l = .entry) (x : Str) :
    Filter.identify (l ++ x) = Filter.identify l := by
  have hpre : ∀ {p : Str}, p <+: l → p <+: l ++ x := fun h => h.trans (List.prefix_append ..)
  have hcl : ∀ {p q : Str}, p <+: l → ¬ p <+: q → ¬ q <+: p → ¬ q <+: l ++ x :=
    fun hp h1 h2 hq => (List.prefix_or_prefix_of_prefix (hpre hp) hq).elim h1 h2
  have hk := role_entry.1 h
  simp only [Filter.identify, find_eq_zero] at hk ⊢
  by_cases h1 : "get_user".toList <+: l
  · simp only [h1, hpre h1, if_true]
  by_cases h2 : "copy_from_user".toList <+: l
  · simp only [h2, hpre h2, hcl h2 (q := "get_user".toList) (by decide) (by decide), h1, if_true,
      if_false]
  by_cases h3 : "case".toList <+: l
  · simp only [h1, h2, h3, hpre h3, hcl h3 (q := "get_user".toList) (by decide) (by decide),
      hcl h3 (q := "copy_from_user".toList) (by decide) (by decide), if_true, if_false]
  by_cases h4 : "default".toList <+: l
  · simp only [h1, h2, h3, h4, hpre h4, hcl h4 (q := "get_user".toList) (by decide) (by decide),
      hcl h4 (q := "copy_from_user".toList) (by decide) (by decide),
      hcl h4 (q := "case".toList) (by decide) (by decide), if_true, if_false]
  · -- no other tag is that of an entry
    simp only [h1, h2, h3, h4, if_false] at hk
    exfalso; revert hk
    split_ifs <;> simp

/-- Only the tags matter for the pair scan to work. -/
theorem Scannable.congr {d d' : Str} {es fs : List Str} (h : Scannable (d, es))
    (hk : fs.map Filter.identify = es.map Filter.identify) : Scannable (d', fs) := by
  have hlen : fs.length = es.length := by simpa using congrArg List.length hk
  have hget : ∀ i : ℕ, (fs[i]?).map Filter.identify = (es[i]?).map Filter.identify := by
    intro i; simpa using congrArg (·[i]?) hk
  have hlab : ∀ i, cases (fs.map Filter.mkItem) i = cases (es.map Filter.mkItem) i := by
    intro i
    have := hget i
    simp only [labels, List.getElem?_map]
    cases h1 : fs[i]? <;> cases h2 : es[i]? <;> simp_all [Item.isCase, Filter.mkItem]
  have hfun : labels Item.isCase ((d', fs).2.map Filter.mkItem) =
      labels Item.isCase ((d, es).2.map Filter.mkItem) := funext hlab
  refine ⟨fun i hi => ?_, fun it hit => ?_⟩
  · rw [hfun] at hi ⊢
    simpa [hlen] using h.1 i hi
  · obtain ⟨e, he, rfl⟩ := List.mem_map.1 hit
    obtain ⟨i, hi, rfl⟩ := List.mem_iff_getElem.1 he
    have hi' : i < es.length := hlen ▸ hi
    have := hget i
    simp only [List.getElem?_eq_getElem hi, List.getElem?_eq_getElem hi', Option.map_some,
      Option.some.injEq] at this
    have hs := h.2 (Filter.mkItem es[i]) (List.mem_map_of_mem (List.getElem_mem hi'))
    simpa [Filter.mkItem, this] using hs

theorem isLine_unterminated {d e : Str} {es : List Str} (hes : ∀ l ∈ d :: es, IsLine l)
    (he : '\n' ∉ e) :
    ∀ l ∈ d :: "\x7b\n".toList :: (es ++ [e ++ "\x7d\n".toList]), IsLine l := by
  have hlast : IsLine (e ++ "\x7d\n".toList) := ⟨e ++ ['}'], by simp, by simpa using he⟩
  simp only [List.mem_cons, forall_eq_or_imp] at hes
  simp only [List.mem_cons, List.mem_append, List.not_mem_nil, or_false]
  rintro l (rfl | rfl | hl | rfl)
  · exact hes.1
  · exact isLine_lbrace
  · exact hes.2 l hl
  · exact hlast

/-- The last entry written has no newline: the `}` behind it becomes a part of its
    line, and the block ends with the file. -/
theorem lines_unterminated_block {header : Str} {bs : List (Str × List Str)} {d : Str}
    {es : List Str} {e : Str} (hh : IsLine header) (hbs : ∀ l ∈ bs.flatMap ownLines, IsLine l)
    (hes : ∀ l ∈ d :: es, IsLine l) (he : '\n' ∉ e) :
    lines (header :: (bs ++ [(d, es ++ [e])]).flatMap writeLines).flatten =
      header :: (bs.flatMap writeLines ++ (d :: "\x7b\n".toList :: (es ++ [e ++ "\x7d\n".toList]))) := by
  have hsplit : (header :: (bs ++ [(d, es ++ [e])]).flatMap writeLines).flatten =
      (header :: bs.flatMap writeLines).flatten ++
        (d :: "\x7b\n".toList :: (es ++ [e ++ "\x7d\n".toList])).flatten := by
    simp [writeLines, render]
  rw [hsplit, lines_header hh hbs, lines_flatten (isLine_unterminated hes he)]

/-- **What phase 2 reads of a file written by phase 1**, whatever phase 1 reads:
    terminated lines, and blocks that the pair scan can handle. -/
theorem Filter.main_readBack {origin : Str} (ho : '\n' ∉ origin) {content : Str} {v : Filter.Vars}
    (hv : Filter.main origin (lines content) = .ok v) {f : Str} (hf : v.outFile = some f) :
    ∃ file bs, lines f = (origin ++ "\n".toList) :: file ∧ (∀ l ∈ file, IsLine l) ∧
      blocks role false idle file = bs ∧ ∀ b ∈ bs, Scannable b := by
  obtain ⟨hf, hne, hsub, hb⟩ := Filter.main_wrote hv hf
  have hh := isLine_header ho
  rcases lines_sublist hsub with hall | ⟨W, e, hW, hWl, he⟩
  · have hlines := lines_header hh hall []
    rw [List.append_nil, ← hf] at hlines
    refine ⟨_, _, hlines, by simpa [lines] using isLine_flatMap hall, ?_,
      fun b hm => (hb b hm).2⟩
    simpa [lines, flush] using readBack (fun b hm => (hb b hm).1) []
  · -- the last line of the input is not terminated, and it is the last entry written
    obtain ⟨bs, ⟨d, es'⟩, hbs⟩ := (List.eq_nil_or_concat' v.blocks).resolve_left hne
    rw [hbs] at hb hW hf
    obtain ⟨hwr, hscan⟩ := hb (d, es') (by simp)
    obtain ⟨es, e', rfl⟩ := (List.eq_nil_or_concat' es').resolve_left hwr.ne
    have hown : (bs ++ [(d, es ++ [e'])]).flatMap ownLines =
        (bs.flatMap ownLines ++ d :: es) ++ [e'] := by simp [ownLines]
    obtain ⟨rfl, hee⟩ := List.append_inj' (hown.symm.trans hW) rfl
    obtain rfl := List.singleton_injective hee
    have hkind := identify_append (hwr.entry e' (by simp)) "\x7d\n".toList
    have hbsl : ∀ l ∈ bs.flatMap ownLines, IsLine l := fun l hl => hWl l (List.mem_append_left _ hl)
    have hesl : ∀ l ∈ d :: es, IsLine l := fun l hl => hWl l (List.mem_append_right _ hl)
    refine ⟨_, bs ++ [(d, es ++ [e' ++ "\x7d\n".toList])],
      hf ▸ lines_unterminated_block hh hbsl hesl he, ?_, ?_, ?_⟩
    · intro l hl
      rcases List.mem_append.1 hl with hl | hl
      · exact isLine_flatMap hbsl l hl
      · exact isLine_unterminated hesl he l hl
    · rw [readBack fun b hm => (hb b (List.mem_append_left _ hm)).1]
      refine congrArg (bs ++ ·) (blocks_unclosed role_lbrace (b := (d, _)) ⟨hwr.head, by simp, ?_⟩)
      intro x hx
      rcases List.mem_append.1 hx with hx | hx
      · exact hwr.entry x (by simp [hx])
      · rw [List.mem_singleton.1 hx]
        exact role_entry.2 (hkind ▸ role_entry.1 (hwr.entry e' (by simp)))
    · intro b hm
      rcases List.mem_append.1 hm with hm | hm
      · exact (hb b (List.mem_append_left _ hm)).2
      · rw [List.mem_singleton.1 hm]
        exact Scannable.congr (d := d) hscan
          (by simp only [List.map_append, List.map_cons, List.map_nil, hkind])

/-- **Phase 2 is safe on what phase 1 writes**, whatever phase 1 reads. -/
theorem phase2_safe (origin : Str) (ho : '\n' ∉ origin) (content : Str) (v : Filter.Vars)
    (hv : Filter.main origin (lines content) = .ok v) (f : Str) (hf : v.outFile = some f) :
    ∃ w, Filter2.main (lines f) = .ok w ∧ ∀ c ∈ w.calls, ∃ sk, Filter2.runSkeleton c.2 = .ok sk ∧
      ∀ a ∈ sk.trace, a.Safe c.2 := by
  obtain ⟨file, bs, hl, -, hbl, hs⟩ := Filter.main_readBack ho hv hf
  obtain ⟨w, h1, -, h3⟩ := Filter2.main_blocks (origin ++ "\n".toList) hbl hs
  refine ⟨w, by rw [hl, h1], fun c hc => ?_⟩
  rw [h3] at hc
  obtain ⟨b, hbm, rfl⟩ := List.mem_map.1 hc
  exact (hs b hbm).run

theorem phase2_safe_truncated : ∃ v f w,
    Filter.main "a.c".toList (lines "f()\n\x7b\nget_user(a,p);\nget_user(b,p);".toList) = .ok v ∧
    v.outFile = some f ∧ Filter2.main (lines f) = .ok w ∧
    ∀ c ∈ w.calls, ∃ sk, Filter2.runSkeleton c.2 = .ok sk ∧ ∀ a ∈ sk.trace, a.Safe c.2 := by
  obtain ⟨v, hv, hf⟩ := map_eq_ok (show (Filter.main "a.c".toList
    (lines "f()\n\x7b\nget_user(a,p);\nget_user(b,p);".toList)).map Filter.Vars.outFile =
      .ok (some "a.c\nf()\n\x7b\nget_user(a,p);\nget_user(b,p);\x7d\n".toList) by decide +kernel)
  obtain ⟨w, hw, hs⟩ := phase2_safe "a.c".toList (by decide) _ v hv _ hf
  exact ⟨v, _, w, hv, hf, hw, hs⟩

/-! ## Phase 2 on its own output -/

namespace Filter2

/-- A block that phase 2 reads back, and writes again as it is. -/
structure Stable (c : Str × List Str) : Prop where
  writable : Writable role c
  scannable : Scannable c
  written : written c = some c
  isLine : ∀ l ∈ ownLines c, IsLine l

/-- The block written for a block read is stable. -/
theorem stable_of_written {b c : Str × List Str} (h : written b = some c) (hb : Writable role b)
    (hs : Scannable b) (hl : ∀ l ∈ ownLines b, IsLine l) : Stable c := by
  have hcol := collected_entries hb.entry
  have hproc : processSkeleton (b.2.map mkItem) = .ok ((selected (b.2.map mkItem)).map (·.line)) :=
    processSkeleton_eq hs.2 hs.1 hcol.fresh
  simp only [written, hproc, Option.ite_none_right_eq_some, Option.some.injEq] at h
  obtain ⟨hne, rfl⟩ := h
  have hkept : (selected (b.2.map mkItem)).Sublist (b.2.map mkItem) := keep_sublist _ _ _
  have hsub := map_line_sublist hkept
  -- the second selection is made from the items of the first
  have hcol' := hcol.sublist hkept
  have hback := hcol'.map_mkItem
  have hidem : selected (selected (b.2.map mkItem)) = selected (b.2.map mkItem) :=
    keep_keep (fun _ _ h => h) _
  have hproc' := processSkeleton_eq hcol'.skeleton (keep_headed _ _ _) hcol'.fresh
  rw [hidem] at hproc'
  refine ⟨⟨hb.head, hne, fun e he => hb.entry e (hsub.subset he)⟩, ?_, ?_, fun l hm => ?_⟩
  · rw [Scannable, ← mkItem_eq, hback]
    exact ⟨keep_headed _ _ _, hcol'.skeleton⟩
  · rw [Filter2.written, hback, hproc']
    simp only [ne_eq, hne, not_false_eq_true, if_true]
  · exact hl l ((hsub.cons_cons b.1).subset hm)

/-- The output file. -/
theorem Wrote.outFile {v : Vars} {bs : List (Str × List Str)} (h : Wrote v bs) {g : Str} :
    v.outFile = some g ↔ bs.filterMap written ≠ [] ∧
      g = (v.origin :: (bs.filterMap written).flatMap writeLines).flatten := by
  rw [Vars.outFile, h.wrote.file, Option.ite_none_left_eq_some, Option.some.injEq, eq_comm (b := g)]

/-- **Phase 2 on a file of stable blocks** writes the same file. -/
theorem main_stable {header : Str} {cs : List (Str × List Str)} (hh : IsLine header)
    (hne : cs ≠ []) (hs : ∀ c ∈ cs, Stable c) :
    ∃ w, main (lines (header :: cs.flatMap writeLines).flatten) = .ok w ∧
      w.outFile = some (header :: cs.flatMap writeLines).flatten := by
  have hagain : cs.filterMap written = cs := by
    rw [List.filterMap_congr fun c hc => (hs c hc).written, List.filterMap_some]
  have hall : ∀ l ∈ cs.flatMap ownLines, IsLine l := by
    intro l hl
    obtain ⟨c, hc, hl⟩ := List.mem_flatMap.1 hl
    exact (hs c hc).isLine l hl
  have hlines := lines_header hh hall []
  rw [List.append_nil] at hlines
  have hbl : blocks role false idle (cs.flatMap writeLines ++ lines []) = cs := by
    simpa [lines, flush] using readBack (fun c hc => (hs c hc).writable) []
  rcases main_spec header (cs.flatMap writeLines ++ lines []) with
    ⟨w, hw, -, hww, hwo, -⟩ | ⟨-, c, hc, hns⟩
  · refine ⟨w, by rw [hlines, hw], hww.outFile.2 ?_⟩
    rw [hbl, hagain, hwo]
    exact ⟨hne, rfl⟩
  · exact absurd (hs c (hbl ▸ hc)).scannable.succeeds hns

end Filter2

/-- **Phase 2 is idempotent on files.** -/
theorem phase2_idempotent (origin : Str) (ho : '\n' ∉ origin) (content : Str) (v : Filter.Vars)
    (hv : Filter.main origin (lines content) = .ok v) (f : Str) (hf : v.outFile = some f) :
    ∃ w, Filter2.main (lines f) = .ok w ∧ ∀ g, w.outFile = some g →
      ∃ w', Filter2.main (lines g) = .ok w' ∧ w'.outFile = some g := by
  obtain ⟨file, bs, hl, hfile, hbl, hs⟩ := Filter.main_readBack ho hv hf
  have hwr : ∀ b ∈ bs, Writable role b := hbl ▸ Ok.blocks (p := idle) trivial file
  have hown : ∀ b ∈ bs, ∀ l ∈ ownLines b, IsLine l := by
    intro b hb l hl
    have hsub : (bs.flatMap ownLines).Sublist file := hbl ▸ blocks_sublist idle file
    exact hfile l (hsub.subset (List.mem_flatMap.2 ⟨b, hb, hl⟩))
  rcases Filter2.main_spec (origin ++ "\n".toList) file with ⟨w, hw, -, hww, hwo, -⟩ | ⟨-, b, hb, hns⟩
  · refine ⟨w, by rw [hl, hw], fun g hg => ?_⟩
    rw [hbl] at hww
    obtain ⟨hne, rfl⟩ := hww.outFile.1 hg
    rw [hwo]
    refine Filter2.main_stable (isLine_header ho) hne fun c hc => ?_
    obtain ⟨b, hb, hbc⟩ := List.mem_filterMap.1 hc
    exact Filter2.stable_of_written hbc (hwr b hb) (hs b hb) (hown b hb)
  · exact absurd (hs b (hbl ▸ hb)).succeeds hns

/-- The function of `sample` with a third fetch, which only phase 1 keeps. -/
def thirdFetch : List Str :=
  ["f()\n".toList, "\x7b\n".toList, "get_user(a,p);\n".toList, "get_user(b,p);\n".toList,
    "get_user(c,q);\n".toList, "\x7d\n".toList]

theorem phase2_idempotent_thirdFetch : ∃ w w',
    Filter2.main (lines ("a.c\n".toList ++ thirdFetch.flatten)) = .ok w ∧
    w.outFile = some ("a.c\n".toList ++ sample.flatten) ∧
    Filter2.main (lines ("a.c\n".toList ++ sample.flatten)) = .ok w' ∧
    w'.outFile = some ("a.c\n".toList ++ sample.flatten) := by
  obtain ⟨v, hv, hf⟩ := map_eq_ok (show (Filter.main "a.c".toList (lines thirdFetch.flatten)).map
    Filter.Vars.outFile = .ok (some ("a.c\n".toList ++ thirdFetch.flatten)) by decide +kernel)
  obtain ⟨w, hw, h⟩ := phase2_idempotent "a.c".toList (by decide) thirdFetch.flatten v hv _ hf
  obtain ⟨w₁, hw₁, hg⟩ := map_eq_ok (show (Filter2.main (lines ("a.c\n".toList ++
    thirdFetch.flatten))).map Filter2.Vars.outFile = .ok (some ("a.c\n".toList ++ sample.flatten))
      by decide +kernel)
  obtain rfl := Except.ok.inj (hw₁.symm.trans hw)
  obtain ⟨w', hw', hg'⟩ := h _ hg
  exact ⟨w₁, w', hw₁, hg, hw', hg'⟩

/-! ## One function after the other -/

/-- What is written below the header. -/
def Filter.Vars.body (v : Filter.Vars) : List Str := v.writes.tail

/-- What is written below the header. -/
def Filter2.Vars.body (v : Filter2.Vars) : List Str := v.writes.tail

/-- No function is being read, or only a declaration, which `B` replaces. -/
def Between (curState : CurState) (B : List Str) : Prop :=
  curState = .start ∨
    curState = .gotFuncDecl ∧ ∃ line B', B = line :: B' ∧ Filter.identify line = .funcDecl

theorem Wrote.body {header : Str} {isOpen : Bool} {writes : List Str}
    {bs : List (Str × List Str)} (h : Wrote header isOpen writes bs) :
    writes.tail = bs.flatMap writeLines := by
  rw [h.writes, withHeader_writeLines]
  split_ifs with hbs <;> simp [hbs]

/-- The header is written first and once, if anything is written below it; the file
    is opened only then. -/
theorem Wrote.header {header : Str} {isOpen : Bool} {writes : List Str}
    {bs : List (Str × List Str)} (h : Wrote header isOpen writes bs) :
    writes = withHeader header writes.tail ∧ (isOpen = true ↔ writes.tail ≠ []) := by
  rw [h.body, h.isOpen]
  refine ⟨h.writes, ?_⟩
  cases bs <;> simp [writeLines, render]

theorem Between.cut {closesHead : Bool} {A B : List Str}
    (h : Between (after role closesHead idle A).curState B) :
    Cut role (after role closesHead idle A) B := by
  rcases h with h | ⟨h, line, B', rfl, hl⟩
  · left; revert h; cases after role closesHead idle A <;> simp [Phase.curState]
  · right
    revert h
    cases after role closesHead idle A with
    | head d => exact fun _ => ⟨d, rfl, line, B', rfl, role_head.2 hl⟩
    | _ => simp [Phase.curState]

/-- **Functions are judged independently**: between two functions, both filters can
    be cut. -/
theorem main_append (A B : List Str) :
    (∀ (origin : Str) (a b : Filter.Vars), Filter.main origin A = .ok a →
      Filter.main origin B = .ok b → Between a.curState B →
      ∃ c, Filter.main origin (A ++ B) = .ok c ∧ c.body = a.body ++ b.body ∧
        c.blocks = a.blocks ++ b.blocks ∧ c.writes = withHeader (origin ++ "\n".toList) c.body ∧
        (c.isOutfileOpen = true ↔ c.body ≠ [])) ∧
    (∀ (header : Str) (a b : Filter2.Vars), Filter2.main (header :: A) = .ok a →
      Filter2.main (header :: B) = .ok b → Between a.curState B →
      ∃ c, Filter2.main (header :: (A ++ B)) = .ok c ∧ c.body = a.body ++ b.body ∧
        c.calls = a.calls ++ b.calls ∧ c.writes = withHeader header c.body ∧
        (c.isOutfileOpen = true ↔ c.body ≠ [])) := by
  constructor
  · intro origin a b ha hb hcut
    obtain ⟨a', ha', hab, haw, hac⟩ := Filter.main_spec origin A
    obtain ⟨b', hb', hbb, hbw, -⟩ := Filter.main_spec origin B
    obtain ⟨c, hc, hcb, hcw, -⟩ := Filter.main_spec origin (A ++ B)
    obtain rfl := Except.ok.inj (ha'.symm.trans ha)
    obtain rfl := Except.ok.inj (hb'.symm.trans hb)
    rw [hac] at hcut
    have hbl : c.blocks = a'.blocks ++ b'.blocks := by
      rw [hcb, blocks_append hcut.cut, List.filterMap_append, hab, hbb]
    refine ⟨c, hc, ?_, hbl, hcw.header.1, hcw.header.2⟩
    rw [Filter.Vars.body, Filter.Vars.body, Filter.Vars.body, hcw.body, haw.body, hbw.body, hbl,
      List.flatMap_append]
  · intro header a b ha hb hcut
    rcases Filter2.main_spec header A with ⟨a', ha', has, haw, hao, hac⟩ | ⟨⟨e, he⟩, -⟩
    swap; · rw [he] at ha; cases ha
    rcases Filter2.main_spec header B with ⟨b', hb', hbs, hbw, hbo, -⟩ | ⟨⟨e, he⟩, -⟩
    swap; · rw [he] at hb; cases hb
    obtain rfl := Except.ok.inj (ha'.symm.trans ha)
    obtain rfl := Except.ok.inj (hb'.symm.trans hb)
    rw [hac] at hcut
    have hbl := blocks_append hcut.cut
    rcases Filter2.main_spec header (A ++ B) with ⟨c, hc, -, hcw, hco, -⟩ | ⟨-, x, hx, hns⟩
    · refine ⟨c, hc, ?_, by rw [hcw.calls, hbl, List.map_append, haw.calls, hbw.calls], ?_⟩
      · rw [Filter2.Vars.body, Filter2.Vars.body, Filter2.Vars.body, hcw.wrote.body,
          haw.wrote.body, hbw.wrote.body, hbl, List.filterMap_append, List.flatMap_append]
      · exact hco ▸ hcw.wrote.header
    · -- a call on `A ++ B` is one on `A` or one on `B`
      rw [hbl] at hx
      exact absurd ((List.mem_append.1 hx).elim (has x) (hbs x)) hns

theorem main_append_sample :
    (∃ a c, Filter.main "a.c".toList sample = .ok a ∧
      Filter.main "a.c".toList (sample ++ sample) = .ok c ∧ c.body = a.body ++ a.body) ∧
    ∃ a c, Filter2.main ("a.c\n".toList :: sample) = .ok a ∧
      Filter2.main ("a.c\n".toList :: (sample ++ sample)) = .ok c ∧ c.body = a.body ++ a.body := by
  obtain ⟨h1, h2⟩ := main_append sample sample
  obtain ⟨a, ha, hs⟩ := map_eq_ok (show (Filter.main "a.c".toList sample).map (·.curState) =
    .ok .start by decide +kernel)
  obtain ⟨a', ha', hs'⟩ := map_eq_ok (show (Filter2.main ("a.c\n".toList :: sample)).map
    (·.curState) = .ok .start by decide +kernel)
  obtain ⟨c, hc, hb, -⟩ := h1 _ a a ha ha (Or.inl hs)
  obtain ⟨c', hc', hb', -⟩ := h2 _ a' a' ha' ha' (Or.inl hs')
  exact ⟨⟨a, c, ha, hc, hb⟩, a', c', ha', hc', hb'⟩

end DoubleFetch
