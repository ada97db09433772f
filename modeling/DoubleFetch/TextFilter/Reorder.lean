/-
  The verdict of phase 2 on a fetch does not depend on the order of independent
  fetches (`runSkeleton_rearranged`): the pair scan calls `is_same` with the earlier
  line first, but `is_same` is symmetric.
-/
import DoubleFetch.Base.Rearrange
import DoubleFetch.TextFilter.Same
import DoubleFetch.TextFilter.Skeleton
import Mathlib.Data.Fin.VecNotation

namespace DoubleFetch.Filter2

theorem sameItem_comm (x y : Item) : sameItem x y = sameItem y x := by
  have h := isSame_comm x.line y.line
  rw [isSame_eq, isSame_eq] at h
  exact Except.ok.inj h

theorem flag_mark {K : ℕ → Bool} {L : List Item} (i : Fin L.length) :
    (mark K L)[(i : ℕ)]?.map (·.flag) = some (K i) := by
  rw [List.getElem?_eq_getElem (by simp)]
  simp [mark]

/-- **Order does not matter**: the same items are kept of a list and of any
    rearrangement of it. -/
theorem runSkeleton_rearranged (L L' : List Item) (r : Rearrangement Item.isCase L L')
    (hL : Skeleton L) (hf : Fresh L) (hH : Headed Item.isCase L) :
    ∃ v v', runSkeleton L = .ok v ∧ runSkeleton L' = .ok v' ∧
      (∀ i : Fin L.length, v'.inList[(r.pos i : ℕ)]?.map (·.flag) =
        v.inList[(i : ℕ)]?.map (·.flag)) ∧
      ∃ out out', processSkeleton L = .ok out ∧ processSkeleton L' = .ok out' ∧
        out'.Perm out := by
  have hL' : Skeleton L' := fun it h => hL it (r.mem_of_mem h)
  have hf' : Fresh L' := fun it h => hf it (r.mem_of_mem h)
  have hH' := r.headed hH
  obtain ⟨v, hrun, hv, -⟩ := runSkeleton_spec hL hH hf
  obtain ⟨v', hrun', hv', -⟩ := runSkeleton_spec hL' hH' hf'
  have hkept : ∀ i : Fin L.length,
      decide (Kept (cases L') L'.length (onPos sameItem L') (r.pos i)) =
        decide (Kept (cases L) L.length (onPos sameItem L) i) :=
    fun i => decide_eq_decide.2 (r.kept_iff sameItem_comm i)
  refine ⟨v, v', hrun, hrun', fun i => ?_, _, _, processSkeleton_eq hL hH hf,
    processSkeleton_eq hL' hH' hf', (r.pick_perm hkept).map _⟩
  rw [hv, hv', flag_mark, flag_mark, hkept]

/-- Two arms, the second with a fetch of the source of the first. -/
def arms : List Item :=
  ["case 1:\n".toList, "get_user(a, p);\n".toList, "get_user(b, p);\n".toList, "case 2:\n".toList,
    "get_user(c, q);\n".toList, "get_user(d, p);\n".toList].map mkItem

/-- The arms in the other order, and the fetches of the second one. -/
def swappedArms : List Item :=
  ["case 2:\n".toList, "get_user(d, p);\n".toList, "get_user(c, q);\n".toList, "case 1:\n".toList,
    "get_user(a, p);\n".toList, "get_user(b, p);\n".toList].map mkItem

def swapArms : Rearrangement Item.isCase arms swappedArms where
  pos := (⟨![3, 4, 5, 0, 2, 1], ![3, 5, 4, 0, 1, 2], by decide, by decide⟩ : Fin 6 ≃ Fin 6)
  elem := by decide
  segment := by decide +kernel

theorem runSkeleton_swapArms : ∃ v v', runSkeleton arms = .ok v ∧ runSkeleton swappedArms = .ok v' ∧
    ∀ i : Fin 6, v'.inList[(swapArms.pos i : ℕ)]?.map (·.flag) =
      v.inList[(i : ℕ)]?.map (·.flag) := by
  obtain ⟨v, v', hv, hv', h, -⟩ := runSkeleton_rearranged arms swappedArms swapArms (by decide)
    (by decide) (by decide)
  exact ⟨v, v', hv, hv', h⟩

end DoubleFetch.Filter2
