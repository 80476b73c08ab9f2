import MathUnikernel.Library.Runs
import MathUnikernel.Requests

/-!
# Page tables refine a map from virtual to physical pages
-/

namespace MathUnikernel.Vmm
open Pmm RadixTree Runs

/-- A call on the tables of `m`, with any PMM state and any memory outside the tables. -/
structure MapStep (m : Machine) (c : MapCall) (m' : Machine) : Prop where
  step : ∃ m₁, Between m m₁ ∧ Regular m₁ c ∧ m' = c.exec m₁

theorem tree_of_run {m₀ m : Machine} (h0 : EmptyPml4 m₀) {tr : List (Machine × MapCall × Machine)}
    (hrun : Run MapStep m₀ tr m) : m.Tree := by
  refine (hrun.invariant (I := Machine.Tree) (tree_of_emptyPml4 h0) ?_).1
  intro m c m' htree hstep
  obtain ⟨m₁, hbetween, hc, rfl⟩ := hstep.step
  exact (mapped_of_regular (hbetween.tree htree) hc).tree

/-- After every run of regular calls from an empty PML4, a further regular call gives the hardware
walk its page and leaves it as it was at every other address. -/
theorem map_refines {m₀ m : Machine} (h0 : EmptyPml4 m₀) {tr : List (Machine × MapCall × Machine)}
    (hrun : Run MapStep m₀ tr m) {m₁ : Machine} (hbetween : Between m m₁) {c : MapCall}
    (hc : Regular m₁ c) :
    (∀ va, c.Covers va →
      hwWalk (c.exec m₁) va = some (c.physAddr / c.size * c.size + va % c.size, c.flagsOf)) ∧
    ∀ va, ¬c.Covers va → hwWalk (c.exec m₁) va = hwWalk m va := by
  have hwalk := hwWalk_exec (hbetween.tree (tree_of_run h0 hrun)) hc
  rw [hbetween.hwWalk_eq] at hwalk
  refine ⟨fun va hva => ?_, fun va hva => ?_⟩
  · rw [hwalk, MapCall.apply, if_pos hva]
  · rw [hwalk, MapCall.apply, if_neg hva]

/-- The second page of the heap. -/
def secondPage : MapCall := ⟨true, heapStart + 0x200000, 0x400000, 3⟩

/-- The second page of the heap on the small machine, after the first. -/
theorem map_refines_small : ∃ s m, pmmInit smallMap (fun _ => 0) = some (pmmInitSuccess, s) ∧
    Run MapStep (smallMachine s) [(smallMachine s, firstPage 0x200000, m)] m ∧
    hwWalk (secondPage.exec m) (heapStart + 0x200005) =
      some (0x400005, 0x83) ∧
    hwWalk (secondPage.exec m) (heapStart + 5) =
      hwWalk m (heapStart + 5) := by
  obtain ⟨s, hs, hsize, htotal, hused⟩ := pmmInit_smallMap
  obtain ⟨hempty, hclaimed, hstocked⟩ :=
    smallMachine_facts hsize htotal hused (by omega) (by omega)
  have hblank : Blank paging (smallMachine s).mem (smallMachine s).root := blank_of_zero hempty
  have hfirst := regular_firstPage hempty hclaimed (hstocked.mono (by omega))
    (show 0x200000 < 2 ^ 52 by norm_num) rfl
  have hmapped := mapped_of_regular hclaimed.tree hfirst
  have hserved :=
    (((hstocked.mono (show 0 + 3 + 3 ≤ _ by omega)).exec (firstPage 0x200000)).exec secondPage).served
  -- the first call adds no table as deep as the entry of the second
  have hslot : ((firstPage 0x200000).exec (smallMachine s)).table
      (secondPage.path ++ [secondPage.index]) = none := by
    cases htable : ((firstPage 0x200000).exec (smallMachine s)).table
      (secondPage.path ++ [secondPage.index]) with
    | none => rfl
    | some f =>
      rcases hmapped.table_cases _ f htable with hold | hlen
      · exact absurd (hold.symm.trans (hblank.follow_cons 3 _ _)) (by simp)
      · exact absurd hlen (by decide)
  have hfits : secondPage.Fits ((firstPage 0x200000).exec (smallMachine s)) :=
    ⟨leaf_of_short _ le_rfl, hslot⟩
  have hreg : Regular ((firstPage 0x200000).exec (smallMachine s)) secondPage :=
    ⟨(hfits.orderly (hmapped.claimed hclaimed) hserved).walk, by norm_num [secondPage], fun _ => by decide, by decide,
      by decide, fun _ => hslot⟩
  have hrun : Run MapStep (smallMachine s) _ _ :=
    Run.nil.snoc ⟨_, ⟨rfl, fun _ _ => rfl⟩, hfirst, rfl⟩
  obtain ⟨hpage, hrest⟩ := map_refines hempty hrun ⟨rfl, fun _ _ => rfl⟩ hreg
  exact ⟨s, _, hs, hrun, hpage (heapStart + 0x200005) (by decide), hrest (heapStart + 5) (by decide)⟩

end MathUnikernel.Vmm
