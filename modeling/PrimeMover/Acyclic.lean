import Mathlib.Data.Finset.Card
import Mathlib.Logic.Relation

/-! Relations without cycles that lead on from finitely many elements. -/
namespace Acyclic
open Relation

variable {A : Type} {r : A → A → Prop}

/-- Such a relation descends, in at most as many steps as there are elements to leave. -/
theorem exists_rank (sources : Finset A) (finite : ∀ a b, r a b → a ∈ sources)
    (acyclic : ∀ a, ¬ TransGen r a a) :
    ∃ rank : A → Nat, (∀ a b, r a b → rank b < rank a) ∧ ∀ a, rank a ≤ sources.card + 1 := by
  classical
  let reach (a : A) : Finset A := sources.filter (TransGen r a)
  refine ⟨fun a => if a ∈ sources then (reach a).card + 1 else 0, ?_, ?_⟩
  · intro a b step
    have ha := finite a b step
    dsimp only
    rw [if_pos ha]
    split
    · rename_i hb
      have smaller : reach b ⊂ reach a := by
        rw [Finset.ssubset_iff_of_subset]
        · refine ⟨b, Finset.mem_filter.mpr ⟨hb, TransGen.single step⟩, ?_⟩
          intro h
          exact acyclic b (Finset.mem_filter.mp h).2
        · intro c hc
          have := Finset.mem_filter.mp hc
          exact Finset.mem_filter.mpr ⟨this.1, TransGen.head step this.2⟩
      exact Nat.succ_lt_succ (Finset.card_lt_card smaller)
    · exact Nat.succ_pos _
  · intro a
    dsimp only
    split
    · exact Nat.succ_le_succ (Finset.card_filter_le _ _)
    · exact Nat.zero_le _

theorem wellFounded (sources : Finset A) (finite : ∀ a b, r a b → a ∈ sources)
    (acyclic : ∀ a, ¬ TransGen r a a) : WellFounded (fun b a => r a b) := by
  obtain ⟨rank, lower, _⟩ := exists_rank sources finite acyclic
  exact Subrelation.wf (fun {b a} step => lower a b step) (measure rank).wf

end Acyclic
