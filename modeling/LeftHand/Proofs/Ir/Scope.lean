import LeftHand.Ir.Scope
import Mathlib

/-! A scope never hands out a name twice. -/

namespace LeftHand.Ir.Scope

open List

theorem numbered_injective (base : String) : Function.Injective (numbered base) := by
  intro m n same
  -- The base and the dot are common to both, and decimal numerals are injective.
  rw [numbered, numbered, String.append_right_inj] at same
  exact Nat.repr_inj.mp same

/-- The search ends at a free number, or has found every number it could try taken. -/
theorem firstFree_free_or_full (used : List String) (base : String) (fuel n : Nat) :
    numbered base (firstFree used base fuel n) ∉ used ∨
      (firstFree used base fuel n = n + fuel ∧ ∀ i < fuel, numbered base (n + i) ∈ used) := by
  -- By the number of tries that are left.
  induction fuel generalizing n with
  | zero => exact .inr ⟨rfl, by omega⟩
  | succ fuel ih =>
    rw [firstFree]
    split
    · rename_i taken
      have taken : numbered base n ∈ used := by simpa using taken
      rcases ih (n + 1) with free | ⟨last, full⟩
      · exact .inl free
      · refine .inr ⟨by omega, fun i within => ?_⟩
        -- The first number was just found taken; the others were found by the rest of the search.
        rcases Nat.eq_zero_or_pos i with rfl | positive
        · exact taken
        · have earlier := full (i - 1) (by omega)
          rwa [show n + 1 + (i - 1) = n + i by omega] at earlier
    · rename_i free
      exact .inl (by simpa using free)

/-- As many tries as there are names taken are enough to find a free number. -/
theorem firstFree_notMem (used : List String) (base : String) (n : Nat) :
    numbered base (firstFree used base used.length n) ∉ used := by
  rcases firstFree_free_or_full used base used.length n with free | ⟨last, full⟩
  · exact free
  · intro taken
    -- Otherwise one name more than the list has places would stand in the list.
    let names := (List.range (used.length + 1)).map fun i => numbered base (n + i)
    have distinct : names.Nodup := by
      refine List.Nodup.map (fun i j same => ?_) nodup_range
      have := numbered_injective base same
      omega
    have inside : names ⊆ used := by
      intro name member
      obtain ⟨i, within, rfl⟩ := mem_map.mp member
      rw [mem_range] at within
      rcases Nat.lt_or_ge i used.length with below | atEnd
      · exact full i below
      · have : i = used.length := by omega
        rwa [this, ← last]
    have crowded := (subperm_of_subset distinct inside).length_le
    simp [names] at crowded

theorem take_notMem (scope : Scope) (base : String) : (scope.take base).1 ∉ scope.used := by
  rw [take]
  -- The base itself is handed out as long as it is free.
  split
  · exact firstFree_notMem scope.used base _
  · rename_i free
    simpa using free

@[simp] theorem used_take (scope : Scope) (base : String) :
    (scope.take base).2.used = (scope.take base).1 :: scope.used := by
  rw [take]
  split <;> rfl

@[simp] theorem length_takeAll (scope : Scope) (bases : List String) :
    (scope.takeAll bases).1.length = bases.length := by
  induction bases generalizing scope with
  | nil => rfl
  | cons base bases ih => simp [takeAll, ih]

/-- The names that are taken together are new, and no two of them are the same. -/
theorem takeAll_fresh (scope : Scope) (bases : List String) :
    (scope.takeAll bases).1.Nodup ∧ (∀ name ∈ (scope.takeAll bases).1, name ∉ scope.used) ∧
      (scope.takeAll bases).2.used = (scope.takeAll bases).1.reverse ++ scope.used := by
  induction bases generalizing scope with
  | nil => simp [takeAll]
  | cons base bases ih =>
    -- The names behind the first one are taken where the first is in use.
    obtain ⟨distinct, fresh, used⟩ := ih (scope.take base).2
    rw [used_take] at fresh used
    refine ⟨nodup_cons.mpr ⟨fun again => ?_, distinct⟩, fun name member => ?_, ?_⟩
    · exact fresh _ again mem_cons_self
    · rcases mem_cons.mp member with rfl | later
      · exact take_notMem scope base
      · exact fun taken => fresh name later (mem_cons_of_mem _ taken)
    · simp [takeAll, used]

end LeftHand.Ir.Scope
