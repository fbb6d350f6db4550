import Mathlib.Data.List.Nodup
import Mathlib.Tactic

/-! Labels that repeat with a period: the labels of consecutive numbers are distinct
exactly while there are no more of them than the period. -/
namespace Residue
variable {α : Type*} {label : ℕ → α} {period : ℕ}

theorem nodup_map_range_iff (hpos : 0 < period)
    (hlabel : ∀ i j, label i = label j ↔ i % period = j % period) (n : ℕ) :
    ((List.range n).map label).Nodup ↔ n ≤ period := by
  rw [List.nodup_map_iff_inj_on List.nodup_range]
  constructor
  · intro hinj
    by_contra hlong
    -- the numbers 0 and period share their label
    have hsame : label 0 = label period := (hlabel 0 period).mpr (by simp)
    have h := hinj 0 (List.mem_range.mpr (by omega)) period (List.mem_range.mpr (by omega)) hsame
    omega
  · intro hle i hi j hj hsame
    have hi' := List.mem_range.mp hi
    have hj' := List.mem_range.mp hj
    have hmod := (hlabel i j).mp hsame
    rwa [Nat.mod_eq_of_lt (by omega), Nat.mod_eq_of_lt (by omega)] at hmod

end Residue
