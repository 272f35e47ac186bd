import CampaignControl.Error
import CampaignControl.Keyed
import CampaignControl.Settings
import CampaignControl.Target

/-!
# Failure streaks

For each target the number of passes in a row that have failed in a way which is worth another
try. The delay before the next try grows with it; a pass that succeeds or fails for good ends
the streak.
-/

namespace CampaignControl

structure Streaks where
  counts : List (Target × Nat) := []
  deriving DecidableEq, Repr, Inhabited

namespace Streaks

/-- The longest streak that is told apart from longer ones. -/
def longest : Nat := 0xffffffff

/-- The length of a target's streak. -/
def count (s : Streaks) (target : Target) : Nat := (Keyed.find? target s.counts).getD 0

/-- Ends the streak of a target. -/
def clear (s : Streaks) (target : Target) : Streaks := ⟨Keyed.erase target s.counts⟩

/-- Makes the streak of a target longer by one. -/
def extend (s : Streaks) (target : Target) : Streaks :=
  ⟨Keyed.insert target (min (s.count target + 1) longest) s.counts⟩

/-- The streaks after a pass over a target. -/
def after (s : Streaks) (target : Target) : Except Error Action → Streaks
  | .ok _ => s.clear target
  | .error e => if e.isFatal then s.clear target else s.extend target

/-- The nanoseconds until the next pass over a target, if there is to be one, after a pass with
this result. -/
def delay? (policy : RetryPolicy) (s : Streaks) (target : Target) :
    Except Error Action → Option Nat
  | .ok action => action.delay?
  | .error e =>
    if e.isFatal then none else some (policy.delay ((s.extend target).count target) * 1_000_000)

theorem count_clear (s : Streaks) (target other : Target) :
    (s.clear target).count other = if target = other then 0 else s.count other := by
  by_cases h : target = other <;> simp [clear, count, Keyed.find?_erase, h]

theorem count_extend (s : Streaks) (target other : Target) :
    (s.extend target).count other =
      if target = other then min (s.count target + 1) longest else s.count other := by
  by_cases h : target = other <;> simp [extend, count, Keyed.find?_insert, h]

end Streaks
end CampaignControl
