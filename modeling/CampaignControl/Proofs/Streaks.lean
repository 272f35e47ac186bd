import CampaignControl.Streaks
import Mathlib.Data.List.Induction
import Mathlib.Order.Monotone.Defs
import Mathlib.Algebra.Order.Group.Nat

/-!
# Retry delays

The delay after a failed pass is decided by the passes over the same target alone: by how many of
them in a row have failed in a way which is worth another try (`Streaks.count_afterAll`). It does
not get shorter as the streak gets longer, and where both numbers of a policy are at most `2 ^ 53`
no step of its computation rounds, so that it is the doubled base, up to the limit
(`Streaks.delay_follows_streak`).
-/

namespace CampaignControl

/-! ## Rounding -/

namespace Binary64

theorem divEven_of_dvd {num den : Nat} (hden : 0 < den) (h : den ∣ num) :
    divEven num den = num / den := by
  simp [divEven, Nat.mod_eq_zero_of_dvd h, hden]

/-- Rounding adds at most one to the quotient. -/
theorem divEven_le (num den : Nat) : divEven num den ≤ num / den + 1 := by
  unfold divEven
  dsimp only
  split
  · exact Nat.le_succ _
  · split <;> omega

theorem roundNat_of_dvd {n : Nat} (h : 2 ^ (n.log2 - 52) ∣ n) : roundNat n = n := by
  show divEven n (2 ^ (n.log2 - 52)) * 2 ^ (n.log2 - 52) = n
  rw [divEven_of_dvd (Nat.two_pow_pos _) h, Nat.div_mul_cancel h]

/-- A mantissa of 53 bits, or the next number, is not rounded wherever it is shifted to. -/
theorem roundNat_mul_two_pow {mantissa : Nat} (h : mantissa ≤ 2 * leastNormal) (k : Nat) :
    roundNat (mantissa * 2 ^ k) = mantissa * 2 ^ k := by
  apply roundNat_of_dvd
  rcases Nat.eq_zero_or_pos mantissa with rfl | hpos
  · simp
  have hne : mantissa * 2 ^ k ≠ 0 := (Nat.mul_pos hpos (Nat.two_pow_pos k)).ne'
  rcases Nat.lt_or_eq_of_le h with hlt | rfl
  · -- the last bit that is kept is no higher than the last one of the mantissa
    have hlog : (mantissa * 2 ^ k).log2 < 53 + k := by
      rw [Nat.log2_lt hne, Nat.pow_add]
      exact Nat.mul_lt_mul_of_pos_right hlt (Nat.two_pow_pos k)
    exact Nat.dvd_trans (Nat.pow_dvd_pow 2 (by omega)) (Nat.dvd_mul_left ..)
  · have hpow : 2 * leastNormal * 2 ^ k = 2 ^ (53 + k) := (Nat.pow_add 2 53 k).symm
    rw [hpow, Nat.log2_two_pow]
    exact Nat.pow_dvd_pow 2 (by omega)

theorem roundNat_of_le {n : Nat} (h : n ≤ 2 * leastNormal) : roundNat n = n := by
  have hround := roundNat_mul_two_pow h 0
  rwa [Nat.pow_zero, Nat.mul_one] at hround

/-- What has been rounded is a mantissa of 53 bits, or the next number, that has been shifted. -/
theorem exists_roundNat (n : Nat) :
    ∃ mantissa k, mantissa ≤ 2 * leastNormal ∧ roundNat n = mantissa * 2 ^ k := by
  refine ⟨divEven n (2 ^ (n.log2 - 52)), n.log2 - 52, ?_, rfl⟩
  have hquotient : n / 2 ^ (n.log2 - 52) < 2 * leastNormal := by
    rw [Nat.div_lt_iff_lt_mul (Nat.two_pow_pos _)]
    calc n < 2 ^ (n.log2 + 1) := Nat.lt_log2_self
      _ ≤ 2 ^ (53 + (n.log2 - 52)) := Nat.pow_le_pow_right (by decide) (by omega)
      _ = 2 * leastNormal * 2 ^ (n.log2 - 52) := Nat.pow_add 2 53 _
  have hround := divEven_le n (2 ^ (n.log2 - 52))
  omega

/-- Doubling is exact. -/
theorem roundNat_roundNat_mul (n k : Nat) :
    roundNat (roundNat n * 2 ^ k) = roundNat n * 2 ^ k := by
  obtain ⟨mantissa, j, hmantissa, hround⟩ := exists_roundNat n
  rw [hround, Nat.mul_assoc, ← Nat.pow_add]
  exact roundNat_mul_two_pow hmantissa (j + k)

end Binary64

/-! ## One delay -/

namespace RetryPolicy

open Binary64

variable {p : RetryPolicy}

/-- The delay where every step of the computation rounds: the two numbers, the power of two and the
product. -/
theorem delay_eq_rounded (p : RetryPolicy) {k : Nat} (hk : 1 ≤ k) :
    p.delay k = min (min (roundNat (roundNat p.baseDelay * roundNat (2 ^ min (k - 1) 63)))
      (roundNat p.maxDelay)) 0xffffffffffffffff := by
  have hpow : roundNat (2 ^ min (k - 1) 63) = 2 ^ min (k - 1) 63 := by
    have hone := roundNat_mul_two_pow (show 1 ≤ 2 * leastNormal by decide) (min (k - 1) 63)
    rwa [Nat.one_mul] at hone
  rw [hpow, roundNat_roundNat_mul, delay, if_neg (by omega)]
  rfl

/-- The delay does not get shorter. -/
theorem delay_mono (p : RetryPolicy) : Monotone p.delay := by
  intro k k' hle
  rcases Nat.eq_zero_or_pos k with rfl | hk
  · exact Nat.zero_le _
  have hpow : 2 ^ min (k - 1) 63 ≤ 2 ^ min (k' - 1) 63 :=
    Nat.pow_le_pow_right (by decide) (by omega)
  have hdoubled := Nat.mul_le_mul_left (roundNat p.baseDelay) hpow
  unfold delay
  rw [if_neg (by omega), if_neg (by omega)]
  exact min_le_min_right _ (min_le_min_right _ hdoubled)

/-- Where nothing is rounded the delay is the doubled base, up to the limit, however often the base
is doubled. -/
theorem delay_eq_doubled (hbase : p.baseDelay ≤ 2 ^ 53) (hmax : p.maxDelay ≤ 2 ^ 53) {k : Nat}
    (hk : 1 ≤ k) : p.delay k = min (p.baseDelay * 2 ^ (k - 1)) p.maxDelay := by
  have hround := roundNat_of_le (show p.baseDelay ≤ 2 * leastNormal from hbase)
  have hround' := roundNat_of_le (show p.maxDelay ≤ 2 * leastNormal from hmax)
  have hcut : min (p.baseDelay * 2 ^ min (k - 1) 63) p.maxDelay =
      min (p.baseDelay * 2 ^ (k - 1)) p.maxDelay := by
    rcases Nat.eq_zero_or_pos p.baseDelay with hzero | hpos
    · rw [hzero, Nat.zero_mul, Nat.zero_mul]
    rcases Nat.le_total (k - 1) 63 with hle | hlt
    · rw [Nat.min_eq_left hle]
    · -- both products are beyond the limit
      have hbeyond : ∀ j, 63 ≤ j → p.maxDelay ≤ p.baseDelay * 2 ^ j := fun j hj =>
        calc p.maxDelay ≤ 2 ^ 53 := hmax
          _ ≤ 2 ^ j := Nat.pow_le_pow_right (by decide) (by omega)
          _ ≤ p.baseDelay * 2 ^ j := Nat.le_mul_of_pos_left _ hpos
      rw [Nat.min_eq_right hlt, Nat.min_eq_right (hbeyond 63 (Nat.le_refl 63)),
        Nat.min_eq_right (hbeyond _ hlt)]
  have hword : min (p.baseDelay * 2 ^ (k - 1)) p.maxDelay ≤ 0xffffffffffffffff :=
    (Nat.min_le_right ..).trans (hmax.trans (by decide))
  rw [delay, if_neg (by omega), hround, hround']
  show min (min (p.baseDelay * 2 ^ min (k - 1) 63) p.maxDelay) _ = _
  rw [hcut, Nat.min_eq_left hword]

end RetryPolicy

/-! ## Streaks -/

/-- Whether a pass has failed in a way which is worth another try. -/
def isRetryable : Except Error Action → Bool
  | .ok _ => false
  | .error e => !e.isFatal

namespace Streaks

/-- Passes one after the other, over any targets, with their results. -/
abbrev History := List (Target × Except Error Action)

/-- The results of the passes over a target. -/
def History.own (history : History) (target : Target) : List (Except Error Action) :=
  (history.filter (·.1 = target)).map Prod.snd

/-- How many results at the end of a list are failures worth another try. -/
def trailing (results : List (Except Error Action)) : Nat :=
  (results.reverse.takeWhile isRetryable).length

/-- The streaks after all passes of a history. -/
def afterAll (s : Streaks) (history : History) : Streaks :=
  history.foldl (fun s pass => s.after pass.1 pass.2) s

variable {history : History} {target other : Target} {result : Except Error Action}

theorem afterAll_append_singleton (s : Streaks) (history : History) (target : Target)
    (result : Except Error Action) :
    afterAll s (history ++ [(target, result)]) = (afterAll s history).after target result := by
  simp [afterAll]

theorem own_append_self (history : History) (target : Target) (result : Except Error Action) :
    History.own (history ++ [(target, result)]) target = history.own target ++ [result] := by
  simp [History.own]

theorem own_append_of_ne (h : other ≠ target) (history : History) (result : Except Error Action) :
    History.own (history ++ [(other, result)]) target = history.own target := by
  simp [History.own, h]

theorem trailing_append_of_isRetryable (h : isRetryable result)
    (results : List (Except Error Action)) :
    trailing (results ++ [result]) = trailing results + 1 := by
  simp [trailing, h]

theorem trailing_append_of_not_isRetryable (h : isRetryable result = false)
    (results : List (Except Error Action)) : trailing (results ++ [result]) = 0 := by
  simp [trailing, h]

/-- A pass makes the streak of its target longer, or ends it. -/
theorem count_after_self (s : Streaks) (target : Target) (result : Except Error Action) :
    (s.after target result).count target =
      if isRetryable result then min (s.count target + 1) longest else 0 := by
  cases result with
  | ok action => simp [after, isRetryable, count_clear]
  | error e => cases h : e.isFatal <;> simp [after, isRetryable, h, count_clear, count_extend]

/-- A pass leaves the streaks of other targets as they are. -/
theorem count_after_of_ne (s : Streaks) (h : other ≠ target) (result : Except Error Action) :
    (s.after other result).count target = s.count target := by
  cases result with
  | ok action => simp [after, count_clear, h]
  | error e => cases hfatal : e.isFatal <;> simp [after, hfatal, count_clear, count_extend, h]

/-- The streak of a target is told by the results of its own passes, whatever passes over others
there are in between. -/
theorem count_afterAll (history : History) (target : Target) :
    (afterAll {} history).count target = min (trailing (history.own target)) longest := by
  induction history using List.reverseRecOn with
  | nil => rfl
  | append_singleton front pass ih =>
    obtain ⟨other, result⟩ := pass
    rw [afterAll_append_singleton]
    by_cases h : other = target
    · subst h
      rw [count_after_self, own_append_self, ih]
      cases hresult : isRetryable result with
      | true =>
        rw [trailing_append_of_isRetryable hresult, if_pos rfl]
        omega
      | false =>
        rw [trailing_append_of_not_isRetryable hresult, if_neg Bool.false_ne_true]
        rfl
    · rw [count_after_of_ne _ h, own_append_of_ne h, ih]

/-- A failure worth another try is counted before the delay is computed. -/
theorem count_extend_afterAll (history : History) (target : Target) (h : isRetryable result) :
    ((afterAll {} history).extend target).count target =
      min (trailing (History.own (history ++ [(target, result)]) target)) longest := by
  have hafter :
      (afterAll {} history).after target result = (afterAll {} history).extend target := by
    cases result with
    | ok action => simp [isRetryable] at h
    | error e => simp_all [isRetryable, after]
  rw [← count_afterAll, afterAll_append_singleton, hafter]

/-- The delay after a pass. A success has its own, a fatal error has none, and any other error has
the one for the streak of its target, which grows with the streak. It is computed in binary64, and
exact where the numbers of the policy are. -/
theorem delay_follows_streak (policy : RetryPolicy) (history : History) (target : Target) :
    (∀ action, (afterAll {} history).delay? policy target (.ok action) = action.delay?) ∧
      (∀ e, e.isFatal → (afterAll {} history).delay? policy target (.error e) = none) ∧
      (∀ e, e.isFatal = false → (afterAll {} history).delay? policy target (.error e) =
        some (policy.delay
          (min (trailing (History.own (history ++ [(target, .error e)]) target)) longest) *
            1_000_000)) ∧
      Monotone policy.delay ∧
      (∀ k, 1 ≤ k → policy.delay k =
        min (min (Binary64.roundNat (Binary64.roundNat policy.baseDelay *
            Binary64.roundNat (2 ^ min (k - 1) 63)))
          (Binary64.roundNat policy.maxDelay)) 0xffffffffffffffff) ∧
      (policy.baseDelay ≤ 2 ^ 53 → policy.maxDelay ≤ 2 ^ 53 → ∀ k, 1 ≤ k →
        policy.delay k = min (policy.baseDelay * 2 ^ (k - 1)) policy.maxDelay) := by
  refine ⟨fun _ => rfl, fun e he => if_pos he, fun e he => ?_, policy.delay_mono,
    fun k => policy.delay_eq_rounded, fun hbase hmax k => policy.delay_eq_doubled hbase hmax⟩
  have hcount := count_extend_afterAll history target
    (show isRetryable (.error e) by simp [isRetryable, he])
  rw [delay?, if_neg (by simp [he]), hcount]

/-- Two campaigns that fail in turns, one of which has had a success: its third failure is the
second one in a row, while the other's streak goes on. -/
theorem delay_follows_streak_sample :
    let policy : RetryPolicy := ⟨100, 250⟩
    let one : Target := .campaign ⟨"maint", "one"⟩
    let two : Target := .campaign ⟨"maint", "two"⟩
    let failure : Except Error Action := .error (.discovery "down")
    let history : History := [(one, failure), (two, failure), (two, failure),
      (one, .ok .awaitChange), (one, failure)]
    (afterAll {} history).delay? policy one failure = some 200_000_000 ∧
      (afterAll {} history).delay? policy two failure = some 250_000_000 ∧
      (afterAll {} history).delay? policy two (.error (.unreadable .truncated)) = none ∧
      policy.delay 3 = 250 := by
  intro policy one two failure history
  obtain ⟨-, -, hone, -⟩ := delay_follows_streak policy history one
  obtain ⟨-, hfatal, htwo, -, -, hexact⟩ := delay_follows_streak policy history two
  exact ⟨(hone _ rfl).trans (by decide +kernel), (htwo _ rfl).trans (by decide +kernel),
    hfatal _ rfl, (hexact (by decide) (by decide) 3 (by decide)).trans (by decide)⟩

end Streaks
end CampaignControl
