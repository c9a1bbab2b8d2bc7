import Mathlib
import Lox.Number.Shortest

/-!
# Decimals that read back

The rationals that read back as a double are an interval around its value (`Binary.ReadsBack`). The
intervals of different doubles have no point in common, because of two neighbours one has an odd
significand, and the end between them is not its own (`Binary.eq_of_readsBack`). The last of the
grids that are searched is finer than a quarter of the last place (`Binary.scale_last`), so that the
search finds a decimal that reads back (`Binary.shortest_readsBack`).
-/

namespace Lox.Number

namespace Binary

/-- A size that the bits of a double give: the significand has 53 bits, unless the exponent is the
least. -/
structure Canonical (b : Binary) : Prop where
  below : b.significand < 2 ^ 53
  least : -1074 ≤ b.exponent
  most : b.exponent ≤ 971
  leading : 2 ^ 52 ≤ b.significand ∨ b.exponent = -1074

/-- A quarter of the last place. -/
def quarter (b : Binary) : ℚ :=
  2 ^ (b.exponent - 2)

theorem quarter_pos (b : Binary) : 0 < b.quarter :=
  zpow_pos (by norm_num) _

/-- The number reads back as the double. -/
def ReadsBack (b : Binary) (q : ℚ) : Prop :=
  if b.rounds.closed then b.rounds.low * b.quarter ≤ q ∧ q ≤ b.rounds.high * b.quarter
  else b.rounds.low * b.quarter < q ∧ q < b.rounds.high * b.quarter

theorem ReadsBack.le {b : Binary} {q : ℚ} (h : b.ReadsBack q) :
    b.rounds.low * b.quarter ≤ q ∧ q ≤ b.rounds.high * b.quarter := by
  unfold ReadsBack at h
  split at h
  · exact h
  · exact ⟨h.1.le, h.2.le⟩

/-- An end of the interval reads back only if the significand is even. -/
theorem ReadsBack.even {b : Binary} {q : ℚ} (h : b.ReadsBack q)
    (atEnd : q = b.rounds.low * b.quarter ∨ q = b.rounds.high * b.quarter) :
    b.significand % 2 = 0 := by
  unfold ReadsBack at h
  split at h
  · rename_i closed
    exact of_decide_eq_true closed
  · obtain rfl | rfl := atEnd
    · exact absurd h.1 (lt_irrefl _)
    · exact absurd h.2 (lt_irrefl _)

/-- The value of the double reads back. -/
theorem readsBack_self (b : Binary) : b.ReadsBack (4 * b.significand * b.quarter) := by
  have positive := b.quarter_pos
  have low : b.rounds.low ≤ 4 * b.significand := Nat.sub_le _ _
  have high : b.rounds.high = 4 * b.significand + 2 := rfl
  have below : b.rounds.closed = false → b.rounds.low < 4 * b.significand := by
    intro isOdd
    have isOdd : ¬ b.significand % 2 = 0 := of_decide_eq_false isOdd
    unfold rounds
    dsimp only
    split <;> omega
  have le : (b.rounds.low : ℚ) ≤ 4 * b.significand := by exact_mod_cast low
  rw [ReadsBack, high]
  push_cast
  split
  · exact ⟨by gcongr, by nlinarith⟩
  · rename_i notClosed
    have lt : (b.rounds.low : ℚ) < 4 * b.significand := by
      exact_mod_cast below (Bool.eq_false_iff.mpr notClosed)
    exact ⟨by gcongr, by nlinarith⟩

/-! ## Neighbours -/

/-- Of two doubles, the interval of the lesser ends where that of the greater begins, or before. If
it ends there, one of them has an odd significand. -/
theorem high_le_low {b b' : Binary} (h : b.Canonical) (h' : b'.Canonical) {d : ℕ}
    (exponent : b'.exponent = b.exponent + d) (less : d = 0 → b.significand < b'.significand) :
    b.rounds.high ≤ b'.rounds.low * 2 ^ d ∧
      (b.rounds.high = b'.rounds.low * 2 ^ d →
        ¬ (b.significand % 2 = 0 ∧ b'.significand % 2 = 0)) := by
  obtain ⟨below, least, -, leading⟩ := h
  obtain ⟨-, -, -, leading'⟩ := h'
  have high : b.rounds.high = 4 * b.significand + 2 := rfl
  have low : b'.rounds.low = 4 * b'.significand -
    (if b'.significand = 2 ^ 52 ∧ -1074 < b'.exponent then 1 else 2) := rfl
  rw [high, low]
  cases d with
  | zero =>
    have less := less rfl
    rw [pow_zero, mul_one]
    split <;> omega
  | succ d =>
    -- the greater one has a leading bit, so its interval begins at least at `2 ^ 55 - 2`
    have bound : 2 ^ 55 - 2 ≤ 2 * (4 * b'.significand -
        (if b'.significand = 2 ^ 52 ∧ -1074 < b'.exponent then 1 else 2)) := by
      split <;> omega
    generalize 4 * b'.significand -
      (if b'.significand = 2 ^ 52 ∧ -1074 < b'.exponent then 1 else 2) = low at bound
    have wider : 2 * low ≤ low * 2 ^ (d + 1) := by
      rw [pow_succ', ← mul_assoc, mul_comm low 2]
      exact Nat.le_mul_of_pos_right _ (Nat.two_pow_pos d)
    omega

theorem quarter_add {b b' : Binary} {d : ℕ} (exponent : b'.exponent = b.exponent + d) :
    b'.quarter = 2 ^ d * b.quarter := by
  rw [quarter, exponent, quarter, ← zpow_natCast, ← zpow_add₀ (by norm_num)]
  congr 1
  omega

/-- No number reads back as two doubles. -/
theorem eq_of_readsBack {b b' : Binary} (h : b.Canonical) (h' : b'.Canonical) {q : ℚ}
    (reads : b.ReadsBack q) (reads' : b'.ReadsBack q) : b = b' := by
  have apart {b b' : Binary} (h : b.Canonical) (h' : b'.Canonical) (reads : b.ReadsBack q)
      (reads' : b'.ReadsBack q) (d : ℕ) (exponent : b'.exponent = b.exponent + d)
      (less : d = 0 → b.significand < b'.significand) : False := by
    obtain ⟨le, odd⟩ := high_le_low h h' exponent less
    have positive := b.quarter_pos
    have unit : (b'.rounds.low : ℚ) * b'.quarter = (b'.rounds.low * 2 ^ d : ℕ) * b.quarter := by
      rw [quarter_add exponent]
      push_cast
      ring
    have le' : (b.rounds.high : ℚ) ≤ (b'.rounds.low * 2 ^ d : ℕ) := by exact_mod_cast le
    have ends : (b.rounds.high : ℚ) * b.quarter ≤ b'.rounds.low * b'.quarter := by
      rw [unit]
      gcongr
    have low : q = b'.rounds.low * b'.quarter := le_antisymm (reads.le.2.trans ends) reads'.le.1
    have high : q = b.rounds.high * b.quarter := le_antisymm reads.le.2 (ends.trans reads'.le.1)
    refine odd ?_ ⟨reads.even (.inr high), reads'.even (.inl low)⟩
    rw [high, unit] at low
    exact_mod_cast mul_right_cancel₀ positive.ne' low
  obtain less | same | more := lt_trichotomy b.exponent b'.exponent
  · exact (apart h h' reads reads' (b'.exponent - b.exponent).toNat (by omega) (by omega)).elim
  · obtain less | same' | more := lt_trichotomy b.significand b'.significand
    · exact (apart h h' reads reads' 0 (by omega) fun _ => less).elim
    · cases b
      cases b'
      cases same
      cases same'
      rfl
    · exact (apart h' h reads' reads 0 (by omega) fun _ => more).elim
  · exact (apart h' h reads' reads (b.exponent - b'.exponent).toNat (by omega) (by omega)).elim

/-! ## Grids -/

theorem zpow_mul_toNat (base : ℚ) (nonzero : base ≠ 0) (n : ℤ) :
    base ^ n * base ^ (-n).toNat = base ^ n.toNat := by
  rw [← zpow_natCast, ← zpow_natCast, ← zpow_add₀ nonzero]
  congr 1
  omega

/-- On the scale, a step of the grid and a quarter of the last place are multiples of one unit. -/
theorem exists_unit (b : Binary) (k : ℤ) : ∃ unit : ℚ, 0 < unit ∧
    10 ^ k * unit = (b.scale k).point ∧ b.quarter * unit = (b.scale k).quarter := by
  refine ⟨10 ^ (-k).toNat * 2 ^ (-(b.exponent - 2)).toNat, by positivity, ?_, ?_⟩
  · rw [← mul_assoc, zpow_mul_toNat 10 (by norm_num), scale, Int.neg_sub]
    push_cast [Nat.pow_eq]
    rfl
  · rw [mul_left_comm, quarter, zpow_mul_toNat 2 (by norm_num), scale]
    push_cast [Nat.pow_eq]
    rfl

/-- Whether a point of the grid reads back is told exactly. -/
theorem holds_iff (b : Binary) (k : ℤ) (n : ℕ) :
    b.rounds.holds (b.scale k) n = true ↔ b.ReadsBack (n * 10 ^ k) := by
  obtain ⟨unit, positive, point, quarter⟩ := b.exists_unit k
  have le (m m' : ℕ) (x y : ℚ) (p q : ℕ) (hx : x * unit = p) (hy : y * unit = q) :
      m * p ≤ m' * q ↔ (m : ℚ) * x ≤ m' * y := by
    rw [← mul_le_mul_iff_of_pos_right positive, mul_assoc, mul_assoc, hx, hy]
    exact_mod_cast Iff.rfl
  have lt (m m' : ℕ) (x y : ℚ) (p q : ℕ) (hx : x * unit = p) (hy : y * unit = q) :
      m * p < m' * q ↔ (m : ℚ) * x < m' * y := by
    rw [← not_le, le m' m y x q p hy hx, not_le]
  unfold Rounds.holds ReadsBack
  split
  · rw [Bool.and_eq_true, decide_eq_true_eq, decide_eq_true_eq, le _ _ _ _ _ _ quarter point,
      le _ _ _ _ _ _ point quarter]
  · rw [Bool.and_eq_true, decide_eq_true_eq, decide_eq_true_eq, lt _ _ _ _ _ _ quarter point,
      lt _ _ _ _ _ _ point quarter]

/-- What is found on a grid reads back. -/
theorem readsBack_of_onGrid? {b : Binary} {tie : Tie} {k : ℤ} {n : ℕ}
    (h : b.onGrid? tie k = some n) : b.ReadsBack (n * 10 ^ k) := by
  rw [← holds_iff]
  unfold onGrid? at h
  dsimp only at h
  split at h
  · rename_i below above
    cases h
    split
    · exact above
    · exact below
  · rename_i below _
    cases h
    exact below
  · rename_i _ above
    cases h
    exact above
  · cases h

/-- On a grid finer than a quarter of the last place, the neighbour below the value reads back. -/
theorem onGrid?_isSome {b : Binary} (positive : 0 < b.significand) (tie : Tie) {k : ℤ}
    (fine : (b.scale k).point ≤ (b.scale k).quarter) : (b.onGrid? tie k).isSome := by
  have step : 0 < (b.scale k).point :=
    Nat.mul_pos (Nat.pow_pos (by decide)) (Nat.pow_pos (by decide))
  have low : b.rounds.low + 1 ≤ 4 * b.significand := by
    unfold rounds
    dsimp only
    split <;> omega
  have high : b.rounds.high = 4 * b.significand + 2 := rfl
  have holds : b.rounds.holds (b.scale k)
      (4 * b.significand * (b.scale k).quarter / (b.scale k).point) = true := by
    unfold Rounds.holds
    generalize (b.scale k).point = point at fine step ⊢
    generalize (b.scale k).quarter = quarter at fine ⊢
    have le : _ ≤ 4 * b.significand * quarter := Nat.div_mul_le_self _ point
    have lt : 4 * b.significand * quarter < _ := Nat.lt_div_mul_add step
    generalize 4 * b.significand * quarter / point * point = below at le lt ⊢
    have bound : b.rounds.low * quarter + quarter ≤ 4 * b.significand * quarter := by
      rw [← Nat.succ_mul]
      exact Nat.mul_le_mul_right _ low
    have inside : b.rounds.low * quarter < below ∧ below < b.rounds.high * quarter := by
      rw [high, Nat.add_mul]
      omega
    simp [inside, inside.1.le, inside.2.le]
  unfold onGrid?
  dsimp only
  rw [holds]
  split <;> simp_all

/-! ## The search -/

theorem pow_ten_le_pow_two {k m : ℕ} (h : 10 * k ≤ 3 * m) : 10 ^ k ≤ 2 ^ m := by
  rw [← Nat.pow_le_pow_iff_left (n := 3) (by decide)]
  calc (10 ^ k) ^ 3 = (10 ^ 3) ^ k := by rw [← pow_mul, ← pow_mul, mul_comm]
    _ ≤ (2 ^ 10) ^ k := Nat.pow_le_pow_left (by decide) k
    _ = 2 ^ (10 * k) := (pow_mul 2 10 k).symm
    _ ≤ 2 ^ (3 * m) := Nat.pow_le_pow_right (by decide) h
    _ = (2 ^ m) ^ 3 := by rw [← pow_mul, mul_comm]

theorem pow_two_le_pow_ten {m k : ℕ} (h : 28 * m ≤ 93 * k) : 2 ^ m ≤ 10 ^ k := by
  rw [← Nat.pow_le_pow_iff_left (n := 93) (by decide)]
  calc (2 ^ m) ^ 93 = (2 ^ 93) ^ m := by rw [← pow_mul, ← pow_mul, mul_comm]
    _ ≤ (10 ^ 28) ^ m := Nat.pow_le_pow_left (by decide) m
    _ = 10 ^ (28 * m) := (pow_mul 10 28 m).symm
    _ ≤ 10 ^ (93 * k) := Nat.pow_le_pow_right (by decide) h
    _ = (10 ^ k) ^ 93 := by rw [← pow_mul, mul_comm]

/-- The last grid that is searched is finer than a quarter of the last place. -/
theorem scale_last {b : Binary} (h : b.Canonical) (positive : 0 < b.significand) :
    (b.scale (b.ceiling - 24)).point ≤ (b.scale (b.ceiling - 24)).quarter := by
  have digits : Nat.log2 b.significand < 53 := (Nat.log2_lt positive.ne').mpr h.below
  have least := h.least
  have most := h.most
  simp only [scale, ceiling, Nat.pow_eq]
  generalize Nat.log2 b.significand = log at digits ⊢
  generalize b.exponent = exponent at least most ⊢
  generalize grid : ((log : ℤ) + 1 + exponent) * 30103 / 100000 + 1 - 24 = k
  by_cases coarse : 2 ≤ exponent
  · rw [show (2 - exponent).toNat = 0 by omega, pow_zero, mul_one]
    calc 10 ^ k.toNat ≤ 2 ^ (exponent - 2).toNat := pow_ten_le_pow_two (by omega)
      _ ≤ _ := Nat.le_mul_of_pos_left _ (by positivity)
  · rw [show (exponent - 2).toNat = 0 by omega, show k.toNat = 0 by omega, pow_zero, pow_zero,
      one_mul, mul_one]
    exact pow_two_le_pow_ten (by omega)

end Binary

/-- The value of a decimal. -/
def Decimal.value (d : Decimal) : ℚ :=
  d.coefficient * 10 ^ d.exponent

namespace Binary

/-- The search ends with a decimal that reads back if the last grid has one. -/
theorem search_readsBack {b : Binary} {tie : Tie} (more : ℕ) {k : ℤ}
    (last : (b.onGrid? tie (k - more)).isSome) : b.ReadsBack (b.search tie more k).value := by
  induction more generalizing k with
  | zero =>
    obtain ⟨n, found⟩ := Option.isSome_iff_exists.mp last
    rw [show k - (0 : ℕ) = k by omega] at found
    rw [search, found]
    exact readsBack_of_onGrid? found
  | succ more ih =>
    rw [search]
    split
    · rename_i found
      exact readsBack_of_onGrid? found
    · exact ih (by rwa [show k - 1 - (more : ℤ) = k - (more + 1 : ℕ) by omega])

/-- The shortest decimal reads back. -/
theorem shortest_readsBack {b : Binary} (h : b.Canonical) (tie : Tie) :
    b.ReadsBack (b.shortest tie).value := by
  unfold shortest
  split
  · rename_i zero
    have self := b.readsBack_self
    rw [zero] at self
    simpa [Decimal.value] using self
  · rename_i nonzero
    have positive : 0 < b.significand := Nat.pos_of_ne_zero nonzero
    exact search_readsBack 24 (onGrid?_isSome positive tie (scale_last h positive))

/-- A whole number is the value of the double. -/
theorem natural?_readsBack {b : Binary} {n : ℕ} (h : b.natural? = some n) : b.ReadsBack n := by
  have four : b.quarter * 4 = 2 ^ b.exponent := by
    rw [quarter, show (4 : ℚ) = 2 ^ (2 : ℤ) by norm_num, ← zpow_add₀ (by norm_num)]
    congr 1
    omega
  suffices value : (n : ℚ) = b.significand * 2 ^ b.exponent by
    rw [value, ← four, mul_comm b.quarter, ← mul_assoc, mul_comm _ (4 : ℚ)]
    exact b.readsBack_self
  unfold natural? at h
  split at h
  · rename_i whole
    cases h
    rw [Nat.pow_eq]
    push_cast
    rw [← zpow_natCast, Int.toNat_of_nonneg whole]
  · split at h
    · rename_i negative divides
      cases h
      have power : (2 : ℚ) ^ b.exponent = (2 ^ (-b.exponent).toNat)⁻¹ := by
        rw [← zpow_natCast, ← zpow_neg, Int.toNat_of_nonneg (by omega), neg_neg]
      rw [Nat.pow_eq] at divides ⊢
      rw [Nat.cast_div (Nat.dvd_of_mod_eq_zero divides) (by positivity), power, Nat.cast_pow,
        Nat.cast_ofNat, div_eq_mul_inv]
    · cases h

end Binary

end Lox.Number
