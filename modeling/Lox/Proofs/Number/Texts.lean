import Lox.Number.Text
import Lox.Proofs.Number.Rounding

/-!
# Numbers and their texts

A finite double is known by its sign and its size (`Reading.bits_eq`). Its text in a syntax tree is
a decimal that reads back as this size (`exists_treeText`). So different finite doubles have
different texts (`treeText_injective`).
-/

namespace Lox.Number

/-! ## Bits -/

/-- The bits of a finite double, from its sign and its size. -/
theorem Reading.bits_eq {bits : ℕ} {negative : Bool} {b : Binary} (bound : bits < 2 ^ 64)
    (h : Reading.ofBits bits = .finite negative b) :
    b.Canonical ∧ bits = (if negative then 2 ^ 63 else 0) + b.significand % 2 ^ 52 +
      if b.significand < 2 ^ 52 then 0 else (b.exponent + 1075).toNat * 2 ^ 52 := by
  unfold ofBits at h
  simp only [Nat.pow_eq, Nat.testBit_eq_decide_div_mod_eq] at h
  have sign : (if decide (bits / 2 ^ 63 % 2 = 1) = true then 2 ^ 63 else 0) =
      bits / 2 ^ 63 * 2 ^ 63 := by
    simp only [decide_eq_true_eq]
    split <;> omega
  split at h
  · split at h <;> cases h
  · split at h <;> cases h
    · refine ⟨⟨?_, ?_, ?_, ?_⟩, ?_⟩ <;> dsimp only
      · omega
      · omega
      · omega
      · exact .inr rfl
      · rw [sign, if_pos (by omega)]
        omega
    · refine ⟨⟨?_, ?_, ?_, ?_⟩, ?_⟩ <;> dsimp only
      · omega
      · omega
      · omega
      · exact .inl (Nat.le_add_right _ _)
      · rw [sign, if_neg (by omega)]
        omega

theorem Reading.canonical {x : Float} {negative : Bool} {b : Binary}
    (h : Reading.ofFloat x = .finite negative b) : b.Canonical :=
  (bits_eq x.toBits.toNat_lt h).1

/-- Finite doubles of the same sign and size are the same. -/
theorem Reading.float_eq {x y : Float} {negative : Bool} {b : Binary}
    (h : Reading.ofFloat x = .finite negative b) (h' : Reading.ofFloat y = .finite negative b) :
    x = y := by
  refine Float.toBits_inj.mp (UInt64.toNat_inj.mp ?_)
  rw [(bits_eq x.toBits.toNat_lt h).2, (bits_eq y.toBits.toNat_lt h').2]

/-- The exponent field of a double that is not finite has no zeros. -/
theorem Reading.exists_finite {x : Float} (h : x.isFinite = true) :
    ∃ negative b, Reading.ofFloat x = .finite negative b := by
  let bits : BitVec Float.Model.Format.binary64.numBits := x.toBits.toBitVec
  have exponent : (Float.Model.UnpackedFloat.unpackExponent bits).toNat =
      x.toBits.toNat / 2 ^ 52 % 2 ^ 11 := by
    rw [Float.Model.UnpackedFloat.unpackExponent_def, BitVec.extractLsb'_toNat,
      Nat.shiftRight_eq_div_pow]
    rfl
  have notOnes : ¬ x.toBits.toNat / 2 ^ 52 % 2 ^ 11 = 2047 := by
    intro special
    have ones : Float.Model.UnpackedFloat.unpackExponent bits = -BitVec.ofNat 11 1 :=
      BitVec.eq_of_toNat_eq (exponent.trans special)
    have unpacked : (Float.Model.UnpackedFloat.unpack _ bits).isFinite = true := h
    unfold Float.Model.UnpackedFloat.unpack at unpacked
    simp only [ones, if_true] at unpacked
    split at unpacked <;> cases unpacked
  unfold ofFloat ofBits
  simp only [Nat.pow_eq, if_neg notOnes]
  split
  · exact ⟨_, _, rfl⟩
  · exact ⟨_, _, rfl⟩

/-! ## Digits -/

/-- The number that digits say, with a point among them or without. -/
def valueOf (cs : List Char) : ℚ :=
  Nat.ofDigitChars 10 (cs.filter (· ≠ '.')) 0 / 10 ^ ((cs.dropWhile (· ≠ '.')).length - 1)

theorem ne_point {ds : List Char} (areDigits : ∀ d ∈ ds, d.isDigit) :
    ∀ d ∈ ds, decide (d ≠ '.') = true := by
  intro d inside
  refine decide_eq_true fun e => ?_
  exact absurd (areDigits d inside) (e ▸ by decide)

theorem valueOf_whole {ds : List Char} (areDigits : ∀ d ∈ ds, d.isDigit) :
    valueOf ds = Nat.ofDigitChars 10 ds 0 := by
  rw [valueOf, List.filter_eq_self.mpr (ne_point areDigits),
    List.dropWhile_eq_nil_iff.mpr (ne_point areDigits)]
  simp

theorem valueOf_point {whole fraction : List Char} (areDigits : ∀ d ∈ whole, d.isDigit)
    (areDigits' : ∀ d ∈ fraction, d.isDigit) :
    valueOf (whole ++ '.' :: fraction) =
      Nat.ofDigitChars 10 (whole ++ fraction) 0 / 10 ^ fraction.length := by
  rw [valueOf, List.filter_append, List.filter_cons_of_neg (by decide),
    List.filter_eq_self.mpr (ne_point areDigits), List.filter_eq_self.mpr (ne_point areDigits'),
    List.dropWhile_append_of_pos (ne_point areDigits), List.dropWhile_cons_of_neg (by decide)]
  rfl

theorem isDigit_digits (n : ℕ) : ∀ d ∈ digits n, d.isDigit := fun _ inside =>
  Nat.isDigit_of_mem_toDigits (by decide) (by decide) inside

theorem ofDigitChars_digits (n : ℕ) : Nat.ofDigitChars 10 (digits n) 0 = n :=
  Nat.ofDigitChars_toDigits (by decide) (by decide)

theorem isDigit_replicate (places : ℕ) : ∀ d ∈ List.replicate places '0', d.isDigit := by
  intro d inside
  rw [List.eq_of_mem_replicate inside]
  rfl

/-- The text of a decimal says what the decimal is. -/
theorem valueOf_positional (d : Decimal) : valueOf d.positional = d.value := by
  have areDigits := isDigit_digits d.coefficient
  have number := ofDigitChars_digits d.coefficient
  have scaled (places : ℕ) (e : d.exponent = -(places : ℤ)) :
      (d.coefficient : ℚ) / 10 ^ places = d.coefficient * 10 ^ d.exponent := by
    rw [e, zpow_neg, zpow_natCast, div_eq_mul_inv]
  unfold Decimal.positional Decimal.value
  dsimp only
  split_ifs with whole few
  · rw [valueOf_whole (List.forall_mem_append.mpr ⟨areDigits, isDigit_replicate _⟩),
      Nat.ofDigitChars_append, Nat.ofDigitChars_replicate_zero, number, Nat.cast_mul, Nat.cast_pow,
      mul_comm, ← zpow_natCast, Int.toNat_of_nonneg whole]
    rfl
  · generalize before : (digits d.coefficient).length - (-d.exponent).toNat = n
    have length : ((digits d.coefficient).drop n).length = (-d.exponent).toNat := by
      rw [List.length_drop]
      omega
    rw [valueOf_point (fun c inside => areDigits c (List.mem_of_mem_take inside))
      (fun c inside => areDigits c (List.mem_of_mem_drop inside)), List.take_append_drop, number,
      length, scaled _ (by omega)]
  · generalize zeros : List.replicate ((-d.exponent).toNat - (digits d.coefficient).length) '0' = zs
    have zeros' : ∀ c ∈ zs, c.isDigit := zeros ▸ isDigit_replicate _
    have length : (zs ++ digits d.coefficient).length = (-d.exponent).toNat := by
      rw [← zeros, List.length_append, List.length_replicate]
      omega
    have leading : Nat.ofDigitChars 10 zs 0 = 0 := by
      rw [← zeros, Nat.ofDigitChars_replicate_zero, Nat.mul_zero]
    rw [← List.singleton_append, valueOf_point (by simp [Char.isDigit])
      (List.forall_mem_append.mpr ⟨zeros', areDigits⟩), Nat.ofDigitChars_append,
      Nat.ofDigitChars_append, length, show Nat.ofDigitChars 10 ['0'] 0 = 0 from rfl, leading,
      number, scaled _ (by omega)]

/-- A text that begins with a digit and has only digits and points. -/
structure Numeral (cs : List Char) : Prop where
  starts : ∃ d ds, cs = d :: ds ∧ d.isDigit
  digits : ∀ c ∈ cs, c.isDigit ∨ c = '.'

theorem numeral_append {ds more : List Char} (nonempty : ds ≠ []) (areDigits : ∀ d ∈ ds, d.isDigit)
    (h : ∀ c ∈ more, c.isDigit ∨ c = '.') : Numeral (ds ++ more) := by
  obtain ⟨d, ds, rfl⟩ := List.exists_cons_of_ne_nil nonempty
  refine ⟨⟨d, ds ++ more, rfl, areDigits d List.mem_cons_self⟩, ?_⟩
  exact List.forall_mem_append.mpr ⟨fun c inside => .inl (areDigits c inside), h⟩

theorem numeral_positional (d : Decimal) : Numeral d.positional := by
  have areDigits := isDigit_digits d.coefficient
  have orPoint {ds : List Char} (h : ∀ c ∈ ds, c.isDigit) : ∀ c ∈ ds, c.isDigit ∨ c = '.' :=
    fun c inside => .inl (h c inside)
  unfold Decimal.positional
  dsimp only
  split_ifs with whole few
  · exact numeral_append Nat.toDigits_ne_nil areDigits (orPoint (isDigit_replicate _))
  · refine numeral_append (fun none => ?_)
      (fun c inside => areDigits c (List.mem_of_mem_take inside))
      (List.forall_mem_cons.mpr ⟨.inr rfl, orPoint fun c inside =>
        areDigits c (List.mem_of_mem_drop inside)⟩)
    have := congrArg List.length none
    rw [List.length_take, List.length_nil] at this
    omega
  · rw [← List.singleton_append]
    exact numeral_append (List.cons_ne_nil _ _) (by simp [Char.isDigit])
      (List.forall_mem_cons.mpr ⟨.inr rfl, orPoint
        (List.forall_mem_append.mpr ⟨isDigit_replicate _, areDigits⟩)⟩)

/-! ## Texts in syntax trees -/

/-- The text of a finite number is a decimal that reads back as the number, with its sign. -/
theorem exists_treeText {x : Float} {negative : Bool} {b : Binary}
    (h : Reading.ofFloat x = .finite negative b) :
    ∃ cs, treeText x = signed negative cs ∧ Numeral cs ∧ b.ReadsBack (valueOf cs) := by
  rw [treeText, textBy, h]
  dsimp only
  cases whole : b.natural? with
  | none =>
    refine ⟨(b.shortest .up).positional, rfl, numeral_positional _, ?_⟩
    rw [valueOf_positional]
    exact Binary.shortest_readsBack (Reading.canonical h) .up
  | some n =>
    have areDigits := isDigit_digits n
    refine ⟨digits n ++ ['.', '0'], rfl, numeral_append Nat.toDigits_ne_nil areDigits (by simp), ?_⟩
    have value : valueOf (digits n ++ ['.', '0']) = n := by
      rw [valueOf_point areDigits (by simp [Char.isDigit]), Nat.ofDigitChars_append,
        ofDigitChars_digits, Nat.ofDigitChars_cons, Nat.ofDigitChars_nil]
      norm_num
    rw [value]
    exact Binary.natural?_readsBack whole

theorem toList_signed (negative : Bool) (cs : List Char) :
    (signed negative cs).toList = if negative then '-' :: cs else cs :=
  String.toList_ofList

/-- The text of a finite number begins with a digit or a sign, and consists of digits, points and
signs. -/
theorem exists_toList_treeText {x : Float} (finite : x.isFinite) :
    ∃ c cs, (treeText x).toList = c :: cs ∧ (c.isDigit ∨ c = '-') ∧
      ∀ d ∈ c :: cs, d.isDigit ∨ d = '.' ∨ d = '-' := by
  obtain ⟨negative, b, reading⟩ := Reading.exists_finite finite
  obtain ⟨cs, text, ⟨⟨d, ds, rfl, isDigit⟩, areDigits⟩, -⟩ := exists_treeText reading
  have areDigits' : ∀ c ∈ d :: ds, c.isDigit ∨ c = '.' ∨ c = '-' := fun c inside =>
    (areDigits c inside).imp_right .inl
  rw [text, toList_signed]
  cases negative with
  | false => exact ⟨d, ds, rfl, .inl isDigit, areDigits'⟩
  | true =>
    exact ⟨'-', d :: ds, rfl, .inr rfl, List.forall_mem_cons.mpr ⟨.inr (.inr rfl), areDigits'⟩⟩

/-- Different finite numbers have different texts. -/
theorem treeText_injective {x y : Float} (finite : x.isFinite) (finite' : y.isFinite)
    (same : treeText x = treeText y) : x = y := by
  obtain ⟨negative, b, reading⟩ := Reading.exists_finite finite
  obtain ⟨negative', b', reading'⟩ := Reading.exists_finite finite'
  obtain ⟨cs, text, numeral, reads⟩ := exists_treeText reading
  obtain ⟨cs', text', numeral', reads'⟩ := exists_treeText reading'
  have sign {ds : List Char} (h : Numeral ('-' :: ds)) : False := by
    obtain ⟨d, ds, e, isDigit⟩ := h.starts
    cases e
    exact absurd isDigit (by decide)
  have lists := congrArg String.toList (text.symm.trans (same.trans text'))
  rw [toList_signed, toList_signed] at lists
  obtain ⟨rfl, rfl⟩ : negative = negative' ∧ cs = cs' := by
    cases negative <;> cases negative' <;>
      simp only [if_true, Bool.false_eq_true, if_false] at lists
    · exact ⟨rfl, lists⟩
    · exact (sign (lists ▸ numeral)).elim
    · exact (sign (lists ▸ numeral')).elim
    · exact ⟨rfl, List.tail_eq_of_cons_eq lists⟩
  obtain rfl :=
    Binary.eq_of_readsBack (Reading.canonical reading) (Reading.canonical reading') reads reads'
  exact Reading.float_eq reading reading'

end Lox.Number
