/-!
# Decimal numerals

Integers are written with the digits `0` to `9`, most significant first, without leading zeros, and
with a leading `-` if they are negative (`decimal_natCast`, `decimal_negSucc`). Reading takes any
digits, leading zeros included, and no sign: in an expression a `-` is an operator. Reading back the
numeral of a natural number gives the number (`ofDigits_decimal`).

A long numeral is written in two halves, the quotient and the remainder by a power of ten, and each
of them likewise, so that few of the divisions are of large numbers (`Text.leadingOnto`). What is
written is the numeral all the same (`digits_eq_toDigits`).
-/

namespace Reckon.Text

/-- The power of ten that separates the halves of a numeral which can be halved `k + 1` times. -/
def modulus : Nat → Nat
  | 0 => 10
  | k + 1 => modulus k * modulus k

/-- Writes the last digits of a number, as many as there are below `modulus k`, in front of
`rest`. -/
def trailingOnto : Nat → Nat → List Char → List Char
  | 0, n, rest => Nat.digitChar (n % 10) :: rest
  | k + 1, n, rest => trailingOnto k (n / modulus k) (trailingOnto k (n % modulus k) rest)

/-- Writes a number below `modulus k` without leading zeros, in front of `rest`. -/
def leadingOnto : Nat → Nat → List Char → List Char
  | 0, n, rest => Nat.digitChar n :: rest
  | k + 1, n, rest =>
    if n < modulus k then leadingOnto k n rest
    else leadingOnto k (n / modulus k) (trailingOnto k (n % modulus k) rest)

/-- The decimal numeral of a natural number. -/
def digits (n : Nat) : List Char :=
  leadingOnto (Nat.log2 (Nat.log2 n + 1) + 1) n []

/-- The decimal numeral of an integer. -/
def decimal : Int → List Char
  | .ofNat n => digits n
  | .negSucc n => '-' :: digits (n + 1)

/-- The number that a list of decimal digits stands for. -/
def ofDigits (digits : List Char) : Nat :=
  Nat.ofDigitChars 10 digits 0

/-! ### The last digits of a number -/

/-- The last `m` digits of a number, with leading zeros if it has fewer. -/
def lastDigits : Nat → Nat → List Char
  | 0, _ => []
  | m + 1, n => lastDigits m (n / 10) ++ [Nat.digitChar (n % 10)]

/-- The least number of more than `m` digits. -/
def tenPower : Nat → Nat
  | 0 => 1
  | m + 1 => 10 * tenPower m

theorem tenPower_add (l m : Nat) : tenPower (l + m) = tenPower l * tenPower m := by
  induction l with
  | zero => simp [tenPower]
  | succ l ih => rw [Nat.succ_add, tenPower, ih, tenPower, Nat.mul_assoc]

theorem lastDigits_add (l m n : Nat) :
    lastDigits (l + m) n = lastDigits l (n / tenPower m) ++ lastDigits m n := by
  induction m generalizing n with
  | zero => simp [lastDigits, tenPower]
  | succ m ih =>
    rw [← Nat.add_assoc, lastDigits, ih, lastDigits, Nat.div_div_eq_div_mul, tenPower,
      List.append_assoc]

theorem lastDigits_mod (m n : Nat) : lastDigits m (n % tenPower m) = lastDigits m n := by
  induction m generalizing n with
  | zero => rfl
  | succ m ih =>
    rw [lastDigits, lastDigits, tenPower, Nat.mod_mul_right_div_self, Nat.mod_mul_right_mod, ih]

theorem toDigits_eq_append {m n : Nat} (h : tenPower m ≤ n) (hn : 0 < n / tenPower m) :
    Nat.toDigits 10 n = Nat.toDigits 10 (n / tenPower m) ++ lastDigits m n := by
  induction m generalizing n with
  | zero => simp [lastDigits, tenPower]
  | succ m ih =>
    rw [tenPower] at h hn ⊢
    rw [← Nat.div_div_eq_div_mul] at hn ⊢
    have hdiv : tenPower m ≤ n / 10 := by
      rw [Nat.le_div_iff_mul_le (by decide), Nat.mul_comm]
      exact h
    have hten : 10 ≤ n := by
      have : n / 10 ≠ 0 := by
        intro hz
        rw [hz, Nat.zero_div] at hn
        omega
      omega
    rw [Nat.toDigits_of_base_le (by decide) hten, ih hdiv hn, lastDigits, List.append_assoc]

/-! ### What is written -/

/-- The number of digits below `modulus k`. -/
def modulusWidth : Nat → Nat
  | 0 => 1
  | k + 1 => modulusWidth k + modulusWidth k

theorem modulus_eq_tenPower (k : Nat) : modulus k = tenPower (modulusWidth k) := by
  induction k with
  | zero => rfl
  | succ k ih => rw [modulus, modulusWidth, tenPower_add, ih]

theorem modulus_pos (k : Nat) : 0 < modulus k := by
  induction k with
  | zero => decide
  | succ k ih => exact Nat.mul_pos ih ih

theorem lt_modulus (n : Nat) : n < modulus (Nat.log2 (Nat.log2 n + 1) + 1) := by
  have h : ∀ k, 2 ^ 2 ^ k ≤ modulus k := by
    intro k
    induction k with
    | zero => decide
    | succ k ih =>
      rw [Nat.pow_succ, Nat.mul_two, Nat.pow_add]
      exact Nat.mul_le_mul ih ih
  calc n < 2 ^ (Nat.log2 n + 1) := Nat.lt_log2_self
    _ ≤ 2 ^ 2 ^ (Nat.log2 (Nat.log2 n + 1) + 1) :=
      Nat.pow_le_pow_right (by decide) (Nat.le_of_lt Nat.lt_log2_self)
    _ ≤ modulus (Nat.log2 (Nat.log2 n + 1) + 1) := h _

theorem trailingOnto_eq_append (k n : Nat) (rest : List Char) :
    trailingOnto k n rest = lastDigits (modulusWidth k) n ++ rest := by
  induction k generalizing n rest with
  | zero => rfl
  | succ k ih =>
    rw [trailingOnto, ih, ih, modulus_eq_tenPower, lastDigits_mod, modulusWidth, lastDigits_add,
      List.append_assoc]

theorem leadingOnto_eq_append {k n : Nat} (h : n < modulus k) (rest : List Char) :
    leadingOnto k n rest = Nat.toDigits 10 n ++ rest := by
  induction k generalizing n rest with
  | zero =>
    have h : n < 10 := h
    rw [leadingOnto, Nat.toDigits_of_lt_base h]
    rfl
  | succ k ih =>
    rw [leadingOnto]
    split
    · rename_i hlt
      exact ih hlt rest
    · rename_i hge
      have hle : modulus k ≤ n := Nat.not_lt.mp hge
      have hpos : 0 < n / modulus k := Nat.div_pos hle (modulus_pos k)
      rw [ih (Nat.div_lt_of_lt_mul h), trailingOnto_eq_append]
      rw [modulus_eq_tenPower] at hle hpos ⊢
      rw [lastDigits_mod, toDigits_eq_append hle hpos, List.append_assoc]

/-- The numeral has the digits of the number in base ten. -/
theorem digits_eq_toDigits (n : Nat) : digits n = Nat.toDigits 10 n := by
  rw [digits, leadingOnto_eq_append (lt_modulus n), List.append_nil]

/-- A natural number is written without a sign. -/
theorem decimal_natCast (n : Nat) : decimal n = Nat.toDigits 10 n :=
  digits_eq_toDigits n

/-- A negative integer is written with a sign. -/
theorem decimal_negSucc (n : Nat) : decimal (.negSucc n) = '-' :: Nat.toDigits 10 (n + 1) := by
  rw [decimal, digits_eq_toDigits]

/-! ### Reading back -/

@[simp]
theorem ofDigits_decimal (n : Nat) : ofDigits (decimal n) = n := by
  rw [decimal_natCast, ofDigits, Nat.ofDigitChars_ten_toDigits]

theorem isDigit_of_mem_decimal {n : Nat} {c : Char} (h : c ∈ decimal n) : c.isDigit = true := by
  rw [decimal_natCast] at h
  exact Nat.isDigit_of_mem_toDigits (by decide) (by decide) h

theorem decimal_ne_nil (n : Int) : decimal n ≠ [] := by
  cases n with
  | ofNat n =>
    rw [decimal, digits_eq_toDigits]
    exact Nat.toDigits_ne_nil
  | negSucc n => simp [decimal]

end Reckon.Text
