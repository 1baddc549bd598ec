import Mathlib.Algebra.Ring.Int.Defs
import Mathlib.Algebra.Ring.Nat
import Mathlib.Data.List.Basic

/-!
# The C++ the server is written in

Bytes, the `size_t` and `int` conversions the sources rely on, and the ways a
statement can have no defined result. `size_t` counts of bytes that exist in
memory are plain sums; differences and conversions wrap, since that is where
the sources can go wrong.
-/

namespace MudouHttp

abbrev Bytes := List UInt8

/-- The bytes of a string literal of the source, in UTF-8. -/
def bytes (s : String) : Bytes := s.toList.flatMap String.utf8EncodeChar

/-- Where the C++ has no defined result, or a loop of the model runs out of
fuel. -/
inductive Fault
  | outOfBounds
  | emptyContainer
  | danglingIterator
  | nullPointer
  | intOverflow
  | divideByZero
  | diverges
  deriving DecidableEq, Repr

theorem bind_ok {x : Except ε α} {f : α → Except ε β} (h : x >>= f = .ok b) :
    ∃ a, x = .ok a ∧ f a = .ok b := by
  cases x with
  | error e => cases h
  | ok a => exact ⟨a, rfl, h⟩

theorem bind_error {x : Except ε α} {f : α → Except ε β} (h : x >>= f = .error e) :
    x = .error e ∨ ∃ a, x = .ok a ∧ f a = .error e := by
  cases x with
  | error e' =>
    cases h
    exact .inl rfl
  | ok a => exact .inr ⟨a, rfl, h⟩

theorem ok_bind (a : α) (f : α → Except ε β) : (.ok a >>= f) = f a := by
  simp only [bind, Except.bind]

theorem view_ok {x : Except ε α} (view : α → β) (h : x.toOption.map view = some v) :
    ∃ a, x = .ok a ∧ view a = v := by
  cases x with
  | error e => cases h
  | ok a => exact ⟨a, rfl, Option.some.inj h⟩

-- ---------------------------------------------------------------------------
-- size_t and int
-- ---------------------------------------------------------------------------

def sizeSub (a b : Nat) : Nat := if b ≤ a then a - b else a + 2 ^ 64 - b

def toInt (n : Nat) : Int := Int.bmod n (2 ^ 32)

def toSize (i : Int) : Nat := (i % 2 ^ 64).toNat

def intOf (i : Int) : Except Fault Int :=
  if -2 ^ 31 ≤ i ∧ i < 2 ^ 31 then .ok i else .error .intOverflow

def intAdd (a b : Int) : Except Fault Int := intOf (a + b)

def intSub (a b : Int) : Except Fault Int := intOf (a - b)

def intMul (a b : Int) : Except Fault Int := intOf (a * b)

def intNeg (a : Int) : Except Fault Int := intOf (-a)

def intDiv (a b : Int) : Except Fault Int :=
  if b = 0 then .error .divideByZero else intOf (a.tdiv b)

/-- `a % b` in `int`, defined where `a / b` is. -/
def intRem (a b : Int) : Except Fault Int := do
  let _ ← intDiv a b
  pure (a.tmod b)

theorem sizeSub_of_le {a b : Nat} (h : b ≤ a) : sizeSub a b = a - b := if_pos h

/-- An `int` holds what it is given less some turns of 2^32. -/
theorem toInt_spec (n : Nat) :
    -2 ^ 31 ≤ toInt n ∧ toInt n < 2 ^ 31 ∧ ∃ turns : Int, toInt n = n - 2 ^ 32 * turns := by
  have hlow : -(2 ^ 32 / 2 : Int) ≤ toInt n := Int.le_bmod (by decide)
  have hhigh : toInt n < (2 ^ 32 + 1) / 2 := Int.bmod_lt (by decide)
  obtain ⟨turns, hturns⟩ : (2 ^ 32 : Int) ∣ n - toInt n := Int.dvd_self_sub_bmod
  exact ⟨by omega, by omega, turns, by omega⟩

theorem toInt_of_lt {n : Nat} (h : n < 2 ^ 31) : toInt n = n := by
  unfold toInt
  rw [Int.bmod_eq_of_le] <;> omega

theorem toSize_natCast {n : Nat} (h : n < 2 ^ 64) : toSize n = n := by
  unfold toSize
  omega

theorem toSize_toInt {n : Nat} (h : n < 2 ^ 31) : toSize (toInt n) = n := by
  rw [toInt_of_lt h, toSize_natCast (by omega)]

theorem toInt_eq_zero {n : Nat} : toInt n = 0 ↔ 2 ^ 32 ∣ n := by
  obtain ⟨hlow, hhigh, turns, hturns⟩ := toInt_spec n
  omega

/-- The value `int consumed` passes on is zero only when the `int` is. -/
theorem toSize_toInt_pos {n : Nat} (h : toInt n ≠ 0) : 0 < toSize (toInt n) := by
  obtain ⟨hlow, hhigh, -⟩ := toInt_spec n
  unfold toSize
  omega

/-- From 2 GB on an `int` holds a negative number, or loses whole turns. -/
theorem toSize_toInt_large {n : Nat} (h : 2 ^ 31 ≤ n) :
    2 ^ 63 ≤ toSize (toInt n) ∨ ∃ turns, n = toSize (toInt n) + 2 ^ 32 * (turns + 1) := by
  obtain ⟨hlow, hhigh, turns, hturns⟩ := toInt_spec n
  unfold toSize
  rcases Int.lt_or_le (toInt n) 0 with hneg | hnonneg
  · exact .inl (by omega)
  · exact .inr ⟨(turns - 1).toNat, by omega⟩

theorem intOf_ok {i : Int} (h : -2 ^ 31 ≤ i ∧ i < 2 ^ 31) : intOf i = .ok i := if_pos h

theorem intAdd_ok {a b : Int} (ha : 0 ≤ a) (hb : 0 ≤ b) (h : a + b < 2 ^ 31) :
    intAdd a b = .ok (a + b) := if_pos ⟨by omega, h⟩

theorem intDiv_ok {a b : Int} (ha : 0 ≤ a) (hb : 1 ≤ b) (h : a < 2 ^ 31) :
    intDiv a b = .ok (a / b) := by
  have h0 : 0 ≤ a / b := Int.ediv_nonneg ha (by omega)
  have h1 : a / b ≤ a := Int.ediv_le_self b ha
  rw [intDiv, if_neg (by omega), Int.tdiv_eq_ediv_of_nonneg ha]
  exact if_pos ⟨by omega, by omega⟩

/-- Division of what is not positive cuts towards zero. -/
theorem intDiv_neg_ok {a b : Int} (ha : 0 ≤ a) (hb : 1 ≤ b) (h : a < 2 ^ 31) :
    intDiv (-a) b = .ok (-(a / b)) := by
  have h0 : 0 ≤ a / b := Int.ediv_nonneg ha (by omega)
  have h1 : a / b ≤ a := Int.ediv_le_self b ha
  rw [intDiv, if_neg (by omega), Int.neg_tdiv, Int.tdiv_eq_ediv_of_nonneg ha]
  exact intOf_ok ⟨by omega, by omega⟩

theorem intRem_ok {a b : Int} (ha : 0 ≤ a) (hb : 1 ≤ b) (h : a < 2 ^ 31) :
    intRem a b = .ok (a % b) := by
  rw [intRem, intDiv_ok ha hb h, ← Int.tmod_eq_emod_of_nonneg ha]
  rfl

end MudouHttp
