import Mathlib.Logic.Function.Basic
import MudouHttp.Cxx.Machine

/-!
# Strings, character classes and string maps

The parts of the C and C++ libraries that the HTTP code uses on bytes, in the
C locale.
-/

namespace MudouHttp

open Function (update)

def chr (c : Char) : UInt8 := c.toNat.toUInt8

def crlf : Bytes := [13, 10]

def isspace (c : UInt8) : Bool := c = 32 || (9 ≤ c && c ≤ 13)

def tolower (c : UInt8) : UInt8 := if chr 'A' ≤ c && c ≤ chr 'Z' then c + 32 else c

def hexValue (c : UInt8) : Option Nat :=
  if chr '0' ≤ c && c ≤ chr '9' then some (c - chr '0').toNat
  else if chr 'a' ≤ c && c ≤ chr 'f' then some ((c - chr 'a').toNat + 10)
  else if chr 'A' ≤ c && c ≤ chr 'F' then some ((c - chr 'A').toNat + 10)
  else none

/-- The string a `const char *` to these bytes is. -/
def cstr (s : Bytes) : Bytes := s.takeWhile (· ≠ 0)

/-- `s.find(sub) != npos`. -/
def contains (s sub : Bytes) : Bool := s.tails.any (sub.isPrefixOf ·)

def find (s : Bytes) (c : UInt8) (pos : Nat) : Option Nat :=
  ((s.drop pos).findIdx? (· = c)).map (· + pos)

def findLastOf (s : Bytes) (c : UInt8) : Option Nat :=
  (s.reverse.findIdx? (· = c)).map fun fromEnd => s.length - 1 - fromEnd

def substr (s : Bytes) (pos n : Nat) : Bytes := (s.drop pos).take n

-- ---------------------------------------------------------------------------
-- Local arrays
-- ---------------------------------------------------------------------------

/-- A local array of characters and the text that is written to it. -/
structure ArrayText where
  size : Nat
  text : Bytes

def ArrayText.Fits (t : ArrayText) : Prop := t.text.length + 1 ≤ t.size

instance (t : ArrayText) : Decidable t.Fits := inferInstanceAs (Decidable (_ ≤ _))

-- ---------------------------------------------------------------------------
-- Decimal numbers
-- ---------------------------------------------------------------------------

theorem digit_code {d : Char} (h : d.isDigit = true) :
    String.utf8EncodeChar d = [d.val.toUInt8] ∧ 48 ≤ d.val.toUInt8 ∧ d.val.toUInt8 ≤ 57 := by
  have hd : 48 ≤ d.val ∧ d.val ≤ 57 := by simpa [Char.isDigit] using h
  rw [UInt32.le_iff_toNat_le, UInt32.le_iff_toNat_le] at hd
  have hsize : d.utf8Size = 1 := by
    rw [Char.utf8Size_eq_one_iff, UInt32.le_iff_toNat_le]
    exact Nat.le_trans hd.2 (by decide)
  have hcode : d.val.toUInt8.toNat = d.val.toNat := by
    rw [UInt32.toNat_toUInt8]
    exact Nat.mod_eq_of_lt (Nat.lt_of_le_of_lt hd.2 (by decide))
  rw [UInt8.le_iff_toNat_le, UInt8.le_iff_toNat_le, hcode]
  exact ⟨String.utf8EncodeChar_eq_singleton hsize, hd⟩

theorem decimal_digits (n : Nat) : ∀ c ∈ bytes (toString n), 48 ≤ c ∧ c ≤ 57 := by
  intro c hc
  obtain ⟨d, hd, hc⟩ := List.mem_flatMap.mp hc
  have hd : d ∈ Nat.toDigits 10 n := Nat.toList_repr ▸ hd
  obtain ⟨hcode, hrange⟩ := digit_code (Nat.isDigit_of_mem_toDigits (by decide) (by decide) hd)
  rw [hcode, List.mem_singleton] at hc
  exact hc ▸ hrange

theorem decimal_ne_nil (n : Nat) : bytes (toString n) ≠ [] := by
  intro h
  obtain ⟨d, ds, hds⟩ := List.exists_cons_of_ne_nil (Nat.toDigits_ne_nil (n := n) (b := 10))
  have hd : d ∈ Nat.toDigits 10 n := by
    rw [hds]
    exact List.mem_cons_self
  obtain ⟨hcode, -⟩ := digit_code (Nat.isDigit_of_mem_toDigits (by decide) (by decide) hd)
  rw [← Nat.toList_repr] at hd
  cases hcode.symm.trans (List.flatMap_eq_nil_iff.mp h d hd)

def readNat (digits : Bytes) : Nat := Nat.ofDigitChars 10 (digits.map fun c => Char.ofNat c.toNat) 0

theorem readNat_decimal (n : Nat) : readNat (bytes (toString n)) = n := by
  have hchars : ∀ ds : List Char, (∀ d ∈ ds, d.isDigit = true) →
      (ds.flatMap String.utf8EncodeChar).map (fun c => Char.ofNat c.toNat) = ds := by
    intro ds hds
    induction ds with
    | nil => rfl
    | cons d ds ih =>
      obtain ⟨hd, hds⟩ := List.forall_mem_cons.mp hds
      have hcode : Char.ofNat d.val.toUInt8.toNat = d := by
        have hrange : d.val.toNat ≤ 57 := by
          have hd' : 48 ≤ d.val ∧ d.val ≤ 57 := by simpa [Char.isDigit] using hd
          exact UInt32.le_iff_toNat_le.mp hd'.2
        rw [UInt32.toNat_toUInt8, Nat.mod_eq_of_lt (by omega)]
        exact Char.ofNat_toNat d
      rw [List.flatMap_cons, (digit_code hd).1, List.map_append, ih hds]
      exact congrArg (· :: ds) hcode
  have hdigits : ∀ d ∈ Nat.toDigits 10 n, d.isDigit = true :=
    fun d hd => Nat.isDigit_of_mem_toDigits (by decide) (by decide) hd
  have hlist : (toString n).toList = Nat.toDigits 10 n := Nat.toList_repr
  rw [readNat, bytes, hlist, hchars _ hdigits, Nat.ofDigitChars_ten_toDigits]

theorem bytes_append (s t : String) : bytes (s ++ t) = bytes s ++ bytes t := by
  rw [bytes, String.toList_append, List.flatMap_append]
  rfl

def NumberChar (c : UInt8) : Prop := (48 ≤ c ∧ c ≤ 57) ∨ c = chr '-'

theorem number_chars (i : Int) : ∀ c ∈ bytes (toString i), NumberChar c := by
  rw [Int.toString_eq_repr, Int.repr_eq_if]
  split
  · exact fun c hc => .inl (decimal_digits _ c hc)
  · intro c hc
    rw [bytes_append] at hc
    rcases List.mem_append.mp hc with hsign | hdigit
    · exact .inr (List.mem_singleton.mp hsign)
    · exact .inl (decimal_digits _ c hdigit)

theorem number_ne_nil (i : Int) : bytes (toString i) ≠ [] := by
  rw [Int.toString_eq_repr, Int.repr_eq_if]
  split
  · exact decimal_ne_nil _
  · rw [bytes_append]
    exact List.append_ne_nil_of_left_ne_nil (by decide) _

-- ---------------------------------------------------------------------------
-- sscanf with %x
-- ---------------------------------------------------------------------------

def scanDigits (s : Bytes) : Option Nat :=
  match s.takeWhile fun c => (hexValue c).isSome with
  | [] => none
  | ds => some (ds.foldl (fun n c => n * 16 + (hexValue c).getD 0) 0)

/-- An optional `0x`, which must be followed by a digit. -/
def scanPrefixed (s : Bytes) : Option Nat :=
  match s with
  | a :: x :: rest =>
    if a = chr '0' ∧ (x = chr 'x' ∨ x = chr 'X') then scanDigits rest else scanDigits s
  | _ => scanDigits s

/-- `sscanf(s, "%x", &hex) == 1`, and what `hex` is then: white space, a sign,
`0x`, digits. The program scans at most two characters, so that no value is
out of range. -/
def scanHex (s : Bytes) : Option Nat :=
  match (cstr s).dropWhile isspace with
  | c :: rest =>
    if c = chr '-' then (scanPrefixed rest).map fun n => (2 ^ 32 - n) % 2 ^ 32
    else if c = chr '+' then scanPrefixed rest
    else scanPrefixed (c :: rest)
  | [] => none

-- ---------------------------------------------------------------------------
-- unordered_map<string, string>
-- ---------------------------------------------------------------------------

abbrev StrMap := Bytes → Option Bytes

/-- `operator[]` used for its value: an absent key is inserted with `""`. -/
def touch (m : StrMap) (key : Bytes) : StrMap :=
  if (m key).isSome then m else update m key (some [])

def lookup (m : StrMap) (key : Bytes) : Bytes := (m key).getD []

end MudouHttp
