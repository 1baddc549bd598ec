import MudouHttp.Cxx.Streams
import MudouHttp.Http.Request
import MudouHttp.Http.Response

/-!
# Percent encoding and decoding

What `UrlEncode` writes `urlDecode` reads back (`urlDecode_urlEncode`). On other
texts `urlDecode` takes for an escape whatever `sscanf` reads a number from, so
it is the decoder of forms only where no `%` stands before such a pair that is
not two digits (`urlDecode_forms_iff`).
-/

namespace MudouHttp

-- ---------------------------------------------------------------------------
-- UrlEncode
-- ---------------------------------------------------------------------------

/-- The body of the loop of `UrlEncode`. -/
def encodeChar (ss : OStream) (c : UInt8) : OStream :=
  if unreserved c then ss.put [c]
  else (((ss.put (bytes "%")).setw 2).setUppercase).putUInt c.toNat

def urlEncodeStream (s : Bytes) : Bytes :=
  (s.foldl encodeChar (OStream.new.setHex.setfill (chr '0'))).text

/-- Between two items: nothing is filled up, and numbers are hexadecimal. -/
structure OStream.Ready (ss : OStream) : Prop where
  width : ss.width = 0
  fill : ss.fill = chr '0'
  hex : ss.hex = true

theorem toDigits_byte : ∀ n : Fin 256,
    let item := (Nat.toDigits 16 n).map fun c => chr c.toUpper
    List.replicate (2 - item.length) (chr '0') ++ item =
      [hexDigit (UInt8.ofNat n / 16), hexDigit (UInt8.ofNat n % 16)] := by
  decide +kernel

theorem encodeChar_ok (h : OStream.Ready ss) (c : UInt8) :
    (encodeChar ss c).Ready ∧ (encodeChar ss c).text = ss.text ++ urlEncode [c] := by
  unfold encodeChar urlEncode
  split
  · rename_i hc
    refine ⟨⟨rfl, h.fill, h.hex⟩, ?_⟩
    simp [OStream.put, h.width, hc]
  · rename_i hc
    have hdigits := toDigits_byte ⟨c.toNat, c.toNat_lt⟩
    simp only [UInt8.ofNat_toNat] at hdigits
    refine ⟨⟨rfl, h.fill, h.hex⟩, ?_⟩
    simp only [OStream.putUInt, OStream.put, OStream.number, OStream.setUppercase, OStream.setw,
      h.width, h.fill, h.hex, List.flatMap_cons, List.flatMap_nil, hc]
    simp only [if_true, Bool.false_eq_true, if_false, Nat.zero_sub, List.replicate_zero,
      List.append_nil, List.append_assoc, hdigits]
    rfl

theorem encode_run (s : Bytes) (h : OStream.Ready ss) :
    (s.foldl encodeChar ss).text = ss.text ++ urlEncode s := by
  induction s generalizing ss with
  | nil => exact (List.append_nil _).symm
  | cons c s ih =>
    obtain ⟨hready, htext⟩ := encodeChar_ok h c
    have hsplit : urlEncode ([c] ++ s) = urlEncode [c] ++ urlEncode s := List.flatMap_append
    rw [List.foldl_cons, ih hready, htext, List.append_assoc, ← hsplit]
    rfl

/-- The manipulators of `UrlEncode` give two digits for every byte. -/
theorem urlEncodeStream_eq (s : Bytes) : urlEncodeStream s = urlEncode s :=
  encode_run s ⟨rfl, rfl, rfl⟩

def UpperHex (c : UInt8) : Prop := (chr '0' ≤ c ∧ c ≤ chr '9') ∨ (chr 'A' ≤ c ∧ c ≤ chr 'F')

inductive Encoded : Bytes → Prop
  | nil : Encoded []
  | plain : unreserved c = true → Encoded s → Encoded (c :: s)
  | escape : UpperHex a → UpperHex b → Encoded s → Encoded (chr '%' :: a :: b :: s)

theorem hexDigit_upper : ∀ n : Fin 256,
    UpperHex (hexDigit (UInt8.ofNat n / 16)) ∧ UpperHex (hexDigit (UInt8.ofNat n % 16)) := by
  unfold UpperHex
  decide +kernel

theorem urlEncode_cons (c : UInt8) (s : Bytes) :
    urlEncode (c :: s) =
      (if unreserved c then [c] else [chr '%', hexDigit (c / 16), hexDigit (c % 16)]) ++
        urlEncode s := List.flatMap_cons

theorem urlEncode_encoded (s : Bytes) : Encoded (urlEncode s) := by
  induction s with
  | nil => exact .nil
  | cons c s ih =>
    rw [urlEncode_cons]
    split
    · rename_i hc
      exact .plain hc ih
    · have hdigits := hexDigit_upper ⟨c.toNat, c.toNat_lt⟩
      simp only [UInt8.ofNat_toNat] at hdigits
      exact .escape hdigits.1 hdigits.2 ih

theorem Encoded.notMem (h : Encoded s) (hplain : unreserved c = false) (hpercent : c ≠ chr '%')
    (hhex : ¬UpperHex c) : c ∉ s := by
  induction h with
  | nil => exact List.not_mem_nil
  | plain hd _ ih =>
    refine fun hmem => (List.mem_cons.mp hmem).elim ?_ ih
    rintro rfl
    exact absurd hd (by rw [hplain]; exact Bool.false_ne_true)
  | escape ha hb _ ih =>
    simp only [List.mem_cons, not_or]
    exact ⟨hpercent, fun hc => hhex (hc ▸ ha), fun hc => hhex (hc ▸ hb), ih⟩

theorem urlEncode_length (s : Bytes) : (urlEncode s).length ≤ 3 * s.length := by
  induction s with
  | nil => exact Nat.le_refl _
  | cons c s ih =>
    rw [urlEncode_cons, List.length_append, List.length_cons]
    split
    · simp only [List.length_cons, List.length_nil]
      omega
    · simp only [List.length_cons, List.length_nil]
      omega

-- ---------------------------------------------------------------------------
-- Decoding what was encoded
-- ---------------------------------------------------------------------------

theorem scanHex_byte : ∀ n : Fin 256,
    scanHex [hexDigit (UInt8.ofNat n / 16), hexDigit (UInt8.ofNat n % 16)] = some n.val := by
  decide +kernel

theorem urlDecodeLoop_plus (rest : Bytes) :
    urlDecodeLoop (chr '+' :: rest) = 32 :: urlDecodeLoop rest := by
  rw [urlDecodeLoop.eq_def]
  exact if_pos rfl

theorem urlDecodeLoop_other (hplus : c ≠ chr '+') (hpercent : c ≠ chr '%') (rest : Bytes) :
    urlDecodeLoop (c :: rest) = c :: urlDecodeLoop rest := by
  rw [urlDecodeLoop.eq_def]
  exact (if_neg hplus).trans (if_neg hpercent)

theorem urlDecodeLoop_pair (a b : UInt8) (rest : Bytes) :
    urlDecodeLoop (chr '%' :: a :: b :: rest) = match scanHex [a, b] with
      | some hex => UInt8.ofNat hex :: urlDecodeLoop rest
      | none => chr '%' :: urlDecodeLoop (a :: b :: rest) := by
  rw [urlDecodeLoop.eq_def]
  exact (if_neg (by decide)).trans (if_pos rfl)

theorem urlDecodeLoop_short (h : rest.length < 2) :
    urlDecodeLoop (chr '%' :: rest) = chr '%' :: urlDecodeLoop rest := by
  rw [urlDecodeLoop.eq_def]
  refine (if_neg (by decide)).trans ((if_pos rfl).trans ?_)
  match rest, h with
  | [], _ => rfl
  | [_], _ => rfl

theorem urlDecodeLoop_plain (h : unreserved c = true) (rest : Bytes) :
    urlDecodeLoop (c :: rest) = c :: urlDecodeLoop rest := by
  have hplus : c ≠ chr '+' := by
    rintro rfl
    exact absurd h (by decide)
  have hpercent : c ≠ chr '%' := by
    rintro rfl
    exact absurd h (by decide)
  exact urlDecodeLoop_other hplus hpercent rest

theorem urlDecodeLoop_escape (c : UInt8) (rest : Bytes) :
    urlDecodeLoop (chr '%' :: hexDigit (c / 16) :: hexDigit (c % 16) :: rest) =
      c :: urlDecodeLoop rest := by
  have hscan := scanHex_byte ⟨c.toNat, c.toNat_lt⟩
  simp only [UInt8.ofNat_toNat] at hscan
  simp only [urlDecodeLoop_pair, hscan, UInt8.ofNat_toNat]

theorem urlDecodeLoop_encode (s rest : Bytes) :
    urlDecodeLoop (urlEncode s ++ rest) = s ++ urlDecodeLoop rest := by
  induction s with
  | nil => rfl
  | cons c s ih =>
    rw [urlEncode_cons, List.append_assoc]
    split
    · rename_i hc
      exact (urlDecodeLoop_plain hc _).trans (congrArg (c :: ·) ih)
    · exact (urlDecodeLoop_escape c _).trans (congrArg (c :: ·) ih)

theorem urlDecode_eq_loop {s : Bytes} (h : s.length < 2 ^ 31) : urlDecode s = urlDecodeLoop s := by
  rw [urlDecode, toInt_of_lt h, Int.toNat_natCast, List.take_length]

theorem urlDecode_encoded {s : Bytes} (h : (urlEncode s).length < 2 ^ 31) :
    urlDecode (urlEncode s) = s := by
  rw [urlDecode_eq_loop h]
  have hall := urlDecodeLoop_encode s []
  rwa [List.append_nil, urlDecodeLoop, List.append_nil] at hall

/-- Every byte string comes back, if the encoded one is not too long for the
`int` that counts it. -/
theorem urlDecode_urlEncode {s : Bytes} (h : 3 * s.length < 2 ^ 31) :
    urlDecode (urlEncodeStream s) = s ∧ Encoded (urlEncodeStream s) := by
  rw [urlEncodeStream_eq]
  exact ⟨urlDecode_encoded (Nat.lt_of_le_of_lt (urlEncode_length s) h), urlEncode_encoded s⟩

theorem urlDecode_urlEncode_example :
    urlDecode (urlEncodeStream [0, 37, 43, 32, 255]) = [0, 37, 43, 32, 255] :=
  (urlDecode_urlEncode (by decide)).1

-- ---------------------------------------------------------------------------
-- What sscanf makes of two characters
-- ---------------------------------------------------------------------------

theorem hex_chars : ∀ n : Fin 256, (hexValue (UInt8.ofNat n)).isSome = true →
    UInt8.ofNat n ≠ 0 ∧ isspace (UInt8.ofNat n) = false ∧ UInt8.ofNat n ≠ chr '+' ∧
      UInt8.ofNat n ≠ chr '-' := by
  decide +kernel

theorem digit_plain {c : UInt8} (h : (hexValue c).isSome = true) :
    c ≠ 0 ∧ isspace c = false ∧ c ≠ chr '+' ∧ c ≠ chr '-' := by
  have hall := hex_chars ⟨c.toNat, c.toNat_lt⟩
  simp only [UInt8.ofNat_toNat] at hall
  exact hall h

theorem scanHex_byte_alone : ∀ n : Fin 256, scanHex [UInt8.ofNat n] = hexValue (UInt8.ofNat n) := by
  decide +kernel

theorem scanHex_one (b : UInt8) : scanHex [b] = hexValue b := by
  have hall := scanHex_byte_alone ⟨b.toNat, b.toNat_lt⟩
  simpa only [UInt8.ofNat_toNat] using hall

theorem scanHex_space (h : isspace a = true) (s : Bytes) : scanHex (a :: s) = scanHex s := by
  have h0 : a ≠ 0 := by
    rintro rfl
    exact absurd h (by decide)
  have hcstr : cstr (a :: s) = a :: cstr s := List.takeWhile_cons_of_pos (by simpa using h0)
  rw [scanHex, hcstr, List.dropWhile_cons_of_pos h]
  rfl

theorem scanPrefixed_cstr (b : UInt8) : scanPrefixed (cstr [b]) = hexValue b := by
  by_cases hb : b = 0
  · subst hb
    decide
  · have hcstr : cstr [b] = [b] := List.takeWhile_cons_of_pos (by simpa using hb)
    rw [hcstr]
    cases hv : hexValue b with
    | none => simp [scanPrefixed, scanDigits, List.takeWhile, hv]
    | some y => simp [scanPrefixed, scanDigits, List.takeWhile, hv]

theorem scanHex_plus (b : UInt8) : scanHex [chr '+', b] = hexValue b := scanPrefixed_cstr b

theorem scanHex_minus (b : UInt8) :
    scanHex [chr '-', b] = (hexValue b).map fun n => (2 ^ 32 - n) % 2 ^ 32 :=
  congrArg (Option.map _) (scanPrefixed_cstr b)

/-- A digit, and another one or anything else; `0x` is no number. -/
theorem scanHex_digit (h : hexValue a = some x) (b : UInt8) : scanHex [a, b] =
    if a = chr '0' ∧ (b = chr 'x' ∨ b = chr 'X') then none
    else some (match hexValue b with
      | some y => 16 * x + y
      | none => x) := by
  obtain ⟨h0, hs, hp, hm⟩ := digit_plain (by rw [h]; rfl)
  have hcstr : cstr [a, b] = a :: cstr [b] := List.takeWhile_cons_of_pos (by simpa using h0)
  have hscan : scanHex [a, b] = scanPrefixed (a :: cstr [b]) := by
    rw [scanHex, hcstr, List.dropWhile_cons_of_neg (by simp [hs])]
    exact (if_neg hm).trans (if_neg hp)
  rw [hscan]
  by_cases hb : b = 0
  · subst hb
    have hnone : hexValue 0 = none := by decide
    rw [if_neg fun hx => absurd hx.2 (by decide), hnone]
    simp [scanPrefixed, cstr, scanDigits, List.takeWhile, h]
  · have hcstr : cstr [b] = [b] := List.takeWhile_cons_of_pos (by simpa using hb)
    rw [hcstr, scanPrefixed]
    split
    · rfl
    · cases hv : hexValue b with
      | none => simp [scanDigits, List.takeWhile, h, hv]
      | some y => simp [scanDigits, List.takeWhile, h, hv, Nat.mul_comm]

theorem scanHex_other (h : hexValue a = none) (hs : isspace a = false) (hp : a ≠ chr '+')
    (hm : a ≠ chr '-') (b : UInt8) : scanHex [a, b] = none := by
  by_cases h0 : a = 0
  · subst h0
    rfl
  · have hcstr : cstr [a, b] = a :: cstr [b] := List.takeWhile_cons_of_pos (by simpa using h0)
    rw [scanHex, hcstr, List.dropWhile_cons_of_neg (by simp [hs])]
    refine ((if_neg hm).trans (if_neg hp)).trans ?_
    have hnone : ∀ s, scanDigits (a :: s) = none := fun s => by
      simp [scanDigits, List.takeWhile, h]
    have hzero : a ≠ chr '0' := by
      rintro rfl
      exact absurd h (by decide)
    generalize cstr [b] = tail
    cases tail with
    | nil => exact hnone []
    | cons x tail => exact (if_neg fun hx => hzero hx.1).trans (hnone _)

-- ---------------------------------------------------------------------------
-- The decoder of forms
-- ---------------------------------------------------------------------------

/-- `+` is a space and `%` with two digits is the byte they denote; all else is
kept. -/
def formDecode : Bytes → Bytes
  | [] => []
  | c :: rest =>
    if c = chr '+' then 32 :: formDecode rest
    else if c = chr '%' then
      match rest with
      | a :: b :: rest =>
        match hexValue a, hexValue b with
        | some high, some low => UInt8.ofNat (16 * high + low) :: formDecode rest
        | _, _ => chr '%' :: formDecode (a :: b :: rest)
      | rest => chr '%' :: formDecode rest
    else c :: formDecode rest

theorem formDecode_plus (rest : Bytes) : formDecode (chr '+' :: rest) = 32 :: formDecode rest := by
  rw [formDecode.eq_def]
  exact if_pos rfl

theorem formDecode_other (hplus : c ≠ chr '+') (hpercent : c ≠ chr '%') (rest : Bytes) :
    formDecode (c :: rest) = c :: formDecode rest := by
  rw [formDecode.eq_def]
  exact (if_neg hplus).trans (if_neg hpercent)

theorem formDecode_pair (a b : UInt8) (rest : Bytes) :
    formDecode (chr '%' :: a :: b :: rest) = match hexValue a, hexValue b with
      | some high, some low => UInt8.ofNat (16 * high + low) :: formDecode rest
      | _, _ => chr '%' :: formDecode (a :: b :: rest) := by
  rw [formDecode.eq_def]
  exact (if_neg (by decide)).trans (if_pos rfl)

theorem formDecode_short (h : rest.length < 2) :
    formDecode (chr '%' :: rest) = chr '%' :: formDecode rest := by
  rw [formDecode.eq_def]
  refine (if_neg (by decide)).trans ((if_pos rfl).trans ?_)
  match rest, h with
  | [], _ => rfl
  | [_], _ => rfl

/-- `sscanf` reads a number from the two, and they are not two digits. -/
def Lenient (a b : UInt8) : Prop :=
  (scanHex [a, b]).isSome = true ∧ ¬((hexValue a).isSome = true ∧ (hexValue b).isSome = true)

/-- No `%` stands before such a pair. -/
def StrictEscapes (s : Bytes) : Prop :=
  ∀ before a b after, s = before ++ chr '%' :: a :: b :: after → ¬Lenient a b

theorem strictEscapes_cons : StrictEscapes (c :: s) ↔
    (c = chr '%' → ∀ a b after, s = a :: b :: after → ¬Lenient a b) ∧ StrictEscapes s := by
  constructor
  · intro h
    refine ⟨?_, fun before a b after hs => h (c :: before) a b after (by rw [hs]; rfl)⟩
    rintro rfl a b after rfl
    exact h [] a b after rfl
  · rintro ⟨hhead, htail⟩ before a b after hs
    cases before with
    | nil =>
      obtain ⟨hc, hs⟩ := List.cons.inj hs
      exact hhead hc a b after hs
    | cons d before => exact htail before a b after (List.cons.inj hs).2

theorem hexValue_small : ∀ n : Fin 256, (hexValue (UInt8.ofNat n)).getD 0 < 16 := by
  decide +kernel

theorem hexValue_lt (h : hexValue c = some x) : x < 16 := by
  have hall := hexValue_small ⟨c.toNat, c.toNat_lt⟩
  simp only [UInt8.ofNat_toNat, h] at hall
  exact hall

theorem scanHex_digits (ha : hexValue a = some high) (hb : hexValue b = some low) :
    scanHex [a, b] = some (16 * high + low) := by
  have hx : ¬(b = chr 'x' ∨ b = chr 'X') := by
    rintro (rfl | rfl)
    · cases (show hexValue (chr 'x') = none by decide).symm.trans hb
    · cases (show hexValue (chr 'X') = none by decide).symm.trans hb
  rw [scanHex_digit ha, if_neg fun h => hx h.2, hb]

/-- The number of a pair that is not two digits is that of one digit, or less
than nothing: it is not that of `%`. -/
theorem lenient_byte (h : Lenient a b) (hn : scanHex [a, b] = some n) :
    UInt8.ofNat n ≠ chr '%' := by
  have hsmall : n < 16 ∨ ∃ low, low < 16 ∧ n = (2 ^ 32 - low) % 2 ^ 32 := by
    cases ha : hexValue a with
    | some high =>
      rw [scanHex_digit ha] at hn
      split at hn
      · cases hn
      · cases hb : hexValue b with
        | some low => exact absurd ⟨by rw [ha]; rfl, by rw [hb]; rfl⟩ h.2
        | none =>
          rw [hb] at hn
          cases hn
          exact .inl (hexValue_lt ha)
    | none =>
      by_cases hs : isspace a = true
      · rw [scanHex_space hs, scanHex_one] at hn
        exact .inl (hexValue_lt hn)
      · by_cases hp : a = chr '+'
        · rw [hp, scanHex_plus] at hn
          exact .inl (hexValue_lt hn)
        · by_cases hm : a = chr '-'
          · rw [hm, scanHex_minus] at hn
            obtain ⟨low, hlow, rfl⟩ := Option.map_eq_some_iff.mp hn
            exact .inr ⟨low, hexValue_lt hlow, rfl⟩
          · rw [scanHex_other ha (Bool.eq_false_iff.mpr hs) hp hm] at hn
            cases hn
  intro heq
  have hbyte : n % 256 = 37 := congrArg UInt8.toNat heq
  rcases hsmall with hsmall | ⟨low, hlow, rfl⟩ <;> omega

theorem urlDecodeLoop_forms_iff (s : Bytes) :
    urlDecodeLoop s = formDecode s ↔ StrictEscapes s := by
  -- the two loops take the same turns up to the first lenient pair
  induction s using formDecode.induct with
  | case1 => exact iff_of_true rfl fun before a b after h => by cases before <;> cases h
  | case2 rest ih =>
    rw [strictEscapes_cons, ← ih, urlDecodeLoop_plus, formDecode_plus, List.cons.injEq,
      and_iff_right rfl, and_iff_right fun h => absurd h (by decide)]
  | case3 a b rest high low hb ha _ ih =>
    have hnot : ∀ x y, hexValue x = some y → x ≠ chr '%' := by
      rintro x y hx rfl
      cases (show hexValue (chr '%') = none by decide).symm.trans hx
    rw [urlDecodeLoop_pair, formDecode_pair, scanHex_digits ha hb]
    simp only [ha, hb, List.cons.injEq, true_and, ih, strictEscapes_cons, hnot a high ha,
      hnot b low hb, false_implies]
    refine (and_iff_right ?_).symm
    rintro - x y after ⟨rfl, rfl, -⟩ hlenient
    exact hlenient.2 ⟨by rw [ha]; rfl, by rw [hb]; rfl⟩
  | case4 a b rest hnot _ ih =>
    have hform : formDecode (chr '%' :: a :: b :: rest) = chr '%' :: formDecode (a :: b :: rest) := by
      rw [formDecode_pair]
      split
      · rename_i high low ha hb
        exact (hnot high low ha hb).elim
      · rfl
    rw [strictEscapes_cons, urlDecodeLoop_pair, hform]
    cases hn : scanHex [a, b] with
    | none =>
      rw [← ih, List.cons.injEq, and_iff_right rfl, and_iff_right]
      rintro - x y after h hlenient
      obtain ⟨rfl, hrest⟩ := List.cons.inj h
      obtain ⟨rfl, -⟩ := List.cons.inj hrest
      have hsome := hlenient.1
      rw [hn] at hsome
      cases hsome
    | some n =>
      have hlenient : Lenient a b := by
        refine ⟨by rw [hn]; rfl, fun hdigits => ?_⟩
        obtain ⟨high, ha⟩ := Option.isSome_iff_exists.mp hdigits.1
        obtain ⟨low, hb⟩ := Option.isSome_iff_exists.mp hdigits.2
        exact hnot high low ha hb
      refine iff_of_false (fun heq => ?_) fun hstrict => hstrict.1 rfl a b rest rfl hlenient
      exact lenient_byte hlenient hn (List.cons.inj heq).1
  | case5 rest hshort _ ih =>
    have hlen : rest.length < 2 := by
      match rest, hshort with
      | [], _ => exact Nat.zero_lt_two
      | [_], _ => exact Nat.one_lt_two
      | a :: b :: rest, hshort => exact (hshort a b rest rfl).elim
    rw [strictEscapes_cons, ← ih, urlDecodeLoop_short hlen, formDecode_short hlen, List.cons.injEq,
      and_iff_right rfl, and_iff_right]
    exact fun _ a b after h => (hshort a b after h).elim
  | case6 c rest hplus hpercent ih =>
    rw [strictEscapes_cons, ← ih, urlDecodeLoop_other hplus hpercent,
      formDecode_other hplus hpercent, List.cons.injEq, and_iff_right rfl,
      and_iff_right fun h => absurd h hpercent]

/-- Every string that an `int` counts is decoded as forms are, or there is a `%`
before two characters that `sscanf` reads a number from and that are not two
digits. -/
theorem urlDecode_forms_iff {s : Bytes} (h : s.length < 2 ^ 31) :
    urlDecode s = formDecode s ↔ StrictEscapes s := by
  rw [urlDecode_eq_loop h, urlDecodeLoop_forms_iff]

theorem urlDecode_forms_iff_example : ¬StrictEscapes (bytes "100%+1") := by
  intro hstrict
  have heq := (urlDecode_forms_iff (by decide)).mpr hstrict
  exact absurd heq (by decide +kernel)

/-- `sscanf` reads 4 from `4g`. -/
theorem half_escape_decoded :
    urlDecode (bytes "%4g") = [4] ∧ formDecode (bytes "%4g") = bytes "%4g" := by
  decide +kernel

end MudouHttp
