import MudouHttp.Cxx.Search
import MudouHttp.Http.UrlCoding

/-!
# Form bodies

`ParseFromUrlencoded_` searches the rest of the body for `&` and for `=`. Each
turn reads one piece of the body between two `&`, so that the fields are those
of the pieces with a `=` (`parseFromUrlencoded_ok`).
-/

namespace MudouHttp

open Function (update)
open Lib (cut cut_eq_none cut_eq_some cut_append filterMap_cons_toList assign assign_append LastOf
  assign_iff)

def formField (piece : Bytes) : Option (Bytes × Bytes) :=
  (cut (chr '=') piece).map fun (key, value) => (urlDecode key, urlDecode value)

def formFields (body : Bytes) : List (Bytes × Bytes) := (body.splitOn (chr '&')).filterMap formField

theorem formFields_last (h : chr '&' ∉ piece) : formFields piece = (formField piece).toList := by
  rw [formFields, List.splitOn_eq_singleton h, filterMap_cons_toList, List.filterMap_nil,
    List.append_nil]

theorem formFields_piece (h : chr '&' ∉ piece) (rest : Bytes) :
    formFields (piece ++ chr '&' :: rest) = (formField piece).toList ++ formFields rest := by
  rw [formFields, List.splitOn_append_cons_self_of_not_mem h, filterMap_cons_toList, formFields]

-- ---------------------------------------------------------------------------
-- The turns of the loop
-- ---------------------------------------------------------------------------

/-- A turn of the loop of `ParseFromUrlencoded_`: `start` and `post_` after it. -/
def formTurn (body : Bytes) (start : Nat) (post : StrMap) : Nat × StrMap :=
  let ending := (find body (chr '&') start).getD body.length
  match find body (chr '=') start with
  | none => (ending + 1, post)
  | some equal =>
    if equal > ending then (ending + 1, post)
    else
      let key := urlDecode (substr body start (equal - start))
      let value := urlDecode (substr body (equal + 1) (ending - equal - 1))
      (ending + 1, update post key (some value))

inductive FormRuns (body : Bytes) : Nat → StrMap → StrMap → Prop
  | done : body.length ≤ start → FormRuns body start post post
  | turn : start < body.length →
      FormRuns body (formTurn body start post).1 (formTurn body start post).2 out →
      FormRuns body start post out

theorem parseFromUrlencodedLoop_turn (h : start < body.length) (fuel : Nat) (post : StrMap) :
    parseFromUrlencodedLoop body (fuel + 1) start post =
      parseFromUrlencodedLoop body fuel (formTurn body start post).1 (formTurn body start post).2 := by
  rw [parseFromUrlencodedLoop, if_pos h, formTurn]
  cases find body (chr '=') start with
  | none => rfl
  | some equal =>
    simp only
    split <;> rfl

/-- A piece that something else than a `=` follows. -/
theorem formTurn_piece (hbody : body.drop start = piece ++ after) (hafter : after.head? ≠ some (chr '='))
    (hending : (find body (chr '&') start).getD body.length = piece.length + start)
    (post : StrMap) :
    formTurn body start post =
      (piece.length + start + 1, assign post (formField piece).toList) := by
  rw [formTurn, hending, formField]
  cases hcut : cut (chr '=') piece with
  | some field =>
    obtain ⟨rfl, hk⟩ := cut_eq_some.mp hcut
    obtain ⟨key, value⟩ := field
    rw [List.append_assoc] at hbody
    have hfind : find body (chr '=') start = some (key.length + start) :=
      find_some.mpr ⟨key, value ++ after, hbody, hk, rfl⟩
    have hkey : substr body start (key.length + start - start) = key := by
      rw [Nat.add_sub_cancel, substr, hbody, List.take_left]
    have hvalue : substr body (key.length + start + 1) value.length = value := by
      have hdrop : body.drop (key.length + start + 1) = value ++ after := by
        rw [show key.length + start + 1 = start + (key.length + 1) by omega, ← List.drop_drop, hbody]
        exact List.drop_length_add_append 1
      rw [substr, hdrop, List.take_left]
    have hlen : (key ++ chr '=' :: value).length + start - (key.length + start) - 1 = value.length := by
      rw [List.length_append, List.length_cons]
      omega
    rw [hfind]
    simp only [hkey, hlen, hvalue, Option.map_some, Option.toList_some]
    exact if_neg (by rw [List.length_append]; omega)
  | none =>
    have hnone := cut_eq_none.mp hcut
    cases hfind : find body (chr '=') start with
    | none => rfl
    | some equal =>
      obtain ⟨key, value, hrest, -, rfl⟩ := find_some.mp hfind
      -- the first `=` belongs to a later piece
      have hlater : piece.length < key.length := by
        rcases List.append_eq_append_iff.mp (hbody.symm.trans hrest) with
          ⟨x, rfl, htail⟩ | ⟨x, hpiece, htail⟩
        · cases x with
          | nil => exact absurd (congrArg List.head? htail) hafter
          | cons => simp
        · cases x with
          | nil => exact absurd (congrArg List.head? htail.symm) hafter
          | cons c x =>
            obtain ⟨rfl, -⟩ := List.cons.inj htail
            exact absurd (by rw [hpiece]; simp) hnone
      exact if_pos (by omega)

theorem formTurn_ok (h : start < body.length) (post : StrMap) : ∃ start' entries,
    formTurn body start post = (start', assign post entries) ∧ start < start' ∧
      formFields (body.drop start) = entries ++ formFields (body.drop start') := by
  cases hcut : cut (chr '&') (body.drop start) with
  | none =>
    have hfind : find body (chr '&') start = none := find_none.mpr (cut_eq_none.mp hcut)
    have hlen : (body.drop start).length + start = body.length := by
      rw [List.length_drop]
      omega
    refine ⟨_, _, formTurn_piece (List.append_nil _).symm (by decide) ?_ post, by omega, ?_⟩
    · rw [hfind, hlen]
      rfl
    · have hend : body.drop (body.length + 1) = [] := List.drop_eq_nil_of_le (Nat.le_succ _)
      rw [hlen, hend, formFields_last (cut_eq_none.mp hcut)]
      exact (List.append_nil _).symm
  | some field =>
    obtain ⟨piece, rest⟩ := field
    obtain ⟨hbody, hpiece⟩ := cut_eq_some.mp hcut
    have hfind : find body (chr '&') start = some (piece.length + start) :=
      find_some.mpr ⟨piece, rest, hbody, hpiece, rfl⟩
    have hamp : (chr '&' :: rest).head? ≠ some (chr '=') := by
      rw [List.head?_cons]
      decide
    refine ⟨_, _, formTurn_piece hbody hamp ?_ post, by omega, ?_⟩
    · rw [hfind]
      rfl
    · have hrest : body.drop (piece.length + start + 1) = rest := by
        rw [show piece.length + start + 1 = start + (piece.length + 1) by omega, ← List.drop_drop,
          hbody]
        exact List.drop_length_add_append 1
      rw [hrest, hbody, formFields_piece hpiece]

theorem formRuns_fields (body : Bytes) (start : Nat) (post : StrMap) :
    FormRuns body start post (assign post (formFields (body.drop start))) := by
  -- on how much of the body is left
  induction hleft : body.length - start using Nat.strongRecOn generalizing start post with
  | ind left ih =>
    by_cases h : start < body.length
    · obtain ⟨start', entries, hturn, hlt, hfields⟩ := formTurn_ok h post
      refine .turn h ?_
      rw [hturn, hfields, assign_append]
      exact ih _ (by omega) start' _ rfl
    · rw [List.drop_eq_nil_of_le (Nat.le_of_not_lt h)]
      exact .done (Nat.le_of_not_lt h)

theorem parseFromUrlencodedLoop_ok (h : FormRuns body start post out)
    (hfuel : body.length - start ≤ fuel) :
    parseFromUrlencodedLoop body fuel start post = out := by
  induction h generalizing fuel with
  | done hend =>
    cases fuel with
    | zero => rfl
    | succ fuel => exact if_neg (Nat.not_lt.mpr hend)
  | @turn start post out hlt _ ih =>
    obtain ⟨start', entries, hturn, hstart, -⟩ := formTurn_ok hlt post
    cases fuel with
    | zero => omega
    | succ fuel =>
      rw [parseFromUrlencodedLoop_turn hlt]
      exact ih (by rw [hturn]; show body.length - start' ≤ fuel; omega)

-- ---------------------------------------------------------------------------
-- Bodies that were encoded
-- ---------------------------------------------------------------------------

def joinField (enc : Bytes → Bytes) (field : Bytes × Bytes) : Bytes :=
  enc field.1 ++ chr '=' :: enc field.2

def joinForm (enc : Bytes → Bytes) (fields : List (Bytes × Bytes)) : Bytes :=
  [chr '&'].intercalate (fields.map (joinField enc))

/-- `urlDecode` reads back what `enc` writes, which neither sign of a form is in. -/
structure Readable (enc : Bytes → Bytes) : Prop where
  equal : ∀ s, chr '=' ∉ enc s
  ampersand : ∀ s, chr '&' ∉ enc s
  decoded : ∀ s, (enc s).length < 2 ^ 31 → urlDecode (enc s) = s

section Join

variable {enc : Bytes → Bytes}

theorem formField_join (henc : Readable enc) (h : (joinField enc field).length < 2 ^ 31) :
    formField (joinField enc field) = some field := by
  rw [joinField, List.length_append, List.length_cons] at h
  rw [formField, joinField, cut_append (henc.equal field.1), Option.map_some]
  simp only [henc.decoded field.1 (by omega), henc.decoded field.2 (by omega)]

theorem joinField_plain (henc : Readable enc) (field : Bytes × Bytes) : chr '&' ∉ joinField enc field := by
  rw [joinField, List.mem_append, List.mem_cons]
  rintro (hk | hc | hv)
  · exact henc.ampersand _ hk
  · exact absurd hc (by decide)
  · exact henc.ampersand _ hv

theorem joinForm_cons (enc : Bytes → Bytes) (field next : Bytes × Bytes) (fields : List (Bytes × Bytes)) :
    joinForm enc (field :: next :: fields) =
      joinField enc field ++ chr '&' :: joinForm enc (next :: fields) := by
  rw [joinForm, List.map_cons, List.map_cons, List.intercalate_cons_cons, List.append_assoc]
  rfl

theorem formFields_join (henc : Readable enc) (hne : fields ≠ [])
    (h : (joinForm enc fields).length < 2 ^ 31) :
    formFields (joinForm enc fields) = fields := by
  induction fields with
  | nil => exact absurd rfl hne
  | cons field fields ih =>
    cases fields with
    | nil =>
      have hlast : joinForm enc [field] = joinField enc field := List.intercalate_singleton
      rw [hlast] at h ⊢
      rw [formFields_last (joinField_plain henc field), formField_join henc h]
      rfl
    | cons next fields =>
      rw [joinForm_cons] at h ⊢
      rw [List.length_append, List.length_cons] at h
      rw [formFields_piece (joinField_plain henc field), formField_join henc (by omega),
        ih (List.cons_ne_nil _ _) (by omega)]
      rfl

end Join

def encodeField (field : Bytes × Bytes) : Bytes :=
  urlEncodeStream field.1 ++ chr '=' :: urlEncodeStream field.2

def encodeForm (fields : List (Bytes × Bytes)) : Bytes :=
  [chr '&'].intercalate (fields.map encodeField)

theorem urlEncodeStream_readable : Readable urlEncodeStream := by
  refine ⟨fun s => ?_, fun s => ?_, fun s h => ?_⟩
  · rw [urlEncodeStream_eq]
    exact (urlEncode_encoded s).notMem (by decide) (by decide) (by unfold UpperHex; decide)
  · rw [urlEncodeStream_eq]
    exact (urlEncode_encoded s).notMem (by decide) (by decide) (by unfold UpperHex; decide)
  · rw [urlEncodeStream_eq] at h ⊢
    exact urlDecode_encoded h

theorem formFields_encode (hne : fields ≠ []) (h : (encodeForm fields).length < 2 ^ 31) :
    formFields (encodeForm fields) = fields := formFields_join urlEncodeStream_readable hne h

/-- The loop ends, and of each key the last field with it counts. -/
theorem parseFromUrlencoded_ok {rq : HttpRequest} (hne : rq.body ≠ []) (h : rq.body.length < 2 ^ 31) :
    FormRuns rq.body 0 (fun _ => none) rq.parseFromUrlencoded.post ∧
    rq.parseFromUrlencoded.post = assign (fun _ => none) (formFields rq.body) ∧
    ∀ fields, rq.body = encodeForm fields → ∀ key value,
      rq.parseFromUrlencoded.post key = some value ↔ LastOf fields key value := by
  have hruns := formRuns_fields rq.body 0 fun _ => none
  have hpost : rq.parseFromUrlencoded.post = assign (fun _ => none) (formFields rq.body) := by
    rw [HttpRequest.parseFromUrlencoded, if_neg (by simpa using hne)]
    exact parseFromUrlencodedLoop_ok hruns (Nat.le_refl _)
  refine ⟨hpost ▸ hruns, hpost, fun fields hbody key value => ?_⟩
  have hfields : fields ≠ [] := by
    rintro rfl
    exact hne hbody
  rw [hpost, hbody, formFields_encode hfields (hbody ▸ h)]
  exact assign_iff

theorem parseFromUrlencoded_ok_example :
    ({ HttpRequest.init with
      body := encodeForm [(bytes "a", bytes "1"), (bytes "a", bytes "2&=")] } :
      HttpRequest).parseFromUrlencoded.post (bytes "a") = some (bytes "2&=") := by
  have hlast := (@parseFromUrlencoded_ok { HttpRequest.init with
      body := encodeForm [(bytes "a", bytes "1"), (bytes "a", bytes "2&=")] }
    (by decide +kernel) (by decide +kernel)).2.2 _ rfl (bytes "a") (bytes "2&=")
  exact hlast.mpr ⟨[(bytes "a", bytes "1")], [], rfl, List.not_mem_nil⟩

-- ---------------------------------------------------------------------------
-- The serialisation of forms
-- ---------------------------------------------------------------------------

/-- The bytes that `application/x-www-form-urlencoded` leaves as they are. -/
def formPlain (c : UInt8) : Bool :=
  (chr 'A' ≤ c && c ≤ chr 'Z') || (chr 'a' ≤ c && c ≤ chr 'z') || (chr '0' ≤ c && c ≤ chr '9') ||
    c = chr '*' || c = chr '-' || c = chr '.' || c = chr '_'

def serialiseByte (c : UInt8) : Bytes :=
  if formPlain c then [c]
  else if c = 32 then [chr '+']
  else [chr '%', hexDigit (c / 16), hexDigit (c % 16)]

def serialiseText (s : Bytes) : Bytes := s.flatMap serialiseByte

/-- What a client sends for the fields of a form: a space is `+`, and what is not plain
is `%` and two digits. -/
def serialiseForm (fields : List (Bytes × Bytes)) : Bytes := joinForm serialiseText fields

theorem urlDecodeLoop_serialiseByte (c : UInt8) (rest : Bytes) :
    urlDecodeLoop (serialiseByte c ++ rest) = c :: urlDecodeLoop rest := by
  unfold serialiseByte
  split
  · rename_i hplain
    refine urlDecodeLoop_other ?_ ?_ rest
    · rintro rfl
      exact absurd hplain (by decide)
    · rintro rfl
      exact absurd hplain (by decide)
  · split
    · rename_i hspace
      rw [hspace]
      exact urlDecodeLoop_plus rest
    · exact urlDecodeLoop_escape c rest

theorem urlDecodeLoop_serialiseText (s rest : Bytes) :
    urlDecodeLoop (serialiseText s ++ rest) = s ++ urlDecodeLoop rest := by
  induction s with
  | nil => rfl
  | cons c s ih =>
    rw [serialiseText, List.flatMap_cons, List.append_assoc, urlDecodeLoop_serialiseByte]
    exact congrArg (c :: ·) ih

theorem serialiseByte_signs : ∀ n : Fin 256,
    chr '=' ∉ serialiseByte (UInt8.ofNat n) ∧ chr '&' ∉ serialiseByte (UInt8.ofNat n) := by
  decide +kernel

theorem serialiseText_readable : Readable serialiseText := by
  have hsigns : ∀ c, chr '=' ∉ serialiseByte c ∧ chr '&' ∉ serialiseByte c := by
    intro c
    have hall := serialiseByte_signs ⟨c.toNat, c.toNat_lt⟩
    simpa only [UInt8.ofNat_toNat] using hall
  refine ⟨fun s hmem => ?_, fun s hmem => ?_, fun s h => ?_⟩
  · obtain ⟨c, -, hc⟩ := List.mem_flatMap.mp hmem
    exact (hsigns c).1 hc
  · obtain ⟨c, -, hc⟩ := List.mem_flatMap.mp hmem
    exact (hsigns c).2 hc
  · rw [urlDecode_eq_loop h]
    have hall := urlDecodeLoop_serialiseText s []
    rwa [List.append_nil, urlDecodeLoop, List.append_nil] at hall

theorem formFields_serialise (hne : fields ≠ []) (h : (serialiseForm fields).length < 2 ^ 31) :
    formFields (serialiseForm fields) = fields := formFields_join serialiseText_readable hne h

end MudouHttp
