import MudouHttp.Cxx.Search
import MudouHttp.Cxx.Streams

/-!
# XConfig

The configuration file of the log, `logger/xconfig.cpp`. A line that begins
with `=` is skipped before the stream is looked at, so that as the last line of
a file without a final newline it is read for ever (`read_returns_iff`). A line
without `=` is taken for a key that is its own value (`read_stores_iff`).
-/

namespace MudouHttp

open Function (update)
open Lib (cut cut_eq_none cut_eq_some last_occurrence pieces_induction filterMap_cons_toList
  assign assign_append assign_self assign_ne assign_start LastOf assign_iff)

structure XConfig where
  conf : StrMap

namespace XConfig

def new : XConfig := { conf := fun _ => none }

def get (config : XConfig) (key : Bytes) : Bytes := (config.conf key).getD []

/-- The variables of the loop of `Read`: `line` outlives a turn. -/
structure Reading where
  ifs : IStream
  line : Bytes
  conf : StrMap

/-- A turn of the loop, and whether it leaves it. Where there is no `=`, the
position is `npos`: it is not 0, and the one after it is. -/
def readTurn (r : Reading) : Reading × Bool :=
  let (ifs, line) := r.ifs.getline r.line
  if line.isEmpty then ({ r with ifs := ifs, line := line }, !ifs.good)
  else
    match find line (chr '=') 0 with
    | some 0 => ({ r with ifs := ifs, line := line }, false)
    | some p =>
      let k := substr line 0 p
      let v := line.drop (p + 1)
      ({ ifs := ifs, line := line, conf := update r.conf k (some v) }, !ifs.good)
    | none => ({ ifs := ifs, line := line, conf := update r.conf line (some line) }, !ifs.good)

def readLoop : Nat → Reading → Except Fault StrMap
  | 0, _ => .error .diverges
  | fuel + 1, r =>
    match readTurn r with
    | (r, true) => .ok r.conf
    | (r, false) => readLoop fuel r

/-- `Read` on what the file contains, if it can be opened. -/
def read (fuel : Nat) (config : XConfig) (file : Option Bytes) : Except Fault (Bool × XConfig) :=
  match file with
  | none => .ok (false, config)
  | some content => do
    let conf ← readLoop fuel { ifs := .new content, line := [], conf := config.conf }
    pure (true, { conf := conf })

-- ---------------------------------------------------------------------------
-- The lines
-- ---------------------------------------------------------------------------

def lineEntry (line : Bytes) : Option (Bytes × Bytes) :=
  if line.isEmpty then none
  else match cut (chr '=') line with
  | some ([], _) => none
  | some field => some field
  | none => some (line, line)

/-- What a line sets: the key is not empty and a `=` follows it. -/
def keyValue (line : Bytes) : Option (Bytes × Bytes) :=
  (cut (chr '=') line).filter fun (k, _) => !k.isEmpty

theorem find_line (line : Bytes) : find line (chr '=') 0 = (cut (chr '=') line).map (·.1.length) :=
  find_cut line (chr '=') 0

theorem readTurn_line (h : r.ifs.getline r.line = (ifs, line)) : readTurn r =
    ({ ifs := ifs, line := line, conf := assign r.conf (lineEntry line).toList },
      if line.head? = some (chr '=') then false else !ifs.good) := by
  rw [readTurn, h]
  cases line with
  | nil => rfl
  | cons c line =>
    simp only [List.isEmpty_cons, Bool.false_eq_true, if_false, List.head?_cons, Option.some.injEq]
    rw [find_line, lineEntry]
    simp only [List.isEmpty_cons, Bool.false_eq_true, if_false]
    cases hcut : cut (chr '=') (c :: line) with
    | none =>
      have hc : c ≠ chr '=' := fun hc => cut_eq_none.mp hcut (hc ▸ List.mem_cons_self)
      rw [if_neg hc]
      rfl
    | some field =>
      obtain ⟨k, v⟩ := field
      obtain ⟨hline, hk⟩ := cut_eq_some.mp hcut
      cases k with
      | nil =>
        rw [if_pos (List.cons.inj hline).1]
        rfl
      | cons d k =>
        obtain ⟨rfl, hrest⟩ := List.cons.inj hline
        have hkey : substr (c :: k ++ chr '=' :: v) 0 (c :: k).length = c :: k := List.take_left
        have hvalue : (c :: k ++ chr '=' :: v).drop ((c :: k).length + 1) = v :=
          List.drop_length_add_append 1
        rw [if_neg (Ne.symm (not_or.mp (mt List.mem_cons.mpr hk)).1), hline]
        simp only [Option.map_some, List.length_cons] at hkey hvalue ⊢
        rw [hkey, hvalue]
        rfl

theorem getline_text (conf : StrMap) (line : Bytes) (hcut : cut 10 content = some (text, rest)) :
    readTurn { ifs := .new content, line := line, conf := conf } =
      ({ ifs := .new rest, line := text, conf := assign conf (lineEntry text).toList }, false) := by
  have hline : (IStream.new content).getline line = (.new rest, text) := by
    simp only [IStream.getline, IStream.good, IStream.new, hcut]
    rfl
  rw [readTurn_line hline]
  split <;> rfl

theorem getline_last (conf : StrMap) (line : Bytes) (h : 10 ∉ content) :
    readTurn { ifs := .new content, line := line, conf := conf } =
      ({ ifs := { rest := [], eof := true, fail := content.isEmpty }, line := content
         conf := assign conf (lineEntry content).toList },
        if content.head? = some (chr '=') then false else true) := by
  have hline : (IStream.new content).getline line =
      ({ rest := [], eof := true, fail := content.isEmpty }, content) := by
    simp only [IStream.getline, IStream.good, IStream.new, cut_eq_none.mpr h]
    rfl
  exact readTurn_line hline

/-- Once the stream is not good, a line that begins with `=` stays. -/
theorem readLoop_skipped (h : r.line.head? = some (chr '=')) (hgood : r.ifs.good = false)
    (fuel : Nat) : readLoop fuel r = .error .diverges := by
  induction fuel generalizing r with
  | zero => rfl
  | succ fuel ih =>
    have hline : r.ifs.getline r.line = ({ r.ifs with fail := true }, r.line) := by
      rw [IStream.getline, hgood]
      rfl
    rw [readLoop, readTurn_line hline, if_pos h]
    exact ih h (Bool.and_false _)

def lastLine (content : Bytes) : Bytes :=
  (content.splitOn 10).getLast (List.splitOn_ne_nil 10 content)

theorem lastLine_more (h : 10 ∉ text) (rest : Bytes) : lastLine (text ++ 10 :: rest) = lastLine rest := by
  simp only [lastLine, List.splitOn_append_cons_self_of_not_mem h]
  exact List.getLast_cons _

theorem lastLine_plain (h : 10 ∉ content) : lastLine content = content := by
  simp only [lastLine, List.splitOn_eq_singleton h, List.getLast_singleton]

def lineEntries (content : Bytes) : List (Bytes × Bytes) :=
  (content.splitOn 10).filterMap lineEntry

theorem lineEntries_more (h : 10 ∉ text) (rest : Bytes) :
    lineEntries (text ++ 10 :: rest) = (lineEntry text).toList ++ lineEntries rest := by
  rw [lineEntries, List.splitOn_append_cons_self_of_not_mem h, filterMap_cons_toList, lineEntries]

theorem lineEntries_plain (h : 10 ∉ content) : lineEntries content = (lineEntry content).toList := by
  rw [lineEntries, List.splitOn_eq_singleton h, filterMap_cons_toList, List.filterMap_nil,
    List.append_nil]

/-- A file whose last line is not skipped is read to its end. -/
theorem readLoop_ends (content line : Bytes) (conf : StrMap)
    (h : (lastLine content).head? ≠ some (chr '=')) :
    ∃ fuel, readLoop fuel { ifs := .new content, line := line, conf := conf } =
      .ok (assign conf (lineEntries content)) := by
  induction content using pieces_induction (10 : UInt8) generalizing line conf with
  | last content hplain =>
    rw [lastLine_plain hplain] at h
    refine ⟨1, ?_⟩
    rw [readLoop, getline_last conf line hplain, if_neg h, lineEntries_plain hplain]
  | more text rest htext ih =>
    rw [lastLine_more htext] at h
    obtain ⟨fuel, hrest⟩ := ih text (assign conf (lineEntry text).toList) h
    refine ⟨fuel + 1, ?_⟩
    rw [readLoop, getline_text conf line (Lib.cut_append htext rest), lineEntries_more htext,
      assign_append]
    exact hrest

theorem readLoop_hangs (content line : Bytes) (conf : StrMap)
    (h : (lastLine content).head? = some (chr '=')) (fuel : Nat) :
    readLoop fuel { ifs := .new content, line := line, conf := conf } = .error .diverges := by
  induction content using pieces_induction (10 : UInt8) generalizing line conf fuel with
  | last content hplain =>
    rw [lastLine_plain hplain] at h
    cases fuel with
    | zero => rfl
    | succ fuel =>
      rw [readLoop, getline_last conf line hplain, if_pos h]
      exact readLoop_skipped h rfl fuel
  | more text rest htext ih =>
    rw [lastLine_more htext] at h
    cases fuel with
    | zero => rfl
    | succ fuel =>
      rw [readLoop, getline_text conf line (Lib.cut_append htext rest)]
      exact ih text _ h fuel

theorem readLoop_unique (h : readLoop fuel r = .ok out) (h' : readLoop fuel' r = .ok out') :
    out = out' := by
  induction fuel generalizing fuel' r with
  | zero => cases h
  | succ fuel ih =>
    cases fuel' with
    | zero => cases h'
    | succ fuel' =>
      rw [readLoop] at h h'
      split at h
      · rename_i hturn
        rw [hturn] at h'
        cases h
        cases h'
        rfl
      · rename_i hturn
        rw [hturn] at h'
        exact ih h h'

theorem read_ends (h : read fuel config (some content) = .ok result) :
    (lastLine content).head? ≠ some (chr '=') := by
  intro hskipped
  obtain ⟨conf, hloop, -⟩ := bind_ok h
  cases (readLoop_hangs content [] config.conf hskipped fuel).symm.trans hloop

theorem read_of_ends (config : XConfig) (h : (lastLine content).head? ≠ some (chr '=')) :
    ∃ fuel config', read fuel config (some content) = .ok (true, config') := by
  obtain ⟨fuel, hloop⟩ := readLoop_ends content [] config.conf h
  refine ⟨fuel, { conf := assign config.conf (lineEntries content) }, ?_⟩
  simp only [read, hloop]
  rfl

/-- The loop ends unless the file's last line, without a newline, begins with
`=`. -/
theorem read_returns_iff (config : XConfig) (content : Bytes) :
    (∃ fuel result, read fuel config (some content) = .ok result) ↔
      (lastLine content).head? ≠ some (chr '=') := by
  constructor
  · rintro ⟨fuel, result, hread⟩
    exact read_ends hread
  · intro h
    obtain ⟨fuel, config', hread⟩ := read_of_ends config h
    exact ⟨fuel, _, hread⟩

theorem unfinished_line_hangs :
    ¬∃ fuel result, read fuel new (some (bytes "log_type=console\n=x")) = .ok result := by
  rintro ⟨fuel, result, hread⟩
  exact read_ends hread (by decide +kernel)

-- ---------------------------------------------------------------------------
-- What is stored
-- ---------------------------------------------------------------------------

variable {lines : List Bytes}

def keyValues (content : Bytes) : List (Bytes × Bytes) := (content.splitOn 10).filterMap keyValue

def Bare (line : Bytes) : Prop := line ≠ [] ∧ chr '=' ∉ line

instance : Decidable (Bare line) := inferInstanceAs (Decidable (_ ∧ _))

theorem Bare.entry (h : Bare line) : lineEntry line = some (line, line) := by
  rw [lineEntry, if_neg (by simpa using h.1), cut_eq_none.mpr h.2]

theorem Bare.keyValue (h : Bare line) : keyValue line = none := by
  rw [XConfig.keyValue, cut_eq_none.mpr h.2]
  rfl

theorem lineEntry_of_not_bare (h : ¬Bare line) : lineEntry line = keyValue line := by
  rw [lineEntry, keyValue]
  split
  · rename_i hempty
    rw [List.isEmpty_iff.mp hempty]
    rfl
  · rename_i hempty
    cases hcut : cut (chr '=') line with
    | none => exact absurd ⟨by simpa using hempty, cut_eq_none.mp hcut⟩ h
    | some field =>
      obtain ⟨k, v⟩ := field
      cases k <;> rfl

theorem keyValue_eq_some (h : keyValue line = some (k, v)) : line = k ++ chr '=' :: v := by
  obtain ⟨hcut, -⟩ := Option.filter_eq_some_iff.mp h
  exact (cut_eq_some.mp hcut).1

theorem keyValue_line (h : Bare k) (v : Bytes) : keyValue (k ++ chr '=' :: v) = some (k, v) := by
  rw [keyValue, Lib.cut_append h.2]
  exact Option.filter_eq_some_iff.mpr ⟨rfl, by simpa using h.1⟩

/-- Where `k` is no line, `Read` takes for a line of `k` what is one. -/
theorem assign_lines {m m' : StrMap} (hm : m k = m' k) (h : ∀ line ∈ lines, Bare line → line ≠ k) :
    assign m (lines.filterMap lineEntry) k = assign m' (lines.filterMap keyValue) k := by
  induction lines generalizing m m' with
  | nil => exact hm
  | cons line lines ih =>
    rw [filterMap_cons_toList, filterMap_cons_toList, assign_append, assign_append]
    refine ih ?_ fun line hline => h line (List.mem_cons_of_mem _ hline)
    by_cases hbare : Bare line
    · rw [hbare.entry, hbare.keyValue]
      exact (assign_ne (h line List.mem_cons_self hbare).symm m).trans hm
    · rw [lineEntry_of_not_bare hbare]
      cases keyValue line with
      | none => exact hm
      | some field =>
        by_cases hk : k = field.1
        · subst hk
          exact (assign_self m field).trans (assign_self m' field).symm
        · exact (assign_ne hk m).trans (hm.trans (assign_ne hk m').symm)

/-- A line without `=` is its own value up to the next line that sets it. -/
theorem assign_bare {m : StrMap} (hm : m k = some k) (h : k ∉ (lines.filterMap keyValue).map Prod.fst) :
    assign m (lines.filterMap lineEntry) k = some k := by
  induction lines generalizing m with
  | nil => exact hm
  | cons line lines ih =>
    rw [filterMap_cons_toList, List.map_append, List.mem_append, not_or] at h
    rw [filterMap_cons_toList, assign_append]
    refine ih ?_ h.2
    by_cases hbare : Bare line
    · rw [hbare.entry]
      by_cases hk : k = line
      · subst hk
        exact assign_self m (k, k)
      · exact (assign_ne hk m).trans hm
    · rw [lineEntry_of_not_bare hbare]
      cases hkey : keyValue line with
      | none => exact hm
      | some field =>
        have hk : k ≠ field.1 := by
          rintro rfl
          exact h.1 (by rw [hkey]; exact List.mem_singleton_self _)
        exact (assign_ne hk m).trans hm

theorem mem_keyValues (h : Bare k) :
    k ∈ (lines.filterMap keyValue).map Prod.fst ↔ ∃ v, k ++ chr '=' :: v ∈ lines := by
  constructor
  · intro hk
    obtain ⟨⟨k', v⟩, hfield, rfl⟩ := List.mem_map.mp hk
    obtain ⟨line, hline, hkey⟩ := List.mem_filterMap.mp hfield
    exact ⟨v, keyValue_eq_some hkey ▸ hline⟩
  · rintro ⟨v, hline⟩
    exact List.mem_map.mpr ⟨(k, v), List.mem_filterMap.mpr ⟨_, hline, keyValue_line h v⟩, rfl⟩

/-- Every line without `=` is set by a later line, or set to itself. -/
def BareSet (lines : List Bytes) : Prop :=
  ∀ before line after, lines = before ++ line :: after → Bare line →
    (∃ v, line ++ chr '=' :: v ∈ after) ∨ LastOf (lines.filterMap keyValue) line line

theorem assign_eq_iff (lines : List Bytes) :
    assign (fun _ => none) (lines.filterMap lineEntry) =
      assign (fun _ => none) (lines.filterMap keyValue) ↔ BareSet lines := by
  constructor
  · rintro heq before line after rfl hbare
    by_cases hset : line ∈ (after.filterMap keyValue).map Prod.fst
    · exact .inl ((mem_keyValues hbare).mp hset)
    · refine .inr (assign_iff.mp ?_)
      rw [← heq, List.filterMap_append, filterMap_cons_toList, assign_append, assign_append,
        hbare.entry]
      exact assign_bare (assign_self _ _) hset
  · intro h
    funext k
    by_cases hk : k ∈ lines ∧ Bare k
    · obtain ⟨hmem, hbare⟩ := hk
      obtain ⟨before, after, rfl, hafter⟩ := last_occurrence hmem
      by_cases hset : k ∈ (after.filterMap keyValue).map Prod.fst
      · simp only [List.filterMap_append, filterMap_cons_toList, assign_append]
        have hlines : ∀ line ∈ after, Bare line → line ≠ k := by
          rintro line hline - rfl
          exact hafter hline
        rw [assign_lines rfl hlines]
        exact assign_start hset _ _
      · have hlast := (h before k after rfl hbare).resolve_left fun hline =>
          hset ((mem_keyValues hbare).mpr hline)
        rw [Lib.assign_last hlast, List.filterMap_append, filterMap_cons_toList, assign_append,
          assign_append, hbare.entry]
        exact assign_bare (assign_self _ _) hset
    · refine assign_lines rfl fun line hline hbare heq => ?_
      subst heq
      exact hk ⟨hline, hbare⟩

theorem bareSet_of_none (h : ∀ line ∈ lines, ¬Bare line) : BareSet lines := by
  rintro before line after rfl hbare
  exact absurd hbare (h line (by simp))

/-- The map is that of the lines `k=v`, unless a line without a `=` is left
standing as a key. -/
theorem read_stores_iff (h : read fuel new (some content) = .ok (true, config)) :
    ((∀ k v, config.conf k = some v ↔ LastOf (keyValues content) k v) ∧
      ∀ k, k ∉ (keyValues content).map Prod.fst → config.get k = []) ↔
    BareSet (content.splitOn 10) := by
  have hends : (lastLine content).head? ≠ some (chr '=') := read_ends h
  obtain ⟨rounds, hloop⟩ := readLoop_ends content [] new.conf hends
  obtain ⟨conf, hconf, hresult⟩ := bind_ok h
  obtain rfl := readLoop_unique hconf hloop
  cases hresult
  rw [← assign_eq_iff]
  constructor
  · rintro ⟨hstored, -⟩
    funext k
    exact Option.ext fun v => (hstored k v).trans assign_iff.symm
  · intro heq
    have hstored : assign new.conf (lineEntries content) = assign (fun _ => none) (keyValues content) :=
      heq
    refine ⟨fun k v => ?_, fun k hk => ?_⟩
    · rw [hstored]
      exact assign_iff
    · have hnone : assign new.conf (lineEntries content) k = none := by
        rw [hstored, Lib.assign_of_notMem hk]
      exact congrArg (Option.getD · []) hnone

theorem read_stores_iff_example :
    ∃ fuel config, read fuel new (some (bytes "a=1\na=2\n")) = .ok (true, config) ∧
      config.conf (bytes "a") = some (bytes "2") ∧ config.get (bytes "b") = [] := by
  have hends : (lastLine (bytes "a=1\na=2\n")).head? ≠ some (chr '=') := by decide +kernel
  obtain ⟨fuel, config, hread⟩ := read_of_ends new hends
  have hset : BareSet ((bytes "a=1\na=2\n").splitOn 10) := bareSet_of_none (by decide +kernel)
  obtain ⟨hstored, hget⟩ := (read_stores_iff hread).mpr hset
  refine ⟨fuel, config, hread, (hstored _ _).mpr ?_, hget _ (by decide +kernel)⟩
  exact ⟨[(bytes "a", bytes "1")], [], by decide +kernel, List.not_mem_nil⟩

/-- A line without a `=` is a key. -/
theorem bare_line_stored : ∃ config, read 1 new (some (bytes "abc")) = .ok (true, config) ∧
    config.get (bytes "abc") = bytes "abc" ∧ keyValues (bytes "abc") = [] :=
  ⟨_, rfl, by decide +kernel, by decide +kernel⟩

end XConfig

end MudouHttp
