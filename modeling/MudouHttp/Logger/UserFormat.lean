import MudouHttp.Lib.Templates
import MudouHttp.Logger.Clock
import MudouHttp.Logger.Logger

/-!
# UserFormat

The format given in the configuration file, `logger/user_format.cpp`. The five
names of fields are replaced one after the other in the growing text, so that a
message or a file name may bring or complete a name that is replaced next
(`format_substitutes`).
-/

namespace MudouHttp

open Function (update update_self update_of_ne)
open Lib (Placeholders Bracketed absent_parts Foreign replaceFirst replaceFirst_cases
  replaceFirst_within replaced_stray replaced_swapped)

/-- `%m`, `%d`, `%H`, `%M`, `%S`. -/
def twoDigits (i : Int) : Bytes :=
  if i < 10 then bytes "0" ++ bytes (toString i) else bytes (toString i)

/-- `put_time(&tm, "%Y-%m-%d %H:%M:%S")` -/
def Tm.putTime (tm : Tm) : Bytes :=
  bytes (toString (tm.year + 1900)) ++ (bytes "-" ++ (twoDigits (tm.mon + 1) ++ (bytes "-" ++
    (twoDigits tm.mday ++ (bytes " " ++ (twoDigits tm.hour ++ (bytes ":" ++ (twoDigits tm.min ++
      (bytes ":" ++ twoDigits tm.sec)))))))))

namespace UserFormat

def replaceString (str ostr nstr : Bytes) : Bytes := replaceFirst ostr nstr str

def format (userFormat level log file : Bytes) (line unixSec : Int) : Except Fault Bytes := do
  let logout := userFormat
  let tm ← getnow unixSec 8
  let logout := replaceString logout (bytes "{time}") tm.putTime
  let logout := replaceString logout (bytes "{level}") level
  let logout := replaceString logout (bytes "{content}") log
  let logout := replaceString logout (bytes "{file}") file
  let logout := replaceString logout (bytes "{line}") (bytes (toString line))
  pure logout

-- ---------------------------------------------------------------------------
-- The template
-- ---------------------------------------------------------------------------

inductive LogField
  | time
  | level
  | content
  | file
  | line
  deriving DecidableEq

def LogField.name : LogField → Bytes
  | .time => bytes "{time}"
  | .level => bytes "{level}"
  | .content => bytes "{content}"
  | .file => bytes "{file}"
  | .line => bytes "{line}"

def LogField.word : LogField → Bytes
  | .time => bytes "time"
  | .level => bytes "level"
  | .content => bytes "content"
  | .file => bytes "file"
  | .line => bytes "line"

def placeholders : Placeholders UInt8 LogField where
  fields := [.time, .level, .content, .file, .line]
  name := LogField.name
  opening := chr '{'
  closing := chr '}'
  complete := fun i => by cases i <;> decide
  ne := by decide
  bracketed := fun i => ⟨i.word, by cases i <;> decide +kernel⟩
  inj := fun i j h => by cases i <;> cases j <;> first | rfl | exact absurd h (by decide +kernel)

def fieldValue (tm : Tm) (level log file : Bytes) (line : Int) : LogField → Bytes
  | .time => tm.putTime
  | .level => level
  | .content => log
  | .file => file
  | .line => bytes (toString line)

/-- The values of the fields replaced so far; the others still have their names. -/
def filled (value : LogField → Bytes) (done : List LogField) : LogField → Bytes :=
  fun i => if i ∈ done then value i else i.name

theorem filled_next (value : LogField → Bytes) (done : List LogField) (i : LogField) :
    update (filled value done) i (value i) = filled value (i :: done) := by
  funext j
  by_cases h : j = i
  · subst h
    rw [update_self, filled, if_pos List.mem_cons_self]
  · rw [update_of_ne h, filled, filled]
    simp only [List.mem_cons, h, false_or]

-- ---------------------------------------------------------------------------
-- The time, the level, the line
-- ---------------------------------------------------------------------------

theorem twoDigits_chars (i : Int) : ∀ c ∈ twoDigits i, NumberChar c := by
  unfold twoDigits
  split
  · intro c hc
    rcases List.mem_append.mp hc with hzero | hnumber
    · obtain rfl := List.mem_singleton.mp hzero
      exact .inl (by decide)
    · exact number_chars i c hnumber
  · exact number_chars i

theorem putTime_chars (tm : Tm) : ∀ c ∈ tm.putTime, NumberChar c ∨ c = 32 ∨ c = chr ':' := by
  intro c hc
  have hdash : ∀ c ∈ bytes "-", NumberChar c := fun c hc => .inr (List.mem_singleton.mp hc)
  simp only [Tm.putTime, List.mem_append] at hc
  rcases hc with h | h | h | h | h | h | h | h | h | h | h
  · exact .inl (number_chars _ c h)
  · exact .inl (hdash c h)
  · exact .inl (twoDigits_chars _ c h)
  · exact .inl (hdash c h)
  · exact .inl (twoDigits_chars _ c h)
  · exact .inr (.inl (List.mem_singleton.mp h))
  · exact .inl (twoDigits_chars _ c h)
  · exact .inr (.inr (List.mem_singleton.mp h))
  · exact .inl (twoDigits_chars _ c h)
  · exact .inr (.inr (List.mem_singleton.mp h))
  · exact .inl (twoDigits_chars _ c h)

theorem name_chars (i : LogField) : ∀ c ∈ i.name, ¬NumberChar c := by
  unfold NumberChar
  cases i <;> decide +kernel

theorem notMem_putTime (tm : Tm) (hnumber : ¬NumberChar c) (hspace : c ≠ 32) (hcolon : c ≠ chr ':') :
    c ∉ tm.putTime := by
  intro hc
  rcases putTime_chars tm c hc with h | h | h
  · exact hnumber h
  · exact hspace h
  · exact hcolon h

theorem putTime_inert (tm : Tm) : placeholders.Inert tm.putTime where
  opening := notMem_putTime tm (name_chars .time _ (by decide +kernel)) (by decide) (by decide)
  closing := notMem_putTime tm (name_chars .time _ (by decide +kernel)) (by decide) (by decide)
  apart := fun i h => by
    have hdash : chr '-' ∈ tm.putTime :=
      List.mem_append_right _ (List.mem_append_left _ List.mem_cons_self)
    exact name_chars i _ (h.subset hdash) (.inr rfl)

theorem levelstr_inert (level : Xlog) : placeholders.Inert (Logger.levelstr level) where
  opening := by cases level <;> decide +kernel
  closing := by cases level <;> decide +kernel
  apart := fun i => by cases level <;> cases i <;> decide +kernel

theorem line_foreign (line : Int) :
    Foreign LogField.file.name LogField.line.name (bytes (toString line)) :=
  ⟨number_ne_nil line, fun c hc => ⟨fun h => name_chars .file c h (number_chars line c hc),
    fun h => name_chars .line c h (number_chars line c hc)⟩⟩

-- ---------------------------------------------------------------------------
-- The replacements
-- ---------------------------------------------------------------------------

section

variable {template : Bytes} {value : LogField → Bytes} (honce : ∀ i, placeholders.Once i template)

include honce

/-- A name is replaced in its own place where inert values only are before it. -/
theorem replace_inert (value : LogField → Bytes) (done : List LogField) (i : LogField)
    (hinert : ∀ j ∈ done, placeholders.Inert (value j)) (hi : i ∉ done) :
    replaceFirst i.name (value i) (placeholders.substitute (filled value done) template) =
      placeholders.substitute (filled value (i :: done)) template := by
  have hvalue : ∀ j, filled value done j = placeholders.name j ∨
      placeholders.Inert (filled value done j) := by
    intro j
    unfold filled
    split
    · rename_i hj
      exact .inr (hinert j hj)
    · exact .inl rfl
  rw [← filled_next]
  exact placeholders.replaceFirst_fill (honce i) (placeholders.ownFirst_inert hvalue (honce i))
    (if_neg hi) (value i)

theorem replace_three (htime : placeholders.Inert (value .time))
    (hlevel : placeholders.Inert (value .level)) :
    replaceFirst LogField.content.name (value .content) (replaceFirst LogField.level.name (value .level)
        (replaceFirst LogField.time.name (value .time) template)) =
      placeholders.substitute (filled value [.content, .level, .time]) template := by
  have hnone : placeholders.substitute (filled value []) template = template := by
    have hnames : filled value [] = placeholders.name := funext fun i => if_neg List.not_mem_nil
    rw [hnames, placeholders.substitute_self]
  have htimed := replace_inert honce value [] .time (fun j hj => absurd hj List.not_mem_nil)
    List.not_mem_nil
  have hleveled := replace_inert honce value [.time] .level
    (fun j hj => List.mem_singleton.mp hj ▸ htime) (by decide)
  have hcontent := replace_inert honce value [.level, .time] .content
    (fun j hj => by
      rcases List.mem_cons.mp hj with rfl | hj
      · exact hlevel
      · exact List.mem_singleton.mp hj ▸ htime) (by decide)
  rw [hnone] at htimed
  rw [htimed, hleveled, hcontent]

end

/-- Where a name is replaced the template has it, and only there. -/
structure FieldsOwn (value : LogField → Bytes) (template : Bytes) : Prop where
  file : placeholders.OwnFirst (filled value [.content, .level, .time]) .file template
  line : placeholders.OwnFirst (filled value [.file, .content, .level, .time]) .line template

def replaceTwo (value : LogField → Bytes) (text : Bytes) : Bytes :=
  replaceFirst LogField.line.name (value .line) (replaceFirst LogField.file.name (value .file) text)

theorem filled_all (value : LogField → Bytes) :
    filled value [.line, .file, .content, .level, .time] = value :=
  funext fun i => if_pos (by cases i <;> decide)

def three (value : LogField → Bytes) (s : Bytes) : Bytes :=
  placeholders.substitute (filled value [.content, .level, .time]) s

def all (value : LogField → Bytes) (s : Bytes) : Bytes := placeholders.substitute value s

theorem three_file (value : LogField → Bytes) (x y : Bytes) :
    three value (x ++ (LogField.file.name ++ y)) =
      three value x ++ (LogField.file.name ++ three value y) :=
  placeholders.substitute_append x .file y

theorem three_line (value : LogField → Bytes) (x y : Bytes) :
    three value (x ++ (LogField.line.name ++ y)) =
      three value x ++ (LogField.line.name ++ three value y) :=
  placeholders.substitute_append x .line y

theorem all_name (value : LogField → Bytes) (i : LogField) (x y : Bytes) :
    all value (x ++ (i.name ++ y)) = all value x ++ (value i ++ all value y) :=
  placeholders.substitute_append x i y

theorem name_bracketed (i : LogField) :
    Bracketed placeholders.opening placeholders.closing i.name := placeholders.bracketed i

theorem file_ne_line : LogField.file.name ≠ LogField.line.name := by
  decide +kernel

theorem all_eq_three {value : LogField → Bytes} (hfile : ¬LogField.file.name <:+: s)
    (hline : ¬LogField.line.name <:+: s) : all value s = three value s := by
  refine placeholders.substitute_congr fun i hi => ?_
  have hdone : i ∈ [LogField.content, .level, .time] := by
    cases i with
    | time | level | content => decide
    | file => exact absurd hi hfile
    | line => exact absurd hi hline
  exact (if_pos hdone).symm

section

variable {template : Bytes} {value : LogField → Bytes} (honce : ∀ i, placeholders.Once i template)

include honce

theorem replace_file (h : placeholders.OwnFirst (filled value [.content, .level, .time]) .file template) :
    replaceFirst LogField.file.name (value .file) (three value template) =
      placeholders.substitute (filled value [.file, .content, .level, .time]) template := by
  rw [← filled_next value _ .file]
  exact placeholders.replaceFirst_fill (honce .file) h rfl (value .file)

theorem replaceTwo_own (h : FieldsOwn value template) :
    replaceTwo value (three value template) = all value template := by
  rw [replaceTwo, replace_file honce h.file]
  have hall := placeholders.replaceFirst_fill (honce .line) h.line rfl (value .line)
  rwa [filled_next, filled_all] at hall

theorem once_around (i : LogField) (hs : template = x ++ (i.name ++ y)) :
    ¬i.name <:+: x ∧ ¬i.name <:+: y := (honce i).around placeholders hs

variable (hl : Foreign LogField.file.name LogField.line.name (value .line)) (hf : value .file ≠ [])
  (hfile : ¬LogField.file.name <:+: value .file)

include hl hf hfile

theorem file_not_swapped (heq : replaceTwo value (three value template) = all value template)
    (hs : template = x ++ (LogField.file.name ++ y)) : ¬LogField.file.name <:+: three value x := by
  intro hin
  have hne := placeholders.ne
  have hF := name_bracketed .file
  have hL := name_bracketed .line
  obtain ⟨hx, hy⟩ := once_around honce .file hs
  obtain ⟨u, w, huw, -, hreplaced⟩ := replaceFirst_within hne hF hin (value .file)
    (LogField.file.name ++ three value y)
  rw [← three_file, ← hs] at hreplaced
  rw [replaceTwo, hreplaced] at heq
  refine replaced_swapped hne hF hL file_ne_line hl hf hfile ?_ heq
  rw [hs, all_name]
  by_cases hline : LogField.line.name <:+: template
  · obtain ⟨p, q, hpq⟩ := hline
    rw [List.append_assoc] at hpq
    obtain ⟨hp, hq⟩ := once_around honce .line hpq.symm
    right
    rcases hF.apart hne hL (hs.symm.trans hpq.symm) with ⟨-, hsame, -⟩ | ⟨m, rfl, rfl⟩ | ⟨m, rfl, rfl⟩
    · exact absurd hsame file_ne_line
    · -- the line is behind the file
      obtain ⟨hxl, -, hml⟩ := absent_parts hp
      obtain ⟨hmf, -, hqf⟩ := absent_parts hy
      refine .inr ⟨three value m, three value q, three_line value m q, ?_⟩
      rw [all_name, all_eq_three hx hxl, all_eq_three hmf hml, all_eq_three hqf hq, huw]
      simp only [List.append_assoc]
    · obtain ⟨hpf, -, hmf⟩ := absent_parts hx
      obtain ⟨hml, -, hyl⟩ := absent_parts hq
      refine .inl ⟨three value p, three value m, huw.symm.trans (three_line value p m), ?_⟩
      rw [all_name, all_eq_three hpf hp, all_eq_three hmf hml, all_eq_three hy hyl]
      simp only [List.append_assoc]
  · rw [hs] at hline
    obtain ⟨hxl, -, hyl⟩ := absent_parts hline
    left
    rw [all_eq_three hx hxl, all_eq_three hy hyl, huw]
    simp only [List.append_assoc]

theorem file_not_stray (heq : replaceTwo value (three value template) = all value template)
    (hnot : ¬LogField.file.name <:+: template) : ¬LogField.file.name <:+: three value template := by
  intro hin
  have hne := placeholders.ne
  have hF := name_bracketed .file
  have hL := name_bracketed .line
  obtain ⟨u, z, huz, hu, hnew⟩ := (replaceFirst_cases hF.ne_nil (value .file)
    (three value template)).resolve_left fun h => h.2 hin
  rw [replaceTwo, hnew] at heq
  refine replaced_stray hne hF hL file_ne_line hl hf hfile ?_ heq
  by_cases hline : LogField.line.name <:+: template
  · obtain ⟨p, q, hpq⟩ := hline
    rw [List.append_assoc] at hpq
    obtain ⟨hp, hq⟩ := once_around honce .line hpq.symm
    rw [← hpq] at hnot huz ⊢
    obtain ⟨hpf, -, hqf⟩ := absent_parts hnot
    refine .inr ⟨three value p, three value q, huz.symm.trans (three_line value p q), ?_⟩
    rw [all_name, all_eq_three hpf hp, all_eq_three hqf hq]
  · exact .inl ((all_eq_three hnot hline).trans huz)

/-- A file name without the name of its field in it shows where it was put. -/
theorem ownFile_of_replaceTwo (heq : replaceTwo value (three value template) = all value template) :
    placeholders.OwnFirst (filled value [.content, .level, .time]) .file template :=
  ⟨fun _ _ hs => file_not_swapped honce hl hf hfile heq hs, file_not_stray honce hl hf hfile heq⟩

end

/-- The template filled in at once, if each name is replaced in its own place;
and only then if the file name is not empty and has no `{file}` in it. -/
theorem format_substitutes {template log file : Bytes} {level : Xlog} {line unixSec : Int} {tm : Tm}
    (htm : getnow unixSec 8 = .ok tm) (honce : ∀ i, placeholders.Once i template) :
    (FieldsOwn (fieldValue tm (Logger.levelstr level) log file line) template →
      format template (Logger.levelstr level) log file line unixSec =
        .ok (placeholders.substitute (fieldValue tm (Logger.levelstr level) log file line) template)) ∧
    (file ≠ [] → ¬bytes "{file}" <:+: file →
      format template (Logger.levelstr level) log file line unixSec =
        .ok (placeholders.substitute (fieldValue tm (Logger.levelstr level) log file line) template) →
      FieldsOwn (fieldValue tm (Logger.levelstr level) log file line) template) := by
  have hformat : format template (Logger.levelstr level) log file line unixSec =
      .ok (replaceTwo (fieldValue tm (Logger.levelstr level) log file line)
        (three (fieldValue tm (Logger.levelstr level) log file line) template)) := by
    rw [three, ← replace_three honce (putTime_inert tm) (levelstr_inert level), format, htm, ok_bind]
    rfl
  have hl : Foreign LogField.file.name LogField.line.name
      (fieldValue tm (Logger.levelstr level) log file line .line) := line_foreign line
  refine ⟨fun hown => ?_, fun hne hfile heq => ?_⟩
  · rw [hformat, replaceTwo_own honce hown]
    rfl
  · rw [hformat] at heq
    have htwo := Except.ok.inj heq
    have hown := ownFile_of_replaceTwo honce hl hne hfile htwo
    refine ⟨hown, ?_⟩
    rw [replaceTwo, replace_file honce hown] at htwo
    refine placeholders.ownFirst_of_replaceFirst (honce .line) rfl hl.1
      (hl.notMem_opening (placeholders.bracketed .file)) ?_
    rw [filled_next, filled_all]
    exact htwo

theorem getnow_epoch : getnow 0 8 =
    .ok { sec := 0, min := 0, hour := 8, mday := 1, mon := 0, year := 70 } := by
  rfl

theorem format_substitutes_example :
    format (bytes "{time} [{level}] {content} ({file}:{line})") (bytes "info") (bytes "started")
      (bytes "main.cpp") 7 0 = .ok (bytes "1970-01-01 08:00:00 [info] started (main.cpp:7)") ∧
    FieldsOwn (fieldValue { sec := 0, min := 0, hour := 8, mday := 1, mon := 0, year := 70 }
      (bytes "info") (bytes "started") (bytes "main.cpp") 7)
      (bytes "{time} [{level}] {content} ({file}:{line})") := by
  have honce : ∀ i, placeholders.Once i (bytes "{time} [{level}] {content} ({file}:{line})") := by
    intro i
    refine placeholders.once_of_positions i ?_
    cases i <;> decide +kernel
  have hformat : format (bytes "{time} [{level}] {content} ({file}:{line})") (bytes "info") (bytes "started")
      (bytes "main.cpp") 7 0 = .ok (bytes "1970-01-01 08:00:00 [info] started (main.cpp:7)") := by
    decide +kernel
  refine ⟨hformat, (@format_substitutes _ (bytes "started") (bytes "main.cpp") .info 7 0 _
    getnow_epoch honce).2 (by decide) (by decide +kernel) (hformat.trans ?_)⟩
  decide +kernel

/-- A message with the name of a field in it. -/
theorem message_altered :
    format (bytes "{content}") (bytes "info") (bytes "{file}") (bytes "main.cpp") 7 0 =
      .ok (bytes "main.cpp") ∧
    placeholders.substitute
      (fieldValue { sec := 0, min := 0, hour := 8, mday := 1, mon := 0, year := 70 }
        (bytes "info") (bytes "{file}") (bytes "main.cpp") 7) (bytes "{content}") = bytes "{file}" ∧
    ∀ i, placeholders.Once i (bytes "{content}") :=
  ⟨rfl, by decide +kernel, (placeholders.once_single · .content)⟩

end UserFormat

end MudouHttp
