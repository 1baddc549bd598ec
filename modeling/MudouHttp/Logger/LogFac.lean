import MudouHttp.Logger.Records
import MudouHttp.Logger.XConfig

/-!
# LogFac

`LogFac::Init` of `logger/log_fac.cpp`: what the configuration file says of the level,
the format and the output. A file whose last lines set all four keys gives these
settings whatever stands before, but `debug` does not lower the level
(`init_config`).
-/

namespace MudouHttp

open Lib (assign assign_append assign_last LastOf)

inductive Formater
  | xlog
  | user (userFormat : Bytes)
  deriving DecidableEq

inductive LogOutput
  | console
  | file (name : Bytes)
  deriving DecidableEq

structure LogSettings where
  level : Xlog
  formater : Formater
  out : LogOutput
  deriving DecidableEq

namespace LogFac

def logfile : Bytes := bytes "log.txt"

/-- `Init` of a logger that has a level, with what the configuration file contains and
which files can be opened. -/
def init (fuel : Nat) (opens : Bytes → Bool) (level : Xlog) (conFile : Option Bytes) :
    Except Fault LogSettings := do
  let (re, conf) ← XConfig.new.read fuel conFile
  let logType := if re then conf.get (bytes "log_type") else bytes "console"
  let logFile := if re then conf.get (bytes "log_file") else bytes "log.txt"
  let logLevel := if re then conf.get (bytes "log_level") else bytes "debug"
  let logUserFormat := if re then conf.get (bytes "log_user_format") else []
  let formater := if logUserFormat.isEmpty then .xlog else .user logUserFormat
  let level :=
    if logLevel = bytes "info" then .info
    else if logLevel = bytes "warning" then .warning
    else if logLevel = bytes "error" then .error
    else if logLevel = bytes "fatal" then .fatal
    else level
  let out :=
    if contains logType (bytes "file") then
      let logFile := if logFile.isEmpty then logfile else logFile
      if opens logFile then .file logFile else .console
    else .console
  pure { level := level, formater := formater, out := out }

end LogFac

-- ---------------------------------------------------------------------------
-- The lines of a configuration
-- ---------------------------------------------------------------------------

def Formater.text : Formater → Bytes
  | .xlog => []
  | .user userFormat => userFormat

def LogOutput.type : LogOutput → Bytes
  | .console => bytes "console"
  | .file _ => bytes "file"

def LogOutput.name : LogOutput → Bytes
  | .console => []
  | .file name => name

def configLine (e : Bytes × Bytes) : Bytes := e.1 ++ chr '=' :: (e.2 ++ [10])

namespace LogSettings

def entries (s : LogSettings) : List (Bytes × Bytes) :=
  [(bytes "log_type", s.out.type), (bytes "log_file", s.out.name),
    (bytes "log_level", Logger.levelstr s.level), (bytes "log_user_format", s.formater.text)]

def config (s : LogSettings) : Bytes := s.entries.flatMap configLine

/-- What the file says can be said in a line, and the log file can be opened. -/
structure Configurable (s : LogSettings) (opens : Bytes → Bool) : Prop where
  format : ∀ text, s.formater = .user text → text ≠ [] ∧ 10 ∉ text
  file : ∀ name, s.out = .file name → name ≠ [] ∧ 10 ∉ name ∧ opens name = true

end LogSettings

namespace XConfig

theorem lineEntries_ended (h : Logger.Ended other) (content : Bytes) :
    lineEntries (other ++ content) = lineEntries other ++ lineEntries content := by
  rcases h with rfl | ⟨text, rfl⟩
  · rfl
  · have hsplit : ∀ rest, lineEntries (text ++ [10] ++ rest) = lineEntries text ++ lineEntries rest := by
      intro rest
      rw [lineEntries, List.append_assoc, List.singleton_append, List.splitOn_append_cons_self,
        List.filterMap_append]
      rfl
    have hother := hsplit []
    rw [List.append_nil, show lineEntries [] = [] from rfl, List.append_nil] at hother
    rw [hsplit, hother]

theorem lastLine_ended (text : Bytes) : lastLine (text ++ [10]) = [] := by
  simp only [lastLine, List.splitOn_append_cons_self]
  exact List.getLast_append_singleton _

theorem configLine_append (e : Bytes × Bytes) (rest : Bytes) :
    configLine e ++ rest = (e.1 ++ chr '=' :: e.2) ++ 10 :: rest := by
  simp [configLine]

/-- Lines `k=v` are read as they are written. -/
theorem lineEntries_config {fields : List (Bytes × Bytes)}
    (h : ∀ e ∈ fields, Bare e.1 ∧ 10 ∉ e.1 ∧ 10 ∉ e.2) :
      lineEntries (fields.flatMap configLine) = fields := by
  induction fields with
  | nil => rfl
  | cons e fields ih =>
    obtain ⟨⟨hbare, hk, hv⟩, hfields⟩ := List.forall_mem_cons.mp h
    have hline : 10 ∉ e.1 ++ chr '=' :: e.2 := by
      simp only [List.mem_append, List.mem_cons, hk, hv, false_or, or_false]
      decide
    have hentry : lineEntry (e.1 ++ chr '=' :: e.2) = some e := by
      rw [lineEntry_of_not_bare fun hb => hb.2 (by simp)]
      exact keyValue_line hbare e.2
    rw [List.flatMap_cons, configLine_append, lineEntries_more hline, hentry, ih hfields]
    rfl

end XConfig

namespace LogSettings

theorem entries_lines {s : LogSettings} (h : s.Configurable opens) :
    ∀ e ∈ s.entries, XConfig.Bare e.1 ∧ 10 ∉ e.1 ∧ 10 ∉ e.2 := by
  have htype : 10 ∉ s.out.type := by
    cases s.out with
    | console => exact (by decide +kernel : 10 ∉ bytes "console")
    | file name => exact (by decide +kernel : 10 ∉ bytes "file")
  have hname : 10 ∉ s.out.name := by
    cases hout : s.out with
    | console => exact List.not_mem_nil
    | file name => exact (h.file name hout).2.1
  have htext : 10 ∉ s.formater.text := by
    cases hformat : s.formater with
    | xlog => exact List.not_mem_nil
    | user text => exact (h.format text hformat).2
  have hkeys : (XConfig.Bare (bytes "log_type") ∧ 10 ∉ bytes "log_type") ∧
      (XConfig.Bare (bytes "log_file") ∧ 10 ∉ bytes "log_file") ∧
      (XConfig.Bare (bytes "log_level") ∧ 10 ∉ bytes "log_level") ∧
      XConfig.Bare (bytes "log_user_format") ∧ 10 ∉ bytes "log_user_format" := by decide +kernel
  obtain ⟨hkey₁, hkey₂, hkey₃, hkey₄⟩ := hkeys
  intro e he
  simp only [entries, List.mem_cons, List.not_mem_nil, or_false] at he
  rcases he with rfl | rfl | rfl | rfl
  · exact ⟨hkey₁.1, hkey₁.2, htype⟩
  · exact ⟨hkey₂.1, hkey₂.2, hname⟩
  · exact ⟨hkey₃.1, hkey₃.2, (Logger.levelstr_word s.level).2⟩
  · exact ⟨hkey₄.1, hkey₄.2, htext⟩

theorem config_ended (s : LogSettings) : ∃ text, s.config = text ++ [10] := by
  refine ⟨(s.entries.take 3).flatMap configLine ++
    (bytes "log_user_format" ++ chr '=' :: s.formater.text), ?_⟩
  simp [config, entries, configLine]

theorem get_entries (s : LogSettings) (m : StrMap) :
    XConfig.get { conf := assign m s.entries } (bytes "log_type") = s.out.type ∧
    XConfig.get { conf := assign m s.entries } (bytes "log_file") = s.out.name ∧
    XConfig.get { conf := assign m s.entries } (bytes "log_level") = Logger.levelstr s.level ∧
    XConfig.get { conf := assign m s.entries } (bytes "log_user_format") = s.formater.text := by
  have hget : ∀ k v, LastOf s.entries k v → XConfig.get { conf := assign m s.entries } k = v := by
    intro k v hlast
    show (assign m s.entries k).getD [] = v
    rw [assign_last hlast]
    rfl
  refine ⟨hget _ _ ⟨[], _, rfl, ?_⟩, hget _ _ ⟨s.entries.take 1, _, rfl, ?_⟩,
    hget _ _ ⟨s.entries.take 2, _, rfl, ?_⟩, hget _ _ ⟨s.entries.take 3, [], rfl, List.not_mem_nil⟩⟩
  · show bytes "log_type" ∉ [bytes "log_file", bytes "log_level", bytes "log_user_format"]
    decide +kernel
  · show bytes "log_file" ∉ [bytes "log_level", bytes "log_user_format"]
    decide +kernel
  · show bytes "log_level" ∉ [bytes "log_user_format"]
    decide +kernel

end LogSettings

namespace LogFac

theorem read_config {s : LogSettings} (h : s.Configurable opens) (hother : Logger.Ended other) :
    ∃ fuel m, XConfig.new.read fuel (some (other ++ s.config)) =
      .ok (true, { conf := assign m s.entries }) := by
  obtain ⟨text, htext⟩ := s.config_ended
  have hlast : (XConfig.lastLine (other ++ s.config)).head? ≠ some (chr '=') := by
    rw [htext, ← List.append_assoc, XConfig.lastLine_ended]
    simp
  obtain ⟨fuel, hloop⟩ := XConfig.readLoop_ends (other ++ s.config) [] XConfig.new.conf hlast
  refine ⟨fuel, assign XConfig.new.conf (XConfig.lineEntries other), ?_⟩
  rw [XConfig.lineEntries_ended hother, LogSettings.config,
    XConfig.lineEntries_config (LogSettings.entries_lines h), assign_append] at hloop
  rw [XConfig.read, LogSettings.config, hloop]
  rfl

theorem formater_text {s : LogSettings} (h : s.Configurable opens) :
    (if s.formater.text.isEmpty then .xlog else .user s.formater.text) = s.formater := by
  cases hformat : s.formater with
  | xlog => rfl
  | user text =>
    rw [Formater.text, if_neg]
    exact mt List.isEmpty_iff.mp (h.format text hformat).1

theorem out_type {s : LogSettings} (h : s.Configurable opens) :
    (if contains s.out.type (bytes "file") then
      if opens (if s.out.name.isEmpty then logfile else s.out.name) then
        .file (if s.out.name.isEmpty then logfile else s.out.name)
      else .console
    else .console) = s.out := by
  cases hout : s.out with
  | console =>
    rw [LogOutput.type, if_neg (by decide +kernel)]
  | file name =>
    obtain ⟨hname, -, hopens⟩ := h.file name hout
    rw [LogOutput.type, if_pos (by decide +kernel), LogOutput.name, if_neg (mt List.isEmpty_iff.mp hname),
      if_pos hopens]

theorem level_levelstr (level old : Xlog) :
    (if Logger.levelstr level = bytes "info" then .info
    else if Logger.levelstr level = bytes "warning" then .warning
    else if Logger.levelstr level = bytes "error" then .error
    else if Logger.levelstr level = bytes "fatal" then .fatal
    else old) = if level = .debug then old else level := by
  cases level <;> cases old <;> decide +kernel

/-- Whatever stands before: a file that ends with the lines of these settings gives
them, except that the level is not set back to `debug`. -/
theorem init_config {s : LogSettings} (h : s.Configurable opens) (hother : Logger.Ended other)
    (level : Xlog) :
    ∃ fuel, init fuel opens level (some (other ++ s.config)) =
      .ok { s with level := if s.level = .debug then level else s.level } := by
  obtain ⟨fuel, m, hread⟩ := read_config h hother
  obtain ⟨htype, hname, hlevel, htext⟩ := s.get_entries m
  refine ⟨fuel, ?_⟩
  rw [init, hread, ok_bind]
  dsimp only
  rw [if_pos rfl, if_pos rfl, if_pos rfl, if_pos rfl, htype, hname, hlevel, htext, formater_text h,
    level_levelstr, out_type h]
  rfl

/-- The level and the file of the first lines are not those that hold. -/
theorem init_config_example : ∃ fuel,
    init fuel (fun _ => true) .debug
      (some (bytes "log_level=info\nlog_file=old.txt\n" ++
        LogSettings.config ⟨.error, .user (bytes "{time} {content}"), .file (bytes "server.log")⟩)) =
      .ok ⟨.error, .user (bytes "{time} {content}"), .file (bytes "server.log")⟩ := by
  refine init_config (s := ⟨.error, .user (bytes "{time} {content}"), .file (bytes "server.log")⟩)
    ⟨fun text htext => ?_, fun name hname => ?_⟩ (.inr ⟨bytes "log_level=info\nlog_file=old.txt", ?_⟩) .debug
  · cases htext
    exact ⟨by decide +kernel, by decide +kernel⟩
  · cases hname
    exact ⟨by decide +kernel, by decide +kernel, rfl⟩
  · decide +kernel

end LogFac

end MudouHttp
