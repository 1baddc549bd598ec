import Mathlib.Data.List.Forall2
import MudouHttp.Lib.Fields
import MudouHttp.Logger.Messages
import MudouHttp.Logger.UserFormat

/-!
# The records of a log file

The default format of `logger/xlog_format.cpp` and the file output of
`logger/log_file_output.cpp`: a line with the time, the level, the message, the file
and the line of the call. Where no message has a line end and no file name a space,
the log file of any run is read back call by call (`log_reads_back`).
-/

namespace MudouHttp

open Lib (cut cut_append cutLast cutLast_append)

def XLogFormat.format (level log file : Bytes) (line unixSec : Int) : Except Fault Bytes := do
  let tm ← getNow unixSec 8
  pure (tm.putTime ++ (bytes " " ++ (level ++ (bytes " " ++ (log ++ (bytes " " ++ (file ++ (bytes ":" ++
    bytes (toString line)))))))))

def LogFileOutput.output (ofs log : Bytes) : Bytes := ofs ++ log ++ bytes "\n"

namespace Logger

def xlogFormat : LogFormat := fun now level log file line =>
  ((XLogFormat.format level log file line now).toOption).getD []

/-- The file after the outputs; it is opened to append. -/
def logFile (old : Bytes) (outputs : List Bytes) : Bytes := outputs.foldl LogFileOutput.output old

-- ---------------------------------------------------------------------------
-- Reading a record
-- ---------------------------------------------------------------------------

def readInt (text : Bytes) : Int :=
  match text with
  | [] => 0
  | c :: digits => if c = chr '-' then -(readNat digits : Int) else readNat (c :: digits)

def readTm (date time : Bytes) : Option Tm := do
  let (year, rest) ← cut (chr '-') date
  let (mon, mday) ← cut (chr '-') rest
  let (hour, rest) ← cut (chr ':') time
  let (min, sec) ← cut (chr ':') rest
  pure { sec := readNat sec, min := readNat min, hour := readNat hour, mday := readNat mday
         mon := readNat mon - 1, year := readNat year - 1900 }

def readLevel (text : Bytes) : Option Xlog :=
  [.debug, .info, .warning, .error, .fatal].find? (levelstr · = text)

/-- The file stands after the last space, the line after the last colon. -/
def readRecord (text : Bytes) : Option (Tm × LogCall) := do
  let (date, rest) ← cut 32 text
  let (time, rest) ← cut 32 rest
  let tm ← readTm date time
  let (level, rest) ← cut 32 rest
  let level ← readLevel level
  let (front, line) ← cutLast (chr ':') rest
  let (log, file) ← cutLast 32 front
  pure (tm, { level := level, log := log, file := file, line := readInt line })

/-- What stands after the last line end is not yet a record. -/
def readLog (content : Bytes) : List (Option (Tm × LogCall)) :=
  (content.splitOn 10).dropLast.map readRecord

/-- The message is one line, and the file name one word. -/
structure Plain (call : LogCall) : Prop where
  log : 10 ∉ call.log
  file : 10 ∉ call.file
  word : 32 ∉ call.file

-- ---------------------------------------------------------------------------
-- Numbers
-- ---------------------------------------------------------------------------

theorem readNat_zero (digits : Bytes) : readNat (bytes "0" ++ digits) = readNat digits := by
  rw [readNat, readNat]
  rfl

theorem readInt_decimal (n : Nat) : readInt (bytes (toString n)) = n := by
  have hread := readNat_decimal n
  cases hdigits : bytes (toString n) with
  | nil => exact absurd hdigits (decimal_ne_nil n)
  | cons c digits =>
    have hdigit := decimal_digits n c (by rw [hdigits]; exact List.mem_cons_self)
    have hsign : c ≠ chr '-' := by
      rintro rfl
      exact absurd hdigit.1 (by decide)
    rw [hdigits] at hread
    rw [readInt, if_neg hsign, hread]

theorem readInt_toString (i : Int) : readInt (bytes (toString i)) = i := by
  rw [Int.toString_eq_repr, Int.repr_eq_if]
  split
  · rename_i h
    exact (readInt_decimal i.toNat).trans (Int.toNat_of_nonneg h)
  · rename_i h
    rw [bytes_append]
    show -(readNat (bytes (toString (-i).toNat)) : Int) = i
    rw [readNat_decimal]
    omega

theorem readNat_int {i : Int} (h : i = (n : Nat)) : readNat (bytes (toString i)) = n := by
  subst h
  exact readNat_decimal n

theorem readNat_twoDigits {i : Int} (h : i = (n : Nat)) : readNat (twoDigits i) = n := by
  unfold twoDigits
  split
  · rw [readNat_zero, readNat_int h]
  · exact readNat_int h

theorem digits_int {i : Int} (h : i = (n : Nat)) : ∀ c ∈ bytes (toString i), 48 ≤ c ∧ c ≤ 57 := by
  subst h
  exact decimal_digits n

theorem digits_twoDigits {i : Int} (h : i = (n : Nat)) : ∀ c ∈ twoDigits i, 48 ≤ c ∧ c ≤ 57 := by
  unfold twoDigits
  split
  · intro c hc
    rcases List.mem_append.mp hc with hzero | hdigit
    · obtain rfl := List.mem_singleton.mp hzero
      decide
    · exact digits_int h c hdigit
  · exact digits_int h

-- ---------------------------------------------------------------------------
-- The time
-- ---------------------------------------------------------------------------

def dateText (tm : Tm) : Bytes :=
  bytes (toString (tm.year + 1900)) ++ chr '-' :: (twoDigits (tm.mon + 1) ++ chr '-' :: twoDigits tm.mday)

def clockText (tm : Tm) : Bytes :=
  twoDigits tm.hour ++ chr ':' :: (twoDigits tm.min ++ chr ':' :: twoDigits tm.sec)

theorem putTime_split (tm : Tm) : tm.putTime = dateText tm ++ 32 :: clockText tm := by
  unfold Tm.putTime dateText clockText
  simp only [List.append_assoc, List.cons_append]
  rfl

theorem digits_without {text : Bytes} (h : ∀ c ∈ text, 48 ≤ c ∧ c ≤ 57) (hc : ¬(48 ≤ c ∧ c ≤ 57)) :
    c ∉ text :=
  fun hmem => hc (h c hmem)

theorem readTm_text {tm : Tm} (h : tm.Shows seconds) : readTm (dateText tm) (clockText tm) = some tm := by
  obtain ⟨⟨hyear, hmon, hmday⟩, hhour, hmin, hsec⟩ := h
  replace hhour : tm.hour = (seconds / 3600 % 24 : Nat) := hhour
  replace hmin : tm.min = (seconds / 60 % 60 : Nat) := hmin
  replace hsec : tm.sec = (seconds % 60 : Nat) := hsec
  have hdash : ¬(48 ≤ chr '-' ∧ chr '-' ≤ 57) := by decide
  have hcolon : ¬(48 ≤ chr ':' ∧ chr ':' ≤ 57) := by decide
  simp only [readTm, dateText, clockText, cut_append (digits_without (digits_int hyear) hdash),
    cut_append (digits_without (digits_twoDigits hmon) hdash),
    cut_append (digits_without (digits_twoDigits hhour) hcolon),
    cut_append (digits_without (digits_twoDigits hmin) hcolon), Option.bind_eq_bind, Option.bind_some,
    readNat_int hyear, readNat_twoDigits hmon, readNat_twoDigits hmday, readNat_twoDigits hhour,
    readNat_twoDigits hmin, readNat_twoDigits hsec]
  rw [← hyear, ← hmon, ← hmday, ← hhour, ← hmin, ← hsec, Int.add_sub_cancel, Int.add_sub_cancel]
  rfl

-- ---------------------------------------------------------------------------
-- A record
-- ---------------------------------------------------------------------------

theorem readLevel_levelstr (level : Xlog) : readLevel (levelstr level) = some level := by
  cases level <;> decide +kernel

theorem levelstr_word (level : Xlog) : 32 ∉ levelstr level ∧ 10 ∉ levelstr level := by
  cases level <;> decide +kernel

theorem number_without {c : UInt8} (i : Int) (h : ¬NumberChar c) : c ∉ bytes (toString i) :=
  fun hmem => h (number_chars i c hmem)

theorem dateText_word (tm : Tm) : 32 ∉ dateText tm := by
  have hspace : ¬NumberChar 32 := by unfold NumberChar; decide
  have hdigits : ∀ i, 32 ∉ twoDigits i := fun i h => hspace (UserFormat.twoDigits_chars i 32 h)
  simp only [dateText, List.mem_append, List.mem_cons, number_without _ hspace, hdigits, false_or, or_false]
  decide

theorem clockText_word (tm : Tm) : 32 ∉ clockText tm := by
  have hspace : ¬NumberChar 32 := by unfold NumberChar; decide
  have hdigits : ∀ i, 32 ∉ twoDigits i := fun i h => hspace (UserFormat.twoDigits_chars i 32 h)
  simp only [clockText, List.mem_append, List.mem_cons, hdigits, false_or, or_false]
  decide

structure Recorded (text : Bytes) (tm : Tm) (call : LogCall) : Prop where
  line : 10 ∉ text
  read : readRecord text = some (tm, call)

theorem format_recorded {call : LogCall} {now : Nat} (h : Plain call) (hnow : now < 60 * (2 ^ 31 - 1)) :
    ∃ tm, tm.Shows (now + 28800) ∧ Recorded (formatted xlogFormat now call) tm call := by
  obtain ⟨tm, hclock, -, hshows⟩ := getNow_ok hnow
  have htext : formatted xlogFormat now call = tm.putTime ++ (bytes " " ++ (levelstr call.level ++
      (bytes " " ++ (call.log ++
        (bytes " " ++ (call.file ++ (bytes ":" ++ bytes (toString call.line)))))))) := by
    rw [formatted, xlogFormat, XLogFormat.format, hclock]
    rfl
  have hcuts : formatted xlogFormat now call = dateText tm ++ 32 :: (clockText tm ++ 32 ::
      (levelstr call.level ++ 32 :: ((call.log ++ 32 :: call.file) ++ chr ':' ::
        bytes (toString call.line)))) := by
    rw [htext, putTime_split]
    simp only [List.append_assoc, List.cons_append]
    rfl
  have hcolon : chr ':' ∉ bytes (toString call.line) :=
    number_without _ (by unfold NumberChar; decide)
  refine ⟨tm, hshows, ?_, ?_⟩
  · have htime : 10 ∉ tm.putTime :=
      UserFormat.notMem_putTime tm (by unfold NumberChar; decide) (by decide) (by decide)
    have hline : 10 ∉ bytes (toString call.line) := number_without _ (by unfold NumberChar; decide)
    have hmarks : 10 ∉ bytes " " ∧ 10 ∉ bytes ":" := by decide +kernel
    simp only [htext, List.mem_append, htime, hline, hmarks, (levelstr_word call.level).2, h.log, h.file,
      or_false, not_false_eq_true]
  · simp only [hcuts, readRecord, cut_append (dateText_word tm), cut_append (clockText_word tm),
      cut_append (levelstr_word call.level).1, cutLast_append _ hcolon, cutLast_append _ h.word,
      Option.bind_eq_bind, Option.bind_some, readTm_text hshows, readLevel_levelstr, readInt_toString]
    rfl

-- ---------------------------------------------------------------------------
-- The file
-- ---------------------------------------------------------------------------

def Ended (content : Bytes) : Prop := content = [] ∨ ∃ text, content = text ++ [10]

theorem readLog_ended (h : Ended old) (content : Bytes) :
    readLog (old ++ content) = readLog old ++ readLog content := by
  rcases h with rfl | ⟨text, rfl⟩
  · rfl
  · have hsplit : ∀ rest, (text ++ [10] ++ rest).splitOn 10 = text.splitOn 10 ++ rest.splitOn 10 := by
      intro rest
      rw [List.append_assoc]
      exact List.splitOn_append_cons_self text rest
    have hold := hsplit []
    rw [List.append_nil] at hold
    rw [readLog, readLog, readLog, hsplit, hold,
      List.dropLast_append_of_ne_nil (List.splitOn_ne_nil 10 content),
      List.map_append]
    simp

theorem readLog_output (h : Recorded text tm call) (rest : Bytes) :
    readLog (text ++ bytes "\n" ++ rest) = some (tm, call) :: readLog rest := by
  have hsplit : (text ++ bytes "\n" ++ rest).splitOn 10 = text :: rest.splitOn 10 := by
    rw [List.append_assoc, show bytes "\n" ++ rest = 10 :: rest from rfl]
    exact List.splitOn_append_cons_self_of_not_mem h.line rest
  rw [readLog, hsplit, List.dropLast_cons_of_ne_nil (List.splitOn_ne_nil 10 rest), List.map_cons, h.read]
  rfl

/-- A message that was formatted while the clock's `int` did not overflow. -/
def Legible (message : LogCall × Bytes) : Prop :=
  Plain message.1 ∧ ∃ now < 60 * (2 ^ 31 - 1), message.2 = formatted xlogFormat now message.1

/-- What is read is the call, and the time when it was formatted. -/
def ReadBack (message : LogCall × Bytes) (record : Option (Tm × LogCall)) : Prop :=
  ∃ now tm, message.2 = formatted xlogFormat now message.1 ∧ tm.Shows (now + 28800) ∧
    record = some (tm, message.1)

theorem readLog_file (hold : Ended old) (messages : List (LogCall × Bytes))
    (h : ∀ message ∈ messages, Legible message) :
    ∃ records, readLog (logFile old (messages.map Prod.snd)) = readLog old ++ records ∧
      List.Forall₂ ReadBack messages records := by
  induction messages generalizing old with
  | nil => exact ⟨[], (List.append_nil _).symm, .nil⟩
  | cons message messages ih =>
    obtain ⟨⟨hplain, now, hnow, htext⟩, hrest⟩ := List.forall_mem_cons.mp h
    obtain ⟨tm, hshows, hrecorded⟩ := format_recorded hplain hnow
    rw [← htext] at hrecorded
    have hended : Ended (LogFileOutput.output old message.2) := .inr ⟨old ++ message.2, rfl⟩
    obtain ⟨records, hread, hall⟩ := ih hended hrest
    have hone : readLog (LogFileOutput.output old message.2) = readLog old ++ [some (tm, message.1)] := by
      have hout := readLog_output hrecorded []
      rw [List.append_nil] at hout
      rw [LogFileOutput.output, List.append_assoc, readLog_ended hold, hout]
      rfl
    refine ⟨some (tm, message.1) :: records, ?_, .cons ⟨now, tm, htext, hshows, rfl⟩ hall⟩
    show readLog (logFile (LogFileOutput.output old message.2) (messages.map Prod.snd)) = _
    rw [hread, hone, List.append_assoc]
    rfl

-- ---------------------------------------------------------------------------
-- Runs
-- ---------------------------------------------------------------------------

/-- A call that is written is plain, and the clock's `int` does not overflow. -/
def Writes (_ : Logger) : Event → Prop
  | .write _ call now => Plain call ∧ now < 60 * (2 ^ 31 - 1)
  | _ => True

structure Carries (P : LogCall × Bytes → Prop) (level : Xlog) (s : Logger) : Prop where
  logLevel : s.logLevel = level
  pushed : ∀ message ∈ s.pushed, level.toNat ≤ message.1.level.toNat ∧ P message
  pushing : .pushing call text ∈ s.writers → level.toNat ≤ call.level.toNat ∧ P (call, text)

variable {P : LogCall × Bytes → Prop} {format : LogFormat}

theorem Carries.keep (h : Carries P level s) (hlevel : s'.logLevel = s.logLevel)
    (hpushed : s'.pushed = s.pushed) (hwriters : s'.writers = s.writers) : Carries P level s' :=
  ⟨hlevel.trans h.logLevel, hpushed ▸ h.pushed, hwriters ▸ h.pushing⟩

theorem Carries.change (h : Carries P level s)
    (hnew : ∀ i call now, e = .write i call now → P (call, formatted format now call))
    (hc : Change format s e s') : Carries P level s' := by
  cases hc with
  | @format i call now hi hhigh _ =>
    refine ⟨h.logLevel, h.pushed, fun hmem => ?_⟩
    rcases List.mem_or_eq_of_mem_set hmem with hmem | heq
    · exact h.pushing hmem
    · cases heq
      exact ⟨h.logLevel ▸ hhigh, hnew i call now rfl⟩
  | @push i text call hi _ =>
    refine ⟨h.logLevel, fun message hmem => ?_, fun hmem => ?_⟩
    · rcases List.mem_append.mp hmem with hmem | hmem
      · exact h.pushed message hmem
      · rw [List.mem_singleton.mp hmem]
        exact h.pushing (List.mem_of_getElem? hi)
    · rcases List.mem_or_eq_of_mem_set hmem with hmem | heq
      · exact h.pushing hmem
      · cases heq
  | notify hi =>
    refine ⟨h.logLevel, h.pushed, fun hmem => ?_⟩
    rcases List.mem_or_eq_of_mem_set hmem with hmem | heq
    · exact h.pushing hmem
    · cases heq
  | _ => exact h.keep rfl rfl rfl

theorem init_carries (level : Xlog) (threads : Nat) : Carries P level (init level threads) := by
  refine ⟨rfl, List.forall_mem_nil _, fun hmem => ?_⟩
  cases List.eq_of_mem_replicate hmem

/-- Whatever threads write and whenever the worker runs: the log file, read back, is
what it held before and then, in the order they were pushed, calls of sufficient level
with the time when each was formatted. Once the worker has returned these are all that
were pushed before `th_stop_` was set. -/
theorem log_reads_back (hold : Ended old) (h : Lib.Reach (step xlogFormat) Writes (init level threads) s) :
    ∃ records, readLog (logFile old s.outputs) = readLog old ++ records ∧
      List.Forall₂ ReadBack (s.pushed.take s.outputs.length) records ∧
      (∀ message ∈ s.pushed, level.toNat ≤ message.1.level.toNat) ∧
      (s.worker = .returned → s.due.length ≤ records.length) := by
  have hordered : Ordered s :=
    h.invariant (fun _ _ _ h _ hs => h.change (step_ok hs)) (init_ordered level threads)
  have hcarries : Carries Legible level s := by
    refine h.invariant (fun s e s' h hm hs => h.change (fun i call now he => ?_) (step_ok hs))
      (init_carries level threads)
    subst he
    obtain ⟨hplain, hnow⟩ := hm
    refine ⟨hplain, now, hnow, ?_⟩
    dsimp only
  have hprefix : s.outputs <+: s.pushed.map Prod.snd := by
    rw [← hordered.order, List.append_assoc]
    exact List.prefix_append _ _
  have houtputs : (s.pushed.take s.outputs.length).map Prod.snd = s.outputs := by
    rw [List.map_take]
    exact (List.prefix_iff_eq_take.mp hprefix).symm
  obtain ⟨records, hread, hall⟩ := readLog_file hold (s.pushed.take s.outputs.length)
    fun message hmem => (hcarries.pushed message (List.mem_of_mem_take hmem)).2
  rw [houtputs] at hread
  refine ⟨records, hread, hall, fun message hmem => (hcarries.pushed message hmem).1, fun hreturned => ?_⟩
  have hlength : s.outputs.length = records.length := by
    rw [← hall.length_eq, ← List.length_map (f := Prod.snd), houtputs]
  rw [← hlength]
  exact (hordered.exited hreturned).2.length_le

/-- The message quotes the end of a record. -/
theorem log_reads_back_example : ∃ s tm, Lib.Reach (step xlogFormat) Writes (init .info 1) s ∧
    s.worker = .returned ∧
    readLog (logFile [] s.outputs) = [some (tm, ⟨.error, bytes "bad a.cpp:7", bytes "main.cpp", 12⟩)] := by
  have hrun : (Lib.runs (step xlogFormat) (init .info 1)
      ([.write 0 ⟨.error, bytes "bad a.cpp:7", bytes "main.cpp", 12⟩ 1000000000, .addWorkLog 0, .destroy] ++
        List.replicate 8 .worker)).toOption.map (fun s =>
          (s.worker, s.outputs.length, s.pushed.map Prod.fst)) =
      some (.returned, 1, [⟨.error, bytes "bad a.cpp:7", bytes "main.cpp", 12⟩]) := by decide +kernel
  obtain ⟨s, hs, hview⟩ := view_ok _ hrun
  obtain ⟨hreturned, hlength, hpushed⟩ : s.worker = .returned ∧ s.outputs.length = 1 ∧
      s.pushed.map Prod.fst = [⟨.error, bytes "bad a.cpp:7", bytes "main.cpp", 12⟩] := by
    simpa using hview
  have hreach : Lib.Reach (step xlogFormat) Writes (init .info 1) s := by
    refine Lib.Reach.start.runs _ (Lib.AllMeet.of_forall (fun e he _ => ?_) _) hs
    simp only [List.mem_append, List.mem_cons, List.not_mem_nil, or_false] at he
    rcases he with (rfl | rfl | rfl) | he
    · exact ⟨⟨by decide +kernel, by decide +kernel, by decide +kernel⟩, by decide⟩
    · trivial
    · trivial
    · rw [List.eq_of_mem_replicate he]
      trivial
  obtain ⟨records, hread, hall, -, -⟩ := log_reads_back (.inl rfl) hreach
  obtain ⟨message, hmessage, hcall⟩ := List.map_eq_singleton_iff.mp hpushed
  rw [hlength, hmessage, List.take_succ_cons, List.take_zero] at hall
  cases hall with
  | cons hback hnil =>
    cases hnil
    obtain ⟨now, tm, -, -, hrecord⟩ := hback
    refine ⟨s, tm, hreach, hreturned, ?_⟩
    rw [hread, hrecord, hcall]
    rfl

end Logger

end MudouHttp
