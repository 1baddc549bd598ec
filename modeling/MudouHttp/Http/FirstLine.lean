import Mathlib.Data.List.Basic
import MudouHttp.Http.RequestLaws
import MudouHttp.Http.Pipelining
import MudouHttp.Lib.Lines

/-!
# The first line of a buffer

`readLine` finds a line only where a CR and an LF stand together, however the
bytes are spread over the blocks. But a CR that no LF follows is dropped, and
the byte behind it is not looked at again: if that is the CR of the line's end,
the line goes on. So the line is the bytes before the first CRLF exactly if
there is no CR among them (`readLine_splits_iff`).
-/

namespace MudouHttp

open BufferBlock (Valid)
open Lib (Line)

-- ---------------------------------------------------------------------------
-- The scan
-- ---------------------------------------------------------------------------

theorem Scan.run_consumed (sc : Scan) (s : Bytes) :
    (sc.run s).1.consumed ≤ sc.consumed + s.length := by
  induction s generalizing sc with
  | nil => exact Nat.le_refl _
  | cons c s ih =>
    have hnext : ∀ sc' : Scan, sc'.consumed = sc.consumed + 1 →
        (sc'.run s).1.consumed ≤ sc.consumed + (c :: s).length := by
      intro sc' hsc
      refine Nat.le_trans (ih sc') ?_
      rw [hsc, List.length_cons]
      omega
    cases hs : sc.state with
    | reading =>
      simp only [Scan.run, hs]
      split
      · exact hnext _ rfl
      · exact hnext _ rfl
    | foundCr =>
      simp only [Scan.run, hs]
      split
      · rw [List.length_cons]
        dsimp only
        omega
      · exact hnext _ rfl

/-- What the line is behind the bytes scanned: a pending CR and the bytes dropped. -/
def Scan.Lags (d : Nat) (sc : Scan) : Prop :=
  sc.line.length + d + (if sc.state = .foundCr then 1 else 0) ≤ sc.consumed

/-- A byte dropped is never made up for. -/
theorem Scan.run_lags {sc sc' : Scan} (hlag : sc.Lags d) (h : sc.run s = (sc', true)) :
    sc'.line.length + d + 2 ≤ sc'.consumed := by
  induction s generalizing sc with
  | nil => cases h
  | cons c s ih =>
    cases hs : sc.state with
    | reading =>
      simp only [Scan.Lags, hs, if_false, reduceCtorEq] at hlag
      simp only [Scan.run, hs] at h
      split at h
      · refine ih ?_ h
        simp only [Scan.Lags, if_true]
        omega
      · refine ih ?_ h
        simp only [Scan.Lags, if_false, reduceCtorEq, List.length_append, List.length_singleton]
        omega
    | foundCr =>
      simp only [Scan.Lags, hs, if_true] at hlag
      simp only [Scan.run, hs] at h
      split at h
      · cases h
        dsimp only
        omega
      · refine ih ?_ h
        simp only [Scan.Lags, if_false, reduceCtorEq, List.length_append, List.length_singleton]
        omega

-- ---------------------------------------------------------------------------
-- The line of a byte string
-- ---------------------------------------------------------------------------

/-- Behind a CR without an LF, the line found is shorter than what was scanned. -/
theorem lineOf_loneCr (hpre : 13 ∉ pre) (hx : x ≠ 10)
    (hlen : (pre ++ 13 :: x :: rest).length < 2 ^ 31) (line : Bytes) :
    lineOf (pre ++ 13 :: x :: rest) ≠ ((line.length : Int) + 2, line) := by
  intro h
  have hstart : Scan.start.run (pre ++ 13 :: x :: rest) =
      Scan.run { state := .reading, line := pre ++ [x], consumed := pre.length + 2 } rest := by
    rw [Scan.run_append, Scan.run_noCr rfl hpre]
    simp [Scan.run, Scan.start, hx]
  have hconsumed := Scan.run_consumed .start (pre ++ 13 :: x :: rest)
  rw [lineOf] at h
  cases hrun : Scan.start.run (pre ++ 13 :: x :: rest) with
  | mk sc found =>
    rw [hrun] at h hconsumed
    cases found with
    | false =>
      have hzero : (0 : Int) = line.length + 2 := congrArg Prod.fst h
      omega
    | true =>
      have hlag : Scan.Lags 1 { state := .reading, line := pre ++ [x], consumed := pre.length + 2 } := by
        simp [Scan.Lags]
      have hbehind := Scan.run_lags hlag (hstart.symm.trans hrun)
      have hsmall : sc.consumed < 2 ^ 31 := by
        refine Nat.lt_of_le_of_lt hconsumed ?_
        rwa [Scan.start, Nat.zero_add]
      simp only [Scan.result, Prod.mk.injEq] at h
      obtain ⟨hreturned, rfl⟩ := h
      rw [toInt_of_lt hsmall] at hreturned
      omega

-- ---------------------------------------------------------------------------
-- readLine
-- ---------------------------------------------------------------------------

structure SplitsAtCrlf (b : BufferBlock) (r : Int) (line : Bytes) : Prop where
  none : ¬crlf <:+: b.content → r = 0
  first : ∀ before rest, b.content = before ++ crlf ++ rest → Line 13 10 before →
    r = before.length + 2 ∧ line = before

def NoLoneCr (c : Bytes) : Prop :=
  ∀ before rest, c = before ++ crlf ++ rest → Line 13 10 before → 13 ∉ before

theorem Lib.Line.loneCr (hline : Line 13 10 before) (h : 13 ∈ before) (rest : Bytes) :
    ∃ pre x post, before ++ crlf ++ rest = pre ++ 13 :: x :: post ∧ 13 ∉ pre ∧ x ≠ 10 := by
  obtain ⟨pre, post, rfl, hpre⟩ := List.eq_append_cons_of_mem h
  cases post with
  | nil => exact ⟨pre, 13, 10 :: rest, by simp [crlf], hpre, by decide⟩
  | cons x post =>
    refine ⟨pre, x, post ++ crlf ++ rest, by simp, hpre, ?_⟩
    rintro rfl
    exact hline ⟨pre, post, by simp⟩

/-- For every valid buffer, its content spread over the blocks in any way:
`readLine` splits at the first CRLF exactly if no CR stands before that. -/
theorem readLine_splits_iff {b : BufferBlock} (hb : Valid b) (hlen : b.content.length < 2 ^ 31) :
    ∃ r line, readLine b = .ok (r, line) ∧ (SplitsAtCrlf b r line ↔ NoLoneCr b.content) := by
  refine ⟨_, _, readLine_ok hb.toRepr, ?_⟩
  constructor
  · intro h before rest hc hline hcr
    obtain ⟨hreturned, hfound⟩ := h.first before rest hc hline
    obtain ⟨pre, x, post, hsplit, hpre, hx⟩ := hline.loneCr hcr rest
    rw [hc.trans hsplit] at hlen hreturned hfound
    exact lineOf_loneCr hpre hx hlen before (Prod.ext hreturned hfound)
  · intro h
    refine ⟨lineOf_noCrlf, fun before rest hc hline => ?_⟩
    have hcontent : b.content = before ++ 13 :: 10 :: rest := by
      rw [hc, List.append_assoc]
      rfl
    have hsmall : before.length + 2 < 2 ^ 31 := by
      rw [hcontent, List.length_append, List.length_cons, List.length_cons] at hlen
      omega
    have hfound : lineOf b.content = ((before.length : Int) + 2, before) := by
      rw [hcontent, lineOf_crlf (h before rest hc hline), toInt_of_lt hsmall]
      rfl
    exact ⟨congrArg Prod.fst hfound, congrArg Prod.snd hfound⟩

theorem readLine_splits_iff_example : ∃ r line,
    readLine (held (bytes "Host: a\r\n")) = .ok (r, line) ∧
      (SplitsAtCrlf (held (bytes "Host: a\r\n")) r line ↔
        NoLoneCr (held (bytes "Host: a\r\n")).content) :=
  readLine_splits_iff (held_valid _) (by rw [held_content]; decide)

/-- Of two CRs before an LF the first hides the second: no line is found. -/
theorem crCrLf_missed : readLine (held [97, 13, 13, 10]) = .ok (0, [97, 13, 10]) ∧
    Valid (held [97, 13, 13, 10]) ∧
    ¬SplitsAtCrlf (held [97, 13, 13, 10]) 0 [97, 13, 10] := by
  refine ⟨by decide, held_valid _, fun h => ?_⟩
  obtain ⟨hreturned, -⟩ := h.first [97, 13] [] (by rw [held_content]; rfl)
    (fun hin => absurd hin (by decide))
  exact absurd hreturned (by decide)

end MudouHttp
