import MudouHttp.Http.Request
import MudouHttp.Reactor.BufferLaws

/-!
# parse, on the bytes of the buffer

`Parses` is `parse` as a relation on byte strings: which lines it takes, where
it stops, and why. On a well-formed buffer `parse` does exactly what `Parses`
says of the content (`parse_ok`), however it is spread over the blocks; there
is always one outcome (`Parses.exists`, `Parses.unique`).
-/

namespace MudouHttp

open BufferBlock

-- ---------------------------------------------------------------------------
-- readLine
-- ---------------------------------------------------------------------------

def Scan.result : Scan × Bool → Int × Bytes
  | (sc, true) => (toInt sc.consumed, sc.line)
  | (sc, false) => (0, sc.line)

def lineOf (c : Bytes) : Int × Bytes := Scan.result (Scan.start.run c)

theorem Scan.run_append (sc : Scan) (s t : Bytes) :
    sc.run (s ++ t) = if (sc.run s).2 then sc.run s else (sc.run s).1.run t := by
  induction s generalizing sc with
  | nil => rfl
  | cons c s ih =>
    cases hs : sc.state with
    | reading =>
      simp only [List.cons_append, Scan.run, hs]
      split
      · exact ih _
      · exact ih _
    | foundCr =>
      simp only [List.cons_append, Scan.run, hs]
      split
      · rfl
      · exact ih _

theorem Scan.run_noCr {sc : Scan} (hs : sc.state = .reading) (h : 13 ∉ s) :
    sc.run s = ({ sc with line := sc.line ++ s, consumed := sc.consumed + s.length }, false) := by
  induction s generalizing sc with
  | nil => simp [Scan.run]
  | cons c s ih =>
    obtain ⟨hc, hrest⟩ := not_or.mp (mt List.mem_cons.mpr h)
    simp only [Scan.run, hs, Ne.symm hc, if_false]
    refine (ih rfl hrest).trans ?_
    simp [Nat.add_assoc, Nat.add_comm 1]

theorem lineOf_crlf (h : 13 ∉ line) (rest : Bytes) :
    lineOf (line ++ 13 :: 10 :: rest) = (toInt (line.length + 2), line) := by
  rw [lineOf, Scan.run_append, Scan.run_noCr rfl h]
  simp [Scan.run, Scan.start, Scan.result]

theorem lineOf_noCr (h : 13 ∉ s) : (lineOf s).1 = 0 := by
  rw [lineOf, Scan.run_noCr rfl h]
  rfl

theorem lineOf_cr (h : 13 ∉ s) : (lineOf (s ++ [13])).1 = 0 := by
  rw [lineOf, Scan.run_append, Scan.run_noCr rfl h]
  rfl

/-- The scan ends at an LF behind a CR, the CR possibly scanned before. -/
theorem Scan.run_found {sc sc' : Scan} (h : sc.run s = (sc', true)) :
    crlf <:+: s ∨ (sc.state = .foundCr ∧ ∃ rest, s = 10 :: rest) := by
  induction s generalizing sc with
  | nil => cases h
  | cons c s ih =>
    cases hs : sc.state with
    | reading =>
      simp only [Scan.run, hs] at h
      split at h
      · rename_i hc
        rcases ih h with hin | ⟨-, rest, rfl⟩
        · exact .inl (hin.trans (List.suffix_cons c s).isInfix)
        · exact .inl ⟨[], rest, by rw [hc]; rfl⟩
      · rcases ih h with hin | ⟨hcr, -⟩
        · exact .inl (hin.trans (List.suffix_cons c s).isInfix)
        · cases hcr
    | foundCr =>
      simp only [Scan.run, hs] at h
      split at h
      · rename_i hc
        exact .inr ⟨rfl, s, by rw [hc]⟩
      · rcases ih h with hin | ⟨hcr, -⟩
        · exact .inl (hin.trans (List.suffix_cons c s).isInfix)
        · cases hcr

theorem lineOf_noCrlf (h : ¬crlf <:+: c) : (lineOf c).1 = 0 := by
  unfold lineOf
  cases hrun : Scan.start.run c with
  | mk sc found =>
    cases found with
    | false => rfl
    | true =>
      rcases Scan.run_found hrun with hin | ⟨hcr, -⟩
      · exact absurd hin h
      · cases hcr

theorem lineOf_twoBytes (hc : c.length ≤ 2) (hn : (lineOf c).1 ≠ 0) : c = crlf := by
  by_cases hin : crlf <:+: c
  · exact (hin.eq_of_length_le hc).symm
  · exact absurd (lineOf_noCrlf hin) hn

theorem more_of_line (hn : (lineOf c).1 ≠ 0) (hne : (lineOf c).2 ≠ []) : 2 < c.length := by
  refine Nat.lt_of_not_le fun hlen => hne ?_
  rw [lineOf_twoBytes hlen hn]
  decide

theorem readLineLoop_ok (hf : Fits blks) (hp : pos ≤ frontSize blks) (sc : Scan) :
    readLineLoop sc blks pos = .ok (Scan.result (sc.run (queued blks pos))) := by
  induction blks generalizing pos sc with
  | nil => rfl
  | cons blk rest ih =>
    have hl := Block.bytes_length (hf blk List.mem_cons_self)
    replace hp : pos ≤ blk.size := hp
    have hdata : (blk.data.drop pos).take (blk.size - pos) = blk.bytes.drop pos := by
      rw [Block.bytes, List.drop_take]
    have hfull : ¬(blk.bytes.drop pos).length < blk.size - pos := by
      rw [List.length_drop, hl]
      exact Nat.lt_irrefl _
    rw [queued_cons, Scan.run_append, readLineLoop, sizeSub_of_le hp]
    simp only [hdata]
    cases hrun : sc.run (blk.bytes.drop pos) with
    | mk sc' found =>
      cases found with
      | true => rfl
      | false =>
        simp only [hfull, if_false, Bool.false_eq_true]
        exact ih hf.tail (Nat.zero_le _) sc'

theorem readLine_ok {b : BufferBlock} (hr : Repr b) : readLine b = .ok (lineOf b.content) :=
  readLineLoop_ok hr.sizes hr.read .start

-- ---------------------------------------------------------------------------
-- One turn of the loop
-- ---------------------------------------------------------------------------

namespace HttpRequest

/-- The input of a turn and how long it is, when `c` is left to read. -/
def input (rq : HttpRequest) (c : Bytes) : Int × Bytes :=
  if rq.state ≠ .body then lineOf c else (toInt c.length, c)

theorem readInput_ok {b : BufferBlock} (hr : Repr b) (rq : HttpRequest) :
    rq.readInput b = .ok (rq.input b.content) := by
  unfold readInput input
  split
  · exact readLine_ok hr
  · rw [bufferToString_ok hr]
    rfl

theorem input_pos {rq : HttpRequest} (h : (rq.input c).1 ≠ 0) : 0 < toSize (rq.input c).1 := by
  unfold input lineOf at h ⊢
  split at h
  · rw [if_pos (by assumption)]
    generalize Scan.start.run c = r at h ⊢
    obtain ⟨sc, found⟩ := r
    cases found with
    | true =>
      simp only [Scan.result] at h ⊢
      exact toSize_toInt_pos h
    | false => exact absurd rfl h
  · rw [if_neg (by assumption)]
    dsimp only at h ⊢
    exact toSize_toInt_pos h

end HttpRequest

inductive Outcome
  | done
  | brokenOff
  | rejected
  deriving DecidableEq

/-- `parse` started with `c` left to read: its outcome, the request it leaves
and how many bytes it has taken off. -/
inductive Parses (svc : Services) : HttpRequest → Bytes → Outcome → HttpRequest → Nat → Prop
  | done : c = [] ∨ rq.state = .finish → Parses svc rq c .done rq 0
  | brokenOff : c ≠ [] → rq.state ≠ .finish → (rq.input c).1 = 0 → Parses svc rq c .brokenOff rq 0
  | rejected : c ≠ [] → rq.state ≠ .finish → (rq.input c).1 ≠ 0 →
    rq.accept svc (rq.input c).2 c.length = none → Parses svc rq c .rejected rq 0
  | next : c ≠ [] → rq.state ≠ .finish → (rq.input c).1 ≠ 0 →
    rq.accept svc (rq.input c).2 c.length = some rq₁ →
    Parses svc rq₁ (c.drop (toSize (rq.input c).1)) o rq' k →
    Parses svc rq c o rq' (toSize (rq.input c).1 + k)

theorem Parses.turn {rq rq₁ : HttpRequest} (hin : rq.input c = (i, line)) (hc : c ≠ [])
    (hs : rq.state ≠ .finish) (hi : i ≠ 0) (ha : rq.accept svc line c.length = some rq₁)
    (hp : Parses svc rq₁ (c.drop (toSize i)) o rq' k) : Parses svc rq c o rq' (toSize i + k) := by
  obtain rfl : (rq.input c).1 = i := congrArg Prod.fst hin
  obtain rfl : (rq.input c).2 = line := congrArg Prod.snd hin
  exact .next hc hs hi ha hp

/-- The buffer `parse` leaves and its result, when `b` is what is left. -/
def Outcome.leaves (startPos : Nat) (b : BufferBlock) : Outcome → BufferBlock × Bool
  | .done => (b, true)
  | .brokenOff => ({ b with readPos := startPos }, false)
  | .rejected => (b, false)

variable {svc : Services}

theorem drop_shorter {c : Bytes} (hc : c ≠ []) (hn : n ≠ 0) : (c.drop n).length < c.length := by
  have hpos := List.length_pos_iff.mpr hc
  rw [List.length_drop]
  omega

theorem Parses.exists (svc : Services) (rq : HttpRequest) (c : Bytes) :
    ∃ o rq' k, Parses svc rq c o rq' k := by
  induction hl : c.length using Nat.strongRecOn generalizing rq c with
  | ind l ih =>
    by_cases hfin : c = [] ∨ rq.state = .finish
    · exact ⟨_, _, _, .done hfin⟩
    · obtain ⟨hc, hs⟩ := not_or.mp hfin
      by_cases hz : (rq.input c).1 = 0
      · exact ⟨_, _, _, .brokenOff hc hs hz⟩
      · cases ha : rq.accept svc (rq.input c).2 c.length with
        | none => exact ⟨_, _, _, .rejected hc hs hz ha⟩
        | some rq₁ =>
          have hlt := drop_shorter hc (Nat.ne_of_gt (HttpRequest.input_pos hz))
          obtain ⟨o, rq', k, hp⟩ := ih _ (hl ▸ hlt) rq₁ _ rfl
          exact ⟨_, _, _, .next hc hs hz ha hp⟩

theorem Parses.unique (h : Parses svc rq c o rq' k) (h₂ : Parses svc rq c o₂ rq₂ k₂) :
    o = o₂ ∧ rq' = rq₂ ∧ k = k₂ := by
  induction h generalizing o₂ rq₂ k₂ with
  | done hfin =>
    cases h₂ with
    | done => exact ⟨rfl, rfl, rfl⟩
    | brokenOff hc hs => exact absurd hfin (not_or.mpr ⟨hc, hs⟩)
    | rejected hc hs => exact absurd hfin (not_or.mpr ⟨hc, hs⟩)
    | next hc hs => exact absurd hfin (not_or.mpr ⟨hc, hs⟩)
  | brokenOff hc hs hz =>
    cases h₂ with
    | done hfin => exact absurd hfin (not_or.mpr ⟨hc, hs⟩)
    | brokenOff => exact ⟨rfl, rfl, rfl⟩
    | rejected _ _ hn => exact absurd hz hn
    | next _ _ hn => exact absurd hz hn
  | rejected hc hs hn ha =>
    cases h₂ with
    | done hfin => exact absurd hfin (not_or.mpr ⟨hc, hs⟩)
    | brokenOff _ _ hz => exact absurd hz hn
    | rejected => exact ⟨rfl, rfl, rfl⟩
    | next _ _ _ ha₂ => cases ha.symm.trans ha₂
  | next hc hs hn ha _ ih =>
    cases h₂ with
    | done hfin => exact absurd hfin (not_or.mpr ⟨hc, hs⟩)
    | brokenOff _ _ hz => exact absurd hz hn
    | rejected _ _ _ ha₂ => cases ha.symm.trans ha₂
    | next _ _ _ ha₂ hp₂ =>
      cases ha.symm.trans ha₂
      obtain ⟨rfl, rfl, rfl⟩ := ih hp₂
      exact ⟨rfl, rfl, rfl⟩

-- ---------------------------------------------------------------------------
-- parse on a buffer
-- ---------------------------------------------------------------------------

namespace HttpRequest

theorem parseLoop_ok (hp : Parses svc rq c o rq' k) {b : BufferBlock} (hr : Repr b)
    (hc : b.content = c) (hfuel : c.length < fuel) (startPos : Nat) :
    parseLoop svc startPos fuel rq b = .ok (rq', o.leaves startPos (b.consumeBytes k)) := by
  have hread : ∀ {b : BufferBlock}, Repr b → (b.readableBytes = 0 ↔ b.content = []) := by
    intro b hr
    rw [readableBytes, hr.total, List.length_eq_zero_iff]
  induction hp generalizing b fuel with
  | @done rq c hfin =>
    obtain ⟨fuel, rfl⟩ := Nat.exists_eq_succ_of_ne_zero (Nat.ne_of_gt (Nat.zero_lt_of_lt hfuel))
    rw [parseLoop, if_pos (by rwa [hread hr, hc])]
    rfl
  | @brokenOff c rq hne hs hz =>
    obtain ⟨fuel, rfl⟩ := Nat.exists_eq_succ_of_ne_zero (Nat.ne_of_gt (Nat.zero_lt_of_lt hfuel))
    rw [parseLoop, if_neg (by rw [hread hr, hc]; exact not_or.mpr ⟨hne, hs⟩), readInput_ok hr, hc]
    simp only [bind, Except.bind, hz, if_true]
    rfl
  | @rejected c rq hne hs hn ha =>
    obtain ⟨fuel, rfl⟩ := Nat.exists_eq_succ_of_ne_zero (Nat.ne_of_gt (Nat.zero_lt_of_lt hfuel))
    rw [parseLoop, if_neg (by rw [hread hr, hc]; exact not_or.mpr ⟨hne, hs⟩), readInput_ok hr, hc]
    simp only [bind, Except.bind, hn, if_false, readableBytes, hr.total, hc, ha]
    rfl
  | @next c rq rq₁ o rq' k hne hs hn ha _ ih =>
    obtain ⟨fuel, rfl⟩ := Nat.exists_eq_succ_of_ne_zero (Nat.ne_of_gt (Nat.zero_lt_of_lt hfuel))
    have hlt := drop_shorter hne (Nat.ne_of_gt (input_pos hn))
    have hrest := ih (consumeBytes_repr hr _) (by rw [consumeBytes_content hr, hc])
      (Nat.lt_of_lt_of_le hlt (Nat.le_of_lt_succ hfuel))
    rw [parseLoop, if_neg (by rw [hread hr, hc]; exact not_or.mpr ⟨hne, hs⟩), readInput_ok hr, hc]
    simp only [bind, Except.bind, hn, if_false, readableBytes, hr.total, hc, ha]
    rw [hrest, consumeBytes_add hr]

/-- On a well-formed buffer `parse` does what `Parses` says of its content. -/
theorem parse_ok {b : BufferBlock} (hr : Repr b) (hne : b.content ≠ [])
    (hp : Parses svc rq b.content o rq' k) :
    rq.parse svc b = .ok (rq', o.leaves b.readPos (b.consumeBytes k)) := by
  have hlen := queued_length_le hr.sizes b.readPos
  have hpos := List.length_pos_iff.mpr hne
  rw [parse, if_neg (by rw [readableBytes, hr.total]; omega)]
  refine parseLoop_ok hp hr rfl ?_ b.readPos
  exact Nat.lt_of_le_of_lt hlen (Nat.lt_add_of_pos_right (by decide))

inductive Visits (svc : Services) (rq : HttpRequest) (b : BufferBlock) :
    HttpRequest → BufferBlock → Prop
  | start : Visits svc rq b rq b
  | turn : Visits svc rq b rq₁ b₁ → ¬(b₁.readableBytes = 0 ∨ rq₁.state = .finish) →
    rq₁.readInput b₁ = .ok (consumed, line) → consumed ≠ 0 →
    rq₁.accept svc line b₁.readableBytes = some rq₂ →
    Visits svc rq b rq₂ (b₁.consumeBytes (toSize consumed))

theorem Visits.repr {b : BufferBlock} (h : Visits svc rq b rq' b') (hr : Repr b) : Repr b' := by
  induction h with
  | start => exact hr
  | turn _ _ _ _ _ ih => exact consumeBytes_repr ih _

end HttpRequest

end MudouHttp
