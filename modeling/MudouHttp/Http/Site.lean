import MudouHttp.Http.UserCalls
import MudouHttp.Mysql.Insertions

/-!
# Requests and the table of users

Turns of `onmessage`, each in a loop thread of its own, parse requests and call
`UserDao` on the way; between any two queries of one turn the others go on. A
form is answered with success only if the table backs it, and what a login must
give for that came in with a request that registered it (`success_backed`).
-/

namespace MudouHttp

open BufferBlock (Valid)
open HttpRequest
open UserDao (Tallied Change)

/-- A turn of `onmessage` that parses its buffer, with the call of `Register` it
waits for. -/
structure Turn where
  buff : BufferBlock
  call : Option Nat
  parsing : Parsing (HttpRequest × BufferBlock × Bool)

structure Site where
  dao : UserDao
  turns : List Turn

inductive Query
  | enter (connected : Bool)
  | check (queried stored : Bool)
  | insert (queried : Bool)
  deriving DecidableEq

def Query.event (i : Nat) : Query → UserDao.Event
  | .enter connected => .enter i connected
  | .check queried stored => .check i queried stored
  | .insert queried => .insert i queried

namespace Site

inductive Event
  | message (buff : BufferBlock)
  | register (i : Nat)
  | query (i : Nat) (q : Query)
  | returned (i : Nat)
  | login (i : Nat) (connected queried stored : Bool)

section Turns

variable [MySql] (json : Bytes → Option (Bytes → Option Bytes))

def goOn (s : Site) (i : Nat) (t : Turn) : Site := { s with turns := s.turns.set i t }

/-- An event that is not due changes nothing. -/
def step (s : Site) : Event → Except Fault Site
  | .message buff =>
    .ok { s with turns :=
      s.turns ++ [{ buff, call := none, parsing := HttpRequest.init.parseAsking json buff }] }
  | .register i =>
    match s.turns[i]? with
    | some { buff, call := none, parsing := .ask (.register username password) next } => do
      let dao ← s.dao.step (.register username password)
      pure ({ s with dao := dao }.goOn i
        { buff, call := s.dao.calls.length, parsing := .ask (.register username password) next })
    | _ => .ok s
  | .query i q =>
    match s.turns[i]? with
    | some { call := some j, .. } => do
      let dao ← s.dao.step (q.event j)
      pure { s with dao := dao }
    | _ => .ok s
  | .returned i =>
    match s.turns[i]? with
    | some { buff, call := some j, parsing := .ask _ next } =>
      match s.dao.calls[j]? with
      | some { state := .returned result, .. } =>
        .ok (s.goOn i { buff, call := none, parsing := next result })
      | _ => .ok s
    | _ => .ok s
  | .login i connected queried stored =>
    match s.turns[i]? with
    | some { buff, call := none, parsing := .ask (.login username password) next } => do
      let result ← UserDao.login s.dao.rows username password connected queried stored
      pure (s.goOn i { buff, call := none, parsing := next result })
    | _ => .ok s

/-- Of the buffer of a connection. -/
def Admits (_ : Site) : Event → Prop
  | .message buff => Valid buff
  | _ => True

def start (rows : List Row) : Site := { dao := UserDao.having rows, turns := [] }

-- ---------------------------------------------------------------------------
-- A step
-- ---------------------------------------------------------------------------

inductive Moves (s : Site) : Event → Site → Prop
  | none : Moves s e s
  | message : Moves s (.message buff) { s with turns :=
      s.turns ++ [{ buff, call := none, parsing := HttpRequest.init.parseAsking json buff }] }
  | register {t : Turn} {next} : s.turns[i]? = some t → t.call = none →
    t.parsing = .ask (.register username password) next →
    Moves s (.register i) (goOn { s with dao := { s.dao with
      calls := s.dao.calls ++ [{ username, password, state := .entered }] } } i
        { t with call := s.dao.calls.length })
  | query {t : Turn} : s.turns[i]? = some t → t.call = some j → s.dao.step (q.event j) = .ok dao' →
    Moves s (.query i q) { s with dao := dao' }
  | returned {t : Turn} {c : RegisterCall} : s.turns[i]? = some t → t.call = some j →
    t.parsing = .ask call next → s.dao.calls[j]? = some c → c.state = .returned result →
    Moves s (.returned i) (s.goOn i { t with call := none, parsing := next result })
  | login {t : Turn} : s.turns[i]? = some t → t.call = none →
    t.parsing = .ask (.login username password) next →
    UserDao.login s.dao.rows username password connected queried stored = .ok result →
    Moves s (.login i connected queried stored)
      (s.goOn i { t with call := none, parsing := next result })

theorem step_ok {s s' : Site} (h : s.step json e = .ok s') : Moves json s e s' := by
  cases e with
  | message buff =>
    cases h
    exact .message
  | register i =>
    simp only [step] at h
    split at h
    · rename_i hi
      cases h
      exact .register hi rfl rfl
    · cases h
      exact .none
  | query i q =>
    simp only [step] at h
    split at h
    · rename_i hi
      obtain ⟨dao, hdao, h⟩ := bind_ok h
      cases h
      exact .query hi rfl hdao
    · cases h
      exact .none
  | returned i =>
    simp only [step] at h
    split at h
    · rename_i hi
      split at h
      · rename_i hj
        cases h
        exact .returned hi rfl rfl hj rfl
      · cases h
        exact .none
    · cases h
      exact .none
  | login i connected queried stored =>
    simp only [step] at h
    split at h
    · rename_i hi
      obtain ⟨result, hlogin, h⟩ := bind_ok h
      cases h
      exact .login hi rfl rfl hlogin
    · cases h
      exact .none

-- ---------------------------------------------------------------------------
-- What every run keeps
-- ---------------------------------------------------------------------------

def Asked (s : Site) (call : UserCall) : Prop :=
  ∃ t ∈ s.turns, ∃ p, Cut t.buff.content p ∧ p.userCall = some call

def Backed (rows : List Row) : UserCall → Prop
  | .register username password => username ≠ [] ∧ Row.mk username password ∈ rows
  | .login username password => ∃ stored, Row.mk username stored ∈ rows ∧ cString stored = password

omit [MySql] in
theorem Backed.grow (h : Backed rows call) (hsub : rows ⊆ rows') : Backed rows' call := by
  cases call with
  | register username password => exact ⟨h.1, hsub h.2⟩
  | login username password =>
    obtain ⟨stored, hmem, heq⟩ := h
    exact ⟨stored, hsub hmem, heq⟩

inductive TurnOk (dao : UserDao) (t : Turn) : Prop
  | parses : t.call = none → t.parsing = HttpRequest.init.parseAsking json t.buff → TurnOk dao t
  | waits {next} : t.call = some j → t.parsing = HttpRequest.init.parseAsking json t.buff →
    t.parsing = .ask (.register c.username c.password) next → dao.calls[j]? = some c → TurnOk dao t
  | answered : t.call = none →
    t.parsing = .done (HttpRequest.init.parse (.answering json result) t.buff) →
    (HttpRequest.init.parseAsking json t.buff).asked = some call →
    (result = true → Backed dao.rows call) → TurnOk dao t

structure Ok (rows : List Row) (s : Site) : Prop where
  dao : Tallied rows s.dao
  valid : ∀ t ∈ s.turns, Valid t.buff
  turns : ∀ t ∈ s.turns, TurnOk json s.dao t
  asked : ∀ c ∈ s.dao.calls, s.Asked (.register c.username c.password)

variable {json}

omit [MySql] in
theorem TurnOk.grow {dao dao' : UserDao} (h : TurnOk json dao t) (hgrows : UserDao.Grows dao dao') :
    TurnOk json dao' t := by
  cases h with
  | parses hcall hparsing => exact .parses hcall hparsing
  | waits hcall hparsing hask hc =>
    obtain ⟨c', hc', hrow⟩ := hgrows.calls hc
    obtain ⟨hname, hpassword⟩ := Row.mk.inj hrow
    rw [← hname, ← hpassword] at hask
    exact .waits hcall hparsing hask hc'
  | answered hcall hparsing hasked hbacked =>
    exact .answered hcall hparsing hasked fun hr => (hbacked hr).grow hgrows.rows

omit [MySql] in
theorem TurnOk.asks {dao : UserDao} {t : Turn} {next} (h : TurnOk json dao t) (hb : Valid t.buff)
    (hask : t.parsing = .ask call next) :
    (HttpRequest.init.parseAsking json t.buff).asked = some call ∧
      ∀ result, next result = .done (HttpRequest.init.parse (.answering json result) t.buff) := by
  have hprogram : HttpRequest.init.parseAsking json t.buff = .ask call next := by
    cases h with
    | parses _ hparsing => exact hparsing.symm.trans hask
    | waits _ hparsing _ _ => exact hparsing.symm.trans hask
    | answered _ hparsing _ _ => cases hparsing.symm.trans hask
  refine ⟨?_, (ask_call hb hprogram).2⟩
  rw [hprogram]
  rfl

omit [MySql] in
theorem TurnOk.resume {dao : UserDao} {t : Turn} {next} (h : TurnOk json dao t) (hb : Valid t.buff)
    (hask : t.parsing = .ask call next) (hbacked : result = true → Backed dao.rows call) :
    TurnOk json dao { t with call := none, parsing := next result } := by
  obtain ⟨hasked, hnext⟩ := h.asks hb hask
  exact .answered rfl (hnext result) hasked hbacked

omit [MySql] in
theorem Asked.goOn {s : Site} {t t' : Turn} (h : s.Asked call) (hi : s.turns[i]? = some t)
    (hbuff : t'.buff = t.buff) : (s.goOn i t').Asked call := by
  obtain ⟨u, hu, p, hp, hcall⟩ := h
  obtain ⟨j, hj⟩ := List.mem_iff_getElem?.mp hu
  by_cases hij : i = j
  · subst hij
    cases hi.symm.trans hj
    exact ⟨t', List.mem_set (List.getElem?_eq_some_iff.mp hi).1 t', p, hbuff ▸ hp, hcall⟩
  · exact ⟨u, List.mem_of_getElem? ((List.getElem?_set_ne hij).trans hj), p, hp, hcall⟩

theorem Ok.goOn {s : Site} {t t' : Turn} {dao' : UserDao} (h : Ok json rows s)
    (hi : s.turns[i]? = some t) (hbuff : t'.buff = t.buff) (hok : TurnOk json dao' t')
    (hdao : Tallied rows dao') (hgrows : UserDao.Grows s.dao dao')
    (hcalled : ∀ c ∈ dao'.calls, (∃ d ∈ s.dao.calls, d.row = c.row) ∨
      s.Asked (.register c.username c.password)) :
    Ok json rows (Site.goOn { s with dao := dao' } i t') := by
  have hmem := List.mem_of_getElem? hi
  have hasked : ∀ {call}, s.Asked call → (Site.goOn { s with dao := dao' } i t').Asked call :=
    fun ha => Asked.goOn (s := { s with dao := dao' }) ha hi hbuff
  refine ⟨hdao, fun u hu => ?_, fun u hu => ?_, fun c hc => ?_⟩
  · rcases List.mem_or_eq_of_mem_set hu with hu | rfl
    · exact h.valid u hu
    · rw [hbuff]
      exact h.valid t hmem
  · rcases List.mem_or_eq_of_mem_set hu with hu | rfl
    · exact (h.turns u hu).grow hgrows
    · exact hok
  · rcases hcalled c hc with ⟨d, hd, hrow⟩ | hc
    · obtain ⟨hname, hpassword⟩ := Row.mk.inj hrow
      rw [← hname, ← hpassword]
      exact hasked (h.asked d hd)
    · exact hasked hc

theorem Ok.moves {s s' : Site} (h : Ok json rows s) (hadm : Admits s e) (hm : Moves json s e s') :
    Ok json rows s' := by
  cases hm with
  | none => exact h
  | @message b =>
    refine ⟨h.dao, fun u hu => ?_, fun u hu => ?_, fun c hc => ?_⟩
    · rcases List.mem_append.mp hu with hu | hu
      · exact h.valid u hu
      · cases List.mem_singleton.mp hu
        exact hadm
    · rcases List.mem_append.mp hu with hu | hu
      · exact h.turns u hu
      · cases List.mem_singleton.mp hu
        exact .parses rfl rfl
    · obtain ⟨t, ht, hcut⟩ := h.asked c hc
      exact ⟨t, List.mem_append_left _ ht, hcut⟩
  | @register i username password t next hi hcall hask =>
    have hmem := List.mem_of_getElem? hi
    have hprogram : t.parsing = HttpRequest.init.parseAsking json t.buff := by
      cases h.turns t hmem with
      | parses _ hparsing => exact hparsing
      | waits hcall' _ _ _ => cases hcall.symm.trans hcall'
      | answered _ hparsing _ _ => cases hparsing.symm.trans hask
    have hchange : Change s.dao (.register username password) _ := .register
    refine h.goOn hi rfl ?_ (h.dao.change hchange) (hchange.grows h.dao.toRecorded)
      fun c hc => ?_
    · exact .waits rfl hprogram hask List.getElem?_concat_length
    · rcases hchange.called hc with hold | hnew
      · exact .inl hold
      · obtain ⟨rfl, rfl⟩ := UserDao.Event.register.inj hnew
        obtain ⟨p, hp, hpcall⟩ := (ask_call (h.valid t hmem) (hprogram.symm.trans hask)).1
        exact .inr ⟨t, hmem, p, hp, hpcall⟩
  | @query i j dao' q t hi hcall hstep =>
    have hchange := UserDao.step_ok hstep
    have hgrows := hchange.grows h.dao.toRecorded
    refine ⟨h.dao.change hchange, h.valid, fun u hu => (h.turns u hu).grow hgrows, fun c hc => ?_⟩
    rcases hchange.called hc with ⟨d, hd, hrow⟩ | hnew
    · obtain ⟨hname, hpassword⟩ := Row.mk.inj hrow
      rw [← hname, ← hpassword]
      exact h.asked d hd
    · cases q <;> cases hnew
  | @returned i j call next result t c hi hcall hask hj hstate =>
    have hmem := List.mem_of_getElem? hi
    have hbacked : result = true → Backed s.dao.rows call := by
      intro hr
      cases h.turns t hmem with
      | parses hcall' _ => cases hcall.symm.trans hcall'
      | waits hcall' _ hask' hc =>
        cases hcall.symm.trans hcall'
        cases hj.symm.trans hc
        cases hask.symm.trans hask'
        have hsettled := h.dao.settled c (List.mem_of_getElem? hj)
        rw [hstate] at hsettled
        exact ⟨(hsettled hr).1.named, (hsettled hr).2.2⟩
      | answered hcall' _ _ _ => cases hcall.symm.trans hcall'
    exact h.goOn hi rfl ((h.turns t hmem).resume (h.valid t hmem) hask hbacked) h.dao
      ⟨List.Subset.refl _, fun hd => ⟨_, hd, rfl⟩⟩ fun c hc => .inl ⟨c, hc, rfl⟩
  | @login i username password next connected queried stored result t hi hcall hask hlogin =>
    have hmem := List.mem_of_getElem? hi
    have hbacked : result = true → Backed s.dao.rows (.login username password) := by
      rintro rfl
      obtain ⟨row, hrow, rfl, hpassword⟩ := UserDao.login_true hlogin
      exact ⟨row.password, hrow, hpassword⟩
    exact h.goOn hi rfl ((h.turns t hmem).resume (h.valid t hmem) hask hbacked) h.dao
      ⟨List.Subset.refl _, fun hd => ⟨_, hd, rfl⟩⟩ fun c hc => .inl ⟨c, hc, rfl⟩

theorem start_ok (rows : List Row) : Ok json rows (start rows) :=
  { dao := ⟨UserDao.having_recorded rows, [], (List.append_nil _).symm, .refl _⟩
    valid := List.forall_mem_nil _
    turns := List.forall_mem_nil _
    asked := List.forall_mem_nil _ }

theorem ok_of_reach {meets : Site → Event → Prop} (hw : ∀ s e, meets s e → Admits s e)
    (h : Lib.Reach (step json) meets (start rows) s) : Ok json rows s :=
  h.invariant (fun _ _ _ hp hm hs => hp.moves (hw _ _ hm) (step_ok json hs)) (start_ok rows)

omit [MySql] in
theorem TurnOk.backed {dao : UserDao} {t : Turn} {rq : HttpRequest} (h : TurnOk json dao t)
    (hb : Valid t.buff) (hdone : t.parsing = .done (.ok (rq, left, parsed)))
    (hsuccess : rq.isSuccessJs = true) :
    ∃ p call, Cut t.buff.content p ∧ p.userCall = some call ∧ rq.userCall = some call ∧
      Backed dao.rows call := by
  have hnever : t.parsing = HttpRequest.init.parseAsking json t.buff → False := by
    intro hparsing
    have hprogram := hparsing.symm.trans hdone
    have hrq : HttpRequest.init.parse (.answering json true) t.buff = .ok (rq, left, parsed) :=
      (parse_run (.answering json true) .init t.buff).symm.trans
        (congrArg (Lib.Asking.run (Services.answer _)) hprogram)
    obtain ⟨call, hcall, -⟩ := (success_userCall hrq).mp hsuccess
    have hasked := userCall_asked hrq
    rw [hprogram, hcall] at hasked
    cases hasked
  cases h with
  | parses _ hparsing => exact (hnever hparsing).elim
  | waits _ hparsing _ _ => exact (hnever hparsing).elim
  | @answered result call hcall hparsing hasked hbacked =>
    have hrq := Lib.Asking.done.inj (hparsing.symm.trans hdone)
    obtain ⟨call', hcall', hanswer⟩ := (success_userCall hrq).mp hsuccess
    have hsame := userCall_asked hrq
    rw [hasked, hcall'] at hsame
    cases hsame
    have hr : result = true := by
      cases call <;> exact hanswer
    cases hprogram : HttpRequest.init.parseAsking json t.buff with
    | done x =>
      rw [hprogram] at hasked
      cases hasked
    | ask call' next =>
      rw [hprogram] at hasked
      cases hasked
      obtain ⟨p, hp, hpcall⟩ := (ask_call hb hprogram).1
      exact ⟨p, _, hp, hpcall, hcall', hbacked hr⟩

/-- However the requests come between each other and whatever the database
fails, the table holds what registrations have brought in, and a form is answered
with success only if the table backs it. -/
theorem success_backed (h : Lib.Reach (step json) Admits (start rows) s) :
    (∀ row ∈ s.dao.rows, row ∈ rows ∨ s.Asked (.register row.username row.password)) ∧
    ∀ t ∈ s.turns, ∀ rq left parsed, t.parsing = .done (.ok (rq, left, parsed)) →
      rq.isSuccessJs = true →
      ∃ p call, Cut t.buff.content p ∧ p.userCall = some call ∧ Backed s.dao.rows call := by
  have hok := ok_of_reach (fun _ _ hm => hm) h
  refine ⟨fun row hrow => ?_, fun t ht rq left parsed hdone hsuccess => ?_⟩
  · obtain ⟨new, hrows, hperm⟩ := hok.dao.tally
    rw [hrows, List.mem_append, hperm.mem_iff, UserDao.mem_added] at hrow
    rcases hrow with hrow | ⟨c, hc, -, rfl⟩
    · exact .inl hrow
    · exact .inr (hok.asked c hc)
  · obtain ⟨p, call, hp, hcall, -, hbacked⟩ :=
      (hok.turns t ht).backed (hok.valid t ht) hdone hsuccess
    exact ⟨p, call, hp, hcall, hbacked⟩

end Turns

section Served

attribute [local instance] singleByte

def parsedOf (t : Turn) : Option HttpRequest :=
  match t.parsing with
  | .done (.ok (rq, _, _)) => some rq
  | _ => none

theorem parsedOf_some {t : Turn} (h : parsedOf t = some rq) :
    ∃ left parsed, t.parsing = .done (.ok (rq, left, parsed)) := by
  unfold parsedOf at h
  split at h
  · rename_i hdone
    cases h
    exact ⟨_, _, hdone⟩
  · cases h

/-- Bob registers, and all that time a login of his is waiting. -/
def bobRegisters : List Event :=
  [.message (held (formText "/register" "username=bob&password=a+b")), .register 0,
    .message (held (formText "/login" "username=bob&password=a+b")), .query 0 (.enter true),
    .query 0 (.check true true)]

theorem bobRegisters_admits : ∀ e ∈ bobRegisters, ∀ s : Site, s.Admits e := by
  intro e he s
  simp only [bobRegisters, List.mem_cons, List.not_mem_nil, or_false] at he
  rcases he with rfl | rfl | rfl | rfl | rfl
  · exact held_valid _
  · trivial
  · exact held_valid _
  · trivial
  · trivial

theorem success_backed_example : ∃ s : Site, ∃ t ∈ s.turns,
    Lib.Reach (step fun _ => none) Admits (start []) s ∧
    (parsedOf t).map HttpRequest.isSuccessJs = some true ∧
    ∃ p call, Cut t.buff.content p ∧ p.userCall = some call ∧ Backed s.dao.rows call := by
  have hrun : ((Lib.runs (step fun _ => none) (start [])
      (bobRegisters ++ [.query 0 (.insert true), .login 1 true true true])).toOption.map
        fun s => (s.turns[1]?.bind parsedOf).map HttpRequest.isSuccessJs) = some (some true) := by
    decide +kernel
  obtain ⟨s, hs, hview⟩ := view_ok _ hrun
  have hadmits : ∀ e ∈ bobRegisters ++ [.query 0 (.insert true), .login 1 true true true],
      ∀ s : Site, s.Admits e := by
    intro e he s
    rcases List.mem_append.mp he with he | he
    · exact bobRegisters_admits e he s
    · simp only [List.mem_cons, List.not_mem_nil, or_false] at he
      rcases he with rfl | rfl <;> trivial
  have hreach := Lib.Reach.start.runs _ (.of_forall hadmits _) hs
  obtain ⟨rq, hrq, hsuccess⟩ := Option.map_eq_some_iff.mp hview
  obtain ⟨t, ht, hparsed⟩ := Option.bind_eq_some_iff.mp hrq
  obtain ⟨left, parsed, hdone⟩ := parsedOf_some hparsed
  have hmem := List.mem_of_getElem? ht
  exact ⟨s, t, hmem, hreach, by rw [hparsed, Option.map_some, hsuccess],
    (success_backed hreach).2 t hmem rq left parsed hdone hsuccess⟩

end Served

-- ---------------------------------------------------------------------------
-- Names that are unique
-- ---------------------------------------------------------------------------

section Turns

variable [MySql] {json : Bytes → Option (Bytes → Option Bytes)}

/-- An insertion that succeeds finds the table without the name, as a unique key
would have it. -/
def Exclusive (s : Site) (e : Event) : Prop :=
  s.Admits e ∧ ∀ i t j c, e = .query i (.insert true) → s.turns[i]? = some t → t.call = some j →
    s.dao.calls[j]? = some c → ∀ row ∈ s.dao.rows, row.username ≠ c.username

theorem Moves.unique {s s' : Site} (hm : Moves json s e s') (hok : Ok json rows s)
    (hex : Exclusive s e) (hu : (s.dao.rows.map Row.username).Nodup) :
    (s'.dao.rows.map Row.username).Nodup := by
  cases hm with
  | @query i j dao' q t hi hcall hstep =>
    refine (UserDao.step_ok hstep).unique hok.dao.toRecorded hu fun k c he hc => ?_
    cases q <;> cases he
    exact hex.2 i t j c rfl hi hcall hc
  | _ => exact hu

/-- Once a registration has been answered with success, a login with the name
succeeds with that password up to its first NUL and no other, and the name is
not registered again. -/
theorem registered_logs_in (hu : (rows.map Row.username).Nodup)
    (h : Lib.Reach (step json) Exclusive (start rows) s) (ht : t ∈ s.turns)
    {rq : HttpRequest} (hdone : t.parsing = .done (.ok (rq, left, parsed)))
    (hsuccess : rq.isSuccessJs = true)
    (hcall : rq.userCall = some (.register username password)) :
    (∀ i t' attempt next s', s.turns[i]? = some t' → t'.parsing = .ask (.login username attempt) next →
      s.step json (.login i true true true) = .ok s' →
      ∃ rq' left', s'.turns[i]?.map Turn.parsing = some (.done (.ok (rq', left', true))) ∧
        (rq'.isSuccessJs = true ↔ attempt ≠ [] ∧ attempt = cString password)) ∧
    ∀ i t' j c escUsername escPassword s', s.turns[i]? = some t' → t'.call = some j →
      s.dao.calls[j]? = some c → c.username = username →
      c.state = .connected escUsername escPassword →
      s.step json (.query i (.check true true)) = .ok s' →
      s'.dao.calls[j]?.map RegisterCall.state = some (.returned false) := by
  have hboth := h.invariant (P := fun s => Ok json rows s ∧ (s.dao.rows.map Row.username).Nodup)
    (fun _ _ _ hp hm hs =>
      ⟨hp.1.moves hm.1 (step_ok json hs), (step_ok json hs).unique hp.1 hm hp.2⟩)
    ⟨start_ok rows, hu⟩
  obtain ⟨hok, hunique⟩ := hboth
  obtain ⟨p, call, -, -, hcall', hbacked⟩ := (hok.turns t ht).backed (hok.valid t ht) hdone hsuccess
  rw [hcall] at hcall'
  cases hcall'
  obtain ⟨hname, hmem⟩ := hbacked
  constructor
  · intro i t' attempt next s' hi hask hs
    have hmem' := List.mem_of_getElem? hi
    have hcall' : t'.call = none := by
      cases hok.turns t' hmem' with
      | parses hnone _ => exact hnone
      | waits _ _ hask' _ => cases hask.symm.trans hask'
      | answered hnone _ _ _ => exact hnone
    obtain ⟨buff, call, parsing⟩ := t'
    cases hcall'
    cases hask
    simp only [step, hi] at hs
    obtain ⟨result, hlogin, hs⟩ := bind_ok hs
    cases hs
    obtain ⟨hasked, hnext⟩ := (hok.turns _ hmem').asks (hok.valid _ hmem') rfl
    obtain ⟨rq', left', hparse, hresult⟩ := answered_parses (hok.valid _ hmem') hasked result
    have hi' := (List.getElem?_eq_some_iff.mp hi).1
    refine ⟨rq', left', ?_, hresult.trans (UserDao.login_result hunique hname hmem hlogin)⟩
    simp [goOn, List.getElem?_set_self hi', hnext, hparse]
  · intro i t' j c escUsername escPassword s' hi hj hc hc' hstate hs
    obtain ⟨buff, call, parsing⟩ := t'
    cases hj
    have hsettled := hok.dao.settled c (List.mem_of_getElem? hc)
    rw [hstate] at hsettled
    obtain ⟨-, -, rfl, -, -⟩ := hsettled
    simp only [step, hi, Query.event] at hs
    obtain ⟨dao, hdao, hs⟩ := bind_ok hs
    cases hs
    simp only [UserDao.step, hc, hstate] at hdao
    obtain ⟨state, hcheck, hdao⟩ := bind_ok hdao
    cases hdao
    rw [UserDao.check_taken hmem hc'.symm hcheck]
    have hj := (List.getElem?_eq_some_iff.mp hc).1
    simp [UserDao.move, List.getElem?_set_self hj]

omit [MySql] in
theorem exclusive_of_other (h : Admits s e) (hother : ∀ i, e ≠ .query i (.insert true)) :
    Exclusive s e := ⟨h, fun i _ _ _ hi => absurd hi (hother i)⟩

end Turns

section Served

attribute [local instance] singleByte

theorem registered_logs_in_example : ∃ s : Site, ∃ t rq left parsed, t ∈ s.turns ∧
    Lib.Reach (step fun _ => none) Exclusive (start []) s ∧
    t.parsing = .done (.ok (rq, left, parsed)) ∧ rq.isSuccessJs = true ∧
    rq.userCall = some (.register (bytes "bob") (bytes "a b")) ∧
    ∀ i t' attempt next s', s.turns[i]? = some t' →
      t'.parsing = .ask (.login (bytes "bob") attempt) next →
      s.step (fun _ => none) (.login i true true true) = .ok s' →
      ∃ rq' left', s'.turns[i]?.map Turn.parsing = some (.done (.ok (rq', left', true))) ∧
        (rq'.isSuccessJs = true ↔ attempt ≠ [] ∧ attempt = cString (bytes "a b")) := by
  have hrun : ((Lib.runs (step fun _ => none) (start []) bobRegisters).toOption.bind fun s =>
      (Lib.runs (step fun _ => none) s [.query 0 (.insert true), .returned 0]).toOption.map fun s' =>
        (s.dao.rows, (s'.turns[0]?.bind parsedOf).map fun rq => (rq.isSuccessJs, rq.userCall))) =
      some ([], some (true, some (.register (bytes "bob") (bytes "a b")))) := by
    decide +kernel
  obtain ⟨s₀, hs₀, hrest⟩ := Option.bind_eq_some_iff.mp hrun
  obtain ⟨s, hs, hview⟩ := view_ok _ hrest
  obtain ⟨hrows, hview⟩ := Prod.mk.inj hview
  have hbefore : Lib.runs (step fun _ => none) (start []) bobRegisters = .ok s₀ := by
    obtain ⟨s₁, hs₁, rfl⟩ := view_ok id (by rw [Option.map_id]; exact hs₀)
    exact hs₁
  have hother : ∀ e ∈ bobRegisters, ∀ i, e ≠ .query i (.insert true) := by
    simp [bobRegisters]
  have hreach₀ := Lib.Reach.start.runs _ (.of_forall (fun e he s =>
    exclusive_of_other (bobRegisters_admits e he s) (hother e he)) _) hbefore
  have hfree : Exclusive s₀ (.query 0 (.insert true)) :=
    ⟨trivial, fun _ _ _ _ _ _ _ _ => by rw [hrows]; exact List.forall_mem_nil _⟩
  have hmeets : Lib.AllMeet (step fun _ => none) Exclusive s₀
      [.query 0 (.insert true), .returned 0] := by
    refine ⟨hfree, ?_⟩
    cases step (fun _ => none) s₀ (.query 0 (.insert true)) with
    | error fault => trivial
    | ok s₁ =>
      refine .of_forall (fun e he s => ?_) s₁
      cases List.mem_singleton.mp he
      exact exclusive_of_other trivial (by simp)
  have hreach := hreach₀.runs _ hmeets hs
  obtain ⟨rq, hrq, hflags⟩ := Option.map_eq_some_iff.mp hview
  obtain ⟨t, ht, hparsed⟩ := Option.bind_eq_some_iff.mp hrq
  obtain ⟨left, parsed, hdone⟩ := parsedOf_some hparsed
  obtain ⟨hsuccess, hcall⟩ := Prod.mk.inj hflags
  have hmem := List.mem_of_getElem? ht
  have hnone : (([] : List Row).map Row.username).Nodup := List.nodup_nil
  exact ⟨s, t, rq, left, parsed, hmem, hreach, hdone, hsuccess, hcall,
    (registered_logs_in hnone hreach hmem hdone hsuccess hcall).1⟩

end Served

end Site

end MudouHttp
