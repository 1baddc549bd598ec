import Mathlib.Data.List.Basic

/-!
# Reachable states of a machine that may fail

`Reach step meets s₀ s`: from `s₀` a sequence of events leads to `s`, each of
them meeting a condition in the state it happens in. An invariant that one
such event keeps holds in every state reached.
-/

namespace MudouHttp.Lib

variable {σ ε φ : Type}

inductive Reach (step : σ → ε → Except φ σ) (meets : σ → ε → Prop) (s₀ : σ) : σ → Prop
  | start : Reach step meets s₀ s₀
  | next : Reach step meets s₀ s → meets s e → step s e = .ok s' → Reach step meets s₀ s'

def Preserves (step : σ → ε → Except φ σ) (meets : σ → ε → Prop) (P : σ → Prop) : Prop :=
  ∀ s e s', P s → meets s e → step s e = .ok s' → P s'

variable {step : σ → ε → Except φ σ} {meets weaker : σ → ε → Prop}

theorem Reach.invariant {P : σ → Prop} (h : Reach step meets s₀ s)
    (hp : Preserves step meets P) (h0 : P s₀) : P s := by
  induction h with
  | start => exact h0
  | next _ hm hs ih => exact hp _ _ _ ih hm hs

theorem Reach.mono (h : Reach step meets s₀ s) (hw : ∀ s e, meets s e → weaker s e) :
    Reach step weaker s₀ s := by
  induction h with
  | start => exact .start
  | next _ hm hs ih => exact .next ih (hw _ _ hm) hs

theorem Reach.trans (h : Reach step meets s₀ s) (h' : Reach step meets s t) :
    Reach step meets s₀ t := by
  induction h' with
  | start => exact h
  | next _ hm hs ih => exact ih.next hm hs

def runs (step : σ → ε → Except φ σ) : σ → List ε → Except φ σ
  | s, [] => .ok s
  | s, e :: es => match step s e with
    | .error fault => .error fault
    | .ok s' => runs step s' es

/-- Every event of a list meets the condition where it happens. -/
def AllMeet (step : σ → ε → Except φ σ) (meets : σ → ε → Prop) : σ → List ε → Prop
  | _, [] => True
  | s, e :: es => meets s e ∧ match step s e with
    | .error _ => True
    | .ok s' => AllMeet step meets s' es

theorem AllMeet.of_all (h : ∀ s e, meets s e) (s : σ) (es : List ε) : AllMeet step meets s es := by
  induction es generalizing s with
  | nil => trivial
  | cons e es ih =>
    refine ⟨h s e, ?_⟩
    cases step s e with
    | error fault => trivial
    | ok s' => exact ih s'

theorem AllMeet.of_forall {es : List ε} (h : ∀ e ∈ es, ∀ s, meets s e) (s : σ) :
    AllMeet step meets s es := by
  induction es generalizing s with
  | nil => trivial
  | cons e es ih =>
    refine ⟨h e List.mem_cons_self s, ?_⟩
    cases step s e with
    | error fault => trivial
    | ok s' => exact ih (fun e' he' => h e' (List.mem_cons_of_mem _ he')) s'

theorem AllMeet.imp {es : List ε} (h : AllMeet step meets s es)
    (himp : ∀ e ∈ es, ∀ s, meets s e → weaker s e) : AllMeet step weaker s es := by
  induction es generalizing s with
  | nil => trivial
  | cons e es ih =>
    obtain ⟨he, hes⟩ := h
    refine ⟨himp e List.mem_cons_self s he, ?_⟩
    cases hs : step s e with
    | error fault => trivial
    | ok s' =>
      rw [hs] at hes
      exact ih hes fun e' he' => himp e' (List.mem_cons_of_mem _ he')

theorem AllMeet.of_preserved {P : σ → Prop} (hp : Preserves step meets P) {es : List ε} (h0 : P s)
    (h : ∀ e ∈ es, ∀ s, P s → meets s e) : AllMeet step meets s es := by
  induction es generalizing s with
  | nil => trivial
  | cons e es ih =>
    have he := h e List.mem_cons_self s h0
    refine ⟨he, ?_⟩
    cases hs : step s e with
    | error fault => trivial
    | ok s' => exact ih (hp s e s' h0 he hs) fun e' he' => h e' (List.mem_cons_of_mem _ he')

theorem Reach.runs (h : Reach step meets s₀ s) (es : List ε) (hm : AllMeet step meets s es)
    (hr : Lib.runs step s es = .ok t) : Reach step meets s₀ t := by
  induction es generalizing s with
  | nil =>
    cases hr
    exact h
  | cons e es ih =>
    obtain ⟨he, hes⟩ := hm
    unfold Lib.runs at hr
    cases hs : step s e with
    | error fault => simp only [hs, reduceCtorEq] at hr
    | ok s' =>
      simp only [hs] at hr hes
      exact ih (.next h he hs) hes hr

/-- The state after a list of events, if each of them passes a check. -/
def checked (step : σ → ε → Except φ σ) (check : σ → ε → Bool) : σ → List ε → Option σ
  | s, [] => some s
  | s, e :: es =>
    if check s e then match step s e with
      | .error _ => none
      | .ok s' => checked step check s' es
    else none

theorem Reach.checked {check : σ → ε → Bool} (h : Reach step meets s₀ s) (es : List ε)
    (hc : ∀ s e, check s e = true → meets s e) (hr : Lib.checked step check s es = some t) :
    Reach step meets s₀ t := by
  induction es generalizing s with
  | nil =>
    cases hr
    exact h
  | cons e es ih =>
    unfold Lib.checked at hr
    split at hr
    · rename_i he
      cases hs : step s e with
      | error fault => simp only [hs, reduceCtorEq] at hr
      | ok s' =>
        simp only [hs] at hr
        exact ih (.next h (hc s e he) hs) hr
    · cases hr

variable {τ δ : Type}

/-- An event that meets its condition goes well, and the other machine answers it
with the event it stands for, or not at all. -/
def Simulates (step : σ → ε → Except φ σ) (meets : σ → ε → Prop) (step' : τ → δ → Except φ τ)
    (view : ε → Option δ) (R : σ → τ → Prop) : Prop :=
  ∀ s t e, R s t → meets s e → ∃ s', step s e = .ok s' ∧
    match view e with
    | some d => ∃ t', step' t d = .ok t' ∧ R s' t'
    | none => R s' t

theorem Simulates.runs {step' : τ → δ → Except φ τ} {view : ε → Option δ} {R : σ → τ → Prop}
    (h : Simulates step meets step' view R) {t : τ} (es : List ε) (hr : R s t)
    (hm : AllMeet step meets s es) :
    ∃ s' t', Lib.runs step s es = .ok s' ∧ Lib.runs step' t (es.filterMap view) = .ok t' ∧
      R s' t' := by
  induction es generalizing s t with
  | nil => exact ⟨s, t, rfl, rfl, hr⟩
  | cons e es ih =>
    obtain ⟨he, hes⟩ := hm
    obtain ⟨s₁, hs, hview⟩ := h s t e hr he
    rw [hs] at hes
    cases hv : view e with
    | none =>
      rw [hv] at hview
      obtain ⟨s', t', hruns, hruns', hr'⟩ := ih hview hes
      refine ⟨s', t', ?_, ?_, hr'⟩
      · rw [Lib.runs, hs]
        exact hruns
      · rw [List.filterMap_cons_none hv]
        exact hruns'
    | some d =>
      rw [hv] at hview
      obtain ⟨t₁, ht, hr₁⟩ := hview
      obtain ⟨s', t', hruns, hruns', hr'⟩ := ih hr₁ hes
      refine ⟨s', t', ?_, ?_, hr'⟩
      · rw [Lib.runs, hs]
        exact hruns
      · rw [List.filterMap_cons_some hv, Lib.runs, ht]
        exact hruns'

/-- What a run shows the other machine: each event by the state it happens in. -/
def seen (step : σ → ε → Except φ σ) (view : σ → ε → Option δ) : σ → List ε → List δ
  | _, [] => []
  | s, e :: es => (view s e).toList ++ match step s e with
    | .error _ => []
    | .ok s' => seen step view s' es

theorem AllMeet.seen {view : σ → ε → Option δ} {P : δ → Prop} {es : List ε}
    (hm : AllMeet step meets s es) (h : ∀ s e d, meets s e → view s e = some d → P d) :
    ∀ d ∈ seen step view s es, P d := by
  induction es generalizing s with
  | nil =>
    intro d hd
    cases hd
  | cons e es ih =>
    obtain ⟨he, hes⟩ := hm
    intro d hd
    rcases List.mem_append.mp hd with hd | hd
    · exact h s e d he (Option.mem_toList.mp hd)
    · cases hs : step s e with
      | error fault =>
        rw [hs] at hd
        cases hd
      | ok s' =>
        rw [hs] at hd hes
        exact ih hes d hd

def record (log : List δ) (d : δ) : Except φ (List δ) := .ok (log ++ [d])

end MudouHttp.Lib
