import Mathlib.Data.List.Basic

/-!
# Runs of a partial machine and of its specification

A machine takes a state and an operation to a new state and an output, or to
a fault. A specification does the same on abstract states and never fails,
but admits only some operations in each state. `Simulation.run` lifts one
admitted operation to every admitted sequence of them: the machine never
faults and the outputs agree.
-/

namespace MudouHttp.Lib

variable {σ α ε ω φ : Type}

/-- The final state of a sequence of operations and their outputs, in order. -/
def run (step : σ → ε → Except φ (σ × ω)) : σ → List ε → Except φ (σ × List ω)
  | s, [] => .ok (s, [])
  | s, e :: es => do
    let (s', o) ← step s e
    let (t, os) ← run step s' es
    pure (t, o :: os)

def runSpec (spec : α → ε → α × ω) : α → List ε → α × List ω
  | a, [] => (a, [])
  | a, e :: es => ((runSpec spec (spec a e).1 es).1, (spec a e).2 :: (runSpec spec (spec a e).1 es).2)

def Admitted (spec : α → ε → α × ω) (admits : α → ε → Prop) : α → List ε → Prop
  | _, [] => True
  | a, e :: es => admits a e ∧ Admitted spec admits (spec a e).1 es

instance decidableAdmitted (spec : α → ε → α × ω) (admits : α → ε → Prop)
    [∀ a e, Decidable (admits a e)] : ∀ a es, Decidable (Admitted spec admits a es)
  | _, [] => .isTrue trivial
  | a, e :: es =>
    have := decidableAdmitted spec admits (spec a e).1 es
    inferInstanceAs (Decidable (admits a e ∧ Admitted spec admits (spec a e).1 es))

/-- One admitted operation keeps `R` and gives the specified output. -/
def Simulation (step : σ → ε → Except φ (σ × ω)) (spec : α → ε → α × ω)
    (admits : α → ε → Prop) (R : σ → α → Prop) : Prop :=
  ∀ s a e, R s a → admits a e → ∃ s', step s e = .ok (s', (spec a e).2) ∧ R s' (spec a e).1

theorem Simulation.run {step : σ → ε → Except φ (σ × ω)} {spec : α → ε → α × ω}
    {admits : α → ε → Prop} {R : σ → α → Prop} (h : Simulation step spec admits R)
    (es : List ε) {s : σ} {a : α} (hr : R s a) (ha : Admitted spec admits a es) :
    ∃ t, Lib.run step s es = .ok (t, (runSpec spec a es).2) ∧ R t (runSpec spec a es).1 := by
  induction es generalizing s a with
  | nil => exact ⟨s, rfl, hr⟩
  | cons e es ih =>
    obtain ⟨s', hs, hr'⟩ := h s a e hr ha.1
    obtain ⟨t, ht, hrt⟩ := ih hr' ha.2
    refine ⟨t, ?_, hrt⟩
    rw [Lib.run, hs]
    show (do let (t, os) ← Lib.run step s' es; pure (t, (spec a e).2 :: os)) = _
    rw [ht]
    rfl

theorem runSpec_append (spec : α → ε → α × ω) (a : α) (es fs : List ε) :
    runSpec spec a (es ++ fs) = ((runSpec spec (runSpec spec a es).1 fs).1,
      (runSpec spec a es).2 ++ (runSpec spec (runSpec spec a es).1 fs).2) := by
  induction es generalizing a with
  | nil => rfl
  | cons e es ih => simp only [List.cons_append, runSpec, ih]

theorem admitted_append {spec : α → ε → α × ω} {admits : α → ε → Prop} {a : α} {es fs : List ε} :
    Admitted spec admits a (es ++ fs) ↔
      Admitted spec admits a es ∧ Admitted spec admits (runSpec spec a es).1 fs := by
  induction es generalizing a with
  | nil => simp only [List.nil_append, Admitted, runSpec, true_and]
  | cons e es ih => simp only [List.cons_append, Admitted, runSpec, ih, and_assoc]

theorem runSpec_last (spec : α → ε → α × ω) (a : α) (es : List ε) (e : ε) :
    (runSpec spec a (es ++ [e])).2.getLast? = some (spec (runSpec spec a es).1 e).2 := by
  rw [runSpec_append]
  exact List.getLast?_concat

theorem runSpec_map {ε' : Type} (spec : α → ε → α × ω) (f : ε' → ε) (a : α) (es : List ε') :
    runSpec (fun a e => spec a (f e)) a es = runSpec spec a (es.map f) := by
  induction es generalizing a with
  | nil => rfl
  | cons e es ih => simp only [List.map_cons, runSpec, ih]

end MudouHttp.Lib
