import Mathlib.Data.Option.Basic

/-!
# Programs that ask

An `Asking` may fail, and it stops at every question it puts to the outside and
goes on with the answer. What answers need not be a function of the question:
between two questions of one program others may be answered.
-/

namespace MudouHttp.Lib

inductive Asking (κ ρ φ α : Type) where
  | done (result : Except φ α)
  | ask (question : κ) (next : ρ → Asking κ ρ φ α)

namespace Asking

variable {κ ρ φ α β : Type}

def bind : Asking κ ρ φ α → (α → Asking κ ρ φ β) → Asking κ ρ φ β
  | done (.ok a), f => f a
  | done (.error fault), _ => done (.error fault)
  | ask question next, f => ask question fun r => (next r).bind f

instance : Monad (Asking κ ρ φ) where
  pure a := done (.ok a)
  bind := bind

def query (question : κ) : Asking κ ρ φ ρ := ask question fun r => done (.ok r)

def asked : Asking κ ρ φ α → Option κ
  | done _ => none
  | ask question _ => some question

def run (answer : κ → ρ) : Asking κ ρ φ α → Except φ α
  | done result => result
  | ask question next => (next (answer question)).run answer

@[simp] theorem run_done (answer : κ → ρ) (x : Except φ α) : (done x).run answer = x := rfl

@[simp] theorem run_pure (answer : κ → ρ) (a : α) :
    (pure a : Asking κ ρ φ α).run answer = .ok a := rfl

@[simp] theorem run_query (answer : κ → ρ) (question : κ) :
    (query question : Asking κ ρ φ ρ).run answer = .ok (answer question) := rfl

@[simp] theorem run_bind (answer : κ → ρ) (x : Asking κ ρ φ α) (f : α → Asking κ ρ φ β) :
    (x >>= f).run answer = x.run answer >>= fun a => (f a).run answer := by
  induction x with
  | done result => cases result <;> rfl
  | ask question next ih => exact ih (answer question)

@[simp] theorem ok_bind (a : α) (f : α → Asking κ ρ φ β) : done (.ok a) >>= f = f a := rfl

@[simp] theorem error_bind (fault : φ) (f : α → Asking κ ρ φ β) :
    (done (.error fault) >>= f : Asking κ ρ φ β) = done (.error fault) := rfl

/-- The program asks the question, if there is one, and no other; the answer
decides the result. -/
def AsksOnly (x : Asking κ ρ φ α) (f : ρ → Except φ α) : Option κ → Prop
  | none => ∀ r, x = done (f r)
  | some question => x = ask question fun r => done (f r)

variable {x : Asking κ ρ φ α} {f : ρ → Except φ α} {o : Option κ}

theorem AsksOnly.bind (h : AsksOnly x f o) {g : α → Asking κ ρ φ β} {k : ρ → Except φ β}
    (hk : ∀ r, (done (f r) >>= g : Asking κ ρ φ β) = done (k r)) : AsksOnly (x >>= g) k o := by
  cases o with
  | none =>
    intro r
    rw [h r, hk r]
  | some question =>
    rw [show x = ask question fun r => done (f r) from h]
    exact congrArg (ask question) (funext hk)

end Asking

end MudouHttp.Lib
