import Mathlib.Data.List.Basic

/-!
# Acquired and released resources

`settle held uses` is what is held after a sequence of uses; releasing what is
not held has no result. A sequence that settles from nothing to nothing
releases everything it acquires, once and not before it acquires it.
-/

namespace MudouHttp.Lib

inductive Use (α : Type)
  | acquire (a : α)
  | release (a : α)
  deriving DecidableEq

variable {α : Type} [DecidableEq α]

def settle : List α → List (Use α) → Option (List α)
  | held, [] => some held
  | held, .acquire a :: uses => settle (a :: held) uses
  | held, .release a :: uses => if a ∈ held then settle (held.erase a) uses else none

theorem settle_append (held : List α) (uses more : List (Use α)) :
    settle held (uses ++ more) = (settle held uses).bind fun rest => settle rest more := by
  induction uses generalizing held with
  | nil => rfl
  | cons use uses ih =>
    cases use with
    | acquire a => exact ih _
    | release a =>
      simp only [List.cons_append, settle]
      split
      · exact ih _
      · rfl

end MudouHttp.Lib
