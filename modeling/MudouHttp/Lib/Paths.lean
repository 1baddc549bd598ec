import Mathlib.Data.List.Induction

/-!
# Lexical resolution of paths

A path is a list of moves into a directory and up again. Resolving it leaves
how often it goes up from where it starts and the directories it is then in.
It ends inside a directory exactly if it enters it where it started, and does
not go up from it behind that (`inside_iff`).
-/

namespace MudouHttp.Lib

variable {α : Type}

inductive Move (α : Type)
  | into (name : α)
  | up
  deriving DecidableEq

/-- `names` are innermost first. -/
structure Place (α : Type) where
  ups : Nat
  names : List α
  deriving DecidableEq

namespace Place

def move (p : Place α) : Move α → Place α
  | .into name => { p with names := name :: p.names }
  | .up =>
    match p.names with
    | [] => { p with ups := p.ups + 1 }
    | _ :: names => { p with names := names }

def start : Place α := { ups := 0, names := [] }

def Inside (root : α) (p : Place α) : Prop := p.ups = 0 ∧ p.names.getLast? = some root

instance [DecidableEq α] (root : α) (p : Place α) : Decidable (p.Inside root) :=
  inferInstanceAs (Decidable (_ ∧ _))

end Place

def resolve (moves : List (Move α)) : Place α := moves.foldl Place.move .start

namespace Move

def isInto : Move α → Bool
  | into _ => true
  | up => false

def isUp : Move α → Bool
  | into _ => false
  | up => true

end Move

def ups (moves : List (Move α)) : Nat := moves.countP Move.isUp

def intos (moves : List (Move α)) : Nat := moves.countP Move.isInto

@[simp] theorem ups_into (moves : List (Move α)) (name : α) :
    ups (moves ++ [.into name]) = ups moves := List.countP_append.trans (Nat.add_zero _)

@[simp] theorem ups_up (moves : List (Move α)) : ups (moves ++ [.up]) = ups moves + 1 :=
  List.countP_append

@[simp] theorem intos_into (moves : List (Move α)) (name : α) :
    intos (moves ++ [.into name]) = intos moves + 1 := List.countP_append

@[simp] theorem intos_up (moves : List (Move α)) : intos (moves ++ [.up]) = intos moves :=
  List.countP_append.trans (Nat.add_zero _)

/-- Never more moves up than moves down. -/
def Stays (moves : List (Move α)) : Prop := ∀ pre, pre <+: moves → ups pre ≤ intos pre

/-- Back where it started, and never above. -/
def Closed (moves : List (Move α)) : Prop := Stays moves ∧ ups moves = intos moves

theorem stays_nil : Stays ([] : List (Move α)) := by
  intro pre hpre
  rw [List.prefix_nil.mp hpre]
  exact Nat.le_refl _

theorem stays_concat {moves : List (Move α)} {m : Move α} : Stays (moves ++ [m]) ↔
    Stays moves ∧ ups (moves ++ [m]) ≤ intos (moves ++ [m]) := by
  constructor
  · exact fun h => ⟨fun pre hpre => h pre (hpre.trans (List.prefix_append _ _)),
      h _ (List.prefix_refl _)⟩
  · rintro ⟨hstays, hlast⟩ pre hpre
    rcases List.prefix_concat_iff.mp hpre with rfl | hpre
    · exact hlast
    · exact hstays pre hpre

theorem resolve_concat (moves : List (Move α)) (m : Move α) :
    resolve (moves ++ [m]) = (resolve moves).move m := List.foldl_append

/-- Moves that stay leave what was entered before. -/
theorem Stays.walk {moves : List (Move α)} (h : Stays moves) (p : Place α) :
    ∃ inner, moves.foldl Place.move p = { p with names := inner ++ p.names } ∧
      inner.length + ups moves = intos moves := by
  induction moves using List.reverseRecOn with
  | nil => exact ⟨[], rfl, rfl⟩
  | append_singleton moves m ih =>
    obtain ⟨hstays, hlast⟩ := stays_concat.mp h
    obtain ⟨inner, hwalk, hcount⟩ := ih hstays
    rw [List.foldl_append, hwalk]
    cases m with
    | into name =>
      refine ⟨name :: inner, rfl, ?_⟩
      simp only [ups_into, intos_into, List.length_cons]
      omega
    | up =>
      simp only [ups_up, intos_up] at hlast ⊢
      cases inner with
      | nil =>
        rw [List.length_nil] at hcount
        omega
      | cons name inner =>
        refine ⟨inner, rfl, ?_⟩
        rw [List.length_cons] at hcount
        omega

theorem Stays.resolve {moves : List (Move α)} (h : Stays moves) :
    ∃ names, resolve moves = { ups := 0, names := names } ∧ names.length + ups moves = intos moves := by
  obtain ⟨inner, hwalk, hcount⟩ := h.walk .start
  exact ⟨inner, hwalk.trans (congrArg (Place.mk 0) (List.append_nil _)), hcount⟩

theorem stays_of_resolve {moves : List (Move α)} (h : (resolve moves).ups = 0) : Stays moves := by
  induction moves using List.reverseRecOn with
  | nil => exact stays_nil
  | append_singleton moves m ih =>
    rw [resolve_concat] at h
    cases m with
    | into name =>
      have hstays := ih h
      obtain ⟨names, -, hcount⟩ := hstays.resolve
      refine stays_concat.mpr ⟨hstays, ?_⟩
      simp only [ups_into, intos_into]
      omega
    | up =>
      cases hres : resolve moves with
      | mk u names =>
        rw [hres] at h ih
        cases names with
        | nil => cases h
        | cons name names =>
          have hstays := ih h
          obtain ⟨names', hresolve, hcount⟩ := hstays.resolve
          cases hres.symm.trans hresolve
          refine stays_concat.mpr ⟨hstays, ?_⟩
          rw [List.length_cons] at hcount
          simp only [ups_up, intos_up]
          omega

theorem entered {moves : List (Move α)} {inner : List α}
    (h : resolve moves = { ups := 0, names := inner ++ [root] }) :
    ∃ pre post, moves = pre ++ .into root :: post ∧ Closed pre ∧ Stays post ∧
      inner.length + ups post = intos post := by
  induction moves using List.reverseRecOn generalizing inner with
  | nil => cases inner <;> cases h
  | append_singleton moves m ih =>
    rw [resolve_concat] at h
    cases hres : resolve moves with
    | mk u names =>
      rw [hres] at h ih
      cases m with
      | into name =>
        cases inner with
        | nil =>
          cases h
          have hstays := stays_of_resolve (congrArg Place.ups hres)
          obtain ⟨names, hresolve, hcount⟩ := hstays.resolve
          cases hres.symm.trans hresolve
          rw [List.length_nil, Nat.zero_add] at hcount
          exact ⟨moves, [], rfl, ⟨hstays, hcount⟩, stays_nil, rfl⟩
        | cons name' inner =>
          cases h
          obtain ⟨pre, post, rfl, hpre, hpost, hcount⟩ := ih rfl
          refine ⟨pre, post ++ [.into name], by simp, hpre, stays_concat.mpr ⟨hpost, ?_⟩, ?_⟩
          · simp only [ups_into, intos_into]
            omega
          · simp only [ups_into, intos_into, List.length_cons]
            omega
      | up =>
        cases names with
        | nil => cases inner <;> cases h
        | cons name names =>
          cases h
          obtain ⟨pre, post, rfl, hpre, hpost, hcount⟩ := @ih (name :: inner) rfl
          rw [List.length_cons] at hcount
          refine ⟨pre, post ++ [.up], by simp, hpre, stays_concat.mpr ⟨hpost, ?_⟩, ?_⟩
          · simp only [ups_up, intos_up]
            omega
          · simp only [ups_up, intos_up]
            omega

theorem inside_iff {moves : List (Move α)} : (resolve moves).Inside root ↔
    ∃ pre post, moves = pre ++ .into root :: post ∧ Closed pre ∧ Stays post := by
  constructor
  · rintro ⟨hups, hroot⟩
    obtain ⟨inner, hinner⟩ := List.getLast?_eq_some_iff.mp hroot
    have hresolve : resolve moves = { ups := 0, names := inner ++ [root] } := by
      rw [← hups, ← hinner]
    obtain ⟨pre, post, hmoves, hpre, hpost, -⟩ := entered hresolve
    exact ⟨pre, post, hmoves, hpre, hpost⟩
  · rintro ⟨pre, post, rfl, ⟨hpre, hclosed⟩, hpost⟩
    obtain ⟨names, hresolve, hcount⟩ := hpre.resolve
    obtain rfl : names = [] := List.length_eq_zero_iff.mp (by omega)
    obtain ⟨inner, hwalk, -⟩ := hpost.walk { ups := 0, names := [root] }
    have hall : resolve (pre ++ .into root :: post) = { ups := 0, names := inner ++ [root] } := by
      unfold resolve at hresolve ⊢
      rw [List.foldl_append, hresolve]
      exact hwalk
    rw [hall]
    exact ⟨rfl, List.getLast?_concat⟩

end MudouHttp.Lib
