import Mathlib.Algebra.Order.Ring.Int
import Mathlib.Data.List.Basic

/-! Leaving items out of a listing. Every maximal run of items that are not kept is replaced
by one piece with the length of the run, at the place of the run. -/
namespace PerfProf.Elide
variable {α β : Type*}

inductive Piece (α : Type*) where
  | shown (a : α)
  | hidden (n : Nat)
deriving DecidableEq

/-- `Elided ms ps`: the pieces `ps` list the kept items of `ms` in order, and one piece
stands for each maximal run of the others. -/
inductive Elided : List (Bool × α) → List (Piece α) → Prop where
  | nil : Elided [] []
  | shown {a : α} {ms : List (Bool × α)} {ps : List (Piece α)} (h : Elided ms ps) :
      Elided ((true,a)::ms) (.shown a::ps)
  | run {hs : List α} {ms : List (Bool × α)} {ps : List (Piece α)} (hne : hs ≠ [])
      (hmax : ∀ m ∈ ms.head?, m.1 = true) (h : Elided ms ps) :
      Elided (hs.map (fun a => (false,a)) ++ ms) (.hidden hs.length::ps)

def hiddenPiece (k : Nat) : List (Piece α) := if k = 0 then [] else [.hidden k]

/-- One pass with the length of the current run. -/
def elide : Nat → List (Bool × α) → List (Piece α)
  | k, [] => hiddenPiece k
  | k, (true,a)::ms => hiddenPiece k ++ .shown a :: elide 0 ms
  | k, (false,_)::ms => elide (k+1) ms

def Piece.shown? : Piece α → Option α
  | .shown a => some a
  | .hidden _ => none

/-- How many items a piece stands for. -/
def Piece.size : Piece α → Nat
  | .shown _ => 1
  | .hidden n => n

theorem elided_hiddenPiece {hs : List α} {ms : List (Bool × α)} {ps : List (Piece α)}
    (hmax : ∀ m ∈ ms.head?, m.1 = true) (h : Elided ms ps) :
    Elided (hs.map (fun a => (false,a)) ++ ms) (hiddenPiece hs.length ++ ps) := by
  cases hs with
  | nil => exact h
  | cons a hs => exact .run (List.cons_ne_nil a hs) hmax h

theorem elided_elide (hs : List α) (ms : List (Bool × α)) :
    Elided (hs.map (fun a => (false,a)) ++ ms) (elide hs.length ms) := by
  induction ms generalizing hs with
  | nil => simpa [elide] using @elided_hiddenPiece _ hs [] [] (by simp) Elided.nil
  | cons m ms ih =>
    obtain ⟨b,a⟩ := m
    cases b with
    | true =>
      apply elided_hiddenPiece
      · simp
      · exact (ih []).shown
    | false =>
      have h := ih (hs++[a])
      rw [List.length_append,List.map_append,List.append_assoc] at h
      exact h

theorem Elided.shown_eq {ms : List (Bool × α)} {ps : List (Piece α)} (h : Elided ms ps) :
    ps.filterMap Piece.shown? = (ms.filter Prod.fst).map Prod.snd := by
  induction h with
  | nil => rfl
  | shown h ih => simpa [Piece.shown?] using ih
  | run hne hmax h ih =>
    rw [List.filterMap_cons_none rfl,ih]
    simp [List.filter_map,Function.comp_def]

theorem Elided.size_eq {ms : List (Bool × α)} {ps : List (Piece α)} (h : Elided ms ps) :
    (ps.map Piece.size).sum = ms.length := by
  induction h with
  | nil => rfl
  | shown h ih =>
    rw [List.map_cons,List.sum_cons,ih,List.length_cons]
    exact Nat.add_comm 1 _
  | run hne hmax h ih => simp [Piece.size,ih]

end PerfProf.Elide
