import Mathlib.Algebra.Order.Ring.Int
import Mathlib.Data.List.Basic
import Mathlib.Data.List.Infix

/-! The books of a sender that may drop messages. Its history lists, oldest first, the
messages it has queued, those it has dropped and the loss records it has queued;
what goes out is the stream of the history. -/
namespace PerfProf.Outbox
variable {α : Type*}

inductive Entry (α : Type*) where
  | queued (m : List α)
  | dropped (m : List α)
  | lost (count : Nat)
deriving DecidableEq

def Entry.bytes (record : Nat → List α) : Entry α → List α
  | .queued m => m
  | .dropped _ => []
  | .lost n => record n

def stream (record : Nat → List α) (history : List (Entry α)) : List α :=
  history.flatMap (Entry.bytes record)

def Entry.message : Entry α → Option (List α)
  | .queued m => some m
  | .dropped m => some m
  | .lost _ => none

/-- Every message the sender was given, in order. -/
def messages (history : List (Entry α)) : List (List α) := history.filterMap Entry.message

def Entry.drops : Entry α → Nat
  | .dropped _ => 1
  | _ => 0

def Entry.reports : Entry α → Nat
  | .lost n => n
  | _ => 0

def drops (history : List (Entry α)) : Nat := (history.map Entry.drops).sum

def reports (history : List (Entry α)) : Nat := (history.map Entry.reports).sum

def Entry.count (n : Nat) : Entry α → Nat
  | .queued _ => n
  | .dropped _ => n + 1
  | .lost _ => 0

/-- The messages dropped since the last loss record. -/
def pending (history : List (Entry α)) : Nat := history.foldl Entry.count 0

/-- Each loss record counts the drops since the one before it. -/
def Counted (history : List (Entry α)) : Prop :=
  ∀ p n q, history = p ++ .lost n :: q → n = pending p

/-- Between a drop and the next queued message stands a loss record. -/
def Ordered (history : List (Entry α)) : Prop :=
  ∀ p m q m' r, history = p ++ .dropped m :: (q ++ .queued m' :: r) → ∃ n, .lost n ∈ q

section Snoc
variable (h : List (Entry α)) (e : Entry α) (record : Nat → List α)

@[simp] theorem stream_snoc : stream record (h ++ [e]) = stream record h ++ e.bytes record := by
  simp [stream]

@[simp] theorem pending_snoc : pending (h ++ [e]) = e.count (pending h) := by
  simp [pending]

@[simp] theorem drops_snoc : drops (h ++ [e]) = drops h + e.drops := by
  simp [drops]

@[simp] theorem reports_snoc : reports (h ++ [e]) = reports h + e.reports := by
  simp [reports]

theorem messages_snoc : messages (h ++ [e]) = messages h ++ e.message.toList := by
  cases e <;> simp [messages, Entry.message]

end Snoc

theorem append_cons_eq_snoc {p q h : List α} {x e : α} (hp : h ++ [e] = p ++ x :: q) :
    (q = [] ∧ h = p ∧ e = x) ∨ ∃ q', q = q' ++ [e] ∧ h = p ++ x :: q' := by
  rcases List.eq_nil_or_concat q with rfl | ⟨q', y, rfl⟩
  · obtain ⟨hhp, hex⟩ := List.append_inj' hp rfl
    exact .inl ⟨rfl, hhp, by simpa using hex⟩
  · rw [List.concat_eq_append, ← List.cons_append, ← List.append_assoc] at hp
    obtain ⟨hhp, hex⟩ := List.append_inj' hp rfl
    obtain rfl : e = y := by simpa using hex
    exact .inr ⟨q', List.concat_eq_append, hhp⟩

theorem counted_nil : Counted ([] : List (Entry α)) := by
  intro p n q h
  simp at h

theorem ordered_nil : Ordered ([] : List (Entry α)) := by
  intro p m q m' r h
  simp at h

theorem counted_snoc {h : List (Entry α)} {e : Entry α} :
    Counted (h ++ [e]) ↔ Counted h ∧ ∀ n, e = .lost n → n = pending h := by
  constructor
  · intro hc
    refine ⟨?_, ?_⟩
    · rintro p n q rfl
      exact hc p n (q ++ [e]) (by simp)
    · rintro n rfl
      exact hc h n [] rfl
  · rintro ⟨hc, he⟩ p n q hpq
    rcases append_cons_eq_snoc hpq with ⟨-, rfl, rfl⟩ | ⟨q', -, rfl⟩
    · exact he n rfl
    · exact hc p n q' rfl

/-- Nothing is pending exactly when every drop has a loss record behind it. -/
theorem pending_eq_zero_iff (h : List (Entry α)) :
    pending h = 0 ↔ ∀ p m q, h = p ++ .dropped m :: q → ∃ n, .lost n ∈ q := by
  induction h using List.reverseRecOn with
  | nil => simp [pending]
  | append_singleton h e ih =>
    rw [pending_snoc]
    cases e with
    | queued m =>
      rw [Entry.count, ih]
      constructor
      · intro hall p m' q hpq
        rcases append_cons_eq_snoc hpq with ⟨-, -, habs⟩ | ⟨q', rfl, rfl⟩
        · cases habs
        · obtain ⟨n, hn⟩ := hall p m' q' rfl
          exact ⟨n, by simp [hn]⟩
      · rintro hall p m' q rfl
        obtain ⟨n, hn⟩ := hall p m' (q ++ [.queued m]) (by simp)
        exact ⟨n, by simpa using hn⟩
    | dropped m =>
      refine ⟨fun habs => absurd habs (Nat.succ_ne_zero _), fun hall => ?_⟩
      obtain ⟨n, hn⟩ := hall h m [] rfl
      simp at hn
    | lost k =>
      simp only [Entry.count, true_iff]
      intro p m q hpq
      rcases append_cons_eq_snoc hpq with ⟨-, -, habs⟩ | ⟨q', rfl, -⟩
      · cases habs
      · exact ⟨k, by simp⟩

theorem ordered_snoc {h : List (Entry α)} {e : Entry α} :
    Ordered (h ++ [e]) ↔ Ordered h ∧ ((∃ m, e = .queued m) → pending h = 0) := by
  constructor
  · intro ho
    refine ⟨?_, ?_⟩
    · rintro p m q m' r rfl
      exact ho p m q m' (r ++ [e]) (by simp)
    · rintro ⟨m', rfl⟩
      rw [pending_eq_zero_iff]
      rintro p m q rfl
      exact ho p m q m' [] (by simp)
  · rintro ⟨ho, he⟩ p m q m' r hpq
    rw [← List.cons_append, ← List.append_assoc] at hpq
    rcases append_cons_eq_snoc hpq with ⟨-, rfl, rfl⟩ | ⟨r', -, hh⟩
    · exact (pending_eq_zero_iff _).mp (he ⟨m', rfl⟩) p m q rfl
    · exact ho p m q m' r' (by simpa using hh)

theorem Counted.drops_eq {h : List (Entry α)} (hc : Counted h) :
    drops h = reports h + pending h := by
  induction h using List.reverseRecOn with
  | nil => rfl
  | append_singleton h e ih =>
    obtain ⟨hc, he⟩ := counted_snoc.mp hc
    have := ih hc
    cases e with
    | queued m => simpa [Entry.drops, Entry.reports, Entry.count] using this
    | dropped m =>
      simp only [drops_snoc, reports_snoc, pending_snoc, Entry.drops, Entry.reports, Entry.count]
      omega
    | lost n =>
      have := he n rfl
      simp only [drops_snoc, reports_snoc, pending_snoc, Entry.drops, Entry.reports, Entry.count]
      omega

end PerfProf.Outbox
