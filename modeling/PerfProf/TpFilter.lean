import PerfProf.FilterLang
import Mathlib.Data.List.Induction
import Mathlib.Data.List.TakeWhile
import Mathlib.Order.Basic

/-! filter/tp_filter.c: the filter of the events of some threads, or of the tasks with some names. Pids
that follow each other go into one range, which is written when the next one does not belong to it. -/
namespace PerfProf.EventFilter
open PerfProf.FilterLang

section Model

/-- `struct tp_filter` -/
structure TpFilter where
  filter : Option (List Char)
  comm : Option (List Char)
  pid : Option (List Char)
deriving DecidableEq

/-- A term behind the text there is. -/
def addTerm (text : Option (List Char)) (term : List Char) : Option (List Char) := match text with
  | none => some term
  | some text => some (text ++ " || ".toList ++ term)

/-- `strchr(s, '*') || strchr(s, '?') || strchr(s, '[')` -/
def hasGlob (s : List Char) : Bool := s.contains '*' || s.contains '?' || s.contains '['

def commTerm (s commField : List Char) : List Char :=
  let op := if hasGlob s then " ~ ".toList else " == ".toList
  commField ++ op ++ ('"' :: s ++ ['"'])

/-- `comm_filter` -/
def commFilter (comm : Option (List Char)) (s commField : List Char) : Option (List Char) :=
  if s = [] then comm else addTerm comm (commTerm s commField)

def pidTerm (pidStart pidEnd : Nat) (pidField : List Char) : List Char :=
  if pidStart = pidEnd then pidField ++ "==".toList ++ decimal pidStart
  else '(' :: (pidField ++ ">=".toList ++ decimal pidStart ++ "&&".toList ++
    (pidField ++ "<=".toList ++ decimal pidEnd)) ++ [')']

/-- `pid_filter` -/
def pidFilter (pid : Option (List Char)) (pidStart pidEnd : Int) (pidField : List Char) : Option (List Char) :=
  if pidStart < 0 ∨ pidEnd < 0 then pid else addTerm pid (pidTerm pidStart.toNat pidEnd.toNat pidField)

/-- The loop over the names, as long as there is a comma. -/
def commLoop (commField : List Char) : Nat → List Char → Option (List Char) → Option (List Char)
  | 0, _, comm => comm
  | fuel + 1, s, comm => match s.dropWhile (· != ',') with
    | [] => commFilter comm s commField
    | _ :: rest => commLoop commField fuel rest (commFilter comm (s.takeWhile (· != ',')) commField)

/-- `pid_1` and `pid_start` of the loop over the threads. -/
structure PidLoop where
  pid : Option (List Char)
  pid1 : Int
  pidStart : Int

/-- The body of the loop. -/
def pidStep (pidField : List Char) (s : PidLoop) (pid : Int) : PidLoop :=
  if pid ≥ 0 then
    if s.pid1 + 1 ≠ pid then ⟨pidFilter s.pid s.pidStart s.pid1 pidField, pid, pid⟩
    else { s with pid1 := pid }
  else s

/-- `tp_filter_new`; there is always memory. -/
def tpFilterNew (threads : Option (List Int)) (pidField : List Char) (filter : Option (List Char))
    (commField : List Char) : Option TpFilter :=
  let tpFilter : TpFilter := match filter, threads with
    | some f, _ =>
      let comm := commLoop commField (f.length + 1) f none
      ⟨comm, comm, none⟩
    | none, some threads =>
      let s := threads.foldl (pidStep pidField) ⟨none, -2, -2⟩
      let pid := pidFilter s.pid s.pidStart s.pid1 pidField
      ⟨pid, none, pid⟩
    | none, none => ⟨none, none, none⟩
  if tpFilter.comm.isSome || tpFilter.pid.isSome then some tpFilter else none

end Model

section Terms
variable {texts : List (List Char)} {term : List Char}

/-- The text of some terms. -/
def textOf : List (List Char) → Option (List Char)
  | [] => none
  | t :: ts => some (" || ".toList.intercalate (t :: ts))

theorem intercalate_concat (sep : List Char) (t : List Char) (ts : List (List Char)) (term : List Char) :
    sep.intercalate (t :: ts ++ [term]) = sep.intercalate (t :: ts) ++ sep ++ term := by
  induction ts generalizing t with
  | nil =>
    rw [List.intercalate_singleton, List.singleton_append, List.intercalate_cons_cons, List.intercalate_singleton]
  | cons t' ts ih =>
    rw [List.cons_append, List.cons_append, List.intercalate_cons_cons, ← List.cons_append, ih,
      List.intercalate_cons_cons]
    simp only [List.append_assoc]

theorem addTerm_textOf (texts : List (List Char)) (term : List Char) :
    addTerm (textOf texts) term = textOf (texts ++ [term]) := by
  cases texts with
  | nil => exact congrArg some (List.intercalate_singleton ..).symm
  | cons t ts => exact congrArg some (intercalate_concat _ t ts term).symm

/-- The text of terms that are joined is their disjunction. -/
theorem textOf_read {es : List Expr} (h : List.Forall₂ TextAnd texts es) {text : List Char}
    (htext : textOf texts = some text) : ∃ e rest, es = e :: rest ∧ TextOr text (orAll e rest) := by
  cases h with
  | nil => cases htext
  | cons hfirst hrest =>
    cases htext
    exact ⟨_, _, rfl, textOr_join hrest hfirst⟩

/-- The result is the text of the terms, if there are any. -/
theorem tpFilterNew_filter {threads : Option (List Int)} {pidField filter commField : List Char}
    (h : commLoop commField (filter.length + 1) filter none = textOf texts) :
    tpFilterNew threads pidField (some filter) commField =
      (textOf texts).map fun text => ⟨some text, some text, none⟩ := by
  rw [← h]
  unfold tpFilterNew
  dsimp only
  cases commLoop commField (filter.length + 1) filter none <;> rfl

theorem tpFilterNew_threads {threads : List Int} {pidField commField : List Char}
    (h : (let s := threads.foldl (pidStep pidField) ⟨none, -2, -2⟩
      pidFilter s.pid s.pidStart s.pid1 pidField) = textOf texts) :
    tpFilterNew (some threads) pidField none commField =
      (textOf texts).map fun text => ⟨some text, none, some text⟩ := by
  rw [← h]
  unfold tpFilterNew
  dsimp only
  generalize threads.foldl (pidStep pidField) ⟨none, -2, -2⟩ = s
  cases pidFilter s.pid s.pidStart s.pid1 pidField <;> rfl

end Terms

section Names
variable {field s : List Char}

/-- The condition for a name. -/
def nameTerm (field s : List Char) : Expr := .str field (if hasGlob s then .glob else .eq) s

theorem splits_eq_spaced : Splits " == ".toList [.op .eq] :=
  splits_cons (by decide) fun _ => rfl

theorem splits_glob_spaced : Splits " ~ ".toList [.op .glob] :=
  splits_cons (by decide) fun _ => rfl

theorem commTerm_text (hf : IsField field) (hs : '"' ∉ s) : TextAnd (commTerm s field) (nameTerm field s) := by
  rw [commTerm, nameTerm]
  cases hasGlob s with
  | true => exact (textAtom_str hf splits_glob_spaced (Or.inr (Or.inr rfl)) hs).and_single
  | false => exact (textAtom_str hf splits_eq_spaced (Or.inl rfl) hs).and_single

/-- The names of a list. -/
def names (filter : List Char) : List (List Char) := (filter.splitOn ',').filter (· ≠ [])

theorem commFilter_textOf (texts : List (List Char)) (s field : List Char) :
    commFilter (textOf texts) s field =
      textOf (texts ++ ([s].filter (· ≠ [])).map fun s => commTerm s field) := by
  rw [commFilter]
  by_cases hs : s = []
  · rw [if_pos hs, hs]
    exact congrArg textOf (List.append_nil _).symm
  · rw [if_neg hs, addTerm_textOf, List.filter_cons_of_pos (by simpa using hs)]
    rfl

/-- The loop goes through the names of the list. -/
theorem commLoop_eq (field : List Char) (fuel : Nat) (filter : List Char) (hfuel : filter.length < fuel)
    (texts : List (List Char)) : commLoop field fuel filter (textOf texts) =
      textOf (texts ++ (names filter).map fun s => commTerm s field) := by
  induction fuel generalizing filter texts with
  | zero => exact absurd hfuel (Nat.not_lt_zero _)
  | succ fuel ih =>
    have hsplit := List.takeWhile_append_dropWhile (p := (· != ',')) (l := filter)
    have hfront : ',' ∉ filter.takeWhile (· != ',') := by
      intro hmem
      have hne := List.mem_takeWhile_imp hmem
      exact absurd hne (by decide)
    rw [commLoop]
    cases hdrop : filter.dropWhile (· != ',') with
    | nil =>
      have hnone : ',' ∉ filter := by
        rw [hdrop, List.append_nil] at hsplit
        exact hsplit ▸ hfront
      dsimp only
      rw [commFilter_textOf, names, List.splitOn_eq_singleton hnone]
    | cons c rest =>
      have hc : c = ',' := by
        have hhead := List.head?_dropWhile_not (· != ',') filter
        rw [hdrop] at hhead
        simpa using hhead
      subst hc
      have hlen : rest.length < fuel := by
        have hle := (List.dropWhile_sublist (· != ',') (l := filter)).length_le
        rw [hdrop, List.length_cons] at hle
        omega
      dsimp only
      rw [commFilter_textOf, ih rest hlen, names, names]
      have hnames : filter.splitOn ',' = filter.takeWhile (· != ',') :: rest.splitOn ',' := by
        rw [← List.splitOn_append_cons_self_of_not_mem hfront, ← hdrop, hsplit]
      rw [hnames, List.append_assoc, ← List.map_append, ← List.filter_append]
      rfl

theorem mem_intercalate {sep s : List Char} {l : List (List Char)} (hs : s ∈ l) {c : Char} (hc : c ∈ s) :
    c ∈ sep.intercalate l := by
  induction l with
  | nil => cases hs
  | cons x l ih =>
    cases l with
    | nil => rwa [List.intercalate_singleton, ← List.mem_singleton.mp hs]
    | cons y l =>
      rw [List.intercalate_cons_cons, List.mem_append]
      rcases List.mem_cons.mp hs with rfl | hs
      · exact Or.inl (List.mem_append_left _ hc)
      · exact Or.inr (ih hs)

theorem mem_names {filter : List Char} (hquote : '"' ∉ filter) (h : s ∈ names filter) : s ≠ [] ∧ '"' ∉ s := by
  obtain ⟨hmem, hne⟩ := List.mem_filter.mp h
  refine ⟨by simpa using hne, fun hin => hquote ?_⟩
  have hjoin : [','].intercalate (filter.splitOn ',') = filter := List.intercalate_splitOn ','
  rw [← hjoin]
  exact mem_intercalate hmem hin

/-- What is selected by names: there is one term for each. -/
def SelectsNames (field filter : List Char) (tpFilter : Option TpFilter) : Prop := match tpFilter with
  | none => names filter = []
  | some f => ∃ text first rest, f.filter = some text ∧ names filter = first :: rest ∧
    read text = some (orAll (nameTerm field first) (rest.map (nameTerm field)))

theorem tpFilterNew_terms (threads : Option (List Int)) (pidField filter commField : List Char) :
    tpFilterNew threads pidField (some filter) commField =
      (textOf ((names filter).map fun s => commTerm s commField)).map fun text => ⟨some text, some text, none⟩ := by
  refine tpFilterNew_filter ?_
  have hloop := commLoop_eq commField (filter.length + 1) filter (Nat.lt_succ_self _) []
  rwa [List.nil_append] at hloop

theorem tpFilterNew_names (threads : Option (List Int)) (pidField : List Char) {filter : List Char}
    (hf : IsField field) (hquote : '"' ∉ filter) :
    SelectsNames field filter (tpFilterNew threads pidField (some filter) field) := by
  rw [tpFilterNew_terms]
  cases hnames : names filter with
  | nil => exact hnames
  | cons first rest =>
    have hterms : List.Forall₂ TextAnd ((names filter).map fun s => commTerm s field)
        ((names filter).map (nameTerm field)) := by
      rw [List.forall₂_map_left_iff, List.forall₂_map_right_iff, List.forall₂_same]
      exact fun s hs => commTerm_text hf (mem_names hquote hs).2
    rw [hnames] at hterms
    obtain ⟨e, es, hes, htext⟩ := textOf_read hterms rfl
    cases hes
    exact ⟨_, first, rest, rfl, hnames, htext.read⟩

end Names

section Pids
variable {field : List Char} {threads pre : List Int} {p : Int} {s : PidLoop}

/-- The condition for a range of pids. -/
def rangeTerm (field : List Char) (range : Nat × Nat) : Expr :=
  if range.1 = range.2 then .num field .eq range.1
  else .and (.num field .ge range.1) (.num field .le range.2)

theorem pidTerm_text (hf : IsField field) (range : Nat × Nat) :
    TextAnd (pidTerm range.1 range.2 field) (rangeTerm field range) := by
  rw [pidTerm, rangeTerm]
  by_cases heq : range.1 = range.2
  · rw [if_pos heq, if_pos heq]
    exact (textAtom_num hf splits_eq (by decide) _).and_single
  · rw [if_neg heq, if_neg heq]
    have hge := textAtom_num hf splits_ge (by decide) range.1
    have hle := textAtom_num hf splits_le (by decide) range.2
    exact (hge.and splits_and hle.and_single).or_single.paren.and_single

theorem rangeTerm_eval (glob : List Char → List Char → Bool) (ev : Event) {range : Nat × Nat} :
    (rangeTerm field range).eval glob ev = true ↔ (range.1 : Int) ≤ ev.num field ∧ ev.num field ≤ range.2 := by
  rw [rangeTerm]
  by_cases heq : range.1 = range.2
  · rw [if_pos heq, Expr.eval, Op.compares, beq_iff_eq, heq]
    omega
  · rw [if_neg heq, Expr.eval, Expr.eval, Expr.eval, Bool.and_eq_true, Op.compares, Op.compares,
      decide_eq_true_iff, decide_eq_true_iff]

/-- The ranges that have been written and the one that is still open are the pids so far. -/
structure Covers (field : List Char) (pre : List Int) (ranges : List (Nat × Nat)) (s : PidLoop) : Prop where
  text : s.pid = textOf (ranges.map fun range => pidTerm range.1 range.2 field)
  ordered : ∀ range ∈ ranges, range.1 ≤ range.2
  bounds : s.pidStart = -2 ∧ s.pid1 = -2 ∧ ranges = [] ∨ 0 ≤ s.pidStart ∧ s.pidStart ≤ s.pid1
  mem_iff : ∀ x, 0 ≤ x → (x ∈ pre ↔ (∃ range ∈ ranges, (range.1 : Int) ≤ x ∧ x ≤ range.2) ∨
    s.pidStart ≤ x ∧ x ≤ s.pid1)

/-- What is still open is written. -/
def closed (ranges : List (Nat × Nat)) (s : PidLoop) : List (Nat × Nat) :=
  if s.pidStart < 0 then ranges else ranges ++ [(s.pidStart.toNat, s.pid1.toNat)]

theorem Covers.pidFilter {ranges : List (Nat × Nat)} (h : Covers field pre ranges s) :
    pidFilter s.pid s.pidStart s.pid1 field =
      textOf ((closed ranges s).map fun range => pidTerm range.1 range.2 field) := by
  rw [EventFilter.pidFilter, closed, h.text]
  rcases h.bounds with ⟨hstart, -, -⟩ | ⟨hstart, hle⟩
  · rw [if_pos (Or.inl (by omega)), if_pos (by omega)]
  · rw [if_neg (by omega), if_neg (by omega), addTerm_textOf, List.map_append]
    rfl

theorem Covers.closed_iff {ranges : List (Nat × Nat)} (h : Covers field pre ranges s) {x : Int} (hx : 0 ≤ x) :
    x ∈ pre ↔ ∃ range ∈ closed ranges s, (range.1 : Int) ≤ x ∧ x ≤ range.2 := by
  rw [h.mem_iff x hx, closed]
  rcases h.bounds with ⟨hstart, hend, -⟩ | ⟨hstart, hle⟩
  · rw [if_pos (by omega)]
    exact or_iff_left (by omega)
  · rw [if_neg (by omega)]
    simp only [List.mem_append, List.mem_singleton, or_and_right, exists_or, exists_eq_left]
    refine or_congr Iff.rfl ?_
    rw [Int.toNat_of_nonneg hstart, Int.toNat_of_nonneg (Int.le_trans hstart hle)]

theorem Covers.closed_ordered {ranges : List (Nat × Nat)} (h : Covers field pre ranges s) :
    ∀ range ∈ closed ranges s, range.1 ≤ range.2 := by
  rw [closed]
  rcases h.bounds with ⟨hstart, -, -⟩ | ⟨hstart, hle⟩
  · rw [if_pos (by omega)]
    exact h.ordered
  · rw [if_neg (by omega), List.forall_mem_append, List.forall_mem_singleton]
    exact ⟨h.ordered, by omega⟩

/-- The ranges with one more pid, which goes into the last one if it is the next. -/
def addPid (ranges : List (Nat × Nat)) (p : Int) : List (Nat × Nat) :=
  if p < 0 then ranges
  else match ranges.getLast? with
    | none => [(p.toNat, p.toNat)]
    | some (first, last) =>
      if (last : Int) + 1 = p then ranges.dropLast ++ [(first, p.toNat)] else ranges ++ [(p.toNat, p.toNat)]

/-- Pids that follow each other. -/
def ranges (threads : List Int) : List (Nat × Nat) := threads.foldl addPid []

theorem addPid_concat {r : List (Nat × Nat)} {first last : Nat} (hp : 0 ≤ p) : addPid (r ++ [(first, last)]) p =
    if (last : Int) + 1 = p then r ++ [(first, p.toNat)] else r ++ [(first, last)] ++ [(p.toNat, p.toNat)] := by
  rw [addPid, if_neg (Int.not_lt.mpr hp), List.getLast?_concat]
  dsimp only
  rw [List.dropLast_concat]

/-- One more thread. -/
theorem Covers.step {r : List (Nat × Nat)} (h : Covers field pre r s) (p : Int) :
    ∃ r', Covers field (pre ++ [p]) r' (pidStep field s p) ∧
      closed r' (pidStep field s p) = addPid (closed r s) p := by
  rw [pidStep]
  by_cases hp : p ≥ 0
  · rw [if_pos hp]
    by_cases hnext : s.pid1 + 1 ≠ p
    · rw [if_pos hnext]
      refine ⟨closed r s, ⟨h.pidFilter, h.closed_ordered, Or.inr ⟨hp, Int.le_refl _⟩, fun x hx => ?_⟩, ?_⟩
      · rw [List.mem_append, List.mem_singleton, h.closed_iff hx]
        dsimp only
        exact or_congr Iff.rfl (by omega)
      · have hnew : closed (closed r s) ⟨EventFilter.pidFilter s.pid s.pidStart s.pid1 field, p, p⟩ =
            closed r s ++ [(p.toNat, p.toNat)] := if_neg (by dsimp only; omega)
        rw [hnew]
        rcases h.bounds with ⟨hstart, -, hnil⟩ | ⟨hstart, hle⟩
        · have hclosed : closed r s = [] := (if_pos (by omega)).trans hnil
          rw [hclosed, addPid, if_neg (by omega)]
          rfl
        · have hclosed : closed r s = r ++ [(s.pidStart.toNat, s.pid1.toNat)] := if_neg (by omega)
          rw [hclosed, addPid_concat hp, if_neg (by omega)]
    · rw [if_neg hnext]
      have hbounds : 0 ≤ s.pidStart ∧ s.pidStart ≤ s.pid1 := by
        rcases h.bounds with ⟨-, hend, -⟩ | hbounds
        · omega
        · exact hbounds
      refine ⟨r, ⟨h.text, h.ordered, Or.inr ⟨hbounds.1, ?_⟩, fun x hx => ?_⟩, ?_⟩
      · dsimp only
        omega
      · rw [List.mem_append, List.mem_singleton, h.mem_iff x hx, or_assoc]
        dsimp only
        exact or_congr Iff.rfl (by omega)
      · have hclosed : closed r s = r ++ [(s.pidStart.toNat, s.pid1.toNat)] := if_neg (by omega)
        have hnew : closed r { s with pid1 := p } = r ++ [(s.pidStart.toNat, p.toNat)] := if_neg (by dsimp only; omega)
        rw [hclosed, hnew, addPid_concat hp, if_pos (by omega)]
  · rw [if_neg hp]
    refine ⟨r, ⟨h.text, h.ordered, h.bounds, fun x hx => ?_⟩, (if_pos (Int.not_le.mp hp)).symm⟩
    rw [List.mem_append, List.mem_singleton, h.mem_iff x hx]
    exact or_iff_left (by omega)

theorem pidLoop_covers (field : List Char) (threads : List Int) :
    ∃ r, Covers field threads r (threads.foldl (pidStep field) ⟨none, -2, -2⟩) ∧
      closed r (threads.foldl (pidStep field) ⟨none, -2, -2⟩) = ranges threads := by
  induction threads using List.reverseRecOn with
  | nil =>
    refine ⟨[], ⟨rfl, nofun, Or.inl ⟨rfl, rfl, rfl⟩, fun x hx => iff_of_false nofun ?_⟩, rfl⟩
    rintro (⟨range, hmem, -⟩ | ⟨-, hle⟩)
    · cases hmem
    · rw [List.foldl_nil] at hle
      dsimp only at hle
      omega
  | append_singleton pre p ih =>
    obtain ⟨r, hcovers, hclosed⟩ := ih
    rw [List.foldl_concat, ranges, List.foldl_concat, ← ranges, ← hclosed]
    exact hcovers.step p

/-- What is selected by threads: those whose pid is not negative. -/
def SelectsPids (field : List Char) (threads : List Int) (tpFilter : Option TpFilter) : Prop := match tpFilter with
  | none => ∀ p ∈ threads, p < 0
  | some f => (∃ p ∈ threads, 0 ≤ p) ∧ ∃ text e, f.filter = some text ∧ read text = some e ∧
    ∀ glob ev, e.eval glob ev = true ↔ ev.num field ∈ threads ∧ 0 ≤ ev.num field

/-- The text of some threads consists of their ranges. -/
theorem tpFilterNew_ranges (field : List Char) (threads : List Int) (commField : List Char) :
    tpFilterNew (some threads) field none commField =
      (textOf ((ranges threads).map fun range => pidTerm range.1 range.2 field)).map
        fun text => ⟨some text, none, some text⟩ := by
  obtain ⟨r, hcovers, hclosed⟩ := pidLoop_covers field threads
  rw [← hclosed]
  exact tpFilterNew_threads hcovers.pidFilter

theorem ranges_ordered (threads : List Int) : ∀ range ∈ ranges threads, range.1 ≤ range.2 := by
  obtain ⟨r, hcovers, hclosed⟩ := pidLoop_covers [] threads
  exact hclosed ▸ hcovers.closed_ordered

/-- In the ranges are the pids that are not negative. -/
theorem ranges_iff (threads : List Int) (x : Int) :
    (∃ range ∈ ranges threads, (range.1 : Int) ≤ x ∧ x ≤ range.2) ↔ x ∈ threads ∧ 0 ≤ x := by
  obtain ⟨r, hcovers, hclosed⟩ := pidLoop_covers [] threads
  rw [← hclosed]
  constructor
  · intro ⟨range, hmem, hge, hle⟩
    have hpos : 0 ≤ x := Int.le_trans (Int.natCast_nonneg _) hge
    exact ⟨(hcovers.closed_iff hpos).mpr ⟨range, hmem, hge, hle⟩, hpos⟩
  · exact fun ⟨hin, hpos⟩ => (hcovers.closed_iff hpos).mp hin

theorem tpFilterNew_pids (hf : IsField field) (threads : List Int) (commField : List Char) :
    SelectsPids field threads (tpFilterNew (some threads) field none commField) := by
  have hiff := ranges_iff threads
  have hordered := ranges_ordered threads
  rw [tpFilterNew_ranges]
  cases hranges : ranges threads with
  | nil =>
    intro p hp
    by_contra hnot
    obtain ⟨range, hmem, -⟩ := (hiff p).mpr ⟨hp, Int.not_lt.mp hnot⟩
    rw [hranges] at hmem
    cases hmem
  | cons first rest =>
    rw [hranges] at hiff hordered
    have hterms : List.Forall₂ TextAnd ((first :: rest).map fun range => pidTerm range.1 range.2 field)
        ((first :: rest).map (rangeTerm field)) := by
      rw [List.forall₂_map_left_iff, List.forall₂_map_right_iff, List.forall₂_same]
      exact fun range _ => pidTerm_text hf range
    obtain ⟨e, es, hes, htext⟩ := textOf_read hterms rfl
    cases hes
    have hfirst := (hiff first.1).mp ⟨first, List.mem_cons_self, Int.le_refl _,
      Int.ofNat_le.mpr (hordered first List.mem_cons_self)⟩
    refine ⟨⟨first.1, hfirst⟩, _, _, rfl, htext.read, fun glob ev => ?_⟩
    have hterm : (∃ e ∈ (first :: rest).map (rangeTerm field), e.eval glob ev = true) ↔
        ∃ range ∈ first :: rest, (range.1 : Int) ≤ ev.num field ∧ ev.num field ≤ range.2 := by
      simp only [List.mem_map, exists_exists_and_eq_and, rangeTerm_eval]
    rw [eval_orAll, ← List.map_cons, hterm, hiff]

end Pids

section Exact
variable {pidField commField : List Char}

/-- A filter selects just the threads, or has one term for each name. -/
theorem tpFilterNew_exact (hpid : IsField pidField) (hcomm : IsField commField) :
    (∀ threads, SelectsPids pidField threads (tpFilterNew (some threads) pidField none commField)) ∧
      ∀ threads filter, '"' ∉ filter →
        SelectsNames commField filter (tpFilterNew threads pidField (some filter) commField) :=
  ⟨fun threads => tpFilterNew_pids hpid threads commField,
    fun threads _ hquote => tpFilterNew_names threads pidField hcomm hquote⟩

theorem pidField_isField : IsField "pid".toList := isField_of_all (by decide) rfl

theorem commField_isField : IsField "comm".toList := isField_of_all (by decide) rfl

theorem tpFilterNew_some : SelectsPids "pid".toList [3, 4, 5, -1, 9]
      (tpFilterNew (some [3, 4, 5, -1, 9]) "pid".toList none "comm".toList) ∧
    SelectsNames "comm".toList "sh,,k*".toList
      (tpFilterNew none "pid".toList (some "sh,,k*".toList) "comm".toList) :=
  ⟨(tpFilterNew_exact pidField_isField commField_isField).1 _,
    (tpFilterNew_exact pidField_isField commField_isField).2 none _ (by decide)⟩

example : (tpFilterNew (some [3, 4, 5, -1, 9]) "pid".toList none "comm".toList).bind TpFilter.filter =
    some "(pid>=3&&pid<=5) || pid==9".toList := by decide

end Exact

end PerfProf.EventFilter
