import PerfProf.Elide
import Mathlib.Data.List.Pairwise

/-! The events that --detail prints between event1 and event2, with those closer than
hide_than left out. Whether an event needs to be printed, and what is noted about it, is a
stateful question to the iterator; its answer is a parameter here. -/
namespace PerfProf.HideThan
open Elide
variable {σ : Type*}

/-- A node of the timeline; `curr` is its address. -/
structure Node where
  curr : Nat
  time : UInt64
  event : Nat
  tp : Nat
deriving DecidableEq

/-- What event_need_to_print leaves in the iterator for an event that needs to be printed. -/
structure Note where
  debugMsg : Option String
  reason : Option String
  comm : Option String
  runningTime : UInt64
deriving DecidableEq

/-- The text before an event. Times are kept as numbers, they are printed in units of 1000. -/
inductive Title where
  | delta (delta : UInt64) (unit : String)
  | bar
  | message (text : String)
  | timed (time : Int64) (reason : String)
deriving DecidableEq

inductive Line where
  | event (event tp : Nat) (title : Title)
  | hidden (n : Nat)
  | title (title : Title)
deriving DecidableEq

structure Config (σ : Type*) where
  event2 : Nat
  e1Time : UInt64
  delta : UInt64
  unit : String
  hideThan : UInt64
  needToPrint : σ → Node → σ × Option Note

/-- An event that needs to be printed, with its note. -/
structure Shown where
  time : UInt64
  event : Nat
  tp : Nat
  note : Note
deriving DecidableEq

structure Prev where
  time : UInt64
  event : Nat
  tp : Nat
  debugMsg : Option String
  reason : Option String
deriving DecidableEq

structure Scan where
  first : Bool
  hide : Nat
  prev : Prev
deriving DecidableEq

def start : Scan := ⟨true,0,⟨0,0,0,none,none⟩⟩

def buffSize : Nat := 27

/-- __make_buff: a debug message replaces the time and the reason. -/
def makeBuff (debugMsg : Option String) (time : UInt64) (reason : Option String) : Title :=
  match debugMsg, reason with
  | some m, _ => .message (String.ofList (m.toList.take (buffSize-2)))
  | none, some r => .timed time.toInt64 r
  | none, none => .bar

def firstTitle (c : Config σ) : Title := .delta c.delta c.unit

def title (c : Config σ) (e : Shown) : Title :=
  match e.note.comm with
  | some comm => makeBuff e.note.debugMsg e.note.runningTime (some comm)
  | none => makeBuff e.note.debugMsg (e.time-c.e1Time) e.note.reason

def setPrev (e : Shown) : Prev := ⟨e.time,e.event,e.tp,e.note.debugMsg,e.note.reason⟩

/-- The event before a far one is printed after all, behind the rest of its run. -/
def remembered (c : Config σ) (p : Scan) : List Line :=
  if p.hide = 0 then [] else
  (if p.hide-1 = 0 then [] else [.hidden (p.hide-1)]) ++
    [.event p.prev.event p.prev.tp
      (makeBuff p.prev.debugMsg (p.prev.time-c.e1Time) p.prev.reason)]

/-- The loop body for an event that needs to be printed. -/
def step (c : Config σ) (p : Scan) (e : Shown) : List Line × Scan :=
  if p.first then
    ([.event e.event e.tp (firstTitle c)],⟨false,0,setPrev e⟩)
  else if c.hideThan ≠ 0 ∧ e.time-p.prev.time < c.hideThan then
    ([],⟨p.first,p.hide+1,setPrev e⟩)
  else
    ((if c.hideThan ≠ 0 then remembered c p else []) ++ [.event e.event e.tp (title c e)],
      ⟨false,0,setPrev e⟩)

def finish (c : Config σ) (p : Scan) : List Line :=
  (if p.first then [.title (firstTitle c)] else []) ++
  (if p.hide = 0 then [] else [.hidden p.hide])

/-- The loop over the nodes that follow event1 on the timeline. -/
def loop (c : Config σ) (s : σ) (p : Scan) : List Node → List Line
  | [] => finish c p
  | n::ns =>
    if n.curr = c.event2 then finish c p else
    match c.needToPrint s n with
    | (t,none) => loop c t p ns
    | (t,some note) =>
      (step c p ⟨n.time,n.event,n.tp,note⟩).1 ++
        loop c t (step c p ⟨n.time,n.event,n.tp,note⟩).2 ns

/-- delay_two, from event1 to event2. -/
def delayTwo (c : Config σ) (s : σ) (ns : List Node) : List Line := loop c s start ns

/-- The events between event1 and event2 that need to be printed. -/
def needed (c : Config σ) (s : σ) : List Node → List Shown
  | [] => []
  | n::ns =>
    if n.curr = c.event2 then [] else
    match c.needToPrint s n with
    | (t,none) => needed c t ns
    | (t,some note) => ⟨n.time,n.event,n.tp,note⟩::needed c t ns

/-- The loop on the events that need to be printed alone. -/
def scan (c : Config σ) (p : Scan) : List Shown → List Line
  | [] => finish c p
  | e::es => (step c p e).1 ++ scan c (step c p e).2 es

theorem loop_eq (c : Config σ) (s : σ) (p : Scan) (ns : List Node) :
    loop c s p ns = scan c p (needed c s ns) := by
  induction ns generalizing s p with
  | nil => rfl
  | cons n ns ih =>
    rw [loop,needed]
    by_cases h2 : n.curr = c.event2
    · rw [if_pos h2,if_pos h2,scan]
    · rw [if_neg h2,if_neg h2]
      cases c.needToPrint s n with
      | mk t a =>
        cases a with
        | none => exact ih t p
        | some note => exact congrArg _ (ih t _)

/-- `b` is at least `h` after `a`. -/
def far (h : UInt64) (a b : UInt64) : Bool := a.toNat+h.toNat ≤ b.toNat

/-- The event at `i` has a successor, at least `h` after it. -/
def farAt (h : UInt64) (ts : List UInt64) (i : Nat) : Bool :=
  match ts[i]?, ts[i+1]? with
  | some a, some b => far h a b
  | _, _ => false

/-- The first event, those at least `h` after their predecessor and those at least `h`
before their successor. -/
def kept (h : UInt64) (ts : List UInt64) (i : Nat) : Bool :=
  i = 0 || farAt h ts (i-1) || farAt h ts i

/-- Every event with whether it is to be printed. -/
def marked (h : UInt64) (es : List Shown) : List (Bool × (Nat × Nat)) :=
  es.mapIdx fun i e => (kept h (es.map Shown.time) i,(e.event,e.tp))

def Line.piece? : Line → Option (Piece (Nat × Nat))
  | .event e tp _ => some (.shown (e,tp))
  | .hidden n => some (.hidden n)
  | .title _ => none

/-- The pieces of the listing: which event a line prints, or how many it hides. -/
def pieces (ls : List Line) : List (Piece (Nat × Nat)) := ls.filterMap Line.piece?

section Marks
variable {h a : UInt64} {e : Shown} {es : List Shown}

/-- The marks of the events that follow an event at time `a`. -/
def marksAfter (h : UInt64) : UInt64 → List Shown → List (Bool × (Nat × Nat))
  | _, [] => []
  | a, e::es => (far h a e.time || farAt h (e.time::es.map Shown.time) 0,(e.event,e.tp))::
      marksAfter h e.time es

theorem marksAfter_eq (h a : UInt64) (es : List Shown) :
    marksAfter h a es =
      es.mapIdx fun i e => (kept h (a::es.map Shown.time) (i+1),(e.event,e.tp)) := by
  induction es generalizing a with
  | nil => rfl
  | cons e es ih =>
    rw [marksAfter,ih,List.mapIdx_cons]
    congr 1

theorem marked_cons (h : UInt64) (e : Shown) (es : List Shown) :
    marked h (e::es) = (true,(e.event,e.tp))::marksAfter h e.time es := by
  rw [marked,List.mapIdx_cons,marksAfter_eq]
  congr 1

end Marks

section Run
variable {c : Config σ} {p : Scan} {e : Shown} {es : List Shown} {ls ms : List Line}

@[simp] theorem pieces_append : pieces (ls++ms) = pieces ls ++ pieces ms := List.filterMap_append

@[simp] theorem pieces_hidden (n : Nat) :
    pieces (if n = 0 then [] else [.hidden n]) = hiddenPiece n := by
  unfold hiddenPiece
  split <;> rfl

@[simp] theorem pieces_event (e tp : Nat) (t : Title) :
    pieces (.event e tp t::ls) = .shown (e,tp)::pieces ls := rfl

@[simp] theorem pieces_nil : pieces [] = [] := rfl

theorem not_far_iff {h a b : UInt64} (hab : a ≤ b) : b-a < h ↔ far h a b = false := by
  have hsub := UInt64.toNat_sub_of_le b a hab
  have hle := UInt64.le_iff_toNat_le.mp hab
  rw [UInt64.lt_iff_toNat_lt,hsub,far,decide_eq_false_iff_not]
  omega

/-- What the listing still owes before it looks at the next event: the last event of an open
run waits for its successor, the rest of the run is hidden already. -/
def owed (c : Config σ) (p : Scan) (es : List Shown) : List (Piece (Nat × Nat)) :=
  if p.hide = 0 then elide 0 (marksAfter c.hideThan p.prev.time es)
  else elide (p.hide-1)
    ((farAt c.hideThan (p.prev.time::es.map Shown.time) 0,(p.prev.event,p.prev.tp))::
      marksAfter c.hideThan p.prev.time es)

theorem pieces_remembered (hp : p.hide ≠ 0) :
    pieces (remembered c p) = hiddenPiece (p.hide-1) ++ [.shown (p.prev.event,p.prev.tp)] := by
  rw [remembered,if_neg hp,pieces_append,pieces_hidden,pieces_event,pieces_nil]

theorem farAt_cons (h a b : UInt64) (ts : List UInt64) : farAt h (a::b::ts) 0 = far h a b := rfl

/-- One event settles the event before it and opens, extends or closes a run. -/
theorem pieces_step (hc : c.hideThan ≠ 0) (hp : p.first = false) (ht : p.prev.time ≤ e.time) :
    pieces (step c p e).1 ++ owed c (step c p e).2 es = owed c p (e::es) := by
  have hfirst : ¬(p.first = true) := by simp [hp]
  by_cases hnear : e.time-p.prev.time < c.hideThan
  · have hfar := (not_far_iff ht).mp hnear
    rw [step,if_neg hfirst,if_pos ⟨hc,hnear⟩,pieces_nil,List.nil_append]
    by_cases hh : p.hide = 0
    · simp [owed,hh,marksAfter,hfar,setPrev]
    · have hk : p.hide-1+1 = p.hide := by omega
      simp [owed,hh,marksAfter,hfar,setPrev,farAt_cons,elide,hk]
  · have hfar : far c.hideThan p.prev.time e.time = true := by
      rw [← Bool.not_eq_false,← not_far_iff ht]
      exact hnear
    rw [step,if_neg hfirst,if_neg (fun h => hnear h.2),if_pos hc]
    by_cases hh : p.hide = 0
    · simp [owed,hh,marksAfter,hfar,setPrev,remembered,elide,hiddenPiece]
    · simp [owed,hh,marksAfter,hfar,setPrev,pieces_remembered,farAt_cons,elide,hiddenPiece]

theorem pieces_finish (hp : p.first = false) : pieces (finish c p) = owed c p [] := by
  rw [finish,hp,if_neg Bool.false_ne_true,List.nil_append,pieces_hidden,owed]
  by_cases hh : p.hide = 0
  · simp [hh,marksAfter,elide]
  · have hk : p.hide-1+1 = p.hide := by omega
    simp [hh,marksAfter,elide,farAt,hk]

theorem step_first (hc : c.hideThan ≠ 0) (hp : p.first = false) :
    (step c p e).2.first = false := by
  unfold step
  split
  · rfl
  · split
    · exact hp
    · rfl

theorem step_prev (c : Config σ) (p : Scan) (e : Shown) : (step c p e).2.prev = setPrev e := by
  unfold step
  split
  · rfl
  · split <;> rfl

theorem pieces_scan (hc : c.hideThan ≠ 0) (hp : p.first = false)
    (ht : (p.prev.time::es.map Shown.time).Pairwise (· ≤ ·)) :
    pieces (scan c p es) = owed c p es := by
  induction es generalizing p with
  | nil => exact pieces_finish hp
  | cons e es ih =>
    obtain ⟨hpe,htail⟩ := List.pairwise_cons.mp ht
    rw [scan,pieces_append,ih (step_first hc hp) (by rw [step_prev]; exact htail)]
    exact pieces_step hc hp (hpe e.time List.mem_cons_self)

/-- The listing of a whole window. -/
theorem pieces_scan_start (hc : c.hideThan ≠ 0)
    (ht : (es.map Shown.time).Pairwise (· ≤ ·)) :
    pieces (scan c start es) = elide 0 (marked c.hideThan es) := by
  cases es with
  | nil => rfl
  | cons e es =>
    rw [scan,marked_cons,pieces_append,
      pieces_scan hc (p := (step c start e).2) rfl (by rw [step_prev]; exact ht)]
    rfl

end Run

/-- With hide_than set, the listing prints the first event, every event far from a neighbour
and no other, in order, and one line for each run it leaves out, with the length of the run. -/
theorem delayTwo_elides (c : Config σ) (s : σ) (ns : List Node) (hc : 0 < c.hideThan)
    (ht : ((needed c s ns).map Shown.time).Pairwise (· ≤ ·)) :
    Elided (marked c.hideThan (needed c s ns)) (pieces (delayTwo c s ns)) ∧
    (pieces (delayTwo c s ns)).filterMap Piece.shown? =
      ((marked c.hideThan (needed c s ns)).filter Prod.fst).map Prod.snd ∧
    ((pieces (delayTwo c s ns)).map Piece.size).sum = (needed c s ns).length := by
  have hne : c.hideThan ≠ 0 := (UInt64.pos_iff_ne_zero).mp hc
  have h : Elided (marked c.hideThan (needed c s ns)) (pieces (delayTwo c s ns)) := by
    rw [delayTwo,loop_eq,pieces_scan_start hne ht]
    exact elided_elide [] _
  refine ⟨h,h.shown_eq,?_⟩
  rw [h.size_eq,marked,List.length_mapIdx]

/-- Events at 10, 11, 12 and 30, of which the second is hidden when hide_than is 5. -/
def sampleNodes : List Node := [⟨1,10,101,7⟩,⟨2,11,102,7⟩,⟨3,12,103,8⟩,⟨4,30,104,7⟩,⟨5,31,105,9⟩]

def sampleConfig : Config Unit :=
  ⟨5,9,22,"us",5,fun _ _ => ((),some ⟨none,none,none,0⟩)⟩

theorem delayTwo_elides_sample :
    pieces (delayTwo sampleConfig () sampleNodes) =
      [.shown (101,7),.hidden 1,.shown (103,8),.shown (104,7)] ∧
    ((pieces (delayTwo sampleConfig () sampleNodes)).map Piece.size).sum =
      (needed sampleConfig () sampleNodes).length :=
  ⟨by decide,(delayTwo_elides sampleConfig () sampleNodes (by decide) (by decide)).2.2⟩

end PerfProf.HideThan
