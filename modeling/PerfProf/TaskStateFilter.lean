import PerfProf.FilterCut
import PerfProf.TpFilter

/-! task-state.c: the filters of sched_switch, of the second sched_switch and of the wakeups. The first
is put together in a buffer of 4096 characters. -/
namespace PerfProf.TaskState
open PerfProf.FilterLang PerfProf.EventFilter

section Model

def TASK_INTERRUPTIBLE : Nat := 1

def TASK_UNINTERRUPTIBLE : Nat := 2

def TASK_WAKEKILL : Nat := 128

def TASK_KILLABLE : Nat := TASK_WAKEKILL ||| TASK_UNINTERRUPTIBLE

/-- The options `-S`, `-D` and `--filter`. -/
structure Env where
  interruptible : Bool
  uninterruptible : Bool
  filter : Option (List Char)

inductive Evsel where
  | schedSwitch | schedSwitchNext | schedWakeup | schedWakeupNew
deriving DecidableEq

def stateText (state : Nat) : List Char := "prev_state".toList ++ "==".toList ++ decimal state

/-- The text that is printed into the buffer, in its variants. -/
def switchText (env : Env) (prevFilter : Option (List Char)) : List Char :=
  let all := stateText TASK_INTERRUPTIBLE ++ " || ".toList ++
    (stateText TASK_UNINTERRUPTIBLE ++ " || ".toList ++ stateText TASK_KILLABLE)
  let uninterruptible := stateText TASK_UNINTERRUPTIBLE ++ " || ".toList ++ stateText TASK_KILLABLE
  match env.interruptible, env.uninterruptible, prevFilter with
  | true, true, some filter => '(' :: all ++ [')'] ++ " && ".toList ++ ('(' :: filter ++ [')'])
  | true, true, none => all
  | true, false, some filter => stateText TASK_INTERRUPTIBLE ++ " && ".toList ++ ('(' :: filter ++ [')'])
  | true, false, none => stateText TASK_INTERRUPTIBLE
  | false, true, some filter => '(' :: uninterruptible ++ [')'] ++ " && ".toList ++ ('(' :: filter ++ [')'])
  | false, true, none => uninterruptible
  | false, false, some filter => filter
  | false, false, none => []

/-- The filter of `tp_filter_new`. -/
def tpFilter (env : Env) (threads : Option (List Int)) (pidField commField : String) : Option (List Char) :=
  (tpFilterNew threads pidField.toList env.filter commField.toList).bind TpFilter.filter

/-- What `snprintf` leaves in a buffer. -/
def snprintf (size : Nat) (text : List Char) : List Char := text.take (size - 1)

/-- The filter that `task_state_filter` applies to an event. -/
def filterOf (env : Env) (threads : Option (List Int)) : Evsel → Option (List Char)
  | .schedSwitch =>
    let filter := snprintf 4096 (switchText env (tpFilter env threads "prev_pid" "prev_comm"))
    if filter = [] then none else some filter
  | .schedSwitchNext => tpFilter env threads "next_pid" "next_comm"
  | .schedWakeup => tpFilter env threads "pid" "comm"
  | .schedWakeupNew => tpFilter env threads "pid" "comm"

end Model

section Spec

/-- The task in these fields is selected; where nothing is given, each is. -/
def Selected (env : Env) (threads : Option (List Int)) (pidField commField : String)
    (glob : List Char → List Char → Bool) (ev : Event) : Prop :=
  match env.filter, threads with
  | some filter, _ => names filter = [] ∨ ∃ s ∈ names filter, (nameTerm commField.toList s).eval glob ev = true
  | none, some threads => (∀ p ∈ threads, p < 0) ∨ ev.num pidField.toList ∈ threads ∧ 0 ≤ ev.num pidField.toList
  | none, none => True

/-- The state is one of those that are requested. -/
def Requested (env : Env) (ev : Event) : Prop :=
  let state := ev.num "prev_state".toList
  env.interruptible = false ∧ env.uninterruptible = false ∨ env.interruptible = true ∧ state = TASK_INTERRUPTIBLE ∨
    env.uninterruptible = true ∧ (state = TASK_UNINTERRUPTIBLE ∨ state = TASK_KILLABLE)

/-- The filter is true of the events that meet the condition; without one it is true of all. -/
def FilterIs (filter : Option (List Char)) (cond : (List Char → List Char → Bool) → Event → Prop) : Prop :=
  match filter with
  | none => ∀ glob ev, cond glob ev
  | some text => ∃ e, read text = some e ∧ ∀ glob ev, e.eval glob ev = true ↔ cond glob ev

/-- The filters select the same tasks, and the first one the states. -/
structure Agree (env : Env) (threads : Option (List Int)) : Prop where
  switch : FilterIs (filterOf env threads .schedSwitch) fun glob ev =>
    Selected env threads "prev_pid" "prev_comm" glob ev ∧ Requested env ev
  next : FilterIs (filterOf env threads .schedSwitchNext) (Selected env threads "next_pid" "next_comm")
  wakeup : FilterIs (filterOf env threads .schedWakeup) (Selected env threads "pid" "comm")
  wakeupNew : FilterIs (filterOf env threads .schedWakeupNew) (Selected env threads "pid" "comm")

def InRanges (ranges : List (Nat × Nat)) (p : Int) : Prop := ∃ range ∈ ranges, (range.1 : Int) ≤ p ∧ p ≤ range.2

/-- The joined terms and perhaps a blank behind them are all that fits. -/
def Fills (texts : List (List Char)) : Prop :=
  (" || ".toList.intercalate texts).length = 4095 ∨ (" || ".toList.intercalate texts).length = 4094

/-- The first terms fill the buffer, and the others name nothing new. The last number may be cut off if what
is left of it is one of the pids. -/
def Lossless (env : Env) (threads : Option (List Int)) : Prop :=
  let rangeText (range : Nat × Nat) := pidTerm range.1 range.2 "prev_pid".toList
  match env.filter, threads with
  | some filter, _ => ∃ pre post, names filter = pre ++ post ∧
      Fills (pre.map fun s => commTerm s "prev_comm".toList) ∧ ∀ s ∈ post, s ∈ pre
  | none, some threads =>
    (∃ pre post, ranges threads = pre ++ post ∧ Fills (pre.map rangeText) ∧
      ∀ p ∈ threads, 0 ≤ p → InRanges pre p) ∨
    ∃ pre n q post, ranges threads = pre ++ (n, n) :: post ∧ decimal q <+: decimal n ∧
      (" || ".toList.intercalate ((pre ++ [(q, q)]).map rangeText)).length = 4095 ∧
        (q : Int) ∈ threads ∧ ∀ p ∈ threads, 0 ≤ p → InRanges (pre ++ [(q, q)]) p
  | none, none => False

/-- No name has a quote in it, and the text of the first filter fits in its buffer, or loses no task there. -/
def Fits (env : Env) (threads : Option (List Int)) : Prop :=
  (∀ filter, env.filter = some filter → '"' ∉ filter) ∧
    ((switchText env (tpFilter env threads "prev_pid" "prev_comm")).length < 4096 ∨
      (env.interruptible = false ∧ env.uninterruptible = false) ∧ Lossless env threads)

end Spec

section Terms
variable {env : Env} {threads : Option (List Int)} {pidField commField : String} {field s : List Char}
  {text : List Char} {e : Expr}

theorem nested_field (h : IsField field) : Nested field := by
  refine nested_plain (List.all_eq_true.mpr fun c hc => ?_)
  rw [Bool.and_eq_true, bne_iff_ne, bne_iff_ne]
  constructor
  · exact fun heq => absurd (heq ▸ h.2 c hc) (by decide)
  · exact fun heq => absurd (heq ▸ h.2 c hc) (by decide)

theorem nested_decimal (n : Nat) : Nested (decimal n) := nested_field ⟨Nat.toDigits_ne_nil, decimal_wordChar n⟩

theorem nested_commTerm (hf : IsField field) (hs : '"' ∉ s) : Nested (commTerm s field) := by
  rw [commTerm]
  refine ((nested_field hf).append (nested_plain ?_)).append (nested_str hs)
  cases hasGlob s <;> decide

/-- A range without its parentheses. -/
def rangeInner (range : Nat × Nat) (field : List Char) : List Char :=
  field ++ ">=".toList ++ decimal range.1 ++ "&&".toList ++ (field ++ "<=".toList ++ decimal range.2)

theorem pidTerm_one (n : Nat) (field : List Char) : pidTerm n n field = field ++ "==".toList ++ decimal n := if_pos rfl

theorem pidTerm_range {range : Nat × Nat} (h : range.1 ≠ range.2) (field : List Char) :
    pidTerm range.1 range.2 field = '(' :: rangeInner range field ++ [')'] := if_neg h

theorem nested_rangeInner (hf : IsField field) (range : Nat × Nat) : Nested (rangeInner range field) := by
  have hcmp (op : List Char) (hop : op.all (fun c => c != ')' && c != '"') = true) (n : Nat) :
      Nested (field ++ op ++ decimal n) :=
    ((nested_field hf).append (nested_plain hop)).append (nested_decimal n)
  exact ((hcmp _ (by decide) _).append (nested_plain (by decide))).append (hcmp _ (by decide) _)

theorem nested_pidTerm (hf : IsField field) (range : Nat × Nat) : Nested (pidTerm range.1 range.2 field) := by
  by_cases heq : range.1 = range.2
  · rw [heq, pidTerm_one]
    exact ((nested_field hf).append (nested_plain (by decide))).append (nested_decimal _)
  · rw [pidTerm_range heq]
    exact (nested_rangeInner hf range).paren

theorem nested_join {texts : List (List Char)} (h : ∀ t ∈ texts, Nested t) :
    Nested (" || ".toList.intercalate texts) := by
  induction texts with
  | nil => exact nested_nil
  | cons t texts ih =>
    obtain ⟨ht, htexts⟩ := List.forall_mem_cons.mp h
    cases texts with
    | nil => exact (List.intercalate_singleton ..).symm ▸ ht
    | cons t' texts =>
      rw [List.intercalate_cons_cons]
      exact (ht.append (nested_plain (by decide))).append (ih htexts)

/-- The term of a name that is cut off. -/
theorem read_cut_commTerm {pre : List (List Char)} {u : List Char} (hpre : ∀ t ∈ pre, ∃ e, TextAnd t e)
    (hf : IsField field) (hs : '"' ∉ s) (hu : u <+: commTerm s field) (hne : u ≠ commTerm s field) :
    read (front pre ++ u) = none := by
  rw [commTerm] at hu hne
  cases hglob : hasGlob s with
  | true =>
    rw [hglob] at hu hne
    exact read_cut_str hpre hf dangles_glob_spaced splits_glob_spaced hs hu hne
  | false =>
    rw [hglob] at hu hne
    exact read_cut_str hpre hf dangles_eq_spaced splits_eq_spaced hs hu hne

/-- The term of a range that is cut off. -/
theorem read_cut_pidTerm {pre : List (Nat × Nat)} {range : Nat × Nat} {u : List Char} (hf : IsField field)
    (hu : u <+: pidTerm range.1 range.2 field) (hne : u ≠ pidTerm range.1 range.2 field) :
    read (front (pre.map fun range => pidTerm range.1 range.2 field) ++ u) = none ∨
      ∃ n q, range = (n, n) ∧ decimal q <+: decimal n ∧ u = pidTerm q q field := by
  have hpre : ∀ t ∈ pre.map fun range => pidTerm range.1 range.2 field, ∃ e, TextAnd t e :=
    List.forall_mem_map.mpr fun range _ => ⟨_, pidTerm_text hf range⟩
  obtain ⟨first, last⟩ := range
  by_cases heq : first = last
  · subst heq
    rw [pidTerm_one] at hu
    rcases read_cut_num hpre hf dangles_eq hu with hnone | ⟨q, hq, rfl⟩
    · exact Or.inl hnone
    · exact Or.inr ⟨first, q, rfl, hq, (pidTerm_one q field).symm⟩
  · rw [pidTerm_range heq] at hu hne
    left
    rcases List.prefix_cons_iff.mp hu with rfl | ⟨v, rfl, hv⟩
    · exact read_cut_op hpre hf dangles_eq List.nil_prefix
    · rcases List.prefix_concat_iff.mp hv with rfl | hv
      · exact absurd rfl hne
      · refine read_cut (nested_front ?_) (nested_rangeInner hf (first, last)) hv
        exact List.forall_mem_map.mpr fun range _ => nested_pidTerm hf range

/-- The filter of some tasks as it is built. -/
inductive Built (cond : (List Char → List Char → Bool) → Event → Prop) : Option (List Char) → Prop
  | none (h : ∀ glob ev, cond glob ev) : Built cond none
  | some (text : List Char) (e : Expr) (htext : TextOr text e) (hnested : Nested text)
      (h : ∀ glob ev, e.eval glob ev = true ↔ cond glob ev) : Built cond (some text)

theorem Built.filterIs {cond : (List Char → List Char → Bool) → Event → Prop} {filter : Option (List Char)}
    (h : Built cond filter) : FilterIs filter cond := by
  cases h with
  | none h => exact h
  | some text e htext _ h => exact ⟨e, htext.read, h⟩

/-- A filter is built of terms, of which one has to be met if there are any. -/
theorem built_textOf {cond : (List Char → List Char → Bool) → Event → Prop} {α : Type} (l : List α)
    (term : α → List Char) (expr : α → Expr) (hterm : ∀ a ∈ l, TextAnd (term a) (expr a))
    (hnested : ∀ a ∈ l, Nested (term a))
    (h : ∀ glob ev, cond glob ev ↔ l = [] ∨ ∃ a ∈ l, (expr a).eval glob ev = true) :
    Built cond (textOf (l.map term)) := by
  cases l with
  | nil => exact .none fun glob ev => (h glob ev).mpr (Or.inl rfl)
  | cons a l =>
    obtain ⟨e, htext, heval⟩ := textOr_terms (List.cons_ne_nil a l) hterm
    refine .some _ e htext (nested_join (List.forall_mem_map.mpr hnested)) fun glob ev => ?_
    rw [heval, h]
    exact (or_iff_right (List.cons_ne_nil _ _)).symm

theorem bind_filter (text : Option (List Char)) (comm pid : List Char → Option (List Char)) :
    (text.map fun text => (⟨some text, comm text, pid text⟩ : TpFilter)).bind TpFilter.filter = text := by
  cases text <;> rfl

theorem tpFilter_built (hpid : IsField pidField.toList) (hcomm : IsField commField.toList)
    (hquote : ∀ filter, env.filter = some filter → '"' ∉ filter) :
    Built (Selected env threads pidField commField) (tpFilter env threads pidField commField) := by
  unfold tpFilter Selected
  cases hfilter : env.filter with
  | some filter =>
    rw [tpFilterNew_terms, bind_filter]
    refine built_textOf _ _ (nameTerm commField.toList) (fun s hs => ?_) (fun s hs => ?_) fun _ _ => Iff.rfl
    · exact commTerm_text hcomm (mem_names (hquote filter hfilter) hs).2
    · exact nested_commTerm hcomm (mem_names (hquote filter hfilter) hs).2
  | none =>
    cases threads with
    | none => exact .none fun _ _ => trivial
    | some threads =>
      rw [tpFilterNew_ranges, bind_filter]
      refine built_textOf (ranges threads) _ (rangeTerm pidField.toList) (fun range _ => pidTerm_text hpid range)
        (fun range _ => nested_pidTerm hpid range) fun glob ev => ?_
      simp only [rangeTerm_eval, ranges_iff]
      refine or_congr ⟨fun hneg => ?_, fun hnil p hp => ?_⟩ Iff.rfl
      · refine List.eq_nil_iff_forall_not_mem.mpr fun range hmem => ?_
        have hle := Int.ofNat_le.mpr (ranges_ordered threads range hmem)
        have hin := (ranges_iff threads range.1).mp ⟨range, hmem, Int.le_refl _, hle⟩
        exact absurd (hneg _ hin.1) (Int.not_lt.mpr hin.2)
      · by_contra hnot
        obtain ⟨range, hmem, -⟩ := (ranges_iff threads p).mpr ⟨hp, Int.not_lt.mp hnot⟩
        rw [hnil] at hmem
        cases hmem

end Terms

section States
variable {env : Env} {glob : List Char → List Char → Bool} {ev : Event}

theorem prevState_isField : IsField "prev_state".toList := isField_of_all (by decide) rfl

/-- The condition for a state. -/
def stateTerm (state : Nat) : Expr := .num "prev_state".toList .eq state

theorem stateText_text (state : Nat) : TextAtom (stateText state) (stateTerm state) :=
  textAtom_num prevState_isField splits_eq (by decide) state

theorem stateTerm_eval (state : Nat) :
    (stateTerm state).eval glob ev = true ↔ ev.num "prev_state".toList = state := by
  rw [stateTerm, Expr.eval, Op.compares, beq_iff_eq]

theorem splits_and_spaced : Splits " && ".toList [.and] := splits_cons (by decide) fun _ => rfl

/-- What is put before the filter of the tasks if states are requested. -/
structure States (env : Env) (head : List Char) (e : Expr) : Prop where
  alone : TextOr (switchText env none) e
  short : (switchText env none).length < 4096
  requested : ∀ glob ev, e.eval glob ev = true ↔ Requested env ev
  text : ∀ filter, switchText env (some filter) = head ++ ('(' :: filter ++ [')'])
  both : ∀ filter e', TextOr filter e' → TextOr (head ++ ('(' :: filter ++ [')'])) (.and e e')
  nested : Nested head
  head_length : head.length < 4095

theorem states (env : Env) (h : ¬ (env.interruptible = false ∧ env.uninterruptible = false)) :
    ∃ head e, States env head e := by
  have hor (state : Nat) : TextOr (stateText state) (stateTerm state) := (stateText_text state).and_single.or_single
  have htwo (n : Nat) {t : List Char} {e : Expr} (h : TextOr t e) :
      TextOr (stateText n ++ " || ".toList ++ t) (.or (stateTerm n) e) := (stateText_text n).and_single.or splits_or h
  have hparen {t filter : List Char} {e e' : Expr} (h : TextAtom t e) (h' : TextOr filter e') :
      TextOr (t ++ " && ".toList ++ ('(' :: filter ++ [')'])) (.and e e') :=
    (h.and splits_and_spaced h'.paren.and_single).or_single
  obtain ⟨interruptible, uninterruptible, filter⟩ := env
  cases interruptible with
  | true =>
    cases uninterruptible with
    | true =>
      have hall := htwo TASK_INTERRUPTIBLE (htwo TASK_UNINTERRUPTIBLE (hor TASK_KILLABLE))
      refine ⟨_, _, hall, Nat.le_of_ble_eq_true rfl, fun glob ev => ?_, fun _ => rfl,
        fun _ _ h' => hparen hall.paren h', ?_, by decide⟩
      · simp [Expr.eval, stateTerm_eval, Requested]
      · exact (Nested.paren (nested_plain (by decide))).append (nested_plain (by decide))
    | false =>
      refine ⟨_, _, hor TASK_INTERRUPTIBLE, Nat.le_of_ble_eq_true rfl, fun glob ev => ?_, fun _ => rfl,
        fun _ _ h' => hparen (stateText_text TASK_INTERRUPTIBLE) h', nested_plain (by decide), by decide⟩
      simp [stateTerm_eval, Requested]
  | false =>
    cases uninterruptible with
    | true =>
      have hboth := htwo TASK_UNINTERRUPTIBLE (hor TASK_KILLABLE)
      refine ⟨_, _, hboth, Nat.le_of_ble_eq_true rfl, fun glob ev => ?_, fun _ => rfl,
        fun _ _ h' => hparen hboth.paren h', ?_, by decide⟩
      · simp [Expr.eval, stateTerm_eval, Requested]
      · exact (Nested.paren (nested_plain (by decide))).append (nested_plain (by decide))
    | false => exact absurd ⟨rfl, rfl⟩ h

end States

section Buffer
variable {α : Type} {term : α → List Char} {pre post : List α} {field : List Char}

/-- What fits into the buffer of a text that does not. -/
theorem snprintf_long {text : List Char} (h : 4096 ≤ text.length) : snprintf 4096 text <+: text ∧
    snprintf 4096 text ≠ text ∧ (snprintf 4096 text).length = 4095 := by
  have hlength : (snprintf 4096 text).length = 4095 := List.length_take_of_le (Nat.le_of_succ_le h)
  refine ⟨List.take_prefix _ _, fun heq => ?_, hlength⟩
  rw [heq] at hlength
  omega

theorem snprintf_ne_nil {text : List Char} (h : 4096 ≤ text.length) : snprintf 4096 text ≠ [] := by
  intro heq
  have hlength := (snprintf_long h).2.2
  rw [heq] at hlength
  exact absurd hlength (by decide)

theorem snprintf_prefix {p text : List Char} (hp : p <+: text) (hlen : p.length = 4095) : snprintf 4096 text = p := by
  have htake := List.prefix_iff_eq_take.mp hp
  rw [hlen] at htake
  exact htake.symm

theorem Fills.snprintf (h : Fills (pre.map term))
    (hlong : 4096 ≤ (" || ".toList.intercalate ((pre ++ post).map term)).length) :
    pre ≠ [] ∧ ∃ r, (r = [] ∨ r = [' ']) ∧
      snprintf 4096 (" || ".toList.intercalate ((pre ++ post).map term)) =
        " || ".toList.intercalate (pre.map term) ++ r := by
  have hpre : pre ≠ [] := by
    rintro rfl
    have hnil : ¬ Fills [] := by
      unfold Fills
      decide
    exact hnil h
  refine ⟨hpre, ?_⟩
  cases post with
  | nil =>
    rw [List.append_nil] at hlong
    exact absurd h (by unfold Fills; omega)
  | cons b post =>
    have htext : " || ".toList.intercalate ((pre ++ b :: post).map term) =
        " || ".toList.intercalate (pre.map term) ++
          (" || ".toList ++ " || ".toList.intercalate ((b :: post).map term)) := by
      rw [List.map_append, List.map_cons, intercalate_front, front_eq (mt List.map_eq_nil_iff.mp hpre),
        List.append_assoc]
    rw [htext]
    rcases h with hfull | hblank
    · refine ⟨[], Or.inl rfl, ?_⟩
      rw [List.append_nil]
      exact snprintf_prefix (List.prefix_append _ _) hfull
    · refine ⟨[' '], Or.inr rfl, snprintf_prefix ((List.prefix_append_right_inj _).mpr ⟨_, rfl⟩) ?_⟩
      rw [List.length_append, hblank]
      rfl

theorem fills_of_snprintf {text r : List Char} {texts : List (List Char)} (hlong : 4096 ≤ text.length)
    (hr : r = [] ∨ r = [' ']) (heq : snprintf 4096 text = " || ".toList.intercalate texts ++ r) : Fills texts := by
  have hlength := (snprintf_long hlong).2.2
  rw [heq, List.length_append] at hlength
  rcases hr with rfl | rfl
  · exact Or.inl hlength
  · exact Or.inr (Nat.succ.inj hlength)

theorem read_fills {t r : List Char} {e : Expr} (h : TextOr t e) (hr : r = [] ∨ r = [' ']) :
    read (t ++ r) = some e := by
  rcases hr with rfl | rfl
  · rw [List.append_nil]
    exact h.read
  · exact h.read_blank

/-- A filter of names that is cut off. -/
theorem names_cut (hf : IsField field) {l : List (List Char)} (hl : ∀ s ∈ l, '"' ∉ s)
    (hlong : 4096 ≤ (" || ".toList.intercalate (l.map fun s => commTerm s field)).length) :
    (∃ e, read (snprintf 4096 (" || ".toList.intercalate (l.map fun s => commTerm s field))) = some e ∧
      ∀ glob ev, e.eval glob ev = true ↔ ∃ s ∈ l, (nameTerm field s).eval glob ev = true) ↔
    ∃ pre post, l = pre ++ post ∧ Fills (pre.map fun s => commTerm s field) ∧ ∀ s ∈ post, s ∈ pre := by
  have hterm : ∀ s ∈ l, TextAnd (commTerm s field) (nameTerm field s) := fun s hs => commTerm_text hf (hl s hs)
  constructor
  · rintro ⟨e, hread, heval⟩
    obtain ⟨hfront, hcut, -⟩ := snprintf_long hlong
    obtain ⟨pre, s, post, rfl, hcase⟩ := read_cut_terms hterm hfront hcut hread
    rcases hcase with ⟨u, hu, hune, heq⟩ | ⟨⟨r, hr, heq⟩, hpre⟩
    · have hpreText : ∀ t ∈ pre.map fun s => commTerm s field, ∃ e, TextAnd t e :=
        List.forall_mem_map.mpr fun s hs => ⟨_, hterm s (List.mem_append_left _ hs)⟩
      have hs : '"' ∉ s := hl s (List.mem_append_right _ List.mem_cons_self)
      have hnone := read_cut_commTerm hpreText hf hs hu hune
      rw [← heq, hread] at hnone
      cases hnone
    · refine ⟨pre, s :: post, rfl, fills_of_snprintf hlong hr heq, fun name hname => ?_⟩
      -- an event with this name, which matches itself only
      have hself (s : List Char) : (nameTerm field s).eval (fun pat s => pat == s) ⟨fun _ => 0, fun _ => name⟩ = true ↔
          s = name := by
        unfold nameTerm
        cases hasGlob s with
        | true => exact beq_iff_eq
        | false => exact beq_iff_eq.trans eq_comm
      have hname' := (heval _ _).mpr ⟨name, List.mem_append_right _ hname, (hself name).mpr rfl⟩
      obtain ⟨name', hmem, hevalName⟩ := (hpre _ _).mp hname'
      exact (hself name').mp hevalName ▸ hmem
  · rintro ⟨pre, post, rfl, hfills, hpost⟩
    obtain ⟨hpre, r, hr, heq⟩ := hfills.snprintf hlong
    obtain ⟨e, htext, heval⟩ := textOr_terms hpre fun s hs => hterm s (List.mem_append_left _ hs)
    refine ⟨e, heq ▸ read_fills htext hr, fun glob ev => (heval glob ev).trans ?_⟩
    constructor
    · exact fun ⟨s, hs, h⟩ => ⟨s, List.mem_append_left _ hs, h⟩
    · rintro ⟨s, hs, h⟩
      rcases List.mem_append.mp hs with hs | hs
      · exact ⟨s, hs, h⟩
      · exact ⟨s, hpost s hs, h⟩

theorem ranges_concat (pre : List (Nat × Nat)) (q : Nat) :
    " || ".toList.intercalate ((pre ++ [(q, q)]).map fun range => pidTerm range.1 range.2 field) =
      front (pre.map fun range => pidTerm range.1 range.2 field) ++ pidTerm q q field := by
  rw [List.map_append, List.map_singleton, intercalate_front, List.intercalate_singleton]

theorem prefix_intercalate (t : List Char) (texts : List (List Char)) :
    t <+: " || ".toList.intercalate (t :: texts) := by
  cases texts with
  | nil => exact (List.intercalate_singleton ..).symm ▸ List.prefix_refl t
  | cons t' texts =>
    rw [List.intercalate_cons_cons, List.append_assoc]
    exact List.prefix_append _ _

/-- A filter of pids that is cut off. -/
theorem ranges_cut (hf : IsField field) {l : List (Nat × Nat)}
    (hlong : 4096 ≤ (" || ".toList.intercalate (l.map fun range => pidTerm range.1 range.2 field)).length) :
    (∃ e, read (snprintf 4096 (" || ".toList.intercalate (l.map fun range => pidTerm range.1 range.2 field))) = some e ∧
      ∀ glob ev, e.eval glob ev = true ↔ InRanges l (ev.num field)) ↔
    (∃ pre post, l = pre ++ post ∧ Fills (pre.map fun range => pidTerm range.1 range.2 field) ∧
      ∀ p, InRanges l p → InRanges pre p) ∨
    ∃ pre n q post, l = pre ++ (n, n) :: post ∧ decimal q <+: decimal n ∧
      (" || ".toList.intercalate ((pre ++ [(q, q)]).map fun range => pidTerm range.1 range.2 field)).length = 4095 ∧
        InRanges l q ∧ ∀ p, InRanges l p → InRanges (pre ++ [(q, q)]) p := by
  have hterm (l : List (Nat × Nat)) : ∀ range ∈ l, TextAnd (pidTerm range.1 range.2 field) (rangeTerm field range) :=
    fun range _ => pidTerm_text hf range
  have hone (x : Int) : ∃ ev : Event, ev.num field = x := ⟨⟨fun _ => x, fun _ => []⟩, rfl⟩
  have hleft {pre post : List (Nat × Nat)} {p : Int} (h : InRanges pre p) : InRanges (pre ++ post) p :=
    h.imp fun range hrange => ⟨List.mem_append_left _ hrange.1, hrange.2⟩
  constructor
  · rintro ⟨e, hread, heval⟩
    obtain ⟨hfront, hcut, hlength⟩ := snprintf_long hlong
    obtain ⟨pre, range, post, rfl, hcase⟩ := read_cut_terms (hterm l) hfront hcut hread
    rcases hcase with ⟨u, hu, hune, heq⟩ | ⟨⟨r, hr, heq⟩, hpre⟩
    · rcases read_cut_pidTerm hf hu hune with hnone | ⟨n, q, rfl, hq, rfl⟩
      · rw [← heq, hread] at hnone
        cases hnone
      · rw [← ranges_concat] at heq
        rw [heq] at hread hlength
        obtain ⟨e', htext, heval'⟩ := textOr_terms (List.append_ne_nil_of_right_ne_nil pre (List.cons_ne_nil _ _))
          (hterm (pre ++ [(q, q)]))
        cases hread.symm.trans htext.read
        have hiff (p : Int) : InRanges (pre ++ (n, n) :: post) p ↔ InRanges (pre ++ [(q, q)]) p := by
          obtain ⟨ev, rfl⟩ := hone p
          rw [← heval (fun _ _ => true), heval']
          simp only [rangeTerm_eval]
          rfl
        refine Or.inr ⟨pre, n, q, post, rfl, hq, hlength, (hiff q).mpr ?_, fun p => (hiff p).mp⟩
        exact ⟨(q, q), List.mem_append_right _ List.mem_cons_self, Int.le_refl _, Int.le_refl _⟩
    · refine Or.inl ⟨pre, range :: post, rfl, fills_of_snprintf hlong hr heq, fun p hp => ?_⟩
      obtain ⟨ev, rfl⟩ := hone p
      obtain ⟨range, hrange, hin⟩ := (hpre (fun _ _ => true) ev).mp ((heval _ ev).mpr hp)
      exact ⟨range, hrange, (rangeTerm_eval _ ev).mp hin⟩
  · rintro (⟨pre, post, rfl, hfills, hpost⟩ | ⟨pre, n, q, post, rfl, hq, hlength, hin, hpost⟩)
    · obtain ⟨hpre, r, hr, heq⟩ := hfills.snprintf hlong
      obtain ⟨e, htext, heval⟩ := textOr_terms hpre (hterm pre)
      refine ⟨e, heq ▸ read_fills htext hr, fun glob ev => ?_⟩
      simp only [heval, rangeTerm_eval]
      exact ⟨hleft, hpost _⟩
    · have hprefix : " || ".toList.intercalate ((pre ++ [(q, q)]).map fun range => pidTerm range.1 range.2 field) <+:
          " || ".toList.intercalate ((pre ++ (n, n) :: post).map fun range => pidTerm range.1 range.2 field) := by
        obtain ⟨digits, hdigits⟩ := hq
        rw [ranges_concat, List.map_append, List.map_cons, intercalate_front, List.prefix_append_right_inj]
        refine List.IsPrefix.trans ⟨digits, ?_⟩ (prefix_intercalate _ _)
        rw [pidTerm_one, pidTerm_one, List.append_assoc, hdigits]
      obtain ⟨e, htext, heval⟩ := textOr_terms (List.append_ne_nil_of_right_ne_nil pre (List.cons_ne_nil _ _))
        (hterm (pre ++ [(q, q)]))
      refine ⟨e, snprintf_prefix hprefix hlength ▸ htext.read, fun glob ev => ?_⟩
      simp only [heval, rangeTerm_eval]
      refine ⟨fun ⟨range, hrange, hbounds⟩ => ?_, hpost _⟩
      rcases List.mem_append.mp hrange with hrange | hrange
      · exact hleft ⟨range, hrange, hbounds⟩
      · rw [List.mem_singleton.mp hrange] at hbounds
        have hnum : ev.num field = q := Int.le_antisymm hbounds.2 hbounds.1
        exact hnum ▸ hin

end Buffer

section Agreement
variable {env : Env} {threads : Option (List Int)} {cond : (List Char → List Char → Bool) → Event → Prop}

theorem switchText_all (h : env.interruptible = false ∧ env.uninterruptible = false) (prev : Option (List Char)) :
    switchText env prev = prev.getD [] := by
  unfold switchText
  rw [h.1, h.2]
  cases prev <;> rfl

/-- The filter of the first event before it goes through the buffer. -/
theorem switch_filterIs {prev : Option (List Char)} (h : Built cond prev) :
    FilterIs (if switchText env prev = [] then none else some (switchText env prev)) fun glob ev =>
      cond glob ev ∧ Requested env ev := by
  by_cases hno : env.interruptible = false ∧ env.uninterruptible = false
  · have hall (ev : Event) : Requested env ev := Or.inl hno
    rw [switchText_all hno]
    cases h with
    | none h => exact fun glob ev => ⟨h glob ev, hall ev⟩
    | some text e htext hnested h =>
      have hne : text ≠ [] := by
        rintro rfl
        cases htext.read
      rw [Option.getD_some, if_neg hne]
      exact ⟨e, htext.read, fun glob ev => (h glob ev).trans (and_iff_left (hall ev)).symm⟩
  · obtain ⟨head, e, hstates⟩ := states env hno
    have hsome {text : List Char} {e : Expr} (htext : TextOr text e) : text ≠ [] := by
      rintro rfl
      cases htext.read
    cases h with
    | none h =>
      rw [if_neg (hsome hstates.alone)]
      exact ⟨e, hstates.alone.read, fun glob ev => (hstates.requested glob ev).trans (and_iff_right (h glob ev)).symm⟩
    | some text e' htext hnested h =>
      have hboth := hstates.both text e' htext
      rw [hstates.text, if_neg (hsome hboth)]
      refine ⟨_, hboth.read, fun glob ev => ?_⟩
      rw [Expr.eval, Bool.and_eq_true, hstates.requested, h, and_comm]

/-- A filter that has been cut off inside its last parenthesis is refused. -/
theorem switch_cut {prev : Option (List Char)} (h : Built cond prev)
    (hstates : ¬ (env.interruptible = false ∧ env.uninterruptible = false))
    (hlong : 4096 ≤ (switchText env prev).length) : read (snprintf 4096 (switchText env prev)) = none := by
  obtain ⟨head, e, hstates⟩ := states env hstates
  cases h with
  | none h => exact absurd hstates.short (Nat.not_lt.mpr hlong)
  | some text e' htext hnested h =>
    have hhead := hstates.head_length
    rw [hstates.text] at hlong ⊢
    have hcut : snprintf 4096 (head ++ ('(' :: text ++ [')'])) =
        head ++ '(' :: text.take (4095 - head.length - 1) := by
      rw [List.length_append, List.length_append, List.length_cons, List.length_singleton] at hlong
      have hcons : 4096 - 1 - head.length = 4095 - head.length - 1 + 1 := by omega
      rw [snprintf, List.take_append, List.take_of_length_le (by omega), hcons, List.cons_append, List.take_succ_cons,
        List.take_append_of_le_length (by omega), Nat.add_sub_cancel]
    rw [hcut]
    exact read_cut hstates.nested hnested (List.take_prefix _ _)

theorem quote_names {filter : List Char} (h : '"' ∈ filter) : ∃ name ∈ names filter, '"' ∈ name := by
  have hjoin : [','].intercalate (filter.splitOn ',') = filter := List.intercalate_splitOn ','
  rw [← hjoin] at h
  generalize hpieces : filter.splitOn ',' = pieces at h
  have hin : ∃ name ∈ pieces, '"' ∈ name := by
    clear hpieces
    induction pieces with
    | nil => cases h
    | cons piece pieces ih =>
      cases pieces with
      | nil => exact ⟨piece, List.mem_cons_self, by rwa [List.intercalate_singleton] at h⟩
      | cons piece' pieces =>
        rw [List.intercalate_cons_cons, List.mem_append, List.mem_append] at h
        rcases h with (h | h) | h
        · exact ⟨piece, List.mem_cons_self, h⟩
        · exact absurd (List.mem_singleton.mp h) (by decide)
        · obtain ⟨name, hname, hin⟩ := ih h
          exact ⟨name, List.mem_cons_of_mem _ hname, hin⟩
  obtain ⟨name, hname, hin⟩ := hin
  refine ⟨name, List.mem_filter.mpr ⟨hpieces ▸ hname, ?_⟩, hin⟩
  exact decide_eq_true (List.ne_nil_of_mem hin)

/-- No filter selects a name with a quote in it. -/
theorem quote_not_selected {pidField commField : String} {filter : List Char} (hfilter : env.filter = some filter)
    (hquote : '"' ∈ filter) (text : Option (List Char)) :
    ¬ FilterIs text (Selected env threads pidField commField) := by
  obtain ⟨name, hname, hin⟩ := quote_names hquote
  -- a string with a quote that is longer than the names
  have hother : '"' :: (names filter).flatten ∉ names filter := by
    intro hmem
    have hle := (List.sublist_flatten_of_mem hmem).length_le
    rw [List.length_cons] at hle
    omega
  let glob (pat s : List Char) : Bool := decide (pat = name ∧ s = name)
  let event (s : List Char) : Event := ⟨fun _ => 0, fun _ => s⟩
  have hselected : Selected env threads pidField commField glob (event name) := by
    unfold Selected
    rw [hfilter]
    refine Or.inr ⟨name, hname, ?_⟩
    unfold nameTerm
    cases hasGlob name with
    | true => exact decide_eq_true ⟨rfl, rfl⟩
    | false => exact beq_self_eq_true name
  have hnot : ¬ Selected env threads pidField commField glob (event ('"' :: (names filter).flatten)) := by
    unfold Selected
    rw [hfilter]
    rintro (hnil | ⟨s, hs, heval⟩)
    · rw [hnil] at hname
      cases hname
    · unfold nameTerm at heval
      cases hglob : hasGlob s with
      | true =>
        rw [hglob] at heval
        have heq : '"' :: (names filter).flatten = name := (of_decide_eq_true heval).2
        exact hother (heq ▸ hname)
      | false =>
        rw [hglob] at heval
        have heq : '"' :: (names filter).flatten = s := eq_of_beq heval
        exact hother (heq ▸ hs)
  cases text with
  | none => exact fun hall => hnot (hall _ _)
  | some text =>
    rintro ⟨e, hread, heval⟩
    refine hnot ((heval _ _).mp ?_)
    rw [← (heval _ _).mpr hselected]
    refine eval_quoteFree (read_quoteFree hread) rfl (fun _ v hv => ?_) fun _ v hv => ?_
    · refine iff_of_false (fun heq => hv (heq ▸ List.mem_cons_self)) (fun heq => hv (heq ▸ hin))
    · have hne : v ≠ name := fun heq => hv (heq ▸ hin)
      exact (decide_eq_false fun h => hne h.1).trans (decide_eq_false fun h => hne h.1).symm

theorem prevPid_isField : IsField "prev_pid".toList := isField_of_all (by decide) rfl

theorem prevComm_isField : IsField "prev_comm".toList := isField_of_all (by decide) rfl

/-- Without states: when the filter of the tasks may be cut off. -/
theorem lossless_iff (hno : env.interruptible = false ∧ env.uninterruptible = false)
    (hquote : ∀ filter, env.filter = some filter → '"' ∉ filter)
    (hlong : 4096 ≤ (switchText env (tpFilter env threads "prev_pid" "prev_comm")).length) :
    FilterIs (some (snprintf 4096 (switchText env (tpFilter env threads "prev_pid" "prev_comm"))))
      (Selected env threads "prev_pid" "prev_comm") ↔ Lossless env threads := by
  rw [switchText_all hno] at hlong ⊢
  unfold tpFilter FilterIs Selected Lossless at *
  cases hfilter : env.filter with
  | some filter =>
    rw [hfilter, tpFilterNew_terms, bind_filter] at hlong
    rw [tpFilterNew_terms, bind_filter]
    cases hnames : names filter with
    | nil =>
      rw [hnames] at hlong
      exact absurd hlong (by decide)
    | cons name rest =>
      rw [hnames] at hlong
      have hl : ∀ s ∈ name :: rest, '"' ∉ s := hnames ▸ fun s hs => (mem_names (hquote filter hfilter) hs).2
      have hcut := names_cut prevComm_isField hl hlong
      dsimp only
      rw [hnames, ← hcut]
      simp only [List.cons_ne_nil, false_or]
      exact Iff.rfl
  | none =>
    cases threads with
    | none =>
      rw [hfilter] at hlong
      exact absurd hlong (by decide)
    | some threads =>
      rw [hfilter, tpFilterNew_ranges, bind_filter] at hlong
      rw [tpFilterNew_ranges, bind_filter]
      have hin (p : Int) : InRanges (ranges threads) p ↔ p ∈ threads ∧ 0 ≤ p := ranges_iff threads p
      cases hranges : ranges threads with
      | nil =>
        rw [hranges] at hlong
        exact absurd hlong (by decide)
      | cons range rest =>
        rw [hranges] at hlong hin
        have hcut := ranges_cut (l := range :: rest) prevPid_isField hlong
        have hsome : ¬ ∀ p ∈ threads, p < 0 := by
          have hle := Int.ofNat_le.mpr (ranges_ordered threads range (hranges ▸ List.mem_cons_self))
          have hfirst := (hin range.1).mp ⟨range, List.mem_cons_self, Int.le_refl _, hle⟩
          exact fun hneg => absurd (hneg _ hfirst.1) (Int.not_lt.mpr hfirst.2)
        simp only [hin, and_imp, Int.natCast_nonneg, and_true] at hcut
        dsimp only
        rw [hranges]
        simp only [hsome, false_or]
        exact hcut

/-- The filters agree on the tasks just if the text of the first is not too long and no name has a quote. -/
theorem agree_iff (env : Env) (threads : Option (List Int)) : Agree env threads ↔ Fits env threads := by
  constructor
  · intro h
    have hquote : ∀ filter, env.filter = some filter → '"' ∉ filter :=
      fun filter hfilter hin => quote_not_selected hfilter hin _ h.wakeup
    refine ⟨hquote, ?_⟩
    rcases Nat.lt_or_ge (switchText env (tpFilter env threads "prev_pid" "prev_comm")).length 4096 with hshort | hlong
    · exact Or.inl hshort
    · have hswitch := h.switch
      rw [filterOf, if_neg (snprintf_ne_nil hlong)] at hswitch
      by_cases hno : env.interruptible = false ∧ env.uninterruptible = false
      · have hall (ev : Event) : Requested env ev := Or.inl hno
        simp only [hall, and_true] at hswitch
        exact Or.inr ⟨hno, (lossless_iff hno hquote hlong).mp hswitch⟩
      · obtain ⟨e, hread, -⟩ := hswitch
        rw [switch_cut (tpFilter_built prevPid_isField prevComm_isField hquote) hno hlong] at hread
        cases hread
  · intro ⟨hquote, hfits⟩
    have hbuilt (pidField commField : String) (hpid : IsField pidField.toList) (hcomm : IsField commField.toList) :
        Built (Selected env threads pidField commField) (tpFilter env threads pidField commField) :=
      tpFilter_built hpid hcomm hquote
    have hwakeup := (hbuilt "pid" "comm" pidField_isField commField_isField).filterIs
    have hprev := hbuilt "prev_pid" "prev_comm" prevPid_isField prevComm_isField
    have hnext := hbuilt "next_pid" "next_comm" (isField_of_all (by decide) rfl) (isField_of_all (by decide) rfl)
    refine ⟨?_, hnext.filterIs, hwakeup, hwakeup⟩
    rw [filterOf]
    rcases Nat.lt_or_ge (switchText env (tpFilter env threads "prev_pid" "prev_comm")).length 4096 with hshort | hlong
    · rw [snprintf, List.take_of_length_le (Nat.le_of_lt_succ hshort)]
      exact switch_filterIs hprev
    · obtain ⟨hno, hlossless⟩ := hfits.resolve_left (Nat.not_lt.mpr hlong)
      have hall (ev : Event) : Requested env ev := Or.inl hno
      rw [if_neg (snprintf_ne_nil hlong)]
      simp only [hall, and_true]
      exact (lossless_iff hno hquote hlong).mpr hlossless

/-- Joined terms are as long as their separators at least. -/
theorem join_length {α : Type} {term : α → List Char} {k : Nat} (h : ∀ a, k ≤ (term a).length) (l : List α) :
    l.length * (k + 4) ≤ (" || ".toList.intercalate (l.map term)).length + 4 := by
  induction l with
  | nil =>
    rw [List.length_nil, Nat.zero_mul]
    exact Nat.zero_le _
  | cons a l ih =>
    have ha := h a
    cases l with
    | nil =>
      rw [List.map_singleton, List.intercalate_singleton, List.length_singleton]
      omega
    | cons b l =>
      have hsep : " || ".toList.length = 4 := rfl
      rw [List.map_cons, List.map_cons, List.intercalate_cons_cons, ← List.map_cons, List.length_append,
        List.length_append, hsep, List.length_cons, Nat.succ_mul]
      omega

theorem pidTerm_length (range : Nat × Nat) : 10 ≤ (pidTerm range.1 range.2 "prev_pid".toList).length := by
  have hfield : "prev_pid".toList.length = 8 := rfl
  unfold pidTerm
  split_ifs
  · have heq : "==".toList.length = 2 := rfl
    rw [List.length_append, List.length_append, hfield, heq]
    omega
  · have hge : ">=".toList.length = 2 := rfl
    simp only [List.length_append, List.length_cons, hfield, hge]
    omega

theorem switchText_length (env : Env) (text : List Char) : text.length ≤ (switchText env (some text)).length := by
  obtain ⟨interruptible, uninterruptible, filter⟩ := env
  cases interruptible <;> cases uninterruptible <;>
    simp only [switchText, List.length_append, List.length_cons] <;> omega

/-- Pids of which none follows another. -/
def isolated (n : Nat) : List Int := (List.range n).map fun i : Nat => 1000 + 2 * (i : Int)

theorem ranges_isolated (n : Nat) : ranges (isolated n) = (List.range n).map fun i => (1000 + 2 * i, 1000 + 2 * i) := by
  induction n with
  | zero => rfl
  | succ n ih =>
    have hstep : ranges (isolated (n + 1)) = addPid (ranges (isolated n)) (1000 + 2 * (n : Int)) := by
      rw [isolated, List.range_succ, List.map_append, ranges, List.foldl_append]
      rfl
    have hnat : (1000 + 2 * (n : Int)).toNat = 1000 + 2 * n := by omega
    rw [hstep, ih, List.range_succ, List.map_append]
    cases n with
    | zero => rfl
    | succ n =>
      rw [List.range_succ, List.map_append, List.map_singleton, addPid_concat (by omega), if_neg (by omega), hnat]
      rfl

theorem tpFilter_threads (hfilter : env.filter = none) {l : List Int} (hl : ranges l ≠ [])
    (pidField commField : String) :
    tpFilter env (some l) pidField commField =
      some (" || ".toList.intercalate ((ranges l).map fun range => pidTerm range.1 range.2 pidField.toList)) := by
  unfold tpFilter
  rw [hfilter, tpFilterNew_ranges, bind_filter]
  cases hranges : ranges l with
  | nil => exact absurd hranges hl
  | cons range rest => rfl

/-- With `-S` the filter of enough of these is cut off. -/
theorem isolated_not_agree {n : Nat} (hn : 293 ≤ n) : ¬ Agree ⟨true, false, none⟩ (some (isolated n)) := by
  intro h
  have hbuilt : Built (Selected ⟨true, false, none⟩ (some (isolated n)) "prev_pid" "prev_comm")
      (tpFilter ⟨true, false, none⟩ (some (isolated n)) "prev_pid" "prev_comm") :=
    tpFilter_built prevPid_isField prevComm_isField nofun
  have hjoin := join_length pidTerm_length (ranges (isolated n))
  have hcount : (ranges (isolated n)).length = n := by
    rw [ranges_isolated, List.length_map, List.length_range]
  have hne : ranges (isolated n) ≠ [] := List.ne_nil_of_length_pos (by omega)
  have hlong : 4096 ≤ (switchText ⟨true, false, none⟩
      (tpFilter ⟨true, false, none⟩ (some (isolated n)) "prev_pid" "prev_comm")).length := by
    rw [tpFilter_threads rfl hne]
    exact Nat.le_trans (by omega) (switchText_length _ _)
  have hswitch := h.switch
  rw [filterOf, if_neg (snprintf_ne_nil hlong)] at hswitch
  obtain ⟨e, hread, -⟩ := hswitch
  rw [switch_cut hbuilt (by decide) hlong] at hread
  cases hread

theorem not_agree : ¬ ∀ env threads, Agree env threads := fun h =>
  isolated_not_agree (Nat.le_of_ble_eq_true rfl) (h ⟨true, false, none⟩ (some (isolated 300)))

end Agreement

end PerfProf.TaskState
