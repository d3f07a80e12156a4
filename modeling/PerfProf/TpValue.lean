import PerfProf.ExprExec
import PerfProf.ExprLoad

/-! The values of the event attributes in tep.c: `tp_prog_run` loads the data of an event and runs
the program of the attribute, and -1 stands for the failure of either. -/
namespace PerfProf.TpValue
open PerfProf.Expr PerfProf.ExprSymtab

section Model

/-- The data of an event. -/
structure Raw where
  data : Nat → UInt8
  size : Int32

/-- A compiled expression with its instructions, and the memory of its variables. -/
structure Program extends ExprProg where
  insn : List Long
  mem : Int → UInt8

/-- What `expr_load_data` returns. -/
def Program.loadRet (p : Program) (raw : Raw) : Int := (exprLoadData p.toExprProg raw.data raw.size).1

/-- The variables after `expr_load_data`. -/
def Program.loaded (p : Program) (raw : Raw) : Data where
  base := p.data
  bytes := (List.range p.datasize).map fun i =>
    (stored p.mem (exprLoadData p.toExprProg raw.data raw.size).2 i).toBitVec

/-- The programs of a `struct tp`; an attribute that is not given has none. -/
structure Tp where
  memPtrProg : Option Program
  memSizeProg : Option Program
  numProg : Option Program
  keyProg : Option Program
  roleProg : Option Program

variable (lib : Library) (fuel : Nat)

/-- `tp_prog_run`, for at most `fuel` instructions. -/
def tpProgRun (prog : Option Program) (raw : Raw) : Option Exit :=
  match prog with
  | none => some (some (-1))
  | some p =>
    if p.loadRet raw ≠ 0 then some (some (-1))
    else (exprRun lib p.insn fuel (p.loaded raw)).map Prod.snd

/-- The value of an attribute, or `subst` for the failure. -/
def tpGet (subst : Long) (prog : Option Program) (raw : Raw) : Option Exit :=
  (tpProgRun lib fuel prog raw).map fun r =>
    r.map fun value => if value = -1 then subst else value

def tpGetKey (tp : Tp) : Raw → Option Exit := tpGet lib fuel 0 tp.keyProg

def tpGetRole (tp : Tp) : Raw → Option Exit := tpGet lib fuel 0 tp.roleProg

def tpGetNum (tp : Tp) : Raw → Option Exit := tpGet lib fuel 0 tp.numProg

def tpGetMemPtr (tp : Tp) : Raw → Option Exit := tpGet lib fuel 0 tp.memPtrProg

def tpGetMemSize (tp : Tp) : Raw → Option Exit := tpGet lib fuel 1 tp.memSizeProg

/-- The key of an event in `multi_trace_sample`; without the attribute it is the number of the cpu
or of the thread. -/
def multiTraceKey (tp : Tp) (ins : Long) (raw : Raw) : Option Exit :=
  if tp.keyProg.isSome then tpGetKey lib fuel tp raw else some (some ins)

end Model

section Spec

inductive Attr where
  | key
  | role
  | num
  | ptr
  | size

/-- The program that computes the attribute. -/
def Attr.prog (tp : Tp) : Attr → Option Program
  | .key => tp.keyProg
  | .role => tp.roleProg
  | .num => tp.numProg
  | .ptr => tp.memPtrProg
  | .size => tp.memSizeProg

def Attr.get (lib : Library) (fuel : Nat) (tp : Tp) : Attr → Raw → Option Exit
  | .key => tpGetKey lib fuel tp
  | .role => tpGetRole lib fuel tp
  | .num => tpGetNum lib fuel tp
  | .ptr => tpGetMemPtr lib fuel tp
  | .size => tpGetMemSize lib fuel tp

/-- What stands for a failure. -/
def Attr.subst : Attr → Long
  | .size => 1
  | _ => 0

structure Event where
  tp : Tp
  raw : Raw

/-- With enough fuel the result is `value`. -/
def Gives (result : Nat → Option Exit) (value : Long) : Prop := ∃ fuel, result fuel = some (some value)

/-- The data can be loaded, and `expr_run` then returns `value`. -/
def Computes (lib : Library) (p : Program) (raw : Raw) (value : Long) : Prop :=
  p.loadRet raw = 0 ∧ ∃ fuel d, exprRun lib p.insn fuel (p.loaded raw) = some (d, some value)

/-- Every attribute of the events has the value of its expression, and two events have the same key
if and only if their keys have the same value. -/
structure ToldApart (lib : Library) (events : Set Event) : Prop where
  values : ∀ x ∈ events, ∀ (a : Attr) p, a.prog x.tp = some p → ∀ v, Computes lib p x.raw v →
    Gives (fun fuel => a.get lib fuel x.tp x.raw) v
  keys : ∀ x ∈ events, ∀ y ∈ events, ∀ p q, x.tp.keyProg = some p → y.tp.keyProg = some q →
    ∀ v w, Computes lib p x.raw v → Computes lib q y.raw w → ∀ i j,
      (∃ key, Gives (fun fuel => multiTraceKey lib fuel x.tp i x.raw) key ∧
        Gives (fun fuel => multiTraceKey lib fuel y.tp j y.raw) key) ↔ v = w

end Spec

section Values
variable {lib : Library} {p : Program} {raw : Raw} {tp : Tp} {a : Attr} {subst v w : Long}

theorem Attr.get_eq (fuel : Nat) : a.get lib fuel tp = tpGet lib fuel a.subst (a.prog tp) := by
  cases a <;> rfl

theorem Attr.subst_ne : a.subst ≠ -1 := by
  cases a <;> decide

theorem tpGet_of_computes (h : Computes lib p raw v) :
    Gives (fun fuel => tpGet lib fuel subst (some p) raw) (if v = -1 then subst else v) := by
  obtain ⟨hload, fuel, d, hrun⟩ := h
  refine ⟨fuel, ?_⟩
  simp only [tpGet, tpProgRun, if_neg (not_not.mpr hload), hrun,
    Option.map_some]

/-- More fuel changes no result. -/
theorem tpGet_mono {n m : Nat} {r : Exit} (h : tpGet lib n subst (some p) raw = some r)
    (hnm : n ≤ m) : tpGet lib m subst (some p) raw = some r := by
  by_cases hload : p.loadRet raw ≠ 0
  · simpa only [tpGet, tpProgRun, if_pos hload] using h
  · simp only [tpGet, tpProgRun, if_neg hload, exprRun, Option.map_map] at h ⊢
    obtain ⟨out, hout, hr⟩ := Option.map_eq_some_iff.mp h
    rw [Loop.iterate_mono hout hnm, Option.map_some, hr]

theorem Gives.unique (hv : Gives (fun fuel => tpGet lib fuel subst (some p) raw) v)
    (hw : Gives (fun fuel => tpGet lib fuel subst (some p) raw) w) : v = w := by
  obtain ⟨n, hn⟩ := hv
  obtain ⟨m, hm⟩ := hw
  have hn' := tpGet_mono hn (Nat.le_max_left n m)
  have hm' := tpGet_mono hm (Nat.le_max_right n m)
  exact Option.some.inj (Option.some.inj (hn'.symm.trans hm'))

/-- What a value becomes is all that is left of it. -/
theorem gives_iff (h : Computes lib p raw v) :
    Gives (fun fuel => tpGet lib fuel subst (some p) raw) w ↔ w = if v = -1 then subst else v :=
  ⟨fun hw => hw.unique (tpGet_of_computes h), fun hw => hw ▸ tpGet_of_computes h⟩

theorem gives_value_iff (hsubst : subst ≠ -1) (h : Computes lib p raw v) :
    Gives (fun fuel => tpGet lib fuel subst (some p) raw) v ↔ v ≠ -1 := by
  rw [gives_iff h]
  split_ifs with hv
  · rw [hv]
    exact iff_of_false hsubst.symm (not_not.mpr rfl)
  · exact iff_of_true rfl hv

theorem multiTraceKey_eq (h : tp.keyProg = some p) (ins : Long) :
    (fun fuel => multiTraceKey lib fuel tp ins raw) =
      fun fuel => tpGet lib fuel 0 (some p) raw := by
  funext fuel
  rw [multiTraceKey, h, Option.isSome_some, if_pos rfl, tpGetKey, h]

/-- Replacing `e` by `s` makes only these two equal. -/
theorem replaced_eq_iff {α : Type} [DecidableEq α] {v w e s : α} :
    (if v = e then s else v) = (if w = e then s else w) ↔
      v = w ∨ v = e ∧ w = s ∨ v = s ∧ w = e := by
  split_ifs with hv hw hw
  · exact iff_of_true rfl (.inl (hv.trans hw.symm))
  · refine ⟨fun h => .inr (.inl ⟨hv, h.symm⟩), ?_⟩
    rintro (h | ⟨-, h⟩ | ⟨-, h⟩)
    · exact absurd (h.symm.trans hv) hw
    · exact h.symm
    · exact absurd h hw
  · refine ⟨fun h => .inr (.inr ⟨h, hw⟩), ?_⟩
    rintro (h | ⟨h, -⟩ | ⟨h, -⟩)
    · exact absurd (h.trans hw) hv
    · exact absurd h hv
    · exact h
  · refine ⟨.inl, ?_⟩
    rintro (h | ⟨h, -⟩ | ⟨-, h⟩)
    · exact h
    · exact absurd h hv
    · exact absurd h hw

/-- The keys of two events are the same: their values are, or one is -1 and the other 0. -/
theorem same_key_iff {q : Program} {raw' : Raw} (hv : Computes lib p raw v)
    (hw : Computes lib q raw' w) :
    (∃ key, Gives (fun fuel => tpGet lib fuel 0 (some p) raw) key ∧
        Gives (fun fuel => tpGet lib fuel 0 (some q) raw') key) ↔
      v = w ∨ v = -1 ∧ w = 0 ∨ v = 0 ∧ w = -1 := by
  simp only [gives_iff hv, gives_iff hw, exists_eq_left]
  exact replaced_eq_iff

/-- The attributes are told apart if and only if no expression has the value -1. -/
theorem values_told_apart_iff (lib : Library) (events : Set Event) :
    ToldApart lib events ↔
      ∀ x ∈ events, ∀ (a : Attr) p, a.prog x.tp = some p → ¬ Computes lib p x.raw (-1) := by
  constructor
  · intro h x hx a p hp hv
    have hgives := h.values x hx a p hp (-1) hv
    simp only [a.get_eq, hp] at hgives
    exact (gives_value_iff a.subst_ne hv).mp hgives rfl
  · intro h
    constructor
    · intro x hx a p hp v hv
      simp only [a.get_eq, hp]
      exact (gives_value_iff a.subst_ne hv).mpr fun he => h x hx a p hp (he ▸ hv)
    · intro x hx y hy p q hp hq v w hv hw i j
      have hv' : v ≠ -1 := fun he => h x hx .key p hp (he ▸ hv)
      have hw' : w ≠ -1 := fun he => h y hy .key q hq (he ▸ hw)
      rw [multiTraceKey_eq hp, multiTraceKey_eq hq, same_key_iff hv hw]
      exact or_iff_left fun he => he.elim (fun he => hv' he.1) fun he => hw' he.2

theorem computes_of_run {n : Nat} (hload : p.loadRet raw = 0)
    (hrun : (exprRun lib p.insn n (p.loaded raw)).map Prod.snd = some (some v)) :
    Computes lib p raw v := by
  obtain ⟨⟨d, r⟩, hout, rfl⟩ := Option.map_eq_some_iff.mp hrun
  exact ⟨hload, n, d, hout⟩

end Values

section Collapse

/-- A `long ret` at the start of the data. -/
def longRet : GlobalVarDeclare := ⟨"ret".toList, 0, 8, 8⟩

/-- The attribute `key=ret`. -/
def retProgram : Program where
  toExprProg := compiled (fun _ => .free) 4096 (datasize [longRet]) [⟨⟨"ret".toList, rfl⟩, 3, 4096⟩] []
  insn := match exprCompile [] 4096 8192 "ret".toList [longRet] with
    | .ok prog => prog.insn
    | .error _ => []
  mem := fun _ => 0

def retTp : Tp := ⟨none, none, none, some retProgram, none⟩

/-- An event whose eight bytes are all the same. -/
def retEvent (b : UInt8) : Event := ⟨retTp, ⟨fun _ => b, 8⟩⟩

/-- The results 0 and -1 of a system call are one key. -/
theorem minus_one_and_zero_one_key :
    exprCompile [] 4096 8192 "ret".toList [longRet] = .ok ⟨retProgram.insn, 256⟩ ∧
      ¬ ToldApart (fun _ _ _ => 0) {retEvent 0, retEvent 255} := by
  refine ⟨by decide +kernel, fun h => ?_⟩
  have hzero : Computes (fun _ _ _ => 0) retProgram (retEvent 0).raw 0 :=
    computes_of_run (n := 8) (by decide +kernel) (by decide +kernel)
  have hminus : Computes (fun _ _ _ => 0) retProgram (retEvent 255).raw (-1) :=
    computes_of_run (n := 8) (by decide +kernel) (by decide +kernel)
  have hkeys := h.keys (retEvent 0) (.inl rfl) (retEvent 255) (.inr rfl) retProgram retProgram rfl rfl
    0 (-1) hzero hminus 0 0
  rw [multiTraceKey_eq rfl, multiTraceKey_eq rfl, same_key_iff hzero hminus] at hkeys
  exact absurd (hkeys.mp (.inr (.inr ⟨rfl, rfl⟩))) (by decide)

end Collapse

end PerfProf.TpValue
