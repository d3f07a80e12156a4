import PerfProf.ExprSymtab

/-! Loading the variables of a compiled program: `expr_load_data` copies all of them, with a
terminator behind the data, and `expr_load_glo` sets the one it finds by name. -/
namespace PerfProf.ExprSymtab
open PerfProf.Expr

section Load

/-- `len` bytes written from `start` on, counted from the data of the program. -/
structure Store where
  start : Int
  len : Nat
  byte : Nat → UInt8

def Store.Covers (w : Store) (i : Int) : Prop := w.start ≤ i ∧ i < w.start + w.len

instance (w : Store) (i : Int) : Decidable (w.Covers i) := inferInstanceAs (Decidable (_ ∧ _))

def Store.apply (mem : Int → UInt8) (w : Store) : Int → UInt8 :=
  fun i => if w.Covers i then w.byte (i - w.start).toNat else mem i

/-- The memory after some stores. -/
def stored (mem : Int → UInt8) (ws : List Store) : Int → UInt8 := ws.foldl Store.apply mem

/-- What the functions read of a program; `data` is the address of the variables. -/
structure ExprProg where
  symtab : List SymbolEntry
  data : Long
  datasize : Nat

/-- An `int` as the `size_t` of `memcpy`. -/
def sizeT (n : Int) : Nat := (n % 2 ^ 64).toNat

def exprLoadData (prog : ExprProg) (d : Nat → UInt8) (size : Int32) : Int × List Store :=
  if size.toInt > prog.datasize then (-1, [])
  else (0, [{ start := 0, len := sizeT size.toInt, byte := d },
    { start := size.toInt, len := 1, byte := fun _ => 0 }])

/-- The bytes a scalar of a type takes; no other type is stored to. -/
def storeWidth : Nat → Option Nat
  | 0 => some 1
  | 1 => some 2
  | 2 => some 4
  | 3 => some 8
  | _ => none

def valueByte (value : Long) (j : Nat) : UInt8 := UInt8.ofNat (value.toNat / 256 ^ j % 256)

/-- `LEN(hash)`. -/
def SymbolEntry.len (e : SymbolEntry) : Nat := (e.hash &&& 63).toNat

/-- The test of `expr_load_glo` on an entry. -/
def SymbolEntry.globalNamed (name : List Char) (e : SymbolEntry) : Bool :=
  e.token == tokId && e.cls == classGlo && e.name.take e.len == name.take e.len

def exprLoadGlo (prog : ExprProg) (name : List Char) (value : Long) : Int × List Store :=
  match prog.symtab.reverse.find? (SymbolEntry.globalNamed name) with
  | none => (-1, [])
  | some s =>
    match storeWidth s.type with
    | none => (-1, [])
    | some n => (0, [{ start := (s.value - prog.data).toInt, len := n, byte := valueByte value }])

/-- The program `expr_compile` leaves of declarations and identifiers that have been read. -/
def compiled (fresh : Nat → SymbolEntry) (data : Long) (datasize : Nat)
    (declared : List Declared) (mentions : List Ident) : ExprProg where
  symtab := (SymbolTable.start.after fresh (compileReads declared mentions)).entries
  data := data
  datasize := datasize

end Load

section Spec

/-- The scalar that is declared under a name; a later declaration of the name counts. -/
def declaredScalar (declare : List GlobalVarDeclare) (name : List Char) :
    Option GlobalVarDeclare :=
  (declare.reverse.find? fun v => v.name = name).filter fun v => v.size = v.elementsize

/-- An accepted size writes inside the data only, and what lies wholly in it is read back. -/
structure LoadsData (declare : List GlobalVarDeclare) (prog : ExprProg) (d : Nat → UInt8)
    (size : Int32) : Prop where
  inside : (exprLoadData prog d size).1 = 0 →
    ∀ w ∈ (exprLoadData prog d size).2, ∀ i, w.Covers i → 0 ≤ i ∧ i < prog.datasize
  readBack : (exprLoadData prog d size).1 = 0 → ∀ mem, ∀ v ∈ declare,
    ((v.offset + v.size : Nat) : Int) ≤ size.toInt → ∀ j < v.size,
      stored mem (exprLoadData prog d size).2 ((v.offset + j : Nat) : Int) = d (v.offset + j)

/-- The scalar of the name is set and nothing else, or there is none and nothing is. -/
structure LoadsGlo (declare : List GlobalVarDeclare) (prog : ExprProg) (name : List Char)
    (value : Long) : Prop where
  scalar : ∀ v, declaredScalar declare name = some v → exprLoadGlo prog name value =
    (0, [{ start := v.offset, len := v.size, byte := valueByte value }])
  other : declaredScalar declare name = none → exprLoadGlo prog name value = (-1, [])

/-- `s` is a global whose first characters, as many as the hash says, begin `name`, and no such
global stands behind it. -/
def LastNamed (symtab : List SymbolEntry) (name : List Char) (s : SymbolEntry) : Prop :=
  s.globalNamed name = true ∧ ∃ pre post, symtab = pre ++ s :: post ∧
    ∀ e ∈ post, e.globalNamed name = false

/-- The last global that begins `name` is the declared scalar, or an array if there is none. -/
structure Unshadowed (declare : List GlobalVarDeclare) (prog : ExprProg) (name : List Char) :
    Prop where
  scalar : ∀ v, declaredScalar declare name = some v → ∃ s, LastNamed prog.symtab name s ∧
    (s.value - prog.data).toInt = v.offset ∧ storeWidth s.type = some v.size
  other : declaredScalar declare name = none →
    ∀ s, LastNamed prog.symtab name s → storeWidth s.type = none

end Spec

section Data
variable {declare : List GlobalVarDeclare} {prog : ExprProg} {d : Nat → UInt8}
  {size : Int32}

theorem sizeT_eq {n : Int} (h : 0 ≤ n) (hn : n < 2 ^ 64) : (sizeT n : Int) = n := by
  rw [sizeT, Int.emod_eq_of_lt h hn, Int.toNat_of_nonneg h]

/-- The terminator goes right behind the data. -/
theorem loadsData_iff : LoadsData declare prog d size ↔
    prog.datasize < size.toInt ∨ 0 ≤ size.toInt ∧ size.toInt < prog.datasize := by
  by_cases hrefused : size.toInt > prog.datasize
  · refine iff_of_true ?_ (.inl hrefused)
    constructor
    all_goals
      intro hret
      rw [exprLoadData, if_pos hrefused] at hret
      exact absurd hret (by decide)
  have hload : exprLoadData prog d size = (0, [{ start := 0, len := sizeT size.toInt, byte := d },
      { start := size.toInt, len := 1, byte := fun _ => 0 }]) := if_neg hrefused
  constructor
  · intro h
    have hinside := h.inside
    rw [hload] at hinside
    have hcover : ({ start := size.toInt, len := 1, byte := fun _ => 0 } : Store).Covers size.toInt :=
      ⟨Int.le_refl _, Int.lt_succ _⟩
    exact .inr (hinside rfl _ (List.mem_cons_of_mem _ (List.mem_singleton_self _)) _ hcover)
  · intro h
    have hin : 0 ≤ size.toInt ∧ size.toInt < prog.datasize := h.resolve_left hrefused
    have hint := size.toInt_lt
    have hlen : (sizeT size.toInt : Int) = size.toInt := sizeT_eq hin.1 (by omega)
    constructor
    · rw [hload]
      intro _ w hw i hi
      rw [List.mem_cons, List.mem_singleton] at hw
      obtain rfl | rfl := hw
      · simp only [Store.Covers] at hi
        omega
      · simp only [Store.Covers] at hi
        omega
    · rw [hload]
      intro _ mem v _ hfits j hj
      have hterm : ¬ ({ start := size.toInt, len := 1, byte := fun _ => 0 } : Store).Covers
          ((v.offset + j : Nat) : Int) := by
        simp only [Store.Covers]
        omega
      have hcopy : ({ start := 0, len := sizeT size.toInt, byte := d } : Store).Covers
          ((v.offset + j : Nat) : Int) := by
        simp only [Store.Covers]
        omega
      simp only [stored, List.foldl_cons, List.foldl_nil, Store.apply, if_neg hterm,
        if_pos hcopy]
      congr 1

end Data

section Glo
variable {declare : List GlobalVarDeclare} {prog : ExprProg} {name : List Char} {value : Long}

theorem find_reverse_iff {α : Type} {p : α → Bool} {l : List α} {x : α} :
    l.reverse.find? p = some x ↔
      p x = true ∧ ∃ pre post, l = pre ++ x :: post ∧ ∀ e ∈ post, p e = false := by
  rw [List.find?_eq_some_iff_append]
  refine and_congr_right fun _ => ⟨?_, ?_⟩
  · rintro ⟨as, bs, hsplit, has⟩
    refine ⟨bs.reverse, as.reverse, ?_, fun e he => ?_⟩
    · rw [← List.reverse_reverse l, hsplit]
      simp
    · simpa using has e (List.mem_reverse.mp he)
  · rintro ⟨pre, post, rfl, hpost⟩
    refine ⟨post.reverse, pre.reverse, by simp, fun e he => ?_⟩
    simpa using hpost e (List.mem_reverse.mp he)

theorem find_last_iff {symtab : List SymbolEntry} {s : SymbolEntry} :
    symtab.reverse.find? (SymbolEntry.globalNamed name) = some s ↔ LastNamed symtab name s :=
  find_reverse_iff

theorem loadGlo_last {s : SymbolEntry} (h : LastNamed prog.symtab name s) :
    exprLoadGlo prog name value =
      match storeWidth s.type with
      | none => (-1, [])
      | some n =>
        (0, [{ start := (s.value - prog.data).toInt, len := n, byte := valueByte value }]) := by
  rw [exprLoadGlo, find_last_iff.mpr h]

theorem loadGlo_none (h : ∀ s, ¬ LastNamed prog.symtab name s) :
    exprLoadGlo prog name value = (-1, []) := by
  have hnone : prog.symtab.reverse.find? (SymbolEntry.globalNamed name) = none :=
    Option.eq_none_iff_forall_ne_some.mpr fun s hs => h s (find_last_iff.mp hs)
  rw [exprLoadGlo, hnone]

theorem loadsGlo_iff : LoadsGlo declare prog name value ↔ Unshadowed declare prog name := by
  constructor
  · intro h
    constructor
    · intro v hv
      have hload := h.scalar v hv
      by_cases hlast : ∃ s, LastNamed prog.symtab name s
      · obtain ⟨s, hs⟩ := hlast
        rw [loadGlo_last hs] at hload
        cases hwidth : storeWidth s.type with
        | none =>
          rw [hwidth] at hload
          cases hload
        | some n =>
          rw [hwidth] at hload
          injection hload with _ hstores
          injection hstores with hstore _
          injection hstore with hstart hlen _
          exact ⟨s, hs, hstart, by rw [hwidth, hlen]⟩
      · rw [loadGlo_none (not_exists.mp hlast)] at hload
        cases hload
    · intro hnone s hs
      have hload := h.other hnone
      rw [loadGlo_last hs] at hload
      cases hwidth : storeWidth s.type with
      | none => rfl
      | some n =>
        rw [hwidth] at hload
        cases hload
  · intro h
    constructor
    · intro v hv
      obtain ⟨s, hs, hstart, hwidth⟩ := h.scalar v hv
      rw [loadGlo_last hs, hwidth, hstart]
    · intro hnone
      by_cases hlast : ∃ s, LastNamed prog.symtab name s
      · obtain ⟨s, hs⟩ := hlast
        rw [loadGlo_last hs, h.other hnone s hs]
      · exact loadGlo_none (not_exists.mp hlast)

end Glo

section Loads

/-- Loading does what it is for if and only if the size leaves room for the terminator, or is
refused, and the variable is not hidden by one whose name begins the name that is asked for. -/
theorem loads_iff (declare : List GlobalVarDeclare) (prog : ExprProg) (d : Nat → UInt8)
    (size : Int32) (name : List Char) (value : Long) :
    LoadsData declare prog d size ∧ LoadsGlo declare prog name value ↔
      (prog.datasize < size.toInt ∨ 0 ≤ size.toInt ∧ size.toInt < prog.datasize) ∧
        Unshadowed declare prog name :=
  and_congr loadsData_iff loadsGlo_iff

/-- Two fields of a tracepoint of the scheduler. -/
def commFields : List GlobalVarDeclare :=
  [⟨"common_pid".toList, 4, 4, 4⟩, ⟨"comm".toList, 8, 16, 1⟩]

def commProg : ExprProg :=
  compiled (fun _ => .free) 4096 (datasize commFields)
    [⟨⟨"common_pid".toList, rfl⟩, tyInt, 4100⟩, ⟨⟨"comm".toList, rfl⟩, 0 ||| array, 4104⟩] []

/-- A record of 256 bytes has its terminator behind the 256 bytes of the data, and `common_pid` is
taken for the array `comm`. -/
theorem comm_hides_common_pid :
    (∀ d, ¬ LoadsData commFields commProg d 256) ∧
      ¬ LoadsGlo commFields commProg "common_pid".toList 7 := by
  constructor
  · intro d h
    have hsize : (256 : Int32).toInt = 256 ∧ commProg.datasize = 256 := by decide
    have hload : exprLoadData commProg d 256 = (0, [{ start := 0, len := 256, byte := d },
        { start := 256, len := 1, byte := fun _ => 0 }]) := by
      rw [exprLoadData, hsize.1, hsize.2]
      rfl
    have hinside := h.inside
    rw [hload, hsize.2] at hinside
    have hend := hinside rfl _ (List.mem_cons_of_mem _ (List.mem_singleton_self _)) 256
      ⟨Int.le_refl _, by decide⟩
    exact absurd hend.2 (by decide)
  · intro h
    have hload := h.scalar ⟨"common_pid".toList, 4, 4, 4⟩ (by decide)
    exact absurd (congrArg Prod.fst hload) (by decide +kernel)

end Loads

end PerfProf.ExprSymtab
