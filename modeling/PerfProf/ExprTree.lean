import PerfProf.ExprRun

/-! The expressions of expr.c as trees: how they are written, the documented precedence, their
static type, and their value on a data buffer. Nothing here mentions the emitted code. -/
namespace PerfProf.Expr

section Syntax

inductive UnOp where
  | plus | minus | not | compl
deriving DecidableEq

/-- The binary operators of precedence 3 to 10. -/
inductive BinOp where
  | mul | div | mod | add | sub | shl | shr | lt | le | gt | ge | eq | ne | and | xor | or
deriving DecidableEq

mutual

/-- An expression with its parentheses. A character constant is a number, and `negNum` is a minus
right before a number; `more` are the strings right after a string; `type` and `n` stand for a
type name and the stars after it; `inc` tells `++` from `--`. -/
inductive Exp where
  | num (v : Long)
  | negNum (v : Long)
  | str (v : Long) (more : List Long)
  | var (s : Symbol)
  | sizeof (type n : Nat)
  | call (s : Symbol) (as : Args)
  | paren (e : Exp)
  | index (e i : Exp)
  | post (inc : Bool) (e : Exp)
  | un (op : UnOp) (e : Exp)
  | deref (e : Exp)
  | addr (e : Exp)
  | pre (inc : Bool) (e : Exp)
  | cast (type n : Nat) (e : Exp)
  | bin (op : BinOp) (l r : Exp)
  | land (l r : Exp)
  | lor (l r : Exp)
  | cond (c t f : Exp)
  | assign (l r : Exp)

/-- Arguments of a call; the comma after one may be left out. -/
inductive Args where
  | nil
  | cons (e : Exp) (comma : Bool) (rest : Args)

end

def UnOp.token : UnOp → Token
  | .plus => .add
  | .minus => .sub
  | .not => .bang
  | .compl => .tilde

def BinOp.token : BinOp → Token
  | .mul => .mul | .div => .div | .mod => .mod | .add => .add | .sub => .sub | .shl => .shl
  | .shr => .shr | .lt => .lt | .le => .le | .gt => .gt | .ge => .ge | .eq => .eq | .ne => .ne
  | .and => .and | .xor => .xor | .or => .or

def incToken (inc : Bool) : Token := if inc then .inc else .dec

/-- A type name in parentheses. -/
def typeToks (type n : Nat) : List Token :=
  .lparen :: .int type :: (List.replicate n .mul ++ [.rparen])

mutual

/-- How the expression is written. -/
def Exp.toks : Exp → List Token
  | .num v => [.num v]
  | .negNum v => [.sub, .num v]
  | .str v more => .str v :: more.map .str
  | .var s => [.id s]
  | .sizeof type n => .sizeof :: typeToks type n
  | .call s as => .id s :: .lparen :: (as.toks ++ [.rparen])
  | .paren e => .lparen :: (e.toks ++ [.rparen])
  | .index e i => e.toks ++ .brak :: (i.toks ++ [.rbrack])
  | .post inc e => e.toks ++ [incToken inc]
  | .un op e => op.token :: e.toks
  | .deref e => .mul :: e.toks
  | .addr e => .and :: e.toks
  | .pre inc e => incToken inc :: e.toks
  | .cast type n e => typeToks type n ++ e.toks
  | .bin op l r => l.toks ++ op.token :: r.toks
  | .land l r => l.toks ++ .lan :: r.toks
  | .lor l r => l.toks ++ .lor :: r.toks
  | .cond c t f => c.toks ++ .cond :: (t.toks ++ .colon :: f.toks)
  | .assign l r => l.toks ++ .assign :: r.toks

def Args.toks : Args → List Token
  | .nil => []
  | .cons e comma rest => e.toks ++ ((if comma then [.comma] else []) ++ rest.toks)

end

def Args.count : Args → Nat
  | .nil => 0
  | .cons _ _ rest => rest.count + 1

/-- The documented precedence of a binary operator. -/
def BinOp.level : BinOp → Nat
  | .mul | .div | .mod => 3
  | .add | .sub => 4
  | .shl | .shr => 5
  | .lt | .le | .gt | .ge => 6
  | .eq | .ne => 7
  | .and => 8
  | .xor => 9
  | .or => 10

/-- The documented precedence of the outermost operator, 0 for an operand. -/
def Exp.level : Exp → Nat
  | .num _ | .str .. | .var _ | .paren _ => 0
  | .call .. | .index .. | .post .. => 1
  | .negNum _ | .sizeof .. | .un .. | .deref _ | .addr _ | .pre .. | .cast .. => 2
  | .bin op _ _ => op.level
  | .land .. => 11
  | .lor .. => 12
  | .cond .. => 13
  | .assign .. => 14

end Syntax

section Static

def Symbol.isArray (s : Symbol) : Bool := s.type &&& array ≠ 0

namespace Exp

/-- The static type. An array is a pointer to its elements, a name of class `num` an `int`; a
difference of pointers to more than bytes is an `int`; `?:` has the type of its last operand. -/
def type : Exp → Nat
  | num _ | negNum _ | sizeof .. | un .. | land .. | lor .. => tyInt
  | str .. => ptr
  | var s =>
    if s.cls = .num then tyInt
    else if s.isArray then s.type ^^^ array ||| ptr else s.type
  | call s _ => s.type
  | paren e | post _ e | pre _ e => e.type
  | index e _ | deref e => e.type - ptr
  | addr e => e.type + ptr
  | cast type n _ => type + n * ptr
  | bin op l r => match op with
    | .add => l.type
    | .sub => if ptr < l.type ∧ l.type = r.type then tyInt else l.type
    | _ => tyInt
  | cond _ _ f => f.type
  | assign l _ => l.type

/-- A declared scalar variable, `*e`, `e[i]`, possibly in parentheses. -/
def isLvalue : Exp → Bool
  | var s => s.set && s.cls == .glo && !s.isArray
  | deref _ | index .. => true
  | paren e => e.isLvalue
  | _ => false

def isNum : Exp → Bool
  | num _ => true
  | _ => false

end Exp

/-- The one argument of `ntohl` or `ntohs`. -/
def isNet (s : Symbol) : Bool :=
  s = ⟨.sys, tyInt, Op.nthl.word, true⟩ || s = ⟨.sys, tyShort, Op.nths.word, true⟩

/-- The expressions of the grammar: operands bind tighter than their operator, to the left at
least as tight for the operators that group to the left, to the right for the others. `=`, `++`,
`--` and `&` are applied to lvalues, `*` and `[]` to pointers, and a pointer that is added or
subtracted stands on the left. -/
def Exp.Grammar : Exp → Prop
  | .num _ | .negNum _ => True
  | .str .. => False
  | .var s => s.cls = .glo ∧ s.type < ptr
  | .sizeof type _ => type < array
  | .call s as => isNet s = true ∧ match as with
    | .cons e false .nil => e.Grammar
    | _ => False
  | .paren e => e.Grammar
  | .index e i => e.Grammar ∧ i.Grammar ∧ e.level ≤ 1 ∧ ptr ≤ e.type
  | .post _ e => e.Grammar ∧ e.level ≤ 1 ∧ e.isLvalue = true
  | .un op e => e.Grammar ∧ e.level ≤ 2 ∧ (op = .minus → e.isNum = false)
  | .cast type _ e => e.Grammar ∧ e.level ≤ 2 ∧ type < array
  | .deref e => e.Grammar ∧ e.level ≤ 2 ∧ ptr ≤ e.type
  | .addr e | .pre _ e => e.Grammar ∧ e.level ≤ 2 ∧ e.isLvalue = true
  | .bin op l r => l.Grammar ∧ r.Grammar ∧ l.level ≤ op.level ∧ r.level < op.level ∧
      (op = .add ∨ op = .sub → ptr ≤ r.type → ptr ≤ l.type)
  | .land l r => l.Grammar ∧ r.Grammar ∧ l.level ≤ 11 ∧ r.level < 11
  | .lor l r => l.Grammar ∧ r.Grammar ∧ l.level ≤ 12 ∧ r.level < 12
  | .cond c t f => c.Grammar ∧ t.Grammar ∧ f.Grammar ∧ c.level < 13 ∧ f.level ≤ 13
  | .assign l r => l.Grammar ∧ r.Grammar ∧ l.level ≤ 2 ∧ l.isLvalue = true

end Static

section Value

def UnOp.apply : UnOp → Long → Long
  | .plus, x => x
  | .minus, x => -x
  | .not, x => truth (x == 0)
  | .compl, x => ~~~x

def BinOp.op : BinOp → Op
  | .mul => .mul | .div => .div | .mod => .mod | .add => .add | .sub => .sub | .shl => .shl
  | .shr => .shr | .lt => .lt | .le => .le | .gt => .gt | .ge => .ge | .eq => .eq | .ne => .ne
  | .and => .and | .xor => .xor | .or => .or

/-- The size of what a pointer of type `ty` points to, 1 for an integer type. -/
def pointee (ty : Nat) : Nat := if ptr ≤ ty then width (ty - ptr) else 1

/-- The value of a binary operator on operands of types `tl` and `tr`: sums and differences with
a pointer count elements. -/
def BinOp.apply (op : BinOp) (tl tr : Nat) (x y : Long) : Option Long :=
  match op with
  | .add => some (x + y * word (pointee tl))
  | .sub => if ptr ≤ tl ∧ tl = tr then some ((x - y).sdiv (word (pointee tl)))
    else some (x - y * word (pointee tl))
  | op => op.op.apply x y

def incDelta (inc : Bool) (ty : Nat) : Long :=
  if inc then word (pointee ty) else -word (pointee ty)

/-- `ntohl` and `ntohs`. -/
def netApply (s : Symbol) (x : Long) : Option Long :=
  if s.value = Op.nthl.word then some (ntohl x)
  else if s.value = Op.nths.word then some (ntohs x) else none

mutual

/-- The value and the buffer that is left, operands from left to right. A value is a 64-bit long;
what `=` and `++` store is truncated, their value is not. -/
@[simp]
def Exp.eval : Exp → Data → Option (Long × Data)
  | .num v, d => some (v, d)
  | .negNum v, d => some (-v, d)
  | .str .., _ => none
  | .var s, d =>
    if s.isArray then some (s.value, d)
    else (d.load (width s.type) s.value).map fun v => (v, d)
  | .sizeof type n, d => some (word (width (type + n * ptr)), d)
  | .call s as, d => match as with
    | .cons e false .nil => do
      let (x, d) ← e.eval d
      let v ← netApply s x
      some (v, d)
    | _ => none
  | .paren e, d => e.eval d
  | .cast _ _ e, d => e.eval d
  | .index e i, d => do
    let (p, d) ← e.eval d
    let (n, d) ← i.eval d
    let v ← d.load (width (e.type - ptr)) (p + n * word (pointee e.type))
    some (v, d)
  | .post inc e, d => do
    let (p, d) ← e.place d
    let v ← d.load (width e.type) p
    let d ← d.store (width e.type) p (v + incDelta inc e.type)
    some (v, d)
  | .un op e, d => (e.eval d).map fun r => (op.apply r.1, r.2)
  | .deref e, d => do
    let (p, d) ← e.eval d
    let v ← d.load (width (e.type - ptr)) p
    some (v, d)
  | .addr e, d => e.place d
  | .pre inc e, d => do
    let (p, d) ← e.place d
    let v ← d.load (width e.type) p
    let d ← d.store (width e.type) p (v + incDelta inc e.type)
    some (v + incDelta inc e.type, d)
  | .bin op l r, d => do
    let (x, d) ← l.eval d
    let (y, d) ← r.eval d
    let v ← op.apply l.type r.type x y
    some (v, d)
  | .land l r, d => do
    let (x, d) ← l.eval d
    if x = 0 then some (x, d) else r.eval d
  | .lor l r, d => do
    let (x, d) ← l.eval d
    if x = 0 then r.eval d else some (x, d)
  | .cond c t f, d => do
    let (x, d) ← c.eval d
    if x = 0 then f.eval d else t.eval d
  | .assign l r, d => do
    let (p, d) ← l.place d
    let (v, d) ← r.eval d
    let d ← d.store (width l.type) p v
    some (v, d)

/-- The address of an lvalue. -/
@[simp]
def Exp.place : Exp → Data → Option (Long × Data)
  | .var s, d => if s.isArray then none else some (s.value, d)
  | .deref e, d => e.eval d
  | .index e i, d => do
    let (p, d) ← e.eval d
    let (n, d) ← i.eval d
    some (p + n * word (pointee e.type), d)
  | .paren e, d => e.place d
  | _, _ => none

end

/-- Expressions between commas: the value is that of the last. -/
def evalAll : Exp → List Exp → Data → Option (Long × Data)
  | e, [], d => e.eval d
  | e, e' :: es, d => do
    let (_, d) ← e.eval d
    evalAll e' es d

def commaToks : Exp → List Exp → List Token
  | e, [] => e.toks
  | e, e' :: es => e.toks ++ .comma :: commaToks e' es

end Value

section Meaning

/-- What becomes of a result: that of `&&` and `||`, and one that is given a type. -/
structure Meaning where
  logic : Long → Long
  narrow : Nat → Long → Long

/-- In `expr_run` every value stays the long it is. -/
def asRun : Meaning := ⟨id, fun _ v => v⟩

@[simp]
theorem asRun_logic (v : Long) : asRun.logic v = v := rfl

@[simp]
theorem asRun_narrow (ty : Nat) (v : Long) : asRun.narrow ty v = v := rfl

/-- In C the logical operators give 0 or 1, and a value of type `char`, `short` or `int` is
truncated to the size of the type and sign-extended. -/
def asC : Meaning where
  logic v := truth (v != 0)
  narrow ty v := if ty ≤ tyInt then (v.setWidth (8 * width ty)).signExtend 64 else v

/-- The library functions: `ksymbol`, `ntohl` and `ntohs` read the argument pushed last. -/
def callValue (lib : Library) (s : Symbol) (args : List Long) (d : Data) : Option Long :=
  match Op.ofWord s.value with
  | some .nthl => args.getLast?.map ntohl
  | some .nths => args.getLast?.map ntohs
  | some .ksym => args.getLast?.map fun x => lib .ksym [x] d
  | some .prtf => if args = [] then none else some (lib .prtf args d)
  | some .strncmp => if args = [] then none else some (lib .strncmp args d)
  | _ => none

variable (lib : Library) (M : Meaning)

mutual

/-- The value of any expression that `expr` accepts, the results read as `M` says. -/
@[simp]
def Exp.value : Exp → Data → Option (Long × Data)
  | .num v, d => some (v, d)
  | .negNum v, d => some (-v, d)
  | .str v _, d => some (v, d)
  | .var s, d =>
    if s.isArray then some (s.value, d)
    else (d.load (width s.type) s.value).map fun v => (v, d)
  | .sizeof type n, d => some (word (width (type + n * ptr)), d)
  | .call s as, d => do
    let (args, d) ← as.values d
    let v ← callValue lib s args d
    some (v, d)
  | .paren e, d => e.value d
  | .cast type n e, d => (e.value d).map fun r => (M.narrow (type + n * ptr) r.1, r.2)
  | .index e i, d => do
    let (p, d) ← e.value d
    let (n, d) ← i.value d
    let v ← d.load (width (e.type - ptr)) (p + n * word (pointee e.type))
    some (v, d)
  | .post inc e, d => do
    let (p, d) ← e.spot d
    let v ← d.load (width e.type) p
    let d ← d.store (width e.type) p (v + incDelta inc e.type)
    some (v, d)
  | .un op e, d => (e.value d).map fun r => (op.apply r.1, r.2)
  | .deref e, d => do
    let (p, d) ← e.value d
    let v ← d.load (width (e.type - ptr)) p
    some (v, d)
  | .addr e, d => e.spot d
  | .pre inc e, d => do
    let (p, d) ← e.spot d
    let v ← d.load (width e.type) p
    let d ← d.store (width e.type) p (v + incDelta inc e.type)
    some (M.narrow e.type (v + incDelta inc e.type), d)
  | .bin op l r, d => do
    let (x, d) ← l.value d
    let (y, d) ← r.value d
    let v ← op.apply l.type r.type x y
    some (v, d)
  | .land l r, d => do
    let (x, d) ← l.value d
    if x = 0 then some (M.logic x, d) else (r.value d).map fun r => (M.logic r.1, r.2)
  | .lor l r, d => do
    let (x, d) ← l.value d
    if x = 0 then (r.value d).map fun r => (M.logic r.1, r.2) else some (M.logic x, d)
  | .cond c t f, d => do
    let (x, d) ← c.value d
    if x = 0 then f.value d else t.value d
  | .assign l r, d => do
    let (p, d) ← l.spot d
    let (v, d) ← r.value d
    let d ← d.store (width l.type) p v
    some (M.narrow l.type v, d)

/-- The address of an lvalue. -/
@[simp]
def Exp.spot : Exp → Data → Option (Long × Data)
  | .var s, d => if s.isArray then none else some (s.value, d)
  | .deref e, d => e.value d
  | .index e i, d => do
    let (p, d) ← e.value d
    let (n, d) ← i.value d
    some (p + n * word (pointee e.type), d)
  | .paren e, d => e.spot d
  | _, _ => none

/-- The arguments in the order in which they are pushed. -/
@[simp]
def Args.values : Args → Data → Option (List Long × Data)
  | .nil, d => some ([], d)
  | .cons e _ rest, d => do
    let (x, d) ← e.value d
    let (xs, d) ← rest.values d
    some (x :: xs, d)

end

/-- Expressions between commas. -/
def valueAll : Exp → List Exp → Data → Option (Long × Data)
  | e, [], d => e.value lib M d
  | e, e' :: es, d => do
    let (_, d) ← e.value lib M d
    valueAll e' es d

end Meaning

end PerfProf.Expr
