import PerfProf.ExprCompile
import PerfProf.Loop

/-! The simulator of expr.c, `expr_run`: one register, a stack of 512 words and the buffer of the
global variables, the only memory that loads and stores may touch. -/
namespace PerfProf.Expr
open Loop

section Buffer

/-- The global data buffer and its address. -/
structure Data where
  base : Long
  bytes : List (BitVec 8)
deriving DecidableEq

/-- The little-endian value of some bytes. -/
def bytesNat : List (BitVec 8) → Nat
  | [] => 0
  | b :: bs => b.toNat + 256 * bytesNat bs

def natBytes : Nat → Nat → List (BitVec 8)
  | 0, _ => []
  | n+1, v => BitVec.ofNat 8 v :: natBytes n (v / 256)

namespace Data

/-- Where an access of `size` bytes at `addr` lies in the buffer. -/
def offset (d : Data) (size : Nat) (addr : Long) : Option Nat :=
  if (addr - d.base).toNat + size ≤ d.bytes.length then some (addr - d.base).toNat else none

/-- A load sign-extends; outside the buffer there is nothing to load. -/
def load (d : Data) (size : Nat) (addr : Long) : Option Long :=
  (d.offset size addr).map fun off =>
    (BitVec.ofNat (8 * size) (bytesNat ((d.bytes.drop off).take size))).signExtend 64

/-- A store truncates. -/
def store (d : Data) (size : Nat) (addr v : Long) : Option Data :=
  (d.offset size addr).map fun off =>
    { d with bytes := d.bytes.take off ++ natBytes size v.toNat ++ d.bytes.drop (off + size) }

end Data

end Buffer

section Arith

def truth (b : Bool) : Long := if b then 1 else 0

/-- The operators on two longs. Division by 0, the overflow of a division and shifts outside
0..63 have no result. -/
def Op.apply : Op → Long → Long → Option Long
  | .or, x, y => some (x ||| y)
  | .xor, x, y => some (x ^^^ y)
  | .and, x, y => some (x &&& y)
  | .eq, x, y => some (truth (x == y))
  | .ne, x, y => some (truth (x != y))
  | .lt, x, y => some (truth (x.slt y))
  | .gt, x, y => some (truth (y.slt x))
  | .le, x, y => some (truth (x.sle y))
  | .ge, x, y => some (truth (y.sle x))
  | .shl, x, y => if y.toNat < 64 then some (x <<< y.toNat) else none
  | .shr, x, y => if y.toNat < 64 then some (x.sshiftRight y.toNat) else none
  | .add, x, y => some (x + y)
  | .sub, x, y => some (x - y)
  | .mul, x, y => some (x * y)
  | .div, x, y => if y = 0 ∨ x = BitVec.intMin 64 ∧ y = -1 then none else some (x.sdiv y)
  | .mod, x, y => if y = 0 ∨ x = BitVec.intMin 64 ∧ y = -1 then none else some (x.srem y)
  | _, _, _ => none

/-- `(int)ntohl((int)x)` on a little-endian machine. -/
def ntohl (x : Long) : Long :=
  (BitVec.ofNat 32 (bytesNat (natBytes 4 x.toNat).reverse)).signExtend 64

def ntohs (x : Long) : Long :=
  (BitVec.ofNat 16 (bytesNat (natBytes 2 x.toNat).reverse)).signExtend 64

end Arith

section Machine

/-- The registers `pc` and `a`, the words on the stack, and the buffer. -/
structure Vm where
  pc : Nat
  a : Long
  stack : List Long
  data : Data

def ops : List Op :=
  [.lea, .imm, .jmp, .jsr, .bz, .bnz, .ent, .adj, .li, .si, .lev, .psh, .or, .xor, .and, .eq, .ne,
    .lt, .gt, .le, .ge, .shl, .shr, .add, .sub, .mul, .div, .mod, .prtf, .ksym, .nthl, .nths,
    .strncmp, .exit]

def Op.ofWord (w : Long) : Option Op := ops.find? fun op => op.word == w

def isSize (w : Long) : Bool := w == 1 || w == 2 || w == 4 || w == 8

/-- What `expr_run` returns, or none where the C program has no defined behaviour: outside the
code, the stack or the buffer, or in an operator that has no result. -/
abbrev Exit := Option Long

/-- The library functions that are not arithmetic: `printf`, `ksymbol` and `strncmp`. -/
abbrev Library := Op → List Long → Data → Long

variable (lib : Library) (insn : List Long)

/-- The word that a pointer into the code points to. -/
def codeIndex (w : Long) : Nat := (w - word le).toNat

/-- One turn of the loop of `expr_run`. `ENT` and `LEV` are never emitted, `LEA` and `JSR` only for
a name whose entry nobody set, with whatever operand stood there. -/
def step (m : Vm) : Pass Vm Exit :=
  let stuck := Pass.done m none
  let orStuck := fun r : Option Vm => match r with
    | some m => Pass.again m
    | none => stuck
  let arg := insn[m.pc + 1]?
  match insn[m.pc]? with
  | none => stuck
  | some w => match Op.ofWord w with
    | none => .done m (some (-1))
    | some op => match op with
      | .imm => orStuck (arg.map fun v => { m with pc := m.pc + 2, a := v })
      | .jmp => orStuck (arg.map fun t => { m with pc := codeIndex t })
      | .bz => orStuck (arg.map fun t => { m with pc := if m.a = 0 then codeIndex t else m.pc + 2 })
      | .bnz => orStuck (arg.map fun t => { m with pc := if m.a = 0 then m.pc + 2 else codeIndex t })
      | .adj => match arg with
        | none => stuck
        | some n => if n.toNat ≤ m.stack.length then
            .again { m with pc := m.pc + 2, stack := m.stack.drop n.toNat } else stuck
      | .li => match arg with
        | none => stuck
        | some n => if isSize n then
            orStuck ((m.data.load n.toNat m.a).map fun v => { m with pc := m.pc + 2, a := v })
            else .done m (some (-1))
      | .si => match arg, m.stack with
        | some n, addr :: rest => if isSize n then
            orStuck ((m.data.store n.toNat addr m.a).map fun d =>
              { m with pc := m.pc + 2, stack := rest, data := d }) else .done m (some (-1))
        | _, _ => stuck
      | .psh => if m.stack.length < 512 then
          .again { m with pc := m.pc + 1, stack := m.a :: m.stack } else stuck
      | .nthl => match m.stack with
        | x :: _ => .again { m with pc := m.pc + 1, a := ntohl x }
        | [] => stuck
      | .nths => match m.stack with
        | x :: _ => .again { m with pc := m.pc + 1, a := ntohs x }
        | [] => stuck
      | .ksym => match m.stack with
        | x :: _ => .again { m with pc := m.pc + 1, a := lib .ksym [x] m.data }
        | [] => stuck
      | .prtf | .strncmp => match insn[m.pc + 2]? with
        | some n => .again { m with
            pc := m.pc + 1, a := lib op (m.stack.take n.toNat).reverse m.data }
        | none => stuck
      | .exit => .done m (some m.a)
      | .lea | .jsr | .ent | .lev => stuck
      | op => match m.stack with
        | x :: rest => orStuck ((op.apply x m.a).map fun v =>
            { m with pc := m.pc + 1, a := v, stack := rest })
        | [] => stuck

/-- `expr_run` for at most `fuel` instructions: the buffer that is left and what is returned. -/
def exprRun (fuel : Nat) (data : Data) : Option (Data × Exit) :=
  (iterate (step lib insn) fuel ⟨1, 0, [], data⟩).map fun r => (r.1.data, r.2)

end Machine

end PerfProf.Expr
