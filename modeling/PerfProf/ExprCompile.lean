import Mathlib.Data.BitVec
import Mathlib.Data.List.Basic

/-! The expression compiler of expr.c: the lexer `next`, the one-pass parser `expr`, which emits
words while it reads, and `expr_compile`. A position in the code is the index of a word, so
`*++e = w` appends a word. -/
namespace PerfProf.Expr

/-- A C `long`. -/
abbrev Long := BitVec 64

section Words

/-- The opcodes, in the order of the source. -/
inductive Op where
  | lea | imm | jmp | jsr | bz | bnz | ent | adj | li | si | lev | psh
  | or | xor | and | eq | ne | lt | gt | le | ge | shl | shr | add | sub | mul | div | mod
  | prtf | ksym | nthl | nths | strncmp | exit
deriving DecidableEq

def Op.word (op : Op) : Long := BitVec.ofNat 64 op.ctorIdx

/-- `CHAR`, `SHORT`, `INT` and `LONG` are 0 to 3, `ARRAY` is a bit, and each `*` adds `PTR`. -/
def tyShort : Nat := 1
def tyInt : Nat := 2
def array : Nat := 4
def ptr : Nat := 8

/-- `(ty >= PTR) ? sizeof(void *) : (1 << ty)`. -/
def width (ty : Nat) : Nat := if ptr ≤ ty then 8 else 1 <<< ty

/-- `(ty>=PTR+PTR) ? sizeof(void *) : (1<<(ty-PTR))`. -/
def stride (ty : Nat) : Nat := if ptr + ptr ≤ ty then 8 else 1 <<< (ty - ptr)

/-- What `++` and `--` add or subtract. -/
def incStep (ty : Nat) : Nat := if ptr ≤ ty then stride ty else 1

def word (n : Nat) : Long := BitVec.ofNat 64 n

/-- Where the code lies: far from the small numbers that opcodes and sizes are. -/
def le : Nat := 2 ^ 32

/-- The pointer to word `i` of the code, which has less than 2^32 words; it counts words. -/
def codePtr (i : Nat) : Long := word (le + i % le)

end Words

section Lexer

/-- The classes of an identifier, and none. `expr_compile` gives `sys` and `glo`; the others can
only stand in memory that nobody set. -/
inductive Class where
  | undef | num | func | sys | glo | loc
deriving DecidableEq

/-- An identifier of `struct symbol_table`; `set` tells that `expr_compile` gave it its class, type
and value, so that it is a library function or a declared variable. -/
structure Symbol where
  cls : Class
  type : Nat
  value : Long
  set : Bool
deriving DecidableEq

/-- A name of the symbol table with its token: a type, `sizeof`, or an identifier. -/
inductive Entry where
  | int (type : Nat)
  | sizeof
  | id (s : Symbol)
deriving DecidableEq

abbrev Symtab := List (List Char × Entry)

/-- A name that is not in the table gets an entry of its own, one that `calloc` cleared. -/
def Symtab.find (tab : Symtab) (name : List Char) : Entry :=
  match tab.lookup name with
  | some entry => entry
  | none => .id ⟨.undef, 0, 0, false⟩

/-- The table for a text: the entries that `next` makes after `realloc` keep what the memory held,
for the names in `held`. -/
def Symtab.enter (tab : Symtab) (held : List (List Char × Symbol)) : Symtab :=
  tab ++ held.map fun h => (h.1, .id { h.2 with set := false })

/-- The tokens, operators last and in precedence order; `Id` carries the identifier. -/
inductive Token where
  | eof
  | num (ival : Long) | str (ival : Long) | id (s : Symbol) | int (type : Nat) | sizeof
  | bang | tilde | semi | lbrace | rbrace | lparen | rparen | rbrack | comma | colon
  | assign | cond | lor | lan | or | xor | and | eq | ne | lt | gt | le | ge | shl | shr
  | add | sub | mul | div | mod | inc | dec | brak
deriving DecidableEq

/-- The precedence order from `Assign` on; the other tokens come before. -/
def Token.rank : Token → Nat
  | .assign => 1 | .cond => 2 | .lor => 3 | .lan => 4 | .or => 5 | .xor => 6 | .and => 7
  | .eq => 8 | .ne => 9 | .lt => 10 | .gt => 11 | .le => 12 | .ge => 13 | .shl => 14 | .shr => 15
  | .add => 16 | .sub => 17 | .mul => 18 | .div => 19 | .mod => 20 | .inc => 21 | .dec => 22
  | .brak => 23
  | _ => 0

/-- The type that `Int` stands for. -/
def Token.intType : Token → Option Nat
  | .int type => some type
  | _ => none

def Token.numVal : Token → Option Long
  | .num ival => some ival
  | _ => none

def isAlpha (c : Char) : Bool := ('a' ≤ c && c ≤ 'z') || ('A' ≤ c && c ≤ 'Z') || c == '_'
def isDigit (c : Char) : Bool := '0' ≤ c && c ≤ '9'
def isHex (c : Char) : Bool := isDigit c || ('a' ≤ c && c ≤ 'f') || ('A' ≤ c && c ≤ 'F')

/-- A `char` read as a `long`. -/
def charLong (c : Char) : Long := (BitVec.ofNat 8 c.toNat).signExtend 64

/-- `ival = ival * base + digit` over the digits. -/
def digits (base : Nat) (ival : Long) (ds : List Char) : Long :=
  ds.foldl (fun v d => v * word base + (if 'A' ≤ d then word (d.toNat % 16 + 9)
    else word (d.toNat % 16))) ival

/-- The lexer's position with `ival` and the characters written to `str`. -/
structure Lex where
  p : List Char
  ival : Long
  str : Nat

/-- The loop over a character or string constant, up to its closing `q`. -/
def quoted (q : Char) : Long → Nat → List Char → Long × Nat × List Char
  | ival, n, [] => (ival, n, [])
  | ival, n, c :: p =>
    if c = q then (ival, n, p)
    else if c = '\x5c' then match p with
      | [] => (0, n + 1, [])
      | c' :: p => quoted q (if c' = 'n' then 10 else charLong c') (n + 1) p
    else quoted q (charLong c) (n + 1) p

/-- A number from its first digit `c` on. -/
def number (c : Char) (l : Lex) : Token × Lex :=
  if c ≠ '0' then
    let ival := digits 10 (word (c.toNat % 16)) (l.p.takeWhile isDigit)
    (.num ival, { l with p := l.p.dropWhile isDigit, ival := ival })
  else if l.p.head? = some 'x' ∨ l.p.head? = some 'X' then
    let ival := digits 16 0 (l.p.tail.takeWhile isHex)
    (.num ival, { l with p := l.p.tail.dropWhile isHex, ival := ival })
  else
    let ival := digits 8 0 (l.p.takeWhile fun d => '0' ≤ d && d ≤ '7')
    (.num ival, { l with p := l.p.dropWhile fun d => '0' ≤ d && d ≤ '7', ival := ival })

/-- One token if the next character is `c`, another if it is not. -/
def ifNext (c : Char) (two one : Token) (l : Lex) : Token × Lex :=
  if l.p.head? = some c then (two, { l with p := l.p.tail }) else (one, l)

/-- `next`; each turn of its loop takes a character. -/
def next (tab : Symtab) (strBase : Long) : Nat → Lex → Token × Lex
  | 0, l => (.eof, l)
  | fuel+1, l => match l.p with
    | [] => (.eof, l)
    | c :: p =>
      let l := { l with p := p }
      let isWord := fun c => isAlpha c || isDigit c
      if c = '#' then next tab strBase fuel { l with p := p.dropWhile fun c => c ≠ '\n' }
      else if isAlpha c then
        (match tab.find (c :: p.takeWhile isWord) with
          | .int type => .int type
          | .sizeof => .sizeof
          | .id s => .id s, { l with p := p.dropWhile isWord })
      else if isDigit c then number c l
      else if c = '/' then
        if p.head? = some '/' then
          next tab strBase fuel { l with p := p.tail.dropWhile fun c => c ≠ '\n' }
        else (.div, l)
      else if c = '\x27' then
        let (ival, _, p) := quoted c l.ival 0 p
        (.num ival, ⟨p, ival, l.str + 1⟩)
      else if c = '\x22' then
        let (_, n, p) := quoted c l.ival 0 p
        let ival := strBase + word l.str
        (.str ival, ⟨p, ival, l.str + n + 1⟩)
      else if c = '=' then ifNext '=' .eq .assign l
      else if c = '+' then ifNext '+' .inc .add l
      else if c = '-' then ifNext '-' .dec .sub l
      else if c = '!' then ifNext '=' .ne .bang l
      else if c = '<' then
        if p.head? = some '=' then (.le, { l with p := p.tail }) else ifNext '<' .shl .lt l
      else if c = '>' then
        if p.head? = some '=' then (.ge, { l with p := p.tail }) else ifNext '>' .shr .gt l
      else if c = '|' then ifNext '|' .lor .or l
      else if c = '&' then ifNext '&' .lan .and l
      else if c = '^' then (.xor, l)
      else if c = '%' then (.mod, l)
      else if c = '*' then (.mul, l)
      else if c = '[' then (.brak, l)
      else if c = '?' then (.cond, l)
      else if c = '~' then (.tilde, l)
      else if c = ';' then (.semi, l)
      else if c = '\x7b' then (.lbrace, l)
      else if c = '\x7d' then (.rbrace, l)
      else if c = '(' then (.lparen, l)
      else if c = ')' then (.rparen, l)
      else if c = ']' then (.rbrack, l)
      else if c = ',' then (.comma, l)
      else if c = ':' then (.colon, l)
      else next tab strBase fuel l

/-- What successive calls of `next` give, up to the end of the text. -/
def tokens (tab : Symtab) (strBase : Long) : Nat → Lex → List Token
  | 0, _ => []
  | fuel+1, l => match next tab strBase (l.p.length + 1) l with
    | (.eof, _) => []
    | (tk, l) => tk :: tokens tab strBase fuel l

end Lexer

section Parser

/-- The buffer of the code: the words up to `e`, and what earlier words left above it; the rest is
as `calloc` cleared it. -/
structure Buf where
  code : List Long
  above : List Long
deriving DecidableEq

namespace Buf

/-- `*++e = w` for each word. -/
def emit (b : Buf) (ws : List Long) : Buf := ⟨b.code ++ ws, b.above.drop ws.length⟩

/-- `*(e-1) == LI`. -/
def endsLi (b : Buf) : Bool := b.code.dropLast.getLast? == some Op.li.word

/-- `e -= 2`; both words stay where they are. -/
def dropLi (b : Buf) : Buf :=
  ⟨b.code.dropLast.dropLast, b.code.drop (b.code.length - 2) ++ b.above⟩

/-- The `LI` at the end becomes a `PSH` before it: the address stays below the value. -/
def pushLi (b : Buf) : Buf := b.dropLi.emit [Op.psh.word, Op.li.word, b.code.getLastD 0]

/-- `*++e = op; d = ++e`: the word at `d` stays as it is until it is patched. -/
def reserve (b : Buf) (op : Op) : Buf := b.emit [op.word, b.above.getD 1 0]

/-- `*d = (long)(le + target)`. -/
def patch (b : Buf) (d target : Nat) : Buf := { b with code := b.code.set d (codePtr target) }

end Buf

/-- The globals of the parser: the tokens from `tk` on, the code, and `ty`. -/
structure St where
  toks : List Token
  buf : Buf
  ty : Nat
deriving DecidableEq

namespace St

def code (s : St) : List Long := s.buf.code
def tk (s : St) : Token := s.toks.headD .eof
def next (s : St) : St := { s with toks := s.toks.tail }
def emit (s : St) (ws : List Long) : St := { s with buf := s.buf.emit ws }
def setTy (s : St) (ty : Nat) : St := { s with ty := ty }

def expect (s : St) (tk : Token) (msg : String) : Except String St :=
  if s.tk = tk then .ok s.next else .error msg

def endsInLi (s : St) : Bool := s.buf.endsLi
def dropLi (s : St) : St := { s with buf := s.buf.dropLi }
def pushLi (s : St) : St := { s with buf := s.buf.pushLi }
def reserve (s : St) (op : Op) : St := { s with buf := s.buf.reserve op }
def patch (s : St) (d target : Nat) : St := { s with buf := s.buf.patch d target }

/-- `while (tk == Mul) { next(); ty = ty + PTR; }`. -/
def stars (ty : Nat) : List Token → Nat × List Token
  | .mul :: rest => stars (ty + ptr) rest
  | rest => (ty, rest)

def isStr : Token → Bool
  | .str _ => true
  | _ => false

/-- `while (tk == '"') next();`. -/
def skipStrs (s : St) : St := { s with toks := s.toks.dropWhile isStr }

/-- The type in parentheses after `sizeof` and in a cast, from its name on. -/
def typeName (s : St) (type : Nat) (msg : String) : Except String (St × Nat) :=
  match stars type s.next.toks with
  | (ty, toks) => match { s with toks := toks }.expect .rparen msg with
    | .ok s => .ok (s, ty)
    | .error msg => .error msg

def sizeofExpr (s : St) : Except String St := do
  let s ← s.next.expect .lparen "open paren expected in sizeof"
  match s.tk.intType with
  | some type =>
    let (s, ty) ← s.typeName type "close paren expected in sizeof"
    .ok ((s.emit [Op.imm.word, word (width ty)]).setTy tyInt)
  | none => .error "wrong type"

/-- The operands that have no operands. -/
def operand (s : St) : Except String St :=
  match s.tk with
  | .num ival => .ok ((s.emit [Op.imm.word, ival]).next.setTy tyInt)
  | .str ival => .ok ((s.emit [Op.imm.word, ival]).skipStrs.setTy ptr)
  | .sizeof => s.sizeofExpr
  | _ => .error "bad expression"

/-- The words for the address of a variable; `loc` is 0, since nothing is local. -/
def address (sym : Symbol) : Option (List Long) :=
  match sym.cls with
  | .loc => some [Op.lea.word, 0 - sym.value]
  | .glo => some [Op.imm.word, sym.value]
  | _ => none

/-- An identifier that is not called. -/
def ident (s : St) (sym : Symbol) : Except String St :=
  if sym.cls = .num then .ok ((s.emit [Op.imm.word, sym.value]).setTy tyInt)
  else match address sym with
  | none => .error "undefined variable"
  | some ws =>
    let s := s.emit ws
    if sym.type &&& array ≠ 0 then .ok (s.setTy (sym.type ^^^ array ||| ptr))
    else .ok ((s.emit [Op.li.word, word (width sym.type)]).setTy sym.type)

/-- The words that call a function. -/
def callee (sym : Symbol) : Option (List Long) :=
  match sym.cls with
  | .sys => some [sym.value]
  | .func => some [Op.jsr.word, sym.value]
  | _ => none

/-- The call of an identifier after its `t` arguments. -/
def call (s : St) (sym : Symbol) (t : Nat) : Except String St :=
  match callee sym with
  | none => .error "bad function call"
  | some ws =>
    let s := s.emit ws
    let s := if t ≠ 0 then s.emit [Op.adj.word, word t] else s
    .ok (s.setTy sym.type)

/-- The store of `++` and `--`; `op` is `ADD` or `SUB`. -/
def incStore (s : St) (op : Op) : St :=
  s.emit [Op.psh.word, Op.imm.word, word (incStep s.ty), op.word, Op.si.word, word (width s.ty)]

def incOp (tk : Token) : Op := if tk = .inc then .add else .sub
def undoOp (tk : Token) : Op := if tk = .inc then .sub else .add

/-- The scaling of the right operand by a pointer type `t`. -/
def scale (s : St) (t : Nat) : St :=
  if ptr < t then s.emit [Op.psh.word, Op.imm.word, word (stride t), Op.mul.word] else s

/-- The operators whose branches differ in the level of the right operand and in the opcode. -/
def binary : Token → Option (Token × Op)
  | .or => some (.xor, .or)
  | .xor => some (.and, .xor)
  | .and => some (.eq, .and)
  | .eq => some (.lt, .eq)
  | .ne => some (.lt, .ne)
  | .lt => some (.shl, .lt)
  | .gt => some (.shl, .gt)
  | .le => some (.shl, .le)
  | .ge => some (.shl, .ge)
  | .shl => some (.add, .shl)
  | .shr => some (.add, .shr)
  | .mul => some (.inc, .mul)
  | .div => some (.inc, .div)
  | .mod => some (.inc, .mod)
  | _ => none

/-- The end of the branch for `Sub`. -/
def subtract (s : St) (t : Nat) : St :=
  if ptr < t ∧ t = s.ty then
    (s.emit [Op.sub.word, Op.psh.word, Op.imm.word, word (stride t), Op.div.word]).setTy tyInt
  else ((s.scale t).emit [Op.sub.word]).setTy t

end St

open St

mutual

/-- `expr`; the fuel bounds the depth of the calls. -/
def expr : Nat → Token → St → Except String St
  | 0, _, _ => .error "too deep"
  | fuel+1, lev, s => do
    let s ← primary fuel s
    climb fuel lev s

/-- The operand or prefix operator that `tk` starts. -/
def primary : Nat → St → Except String St
  | 0, _ => .error "too deep"
  | fuel+1, s => match s.tk with
    | .eof => .error "unexpected eof in expression"
    | .id sym =>
      let s := s.next
      if s.tk = .lparen then do
        let (s, t) ← args fuel 0 s.next
        s.call sym t
      else s.ident sym
    | .lparen => match s.next.tk.intType with
      | some type => do
        let (s, t) ← s.next.typeName type "bad cast"
        let s ← expr fuel .inc s
        .ok (s.setTy t)
      | none => do
        let s ← expr fuel .assign s.next
        s.expect .rparen "close paren expected"
    | .mul => do
      let s ← expr fuel .inc s.next
      if ptr ≤ s.ty then .ok ((s.emit [Op.li.word, word (width (s.ty - ptr))]).setTy (s.ty - ptr))
      else .error "bad dereference"
    | .and => do
      let s ← expr fuel .inc s.next
      if s.endsInLi then .ok (s.dropLi.setTy (s.ty + ptr)) else .error "bad address-of"
    | .bang => do
      let s ← expr fuel .inc s.next
      .ok ((s.emit [Op.psh.word, Op.imm.word, 0, Op.eq.word]).setTy tyInt)
    | .tilde => do
      let s ← expr fuel .inc s.next
      .ok ((s.emit [Op.psh.word, Op.imm.word, -1, Op.xor.word]).setTy tyInt)
    | .add => do
      let s ← expr fuel .inc s.next
      .ok (s.setTy tyInt)
    | .sub => match s.next.tk.numVal with
      | some ival => .ok ((s.next.emit [Op.imm.word, -ival]).next.setTy tyInt)
      | none => do
        let s ← expr fuel .inc (s.next.emit [Op.imm.word, -1, Op.psh.word])
        .ok ((s.emit [Op.mul.word]).setTy tyInt)
    | .inc => do
      let s ← expr fuel .inc s.next
      if s.endsInLi then .ok (s.pushLi.incStore (incOp .inc))
      else .error "bad lvalue in pre-increment"
    | .dec => do
      let s ← expr fuel .inc s.next
      if s.endsInLi then .ok (s.pushLi.incStore (incOp .dec))
      else .error "bad lvalue in pre-increment"
    | _ => s.operand

/-- The loop over the arguments of a call, up to and with the closing parenthesis. -/
def args : Nat → Nat → St → Except String (St × Nat)
  | 0, _, _ => .error "too deep"
  | fuel+1, t, s =>
    if s.tk = .rparen then .ok (s.next, t)
    else do
      let s ← expr fuel .assign s
      let s := s.emit [Op.psh.word]
      args fuel (t + 1) (if s.tk = .comma then s.next else s)

/-- The `while (tk >= lev)` loop. -/
def climb : Nat → Token → St → Except String St
  | 0, _, _ => .error "too deep"
  | fuel+1, lev, s =>
    if lev.rank ≤ s.tk.rank then do
      let s ← operator fuel s
      climb fuel lev s
    else .ok s

/-- One turn of the loop. -/
def operator : Nat → St → Except String St
  | 0, _ => .error "too deep"
  | fuel+1, s => match s.tk with
    | .assign =>
      if s.endsInLi then do
        let s' ← expr fuel .assign (s.next.dropLi.emit [Op.psh.word])
        .ok ((s'.emit [Op.si.word, word (width s.ty)]).setTy s.ty)
      else .error "bad lvalue in assignment"
    | .cond => do
      let s := s.next.reserve .bz
      let d := s.code.length - 1
      let s ← expr fuel .assign s
      let s ← s.expect .colon "conditional missing colon"
      let s := (s.patch d (s.code.length + 2)).reserve .jmp
      let d := s.code.length - 1
      let s ← expr fuel .cond s
      .ok (s.patch d s.code.length)
    | .lor => do
      let s := s.next.reserve .bnz
      let d := s.code.length - 1
      let s ← expr fuel .lan s
      .ok ((s.patch d s.code.length).setTy tyInt)
    | .lan => do
      let s := s.next.reserve .bz
      let d := s.code.length - 1
      let s ← expr fuel .or s
      .ok ((s.patch d s.code.length).setTy tyInt)
    | .add => do
      let s' ← expr fuel .mul (s.next.emit [Op.psh.word])
      .ok (((s'.scale s.ty).emit [Op.add.word]).setTy s.ty)
    | .sub => do
      let s' ← expr fuel .mul (s.next.emit [Op.psh.word])
      .ok (s'.subtract s.ty)
    | .brak => do
      let s' ← expr fuel .assign (s.next.emit [Op.psh.word])
      let s' ← s'.expect .rbrack "close bracket expected"
      if ptr ≤ s.ty then
        .ok (((s'.scale s.ty).emit
          [Op.add.word, Op.li.word, word (width (s.ty - ptr))]).setTy (s.ty - ptr))
      else .error "pointer type expected"
    | .inc =>
      if s.endsInLi then .ok ((s.pushLi.incStore (incOp .inc)).next.emit
        [Op.psh.word, Op.imm.word, word (incStep s.ty), (undoOp .inc).word])
      else .error "bad lvalue in post-increment"
    | .dec =>
      if s.endsInLi then .ok ((s.pushLi.incStore (incOp .dec)).next.emit
        [Op.psh.word, Op.imm.word, word (incStep s.ty), (undoOp .dec).word])
      else .error "bad lvalue in post-increment"
    | tk => match binary tk with
      | some (lev, op) => do
        let s ← expr fuel lev (s.next.emit [Op.psh.word])
        .ok ((s.emit [op.word]).setTy tyInt)
      | none => .error "compiler error"

end

/-- The `do` loop of `expr_compile` over the expressions between commas. -/
def exprs : Nat → St → Except String St
  | 0, _ => .error "too deep"
  | fuel+1, s => do
    let s ← expr (3 * s.toks.length + 3) .assign s
    if s.tk = .comma then exprs fuel s.next else .ok s

end Parser

section Compile

/-- `struct global_var_declare`. -/
structure GlobalVarDeclare where
  name : List Char
  offset : Nat
  size : Nat
  elementsize : Nat
deriving DecidableEq

/-- The keywords and the library; `value` is the opcode of a function. -/
def builtins : Symtab :=
  [("char".toList, .int 0), ("short".toList, .int tyShort), ("int".toList, .int tyInt),
    ("long".toList, .int 3), ("sizeof".toList, .sizeof),
    ("printf".toList, .id ⟨.sys, tyInt, Op.prtf.word, true⟩),
    ("ksymbol".toList, .id ⟨.sys, 0 ||| ptr, Op.ksym.word, true⟩),
    ("ntohl".toList, .id ⟨.sys, tyInt, Op.nthl.word, true⟩),
    ("ntohs".toList, .id ⟨.sys, tyShort, Op.nths.word, true⟩),
    ("strncmp".toList, .id ⟨.sys, tyInt, Op.strncmp.word, true⟩)]

def elementType : Nat → Option Nat
  | 1 => some 0
  | 2 => some tyShort
  | 4 => some tyInt
  | 8 => some 3
  | _ => none

/-- The declaration of one global variable of the buffer at `data`; the token of a name that is
already there stays as it is. -/
def declareVar (data : Long) (tab : Symtab) (v : GlobalVarDeclare) : Option Symtab := do
  let type ← elementType v.elementsize
  let type := if v.size ≠ v.elementsize then type ||| array else type
  let entry := match tab.find v.name with
    | .int _ => .int type
    | .sizeof => .sizeof
    | .id _ => .id ⟨.glo, type, data + word v.offset, true⟩
  some ((v.name, entry) :: tab)

def symtab (held : List (List Char × Symbol)) (data : Long) (declare : List GlobalVarDeclare) :
    Option Symtab :=
  (declare.foldlM (declareVar data) builtins).map (Symtab.enter · held)

/-- The buffer grows by 256 until it holds every variable; without one there is none. -/
def datasize (declare : List GlobalVarDeclare) : Nat :=
  match (declare.map fun v => v.offset + v.size).foldl max 0 with
  | 0 => 0
  | max_offset => 256 * ((max_offset + 255) / 256)

structure Prog where
  insn : List Long
  datasize : Nat
deriving DecidableEq

/-- `expr_compile` with the buffers at `data` and `str`, and with what the memory holds where the
table grows beyond its first 16 entries; word 0 of the code is not used. -/
def exprCompile (held : List (List Char × Symbol)) (data str : Long) (text : List Char)
    (declare : List GlobalVarDeclare) : Except String Prog :=
  match symtab held data declare with
  | none => .error "elementsize"
  | some tab => do
    let toks := tokens tab str (text.length + 1) ⟨text, 0, 0⟩
    let s ← exprs (toks.length + 1) ⟨toks, ⟨[0], []⟩, 0⟩
    .ok ⟨(s.emit [Op.exit.word]).code, datasize declare⟩

end Compile

end PerfProf.Expr
