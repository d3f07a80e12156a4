import PerfProf.ExprTree

/-! `expr` as two passes: building the tree of the tokens, and emitting the words of the tree. The
one-pass parser accepts what both accept and emits the same words. -/
namespace PerfProf.Expr

section Build

def strVals : List Token → List Long
  | .str v :: rest => v :: strVals rest
  | _ => []

/-- The stars and the closing parenthesis after a type name. -/
def parseType (ts : List Token) : Option (Nat × List Token) :=
  match ts.dropWhile (· = .mul) with
  | .rparen :: rest => some ((ts.takeWhile (· = .mul)).length, rest)
  | _ => none

def binOf : Token → Option BinOp
  | .mul => some .mul | .div => some .div | .mod => some .mod | .add => some .add
  | .sub => some .sub | .shl => some .shl | .shr => some .shr | .lt => some .lt | .le => some .le
  | .gt => some .gt | .ge => some .ge | .eq => some .eq | .ne => some .ne | .and => some .and
  | .xor => some .xor | .or => some .or
  | _ => none

/-- The level at which the right operand is read. -/
def BinOp.operand : BinOp → Token
  | .mul | .div | .mod => .inc
  | .add | .sub => .mul
  | .shl | .shr => .add
  | .lt | .le | .gt | .ge => .shl
  | .eq | .ne => .lt
  | .and => .eq
  | .xor => .and
  | .or => .xor

def closed (tk : Token) (ts : List Token) : Option (List Token) :=
  if ts.headD .eof = tk then some ts.tail else none

def parseOperand (ts : List Token) : Option (Exp × List Token) :=
  match ts.headD .eof with
  | .num v => some (.num v, ts.tail)
  | .str v => some (.str v (strVals ts.tail), ts.dropWhile St.isStr)
  | .sizeof => do
    let ts ← closed .lparen ts.tail
    let type ← (ts.headD .eof).intType
    let (n, ts) ← parseType ts.tail
    some (.sizeof type n, ts)
  | _ => none

mutual

def parse : Nat → Token → List Token → Option (Exp × List Token)
  | 0, _, _ => none
  | fuel+1, lev, ts => do
    let (e, ts) ← parsePrimary fuel ts
    parseClimb fuel lev e ts

def parsePrimary : Nat → List Token → Option (Exp × List Token)
  | 0, _ => none
  | fuel+1, ts => match ts.headD .eof with
    | .id s =>
      if ts.tail.headD .eof = .lparen then do
        let (as, ts) ← parseArgs fuel ts.tail.tail
        some (.call s as, ts)
      else some (.var s, ts.tail)
    | .lparen => match (ts.tail.headD .eof).intType with
      | some type => do
        let (n, ts) ← parseType ts.tail.tail
        let (e, ts) ← parse fuel .inc ts
        some (.cast type n e, ts)
      | none => do
        let (e, ts) ← parse fuel .assign ts.tail
        let ts ← closed .rparen ts
        some (.paren e, ts)
    | .mul => do
      let (e, ts) ← parse fuel .inc ts.tail
      some (.deref e, ts)
    | .and => do
      let (e, ts) ← parse fuel .inc ts.tail
      some (.addr e, ts)
    | .bang => do
      let (e, ts) ← parse fuel .inc ts.tail
      some (.un .not e, ts)
    | .tilde => do
      let (e, ts) ← parse fuel .inc ts.tail
      some (.un .compl e, ts)
    | .add => do
      let (e, ts) ← parse fuel .inc ts.tail
      some (.un .plus e, ts)
    | .sub => match (ts.tail.headD .eof).numVal with
      | some v => some (.negNum v, ts.tail.tail)
      | none => do
        let (e, ts) ← parse fuel .inc ts.tail
        some (.un .minus e, ts)
    | .inc => do
      let (e, ts) ← parse fuel .inc ts.tail
      some (.pre true e, ts)
    | .dec => do
      let (e, ts) ← parse fuel .inc ts.tail
      some (.pre false e, ts)
    | _ => parseOperand ts

def parseArgs : Nat → List Token → Option (Args × List Token)
  | 0, _ => none
  | fuel+1, ts =>
    if ts.headD .eof = .rparen then some (.nil, ts.tail)
    else do
      let (e, ts) ← parse fuel .assign ts
      let comma := decide (ts.headD .eof = .comma)
      let (as, ts) ← parseArgs fuel (if comma then ts.tail else ts)
      some (.cons e comma as, ts)

def parseClimb : Nat → Token → Exp → List Token → Option (Exp × List Token)
  | 0, _, _, _ => none
  | fuel+1, lev, l, ts =>
    if lev.rank ≤ (ts.headD .eof).rank then do
      let (e, ts) ← parseOperator fuel l ts
      parseClimb fuel lev e ts
    else some (l, ts)

/-- The tree with `l` as the left operand of the operator that comes next. -/
def parseOperator : Nat → Exp → List Token → Option (Exp × List Token)
  | 0, _, _ => none
  | fuel+1, l, ts => match ts.headD .eof with
    | .assign => do
      let (r, ts) ← parse fuel .assign ts.tail
      some (.assign l r, ts)
    | .cond => do
      let (t, ts) ← parse fuel .assign ts.tail
      let ts ← closed .colon ts
      let (f, ts) ← parse fuel .cond ts
      some (.cond l t f, ts)
    | .lor => do
      let (r, ts) ← parse fuel .lan ts.tail
      some (.lor l r, ts)
    | .lan => do
      let (r, ts) ← parse fuel .or ts.tail
      some (.land l r, ts)
    | .brak => do
      let (i, ts) ← parse fuel .assign ts.tail
      let ts ← closed .rbrack ts
      some (.index l i, ts)
    | .inc => some (.post true l, ts.tail)
    | .dec => some (.post false l, ts.tail)
    | tk => do
      let op ← binOf tk
      let (r, ts) ← parse fuel op.operand ts.tail
      some (.bin op l r, ts)

end

end Build

section Emit

def incWords (inc : Bool) (ty : Nat) : List Long :=
  [Op.psh.word, Op.imm.word, word (incStep ty), (if inc then Op.add else Op.sub).word, Op.si.word,
    word (width ty)]

def undoWords (inc : Bool) (ty : Nat) : List Long :=
  [Op.psh.word, Op.imm.word, word (incStep ty), (if inc then Op.sub else Op.add).word]

def scaleWords (t : Nat) : List Long :=
  if ptr < t then [Op.psh.word, Op.imm.word, word (stride t), Op.mul.word] else []

/-- What follows the right operand of a binary operator. -/
def BinOp.words (op : BinOp) (tl tr : Nat) : List Long :=
  match op with
  | .add => scaleWords tl ++ [Op.add.word]
  | .sub => if ptr < tl ∧ tl = tr then
      [Op.sub.word, Op.psh.word, Op.imm.word, word (stride tl), Op.div.word]
    else scaleWords tl ++ [Op.sub.word]
  | op => [op.op.word]

/-- A branch over the words of `f`, whose target is patched in. -/
def branch (op : Op) (f : Buf → Option Buf) (c : Buf) : Option Buf :=
  (f (c.reserve op)).map fun c' => c'.patch (c.code.length + 1) c'.code.length

mutual

/-- The words after those of `c`, if every check of `expr` passes. -/
def Exp.gen : Exp → Buf → Option Buf
  | .num v, c => some (c.emit [Op.imm.word, v])
  | .negNum v, c => some (c.emit [Op.imm.word, -v])
  | .str v _, c => some (c.emit [Op.imm.word, v])
  | .var s, c =>
    if s.cls = .num then some (c.emit [Op.imm.word, s.value])
    else (St.address s).map fun ws =>
      c.emit (ws ++ if s.isArray then [] else [Op.li.word, word (width s.type)])
  | .sizeof type n, c => some (c.emit [Op.imm.word, word (width (type + n * ptr))])
  | .call s as, c => do
    let c ← as.gen c
    (St.callee s).map fun ws =>
      c.emit (ws ++ if as.count ≠ 0 then [Op.adj.word, word as.count] else [])
  | .paren e, c => e.gen c
  | .index e i, c => do
    let c ← e.gen c
    let c ← i.gen (c.emit [Op.psh.word])
    if ptr ≤ e.type then
      some (c.emit (scaleWords e.type ++ [Op.add.word, Op.li.word, word (width (e.type - ptr))]))
    else none
  | .post inc e, c => do
    let c ← e.gen c
    if c.endsLi then some (c.pushLi.emit (incWords inc e.type ++ undoWords inc e.type)) else none
  | .un op e, c => match op with
    | .plus => e.gen c
    | .minus => (e.gen (c.emit [Op.imm.word, -1, Op.psh.word])).map (·.emit [Op.mul.word])
    | .not => (e.gen c).map (·.emit [Op.psh.word, Op.imm.word, 0, Op.eq.word])
    | .compl => (e.gen c).map (·.emit [Op.psh.word, Op.imm.word, -1, Op.xor.word])
  | .deref e, c => do
    let c ← e.gen c
    if ptr ≤ e.type then some (c.emit [Op.li.word, word (width (e.type - ptr))]) else none
  | .addr e, c => do
    let c ← e.gen c
    if c.endsLi then some c.dropLi else none
  | .pre inc e, c => do
    let c ← e.gen c
    if c.endsLi then some (c.pushLi.emit (incWords inc e.type)) else none
  | .cast _ _ e, c => e.gen c
  | .bin op l r, c => do
    let c ← l.gen c
    let c ← r.gen (c.emit [Op.psh.word])
    some (c.emit (op.words l.type r.type))
  | .land l r, c => do
    let c ← l.gen c
    branch .bz r.gen c
  | .lor l r, c => do
    let c ← l.gen c
    branch .bnz r.gen c
  | .cond b t f, c => do
    let c ← b.gen c
    let c' ← t.gen (c.reserve .bz)
    branch .jmp f.gen (c'.patch (c.code.length + 1) (c'.code.length + 2))
  | .assign l r, c => do
    let c ← l.gen c
    if c.endsLi then
      (r.gen (c.dropLi.emit [Op.psh.word])).map (·.emit [Op.si.word, word (width l.type)])
    else none

def Args.gen : Args → Buf → Option Buf
  | .nil, c => some c
  | .cons e _ rest, c => do
    let c ← e.gen c
    rest.gen (c.emit [Op.psh.word])

end

end Emit

section TwoPass
open St

attribute [local simp] Exp.gen Exp.type

theorem Buf.emit_emit (b : Buf) (ws vs : List Long) : (b.emit ws).emit vs = b.emit (ws ++ vs) := by
  simp [Buf.emit]

theorem toOption_bind {α β : Type} (x : Except String α) (f : α → Except String β) :
    (x >>= f).toOption = x.toOption.bind fun a => (f a).toOption := by
  cases x <;> rfl

/-- Words for the tree that was built. -/
def emitted (c : Buf) (r : Option (Exp × List Token)) : Option St :=
  r.bind fun et => (et.1.gen c).map fun c' => ⟨et.2, c', et.1.type⟩

/-- `expr` and the functions it calls, up to a depth. -/
structure TwoPass (fuel : Nat) : Prop where
  expr : ∀ lev ts c ty, (expr fuel lev ⟨ts, c, ty⟩).toOption = emitted c (parse fuel lev ts)
  primary : ∀ ts c ty, (primary fuel ⟨ts, c, ty⟩).toOption = emitted c (parsePrimary fuel ts)
  args : ∀ t ts c ty,
    (args fuel t ⟨ts, c, ty⟩).toOption.map (fun r => (r.1.toks, r.1.buf, r.2)) =
      (parseArgs fuel ts).bind fun r => (r.1.gen c).map fun c' => (r.2, c', t + r.1.count)
  climb : ∀ lev l ts c, emitted c (parseClimb fuel lev l ts) =
    (l.gen c).bind fun c' => (climb fuel lev ⟨ts, c', l.type⟩).toOption
  operator : ∀ l ts c, emitted c (parseOperator fuel l ts) =
    (l.gen c).bind fun c' => (operator fuel ⟨ts, c', l.type⟩).toOption

/-- A call of `expr` and what is done with its result. -/
theorem TwoPass.andThen {fuel : Nat} (h : TwoPass fuel) (lev : Token) (ts : List Token)
    {c c₁ : Buf} {ty : Nat} {f : St → Except String St}
    {g : Exp × List Token → Option (Exp × List Token)}
    (hg : ∀ e ts', emitted c (g (e, ts')) =
      (e.gen c₁).bind fun c' => (f ⟨ts', c', e.type⟩).toOption) :
    (PerfProf.Expr.expr fuel lev ⟨ts, c₁, ty⟩ >>= f).toOption =
      emitted c (parse fuel lev ts >>= g) := by
  rw [toOption_bind, h.expr]
  cases parse fuel lev ts with
  | none => rfl
  | some r =>
    obtain ⟨e, ts'⟩ := r
    rw [Option.bind_eq_bind, Option.bind_some, hg]
    cases hgen : e.gen c₁ with
    | none => simp [emitted, hgen]
    | some c' => simp [emitted, hgen]

theorem toOption_ite {α : Type} {p : Prop} [Decidable p] (x y : Except String α) :
    (if p then x else y).toOption = if p then x.toOption else y.toOption := by
  split <;> rfl

theorem toOption_ok {α : Type} (a : α) : (Except.ok a : Except String α).toOption = some a := rfl

theorem ok_of_toOption {α : Type} {x : Except String α} {a : α} (h : x.toOption = some a) :
    x = .ok a := by
  cases x with
  | ok b => exact congrArg Except.ok (Option.some.inj h)
  | error m => cases h

theorem toOption_error {α : Type} (m : String) : (Except.error m : Except String α).toOption = none :=
  rfl

theorem emitted_some (c : Buf) (e : Exp) (ts : List Token) :
    emitted c (some (e, ts)) = (e.gen c).map fun c' => ⟨ts, c', e.type⟩ := rfl

theorem expect_toOption (ts : List Token) (c : Buf) (ty : Nat) (tk : Token) (msg : String) :
    (expect ⟨ts, c, ty⟩ tk msg).toOption = (closed tk ts).map fun ts' => ⟨ts', c, ty⟩ := by
  unfold expect closed
  by_cases h : St.tk ⟨ts, c, ty⟩ = tk
  · have h' : ts.headD .eof = tk := h
    rw [if_pos h, if_pos h']
    rfl
  · have h' : ¬ ts.headD .eof = tk := h
    rw [if_neg h, if_neg h']
    rfl

theorem stars_eq (ty : Nat) (ts : List Token) :
    stars ty ts =
      (ty + (ts.takeWhile (· = .mul)).length * ptr, ts.dropWhile (· = .mul)) := by
  induction ts generalizing ty with
  | nil => simp [stars]
  | cons tk ts ih =>
    by_cases htk : tk = .mul
    · subst htk
      rw [stars, ih]
      simp [Nat.add_mul, Nat.add_assoc, Nat.add_comm, ptr]
    · rw [stars]
      · simp [htk]
      · intro rest he
        cases he
        exact htk rfl

theorem typeName_toOption (ts : List Token) (c : Buf) (ty type : Nat) (msg : String) :
    (typeName ⟨ts, c, ty⟩ type msg).toOption =
      (parseType ts.tail).map fun r => (⟨r.2, c, ty⟩, type + r.1 * ptr) := by
  unfold typeName parseType
  simp only [stars_eq, St.next, expect, St.tk]
  cases hd : ts.tail.dropWhile (· = .mul) with
  | nil => rfl
  | cons tk rest =>
    cases tk <;> rfl

theorem operand_toOption (ts : List Token) (c : Buf) (ty : Nat) :
    (operand ⟨ts, c, ty⟩).toOption = emitted c (parseOperand ts) := by
  obtain ⟨tk, htk⟩ : ∃ tk, ts.headD .eof = tk := ⟨_, rfl⟩
  have hs : St.tk ⟨ts, c, ty⟩ = tk := htk
  rw [operand, parseOperand, hs, htk]
  cases tk with
  | num v => rfl
  | str v => rfl
  | sizeof =>
    dsimp only
    unfold sizeofExpr
    rw [toOption_bind]
    have hexp : expect (St.next ⟨ts, c, ty⟩) .lparen "open paren expected in sizeof" =
      expect ⟨ts.tail, c, ty⟩ .lparen "open paren expected in sizeof" := rfl
    rw [hexp, expect_toOption]
    cases closed .lparen ts.tail with
    | none => rfl
    | some ts₁ =>
      simp only [Option.map_some, Option.bind_some, Option.bind_eq_bind]
      have htk₁ : St.tk ⟨ts₁, c, ty⟩ = ts₁.headD .eof := rfl
      rw [htk₁]
      cases (ts₁.headD .eof).intType with
      | none => rfl
      | some type =>
        dsimp only
        rw [toOption_bind, typeName_toOption]
        cases parseType ts₁.tail with
        | none => rfl
        | some r => rfl
  | _ => rfl

/-- The call of a function with the arguments that were read. -/
theorem call_toOption (ts : List Token) (c : Buf) (ty t : Nat) (sym : Symbol) :
    (call ⟨ts, c, ty⟩ sym t).toOption = (callee sym).map fun ws =>
      ⟨ts, c.emit (ws ++ if t ≠ 0 then [Op.adj.word, word t] else []), sym.type⟩ := by
  unfold call
  cases callee sym with
  | none => rfl
  | some ws =>
    by_cases ht : t ≠ 0
    · simp [ht, emit, setTy, Except.toOption, Buf.emit_emit]
    · simp [ht, emit, setTy, Except.toOption]

theorem ident_toOption (ts : List Token) (c : Buf) (ty : Nat) (sym : Symbol) :
    (ident ⟨ts, c, ty⟩ sym).toOption = emitted c (some (.var sym, ts)) := by
  unfold ident
  rw [emitted_some, Exp.gen, Exp.type]
  by_cases hnum : sym.cls = .num
  · rw [if_pos hnum, if_pos hnum, if_pos hnum]
    rfl
  · rw [if_neg hnum, if_neg hnum, if_neg hnum]
    cases address sym with
    | none => rfl
    | some ws =>
      by_cases ha : sym.type &&& array ≠ 0
      · simp [Symbol.isArray, ha, emit, setTy, Except.toOption]
      · simp [Symbol.isArray, ha, emit, setTy, Except.toOption, Buf.emit_emit]

section Prefix
variable {fuel : Nat} (ts : List Token) (c : Buf) (ty : Nat)

/-- A call, from the parenthesis on. -/
theorem TwoPass.call_step (h : TwoPass fuel) (sym : Symbol) :
    (PerfProf.Expr.args fuel 0 ⟨ts, c, ty⟩ >>= fun r => call r.1 sym r.2).toOption =
      emitted c (parseArgs fuel ts >>= fun r => some (.call sym r.1, r.2)) := by
  have hargs := h.args 0 ts c ty
  rw [toOption_bind]
  cases hr : parseArgs fuel ts with
  | none =>
    rw [hr] at hargs
    rw [Option.map_eq_none_iff.mp hargs]
    rfl
  | some r =>
    obtain ⟨as, ts'⟩ := r
    rw [hr] at hargs
    simp only [Option.bind_some, Nat.zero_add] at hargs
    simp only [Option.bind_some, Option.bind_eq_bind, emitted_some, Exp.gen, Exp.type]
    cases hg : as.gen c with
    | none =>
      rw [hg] at hargs
      rw [Option.map_eq_none_iff.mp hargs]
      rfl
    | some c' =>
      rw [hg, Option.map_some] at hargs
      obtain ⟨⟨⟨ts₁, c₁, ty₁⟩, t₁⟩, ha, hb⟩ := Option.map_eq_some_iff.mp hargs
      cases hb
      rw [ha]
      simp only [Option.bind_some, call_toOption]
      cases callee sym <;> rfl

theorem TwoPass.paren_step (h : TwoPass fuel) :
    (PerfProf.Expr.expr fuel .assign ⟨ts, c, ty⟩ >>= fun s =>
      s.expect .rparen "close paren expected").toOption =
      emitted c (parse fuel .assign ts >>= fun r => closed .rparen r.2 >>= fun ts' =>
        some (.paren r.1, ts')) := by
  refine h.andThen .assign ts fun e ts' => ?_
  rw [Option.bind_eq_bind]
  cases hc : closed .rparen ts' with
  | none =>
    simp only [expect_toOption, hc]
    cases e.gen c <;> rfl
  | some ts₁ =>
    simp only [Option.bind_some, emitted_some, expect_toOption, hc]
    rw [Exp.gen, Exp.type]
    cases e.gen c <;> rfl

theorem TwoPass.cast_step (h : TwoPass fuel) (type : Nat) :
    (typeName ⟨ts, c, ty⟩ type "bad cast" >>= fun r =>
      PerfProf.Expr.expr fuel .inc r.1 >>= fun s => .ok (s.setTy r.2)).toOption =
      emitted c (parseType ts.tail >>= fun r => parse fuel .inc r.2 >>= fun r' =>
        some (.cast type r.1 r'.1, r'.2)) := by
  rw [toOption_bind, typeName_toOption]
  cases parseType ts.tail with
  | none => rfl
  | some r =>
    obtain ⟨n, ts₁⟩ := r
    rw [Option.map_some, Option.bind_some, Option.bind_eq_bind, Option.bind_some]
    dsimp only
    refine h.andThen .inc ts₁ fun e ts' => ?_
    rw [emitted_some, Exp.gen, Exp.type]
    cases e.gen c <;> rfl

theorem TwoPass.deref_step (h : TwoPass fuel) :
    (PerfProf.Expr.expr fuel .inc ⟨ts, c, ty⟩ >>= fun s =>
      if ptr ≤ s.ty then .ok ((s.emit [Op.li.word, word (width (s.ty - ptr))]).setTy (s.ty - ptr))
      else .error "bad dereference").toOption =
      emitted c (parse fuel .inc ts >>= fun r => some (.deref r.1, r.2)) := by
  refine h.andThen .inc ts fun e ts' => ?_
  rw [emitted_some, Exp.gen, Exp.type]
  cases e.gen c with
  | none => rfl
  | some c' =>
    simp only [Option.bind_some, Option.bind_eq_bind, toOption_ite, toOption_ok, toOption_error]
    split <;> rfl

theorem TwoPass.addr_step (h : TwoPass fuel) :
    (PerfProf.Expr.expr fuel .inc ⟨ts, c, ty⟩ >>= fun s =>
      if s.endsInLi then .ok (s.dropLi.setTy (s.ty + ptr)) else .error "bad address-of").toOption =
      emitted c (parse fuel .inc ts >>= fun r => some (.addr r.1, r.2)) := by
  refine h.andThen .inc ts fun e ts' => ?_
  rw [emitted_some, Exp.gen, Exp.type]
  cases e.gen c with
  | none => rfl
  | some c' =>
    have hli : endsInLi ⟨ts', c', e.type⟩ = c'.endsLi := rfl
    simp only [Option.bind_some, Option.bind_eq_bind, toOption_ite, toOption_ok, toOption_error, hli]
    split <;> rfl

theorem TwoPass.pre_step (h : TwoPass fuel) (inc : Bool) :
    (PerfProf.Expr.expr fuel .inc ⟨ts, c, ty⟩ >>= fun s =>
      if s.endsInLi then .ok (s.pushLi.incStore (incOp (incToken inc)))
      else .error "bad lvalue in pre-increment").toOption =
      emitted c (parse fuel .inc ts >>= fun r => some (.pre inc r.1, r.2)) := by
  refine h.andThen .inc ts fun e ts' => ?_
  rw [emitted_some, Exp.gen, Exp.type]
  cases e.gen c with
  | none => rfl
  | some c' =>
    have hli : endsInLi ⟨ts', c', e.type⟩ = c'.endsLi := rfl
    simp only [Option.bind_some, Option.bind_eq_bind, toOption_ite, toOption_ok, toOption_error, hli]
    cases inc <;> split <;> rfl

/-- A unary operator whose words come after those of the operand. -/
theorem TwoPass.un_step (h : TwoPass fuel) (op : UnOp) {f : St → Except String St} (hop : op ≠ .minus)
    (hf : ∀ e ts' c', e.gen c = some c' →
      (f ⟨ts', c', e.type⟩).toOption = ((Exp.un op e).gen c).map fun c' => ⟨ts', c', tyInt⟩) :
    (PerfProf.Expr.expr fuel .inc ⟨ts, c, ty⟩ >>= f).toOption =
      emitted c (parse fuel .inc ts >>= fun r => some (.un op r.1, r.2)) := by
  refine h.andThen .inc ts fun e ts' => ?_
  rw [emitted_some, Exp.type]
  cases he : e.gen c with
  | none => cases op <;> first | exact absurd rfl hop | simp [he]
  | some c' => exact (hf e ts' c' he).symm

theorem TwoPass.minus_step (h : TwoPass fuel) :
    (PerfProf.Expr.expr fuel .inc ⟨ts, c.emit [Op.imm.word, -1, Op.psh.word], ty⟩ >>= fun s =>
      .ok ((s.emit [Op.mul.word]).setTy tyInt)).toOption =
      emitted c (parse fuel .inc ts >>= fun r => some (.un .minus r.1, r.2)) := by
  refine h.andThen .inc ts fun e ts' => ?_
  rw [emitted_some, Exp.gen, Exp.type]
  cases e.gen (c.emit [Op.imm.word, -1, Op.psh.word]) <;> rfl

theorem TwoPass.primary_succ (h : TwoPass fuel) :
    (PerfProf.Expr.primary (fuel+1) ⟨ts, c, ty⟩).toOption = emitted c (parsePrimary (fuel+1) ts) := by
  obtain ⟨tk, htk⟩ : ∃ tk, ts.headD .eof = tk := ⟨_, rfl⟩
  have hs : St.tk ⟨ts, c, ty⟩ = tk := htk
  have htail : St.tk (St.next ⟨ts, c, ty⟩) = ts.tail.headD .eof := rfl
  rw [PerfProf.Expr.primary, parsePrimary, hs, htk]
  cases tk with
  | eof =>
    dsimp only
    rw [parseOperand, htk]
    rfl
  | id sym =>
    dsimp only
    by_cases hl : ts.tail.headD .eof = .lparen
    · rw [if_pos (htail.trans hl), if_pos hl]
      exact h.call_step ts.tail.tail c ty sym
    · have hl' : ¬ St.tk (St.next ⟨ts, c, ty⟩) = .lparen := hl
      rw [if_neg hl', if_neg hl]
      exact ident_toOption ts.tail c ty sym
  | lparen =>
    dsimp only
    rw [htail]
    cases (ts.tail.headD .eof).intType with
    | none => exact h.paren_step ts.tail c ty
    | some type => exact h.cast_step ts.tail c ty type
  | mul => exact h.deref_step ts.tail c ty
  | and => exact h.addr_step ts.tail c ty
  | bang => exact h.un_step ts.tail c ty .not nofun fun e ts' c' he => by simp [he]; rfl
  | tilde => exact h.un_step ts.tail c ty .compl nofun fun e ts' c' he => by simp [he]; rfl
  | add => exact h.un_step ts.tail c ty .plus nofun fun e ts' c' he => by simp [he]; rfl
  | sub =>
    dsimp only
    rw [htail]
    cases (ts.tail.headD .eof).numVal with
    | some v => rfl
    | none => exact h.minus_step ts.tail c ty
  | inc => exact h.pre_step ts.tail c ty true
  | dec => exact h.pre_step ts.tail c ty false
  | _ => exact operand_toOption ts c ty

end Prefix

theorem emitted_bind_none {α : Type} {c : Buf} {x : Option α}
    {g : α → Option (Exp × List Token)} (h : ∀ a, emitted c (g a) = none) :
    emitted c (x >>= g) = none := by
  cases x with
  | none => rfl
  | some a => exact h a

/-- Without words for the left operand there are none for the operator. -/
theorem parseOperator_none {fuel : Nat} {l : Exp} {ts : List Token} {c : Buf}
    (hl : l.gen c = none) : emitted c (parseOperator (fuel+1) l ts) = none := by
  rw [parseOperator]
  split
  · exact emitted_bind_none fun r => by simp [emitted_some, hl]
  · refine emitted_bind_none fun r => emitted_bind_none fun ts' => emitted_bind_none fun r' => ?_
    simp [emitted_some, hl]
  · exact emitted_bind_none fun r => by simp [emitted_some, hl]
  · exact emitted_bind_none fun r => by simp [emitted_some, hl]
  · refine emitted_bind_none fun r => emitted_bind_none fun ts' => ?_
    simp [emitted_some, hl]
  · simp [emitted_some, hl]
  · simp [emitted_some, hl]
  · refine emitted_bind_none fun op => emitted_bind_none fun r => ?_
    simp [emitted_some, hl]

/-- The branches for the binary operators. -/
theorem TwoPass.binary_step {fuel : Nat} (h : TwoPass fuel) (op : BinOp) {l : Exp}
    (ts : List Token) {c c' : Buf} (hl : l.gen c = some c') {f : St → Except String St}
    (hf : ∀ e ts₁ c₁, (f ⟨ts₁, c₁, e.type⟩).toOption =
      some ⟨ts₁, c₁.emit (op.words l.type e.type), (Exp.bin op l e).type⟩) :
    emitted c (parse fuel op.operand ts.tail >>= fun r => some (Exp.bin op l r.1, r.2)) =
      (PerfProf.Expr.expr fuel op.operand ⟨ts.tail, c'.emit [Op.psh.word], l.type⟩ >>= f).toOption := by
  refine (h.andThen op.operand ts.tail fun e ts' => ?_).symm
  rw [emitted_some, Exp.gen, hl]
  simp only [Option.bind_eq_bind, Option.bind_some, hf]
  cases e.gen (c'.emit [Op.psh.word]) <;> rfl

theorem TwoPass.simple_step {fuel : Nat} (h : TwoPass fuel) (op : BinOp) {l : Exp}
    (ts : List Token) {c c' : Buf} (hl : l.gen c = some c')
    (hop : op ≠ .add ∧ op ≠ .sub) :
    emitted c (parse fuel op.operand ts.tail >>= fun r => some (Exp.bin op l r.1, r.2)) =
      (PerfProf.Expr.expr fuel op.operand ⟨ts.tail, c'.emit [Op.psh.word], l.type⟩ >>= fun s =>
        .ok ((s.emit [op.op.word]).setTy tyInt)).toOption := by
  refine h.binary_step op ts hl fun e ts₁ c₁ => ?_
  cases op <;> first | rfl | exact absurd rfl hop.1 | exact absurd rfl hop.2

/-- The words of `scale` before others. -/
theorem emit_scale (s : St) (t : Nat) (ws : List Long) :
    (s.scale t).emit ws = s.emit (scaleWords t ++ ws) := by
  unfold St.scale scaleWords
  split
  · exact congrArg (fun b => { s with buf := b }) (Buf.emit_emit ..)
  · rfl

theorem length_branch (c : Buf) (op : Op) : (c.reserve op).code.length - 1 = c.code.length + 1 := by
  simp [Buf.reserve, Buf.emit]

/-- The branches for `||` and `&&`. -/
theorem TwoPass.branch_step {fuel : Nat} (h : TwoPass fuel) (lev : Token) (op : Op) {l : Exp}
    {g : Exp → Exp} (ts : List Token) {c c' : Buf}
    (hg : ∀ e, (g e).gen c = branch op e.gen c' ∧ (g e).type = tyInt) :
    emitted c (parse fuel lev ts.tail >>= fun r => some (g r.1, r.2)) =
      (PerfProf.Expr.expr fuel lev ⟨ts.tail, c'.reserve op, l.type⟩ >>= fun s =>
        .ok ((s.patch ((c'.reserve op).code.length - 1) s.code.length).setTy tyInt)).toOption := by
  refine (h.andThen lev ts.tail fun e ts' => ?_).symm
  rw [emitted_some, (hg e).1, (hg e).2, branch, length_branch]
  cases e.gen (c'.reserve op) <;> rfl

section Operator
variable {fuel : Nat} {l : Exp} (ts : List Token) {c c' : Buf}

theorem TwoPass.assign_step (h : TwoPass fuel) (hl : l.gen c = some c') :
    emitted c (parse fuel .assign ts >>= fun r => some (.assign l r.1, r.2)) =
      (if c'.endsLi then
        PerfProf.Expr.expr fuel .assign ⟨ts, c'.dropLi.emit [Op.psh.word], l.type⟩ >>= fun s =>
          .ok ((s.emit [Op.si.word, word (width l.type)]).setTy l.type)
      else .error "bad lvalue in assignment").toOption := by
  cases hend : c'.endsLi with
  | false =>
    refine emitted_bind_none fun r => ?_
    simp [emitted_some, hl, hend]
  | true =>
    rw [if_pos rfl]
    refine (h.andThen .assign ts fun e ts' => ?_).symm
    rw [emitted_some, Exp.gen, hl, Option.bind_eq_bind, Option.bind_some, hend, if_pos rfl]
    cases e.gen (c'.dropLi.emit [Op.psh.word]) <;> rfl

theorem post_step (hl : l.gen c = some c') (inc : Bool) :
    emitted c (some (.post inc l, ts.tail)) =
      (if c'.endsLi then .ok (((St.pushLi ⟨ts, c', l.type⟩).incStore (incOp (incToken inc))).next.emit
        [Op.psh.word, Op.imm.word, word (incStep l.type), (undoOp (incToken inc)).word])
      else .error "bad lvalue in post-increment" : Except String St).toOption := by
  rw [emitted_some, Exp.gen, hl, Option.bind_eq_bind, Option.bind_some, toOption_ite]
  split
  · rw [Option.map_some, toOption_ok, ← Buf.emit_emit]
    cases inc <;> rfl
  · rfl

theorem TwoPass.cond_step (h : TwoPass fuel) (hl : l.gen c = some c') :
    emitted c (parse fuel .assign ts >>= fun r => closed .colon r.2 >>= fun ts =>
      parse fuel .cond ts >>= fun r' => some (.cond l r.1 r'.1, r'.2)) =
      (PerfProf.Expr.expr fuel .assign ⟨ts, c'.reserve .bz, l.type⟩ >>= fun s =>
        s.expect .colon "conditional missing colon" >>= fun s =>
          PerfProf.Expr.expr fuel .cond ((s.patch ((c'.reserve .bz).code.length - 1)
            (s.code.length + 2)).reserve .jmp) >>= fun s' =>
              .ok (s'.patch (((s.patch ((c'.reserve .bz).code.length - 1)
                (s.code.length + 2)).reserve .jmp).code.length - 1) s'.code.length)).toOption := by
  refine (h.andThen .assign ts fun t ts₁ => ?_).symm
  cases ht : t.gen (c'.reserve .bz) with
  | none =>
    refine emitted_bind_none fun ts₂ => emitted_bind_none fun r => ?_
    rw [emitted_some, Exp.gen, hl, Option.bind_eq_bind, Option.bind_some, ht]
    rfl
  | some c₁ =>
    rw [Option.bind_some, toOption_bind, expect_toOption]
    dsimp only
    cases closed .colon ts₁ with
    | none => rfl
    | some ts₂ =>
      rw [Option.map_some, Option.bind_some, Option.bind_eq_bind, Option.bind_some, length_branch]
      refine (h.andThen .cond ts₂ fun e ts₃ => ?_).symm
      have hlen : ((St.patch ⟨ts₂, c₁, t.type⟩ (c'.code.length + 1) (c₁.code.length + 2)).reserve
          .jmp).code.length - 1 = (c₁.patch (c'.code.length + 1) (c₁.code.length + 2)).code.length + 1 :=
        length_branch _ .jmp
      have hcode : (St.mk ts₂ c₁ t.type).code = c₁.code := rfl
      have hbuf : (St.patch ⟨ts₂, c₁, t.type⟩ (c'.code.length + 1) (c₁.code.length + 2)).buf =
        c₁.patch (c'.code.length + 1) (c₁.code.length + 2) := rfl
      rw [emitted_some, Exp.gen, hl, Option.bind_eq_bind, Option.bind_some, ht, Option.bind_some,
        branch, hcode, hlen, hbuf]
      cases e.gen ((c₁.patch (c'.code.length + 1) (c₁.code.length + 2)).reserve .jmp) <;> rfl

theorem TwoPass.index_step (h : TwoPass fuel) (hl : l.gen c = some c') :
    emitted c (parse fuel .assign ts >>= fun r => closed .rbrack r.2 >>= fun ts =>
      some (.index l r.1, ts)) =
      (PerfProf.Expr.expr fuel .assign ⟨ts, c'.emit [Op.psh.word], l.type⟩ >>= fun s =>
        s.expect .rbrack "close bracket expected" >>= fun s =>
          if ptr ≤ l.type then .ok (((s.scale l.type).emit
            [Op.add.word, Op.li.word, word (width (l.type - ptr))]).setTy (l.type - ptr))
          else .error "pointer type expected").toOption := by
  refine (h.andThen .assign ts fun e ts₁ => ?_).symm
  cases he : e.gen (c'.emit [Op.psh.word]) with
  | none =>
    refine emitted_bind_none fun ts₂ => ?_
    simp [emitted_some, hl, he]
  | some c₁ =>
    rw [Option.bind_some, toOption_bind, expect_toOption]
    dsimp only
    cases closed .rbrack ts₁ with
    | none => rfl
    | some ts₂ =>
      rw [Option.map_some, Option.bind_some, Option.bind_eq_bind, Option.bind_some,
        emitted_some, Exp.gen, hl, Option.bind_eq_bind, Option.bind_some, he,
        Option.bind_some, toOption_ite]
      split
      · rw [Option.map_some, toOption_ok, emit_scale]
        rfl
      · rfl

theorem TwoPass.add_step (h : TwoPass fuel) (hl : l.gen c = some c') :
    emitted c (parse fuel .mul ts.tail >>= fun r => some (.bin .add l r.1, r.2)) =
      (PerfProf.Expr.expr fuel .mul ⟨ts.tail, c'.emit [Op.psh.word], l.type⟩ >>= fun s =>
        .ok (((s.scale l.type).emit [Op.add.word]).setTy l.type)).toOption := by
  refine h.binary_step .add ts hl fun e ts₁ c₁ => ?_
  rw [toOption_ok, emit_scale]
  rfl

theorem TwoPass.sub_step (h : TwoPass fuel) (hl : l.gen c = some c') :
    emitted c (parse fuel .mul ts.tail >>= fun r => some (.bin .sub l r.1, r.2)) =
      (PerfProf.Expr.expr fuel .mul ⟨ts.tail, c'.emit [Op.psh.word], l.type⟩ >>= fun s =>
        .ok (s.subtract l.type)).toOption := by
  refine h.binary_step .sub ts hl fun e ts₁ c₁ => ?_
  rw [toOption_ok]
  unfold St.subtract BinOp.words
  dsimp only
  by_cases hp : ptr < l.type ∧ l.type = e.type
  · have hty : (Exp.bin .sub l e).type = tyInt := if_pos hp
    rw [if_pos hp, if_pos hp, hty]
    rfl
  · have hty : (Exp.bin .sub l e).type = l.type := if_neg hp
    rw [if_neg hp, if_neg hp, hty, emit_scale]
    rfl

theorem TwoPass.operator_succ (h : TwoPass fuel) (l : Exp) (ts : List Token) (c : Buf) :
    emitted c (parseOperator (fuel+1) l ts) =
      (l.gen c).bind fun c' => (PerfProf.Expr.operator (fuel+1) ⟨ts, c', l.type⟩).toOption := by
  cases hl : l.gen c with
  | none => exact parseOperator_none hl
  | some c' =>
    obtain ⟨tk, htk⟩ : ∃ tk, ts.headD .eof = tk := ⟨_, rfl⟩
    have hs : St.tk ⟨ts, c', l.type⟩ = tk := htk
    rw [Option.bind_some, PerfProf.Expr.operator, parseOperator, hs, htk]
    cases tk with
    | assign => exact h.assign_step ts.tail hl
    | inc => exact post_step ts hl true
    | dec => exact post_step ts hl false
    | lor =>
      exact h.branch_step .lan .bnz ts fun e =>
        ⟨by rw [Exp.gen, hl, Option.bind_eq_bind, Option.bind_some]; rfl, rfl⟩
    | lan =>
      exact h.branch_step .or .bz ts fun e =>
        ⟨by rw [Exp.gen, hl, Option.bind_eq_bind, Option.bind_some]; rfl, rfl⟩
    | cond => exact h.cond_step ts.tail hl
    | brak => exact h.index_step ts.tail hl
    | add => exact h.add_step ts hl
    | sub => exact h.sub_step ts hl
    | or => exact h.simple_step .or ts hl (by decide)
    | xor => exact h.simple_step .xor ts hl (by decide)
    | and => exact h.simple_step .and ts hl (by decide)
    | eq => exact h.simple_step .eq ts hl (by decide)
    | ne => exact h.simple_step .ne ts hl (by decide)
    | lt => exact h.simple_step .lt ts hl (by decide)
    | gt => exact h.simple_step .gt ts hl (by decide)
    | le => exact h.simple_step .le ts hl (by decide)
    | ge => exact h.simple_step .ge ts hl (by decide)
    | shl => exact h.simple_step .shl ts hl (by decide)
    | shr => exact h.simple_step .shr ts hl (by decide)
    | mul => exact h.simple_step .mul ts hl (by decide)
    | div => exact h.simple_step .div ts hl (by decide)
    | mod => exact h.simple_step .mod ts hl (by decide)
    | _ => rfl

end Operator

theorem TwoPass.climb_succ {fuel : Nat} (h : TwoPass fuel) (lev : Token) (l : Exp)
    (ts : List Token) (c : Buf) :
    emitted c (parseClimb (fuel+1) lev l ts) =
      (l.gen c).bind fun c' => (PerfProf.Expr.climb (fuel+1) lev ⟨ts, c', l.type⟩).toOption := by
  have htk : ∀ c', St.tk ⟨ts, c', l.type⟩ = ts.headD .eof := fun _ => rfl
  rw [parseClimb]
  by_cases hlev : lev.rank ≤ (ts.headD .eof).rank
  · rw [if_pos hlev]
    have hop := h.operator l ts c
    have hstep : ∀ c', (PerfProf.Expr.climb (fuel+1) lev ⟨ts, c', l.type⟩).toOption =
        (PerfProf.Expr.operator fuel ⟨ts, c', l.type⟩).toOption.bind fun s =>
          (PerfProf.Expr.climb fuel lev s).toOption := by
      intro c'
      rw [PerfProf.Expr.climb, htk, if_pos hlev, toOption_bind]
    simp only [hstep]
    rw [← Option.bind_assoc, ← hop]
    cases parseOperator fuel l ts with
    | none => rfl
    | some r =>
      obtain ⟨e, ts'⟩ := r
      rw [Option.bind_eq_bind, Option.bind_some, h.climb, emitted_some]
      cases e.gen c <;> rfl
  · rw [if_neg hlev, emitted_some]
    cases l.gen c with
    | none => rfl
    | some c' =>
      rw [Option.bind_some, PerfProf.Expr.climb, htk, if_neg hlev]
      rfl

theorem TwoPass.args_succ {fuel : Nat} (h : TwoPass fuel) (t : Nat) (ts : List Token)
    (c : Buf) (ty : Nat) :
    (PerfProf.Expr.args (fuel+1) t ⟨ts, c, ty⟩).toOption.map
        (fun r => (r.1.toks, r.1.buf, r.2)) =
      (parseArgs (fuel+1) ts).bind fun r => (r.1.gen c).map fun c' => (r.2, c', t + r.1.count) := by
  have htk : St.tk ⟨ts, c, ty⟩ = ts.headD .eof := rfl
  rw [PerfProf.Expr.args, parseArgs, htk]
  by_cases hr : ts.headD .eof = .rparen
  · rw [if_pos hr, if_pos hr]
    rfl
  · rw [if_neg hr, if_neg hr, toOption_bind, h.expr]
    cases parse fuel .assign ts with
    | none => rfl
    | some r =>
      obtain ⟨e, ts₁⟩ := r
      rw [emitted_some, Option.bind_eq_bind, Option.bind_some]
      cases he : e.gen c with
      | none =>
        dsimp only
        cases parseArgs fuel _ with
        | none => rfl
        | some r => simp [Args.gen, he]
      | some c₁ =>
        rw [Option.map_some, Option.bind_some]
        have hnext : (if (St.emit ⟨ts₁, c₁, e.type⟩ [Op.psh.word]).tk = .comma
            then (St.emit ⟨ts₁, c₁, e.type⟩ [Op.psh.word]).next
            else St.emit ⟨ts₁, c₁, e.type⟩ [Op.psh.word]) =
            ⟨if decide (ts₁.headD .eof = .comma) = true then ts₁.tail else ts₁,
              c₁.emit [Op.psh.word], e.type⟩ := by
          have htk₁ : (St.emit ⟨ts₁, c₁, e.type⟩ [Op.psh.word]).tk = ts₁.headD .eof := rfl
          rw [htk₁]
          by_cases hc : ts₁.headD .eof = .comma
          · simp only [hc, if_true, decide_true]
            rfl
          · simp only [hc, if_false, decide_false, Bool.false_eq_true]
            rfl
        dsimp only
        rw [hnext, h.args]
        cases parseArgs fuel _ with
        | none => rfl
        | some r =>
          obtain ⟨as, ts₂⟩ := r
          simp only [Option.bind_some, Option.bind_eq_bind, Args.gen, he, Args.count]
          cases as.gen (c₁.emit [Op.psh.word]) with
          | none => rfl
          | some c₂ => simp [Nat.add_assoc, Nat.add_comm 1]

/-- The parser is the two passes, whatever the tokens. -/
theorem twoPass (fuel : Nat) : TwoPass fuel := by
  induction fuel with
  | zero =>
    refine ⟨fun _ _ _ _ => rfl, fun _ _ _ => rfl, fun _ _ _ _ => rfl, ?_, ?_⟩
    · intro lev l ts c
      cases l.gen c <;> rfl
    · intro l ts c
      cases l.gen c <;> rfl
  | succ fuel ih =>
    refine ⟨?_, ih.primary_succ, ih.args_succ, ih.climb_succ, ih.operator_succ⟩
    intro lev ts c ty
    rw [expr, parse, toOption_bind, ih.primary]
    cases parsePrimary fuel ts with
    | none => rfl
    | some r =>
      obtain ⟨e, ts₁⟩ := r
      rw [emitted_some, Option.bind_eq_bind, Option.bind_some, ih.climb]
      cases e.gen c <;> rfl

end TwoPass

end PerfProf.Expr
