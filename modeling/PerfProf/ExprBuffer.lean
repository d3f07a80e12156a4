import PerfProf.ExprSentence
import PerfProf.ExprSpend

/-! How far a run of `expr_compile` writes into the buffer of its 1024 words, accepted or not. -/
namespace PerfProf.Expr

section Peak
open St

/-- The position that what follows a call reaches, if the call returns. -/
def onOk {α : Type} (r : Except String α) (f : α → Nat) : Nat :=
  match r with
  | .ok a => f a
  | .error _ => 0

mutual

/-- The highest position of `e` in a run of `expr`, also of one that ends in an error. -/
def peakExpr : Nat → Token → St → Nat
  | 0, _, s => s.code.length
  | fuel+1, lev, s => max (peakPrimary fuel s) (onOk (primary fuel s) (peakClimb fuel lev))

def peakPrimary : Nat → St → Nat
  | 0, s => s.code.length
  | fuel+1, s => max (max s.code.length (onOk (primary (fuel+1) s) (·.code.length)))
    (match s.tk with
    | .id _ => if s.next.tk = .lparen then peakArgs fuel 0 s.next.next else 0
    | .lparen => match s.next.tk.intType with
      | some type => onOk (s.next.typeName type "bad cast") fun r => peakExpr fuel .inc r.1
      | none => peakExpr fuel .assign s.next
    | .mul | .and | .bang | .tilde | .add | .inc | .dec => peakExpr fuel .inc s.next
    | .sub => match s.next.tk.numVal with
      | some _ => 0
      | none => peakExpr fuel .inc (s.next.emit [Op.imm.word, -1, Op.psh.word])
    | _ => 0)

def peakArgs : Nat → Nat → St → Nat
  | 0, _, s => s.code.length
  | fuel+1, t, s =>
    if s.tk = .rparen then s.code.length
    else max (peakExpr fuel .assign s) (onOk (expr fuel .assign s) fun s =>
      let s := s.emit [Op.psh.word]
      peakArgs fuel (t + 1) (if s.tk = .comma then s.next else s))

def peakClimb : Nat → Token → St → Nat
  | 0, _, s => s.code.length
  | fuel+1, lev, s =>
    if lev.rank ≤ s.tk.rank then
      max (peakOperator fuel s) (onOk (operator fuel s) (peakClimb fuel lev))
    else s.code.length

def peakOperator : Nat → St → Nat
  | 0, s => s.code.length
  | fuel+1, s => max (max s.code.length (onOk (operator (fuel+1) s) (·.code.length)))
    (match s.tk with
    | .assign =>
      if s.endsInLi then peakExpr fuel .assign (s.next.dropLi.emit [Op.psh.word]) else 0
    | .cond =>
      let s := s.next.reserve .bz
      let d := s.code.length - 1
      max (peakExpr fuel .assign s) (onOk (expr fuel .assign s) fun s =>
        onOk (s.expect .colon "conditional missing colon") fun s =>
          peakExpr fuel .cond ((s.patch d (s.code.length + 2)).reserve .jmp))
    | .lor => peakExpr fuel .lan (s.next.reserve .bnz)
    | .lan => peakExpr fuel .or (s.next.reserve .bz)
    | .add | .sub => peakExpr fuel .mul (s.next.emit [Op.psh.word])
    | .brak => peakExpr fuel .assign (s.next.emit [Op.psh.word])
    | tk => match binary tk with
      | some (lev, _) => peakExpr fuel lev (s.next.emit [Op.psh.word])
      | none => 0)

end

/-- The loop of `expr_compile`, with the `EXIT` after it. -/
def peakExprs : Nat → St → Nat
  | 0, s => s.code.length
  | fuel+1, s =>
    max (peakExpr (3 * s.toks.length + 3) .assign s)
      (onOk (expr (3 * s.toks.length + 3) .assign s) fun s =>
        if s.tk = .comma then peakExprs fuel s.next else (s.emit [Op.exit.word]).code.length)

/-- All that `expr_compile` writes is in the `nr_insn` words of the buffer. -/
def InBuffer (held : List (List Char × Symbol)) (data str : Long) (text : List Char)
    (declare : List GlobalVarDeclare) : Prop :=
  ∀ tab, symtab held data declare = some tab →
    peakExprs ((textToks tab str text).length + 1) ⟨textToks tab str text, ⟨[0], []⟩, 0⟩ ≤ 1024

end Peak

section Within
variable {s s' : St}

theorem onOk_le {α : Type} {r : Except String α} {f : α → Nat} {n : Nat}
    (h : ∀ a, r = .ok a → f a ≤ n) : onOk r f ≤ n := by
  cases r with
  | error m => exact Nat.zero_le n
  | ok a => exact h a rfl

theorem length_le_credit (s : St) : s.code.length ≤ s.credit := Nat.le_add_right _ _

theorem typeName_credit {type : Nat} {msg : String} {r : St × Nat}
    (h : s.typeName type msg = .ok r) : r.1.credit ≤ s.credit := by
  have hlen := typeName_length h
  have hcode : r.1.code = s.code := typeName_code h
  rw [St.credit, St.credit, hcode]
  omega

/-- A run never gets further than the tokens that are left bring it. -/
structure Within (fuel : Nat) : Prop where
  expr : ∀ lev s, peakExpr fuel lev s ≤ s.credit
  primary : ∀ s, peakPrimary fuel s ≤ s.credit
  args : ∀ t s, peakArgs fuel t s ≤ s.credit
  climb : ∀ lev s, peakClimb fuel lev s ≤ s.credit
  operator : ∀ s, peakOperator fuel s ≤ s.credit

variable {fuel : Nat}

theorem Within.expr_succ (h : Within fuel) (lev : Token) (s : St) :
    peakExpr (fuel+1) lev s ≤ s.credit := by
  rw [peakExpr, Nat.max_le]
  refine ⟨h.primary s, onOk_le fun s' hs' => ?_⟩
  have hcost := (primary_spends hs').credit
  have hpeak := h.climb lev s'
  omega

theorem Within.climb_succ (h : Within fuel) (lev : Token) (s : St) :
    peakClimb (fuel+1) lev s ≤ s.credit := by
  rw [peakClimb]
  split_ifs
  · refine Nat.max_le.mpr ⟨h.operator s, onOk_le fun s' hs' => ?_⟩
    exact Nat.le_trans (h.climb lev s') (operator_spends hs').credit
  · exact length_le_credit s

theorem Within.args_succ (h : Within fuel) (t : Nat) (s : St) :
    peakArgs (fuel+1) t s ≤ s.credit := by
  rw [peakArgs]
  split_ifs
  · exact length_le_credit s
  · refine Nat.max_le.mpr ⟨h.expr .assign s, onOk_le fun s' hs' => ?_⟩
    have hcost := (expr_spends (k := 14) (by decide) (by decide) hs').credit
    have hemit : (s'.emit [Op.psh.word]).credit = s'.credit + 1 := credit_emit s' _
    dsimp only
    split_ifs with hcomma
    · have hnext := credit_next (s := s'.emit [Op.psh.word]) (by rw [hcomma]; exact nofun)
      have hpeak := h.args (t + 1) (s'.emit [Op.psh.word]).next
      omega
    · have hpeak := h.args (t + 1) (s'.emit [Op.psh.word])
      omega

theorem Within.primary_succ (h : Within fuel) (s : St) : peakPrimary (fuel+1) s ≤ s.credit := by
  have hnext : s.tk ≠ .eof → s.next.credit + 11 = s.credit := credit_next
  rw [peakPrimary, Nat.max_le, Nat.max_le]
  refine ⟨⟨length_le_credit s, onOk_le fun s' hs' => ?_⟩, ?_⟩
  · have hcost := (primary_spends hs').credit
    have hlen := length_le_credit s'
    omega
  · split
    · rename_i htk
      split_ifs with hopen
      · have hstart := hnext (by rw [htk]; exact nofun)
        have hstart' := credit_next (s := s.next) (by rw [hopen]; exact nofun)
        have hpeak := h.args 0 s.next.next
        omega
      · exact Nat.zero_le _
    · rename_i htk
      have hstart := hnext (by rw [htk]; exact nofun)
      split
      · refine onOk_le fun r hr => ?_
        have htype := typeName_credit hr
        have hpeak := h.expr .inc r.1
        omega
      · have hpeak := h.expr .assign s.next
        omega
    all_goals first
      | rename_i htk
        have hstart := hnext (by rw [htk]; exact nofun)
        have hpeak := h.expr .inc s.next
        omega
      | skip
    · rename_i htk
      have hstart := hnext (by rw [htk]; exact nofun)
      split
      · exact Nat.zero_le _
      · have hpeak := h.expr .inc (s.next.emit [Op.imm.word, -1, Op.psh.word])
        rw [credit_emit] at hpeak
        simp only [List.length_cons, List.length_nil] at hpeak
        omega
    · exact Nat.zero_le _

/-- The right operand after a `PSH`. -/
theorem Within.pushed (h : Within fuel) (htk : s.tk ≠ .eof) (lev : Token) :
    peakExpr fuel lev (s.next.emit [Op.psh.word]) ≤ s.credit := by
  have hstart := credit_next htk
  have hpeak := h.expr lev (s.next.emit [Op.psh.word])
  rw [credit_emit, List.length_singleton] at hpeak
  omega

theorem Within.operator_succ (h : Within fuel) (s : St) : peakOperator (fuel+1) s ≤ s.credit := by
  have hnext : s.tk ≠ .eof → s.next.credit + 11 = s.credit := credit_next
  rw [peakOperator, Nat.max_le, Nat.max_le]
  refine ⟨⟨length_le_credit s, onOk_le fun s' hs' => ?_⟩, ?_⟩
  · exact Nat.le_trans (length_le_credit s') (operator_spends hs').credit
  · split
    · rename_i htk
      have hstart := hnext (by rw [htk]; exact nofun)
      split_ifs with hends
      · have hpeak := h.expr .assign (s.next.dropLi.emit [Op.psh.word])
        have hdrop := credit_dropLi (s := s.next) hends
        rw [credit_emit, List.length_singleton] at hpeak
        omega
      · exact Nat.zero_le _
    · rename_i htk
      have hstart := hnext (by rw [htk]; exact nofun)
      have hpeak := h.expr .assign (s.next.reserve .bz)
      rw [credit_reserve] at hpeak
      refine Nat.max_le.mpr ⟨by omega, onOk_le fun s₁ hs₁ => onOk_le fun s₂ hs₂ => ?_⟩
      have hcost := (expr_spends (k := 14) (by decide) (by decide) hs₁).credit
      have hclose := (expect_spends hs₂ nofun).credit
      have hpeak' := h.expr .cond ((s₂.patch ((s.next.reserve .bz).code.length - 1)
        (s₂.code.length + 2)).reserve .jmp)
      rw [credit_reserve] at hcost
      rw [credit_reserve, credit_patch] at hpeak'
      omega
    · rename_i htk
      have hstart := hnext (by rw [htk]; exact nofun)
      have hpeak := h.expr .lan (s.next.reserve .bnz)
      rw [credit_reserve] at hpeak
      omega
    · rename_i htk
      have hstart := hnext (by rw [htk]; exact nofun)
      have hpeak := h.expr .or (s.next.reserve .bz)
      rw [credit_reserve] at hpeak
      omega
    · rename_i htk
      exact h.pushed (by rw [htk]; exact nofun) .mul
    · rename_i htk
      exact h.pushed (by rw [htk]; exact nofun) .mul
    · rename_i htk
      exact h.pushed (by rw [htk]; exact nofun) .assign
    · split
      · rename_i lev op hbinary
        exact h.pushed (by
          intro htk
          rw [htk] at hbinary
          cases hbinary) lev
      · exact Nat.zero_le _

theorem within (fuel : Nat) : Within fuel := by
  induction fuel with
  | zero =>
    exact ⟨fun _ => length_le_credit, length_le_credit, fun _ => length_le_credit,
      fun _ => length_le_credit, length_le_credit⟩
  | succ fuel ih =>
    exact ⟨ih.expr_succ, ih.primary_succ, ih.args_succ, ih.climb_succ, ih.operator_succ⟩

end Within

section Part

/-- What has been read of a text, up to the end or to the first error. -/
inductive Part where
  | stop
  | whole (e : Exp)
  | exit (e : Exp)
  | under (front : List Token) (k : Nat) (p : Part)
  | gap (l : Exp) (k : Nat) (sep : List Token) (p : Part)
  | stored (l : Exp) (p : Part)
  | other (c t : Exp) (p : Part)

/-- The highest position on the way, from the position before it. `k` words come before an operand
of which `p` was read. -/
def Part.top : Part → Nat → Nat
  | .stop, n => n
  | .whole e, n => e.top n
  | .exit e, n => max (e.top n) (e.after n + 1)
  | .under _ k p, n => p.top (n + k)
  | .gap l k _ p, n => max (l.top n) (p.top (l.after n + k))
  | .stored l p, n => max (l.top n) (p.top (l.after n - 1))
  | .other c t p, n => max (max (c.top n) (t.top (c.after n + 2)))
      (p.top (t.after (c.after n + 2) + 2))

theorem Part.le_top (p : Part) (n : Nat) : n ≤ p.top n := by
  induction p generalizing n with
  | stop => exact Nat.le_refl n
  | whole e => exact (PerfProf.Expr.le_top e n).1
  | exit e => exact Nat.le_trans (PerfProf.Expr.le_top e n).1 (Nat.le_max_left ..)
  | under front k p ih => exact Nat.le_trans (Nat.le_add_right n k) (ih (n + k))
  | gap l k sep p ih => exact Nat.le_trans (PerfProf.Expr.le_top l n).1 (Nat.le_max_left ..)
  | stored l p ih => exact Nat.le_trans (PerfProf.Expr.le_top l n).1 (Nat.le_max_left ..)
  | other c t p ih =>
    have hc := (PerfProf.Expr.le_top c n).1
    rw [Part.top]
    omega

/-- A tree that both passes accept, with the tokens after it and the code with its words. -/
def accept (c : Buf) (r : Option (Exp × List Token)) : Option (Exp × List Token × Buf) :=
  r.bind fun et => (et.1.gen c).map fun c' => (et.1, et.2, c')

/-- The whole tree if it is accepted. -/
def wholeOr (r : Option (Exp × List Token × Buf)) (p : Part) : Part :=
  match r with
  | some (e, _) => .whole e
  | none => p

mutual

def part : Nat → Token → List Token → Buf → Part
  | 0, _, _, _ => .stop
  | fuel+1, lev, ts, c => match accept c (parsePrimary fuel ts) with
    | some (e, ts, _) => partClimb fuel lev e ts c
    | none => partPrimary fuel ts c

def partPrimary : Nat → List Token → Buf → Part
  | 0, _, _ => .stop
  | fuel+1, ts, c => wholeOr (accept c (parsePrimary (fuel+1) ts)) (match ts.headD .eof with
    | .id s =>
      if ts.tail.headD .eof = .lparen then .under [.id s, .lparen] 0 (partArgs fuel ts.tail.tail c)
      else .stop
    | .lparen => match (ts.tail.headD .eof).intType with
      | some type => match parseType ts.tail.tail with
        | some (n, ts) => .under (typeToks type n) 0 (part fuel .inc ts c)
        | none => .stop
      | none => .under [.lparen] 0 (part fuel .assign ts.tail c)
    | .sub => match (ts.tail.headD .eof).numVal with
      | some _ => .stop
      | none => .under [.sub] 3 (part fuel .inc ts.tail (c.emit [Op.imm.word, -1, Op.psh.word]))
    | .mul | .and | .bang | .tilde | .add | .inc | .dec =>
      .under [ts.headD .eof] 0 (part fuel .inc ts.tail c)
    | _ => .stop)

def partArgs : Nat → List Token → Buf → Part
  | 0, _, _ => .stop
  | fuel+1, ts, c =>
    if ts.headD .eof = .rparen then .stop
    else match accept c (parse fuel .assign ts) with
    | some (e, ts, c) =>
      if ts.headD .eof = .comma then
        .gap e 1 [.comma] (partArgs fuel ts.tail (c.emit [Op.psh.word]))
      else .gap e 1 [] (partArgs fuel ts (c.emit [Op.psh.word]))
    | none => part fuel .assign ts c

def partClimb : Nat → Token → Exp → List Token → Buf → Part
  | 0, _, l, _, _ => .whole l
  | fuel+1, lev, l, ts, c =>
    if lev.rank ≤ (ts.headD .eof).rank then match accept c (parseOperator fuel l ts) with
      | some (e, ts, _) => partClimb fuel lev e ts c
      | none => partOperator fuel l ts c
    else .whole l

/-- The operator after `l`, whose words go up to those of `c`. -/
def partOperator : Nat → Exp → List Token → Buf → Part
  | 0, l, _, _ => .whole l
  | fuel+1, l, ts, c => wholeOr (accept c (parseOperator (fuel+1) l ts)) (match l.gen c with
    | none => .whole l
    | some c => match ts.headD .eof with
      | .assign =>
        if c.endsLi then .stored l (part fuel .assign ts.tail (c.dropLi.emit [Op.psh.word]))
        else .whole l
      | .cond => match accept (c.reserve .bz) (parse fuel .assign ts.tail) with
        | some (t, ts, c') => match closed .colon ts with
          | some ts => .other l t (part fuel .cond ts
              ((c'.patch (c.code.length + 1) (c'.code.length + 2)).reserve .jmp))
          | none => .gap l 2 [.cond] (.whole t)
        | none => .gap l 2 [.cond] (part fuel .assign ts.tail (c.reserve .bz))
      | .lor => .gap l 2 [.lor] (part fuel .lan ts.tail (c.reserve .bnz))
      | .lan => .gap l 2 [.lan] (part fuel .or ts.tail (c.reserve .bz))
      | .brak => .gap l 1 [.brak] (part fuel .assign ts.tail (c.emit [Op.psh.word]))
      | tk => match binOf tk with
        | some op => .gap l 1 [tk] (part fuel op.operand ts.tail (c.emit [Op.psh.word]))
        | none => .whole l)

end

/-- What `expr_compile` reads, with the `EXIT` if it gets to the end. -/
def partAll : Nat → List Token → Buf → Part
  | 0, _, _ => .stop
  | fuel+1, ts, c => match accept c (parse (3 * ts.length + 3) .assign ts) with
    | some (e, ts, c) =>
      if ts.headD .eof = .comma then .gap e 0 [.comma] (partAll fuel ts.tail c) else .exit e
    | none => part (3 * ts.length + 3) .assign ts c

def partText (tab : Symtab) (strBase : Long) (text : List Char) : Part :=
  partAll ((textToks tab strBase text).length + 1) (textToks tab strBase text) ⟨[0], []⟩

end Part

section Exact
variable {c c' c₁ c₂ : Buf} {e e₁ l : Exp} {ts rest : List Token} {r : Option (Exp × List Token)}
  {fuel : Nat}

theorem accept_some (hr : r = some (e, rest)) (hgen : e.gen c = some c') :
    accept c r = some (e, rest, c') := by
  rw [accept, hr, Option.bind_some, hgen]
  rfl

theorem of_accept (h : accept c r = some (e, rest, c')) : r = some (e, rest) ∧ e.gen c = some c' := by
  obtain ⟨⟨e, ts⟩, hr, hmap⟩ := Option.bind_eq_some_iff.mp h
  obtain ⟨c', hgen, hpair⟩ := Option.map_eq_some_iff.mp hmap
  cases hpair
  exact ⟨hr, hgen⟩

/-- A call returns exactly if its tree is accepted. -/
theorem onOk_accept {x : Except String St} (hpass : x.toOption = emitted c r) (f : St → Nat) :
    onOk x f = match accept c r with
      | some (e, ts, c') => f ⟨ts, c', e.type⟩
      | none => 0 := by
  have hemit : emitted c r = (accept c r).map fun t => ⟨t.2.1, t.2.2, t.1.type⟩ := by
    cases r with
    | none => rfl
    | some et =>
      rw [emitted, accept, Option.bind_some, Option.bind_some, Option.map_map]
      rfl
  rw [hemit] at hpass
  cases hr : accept c r with
  | none =>
    rw [hr] at hpass
    cases x with
    | ok a => cases hpass
    | error m => rfl
  | some t =>
    rw [hr] at hpass
    rw [ok_of_toOption hpass]
    rfl

/-- A call whose tree is whole if it is accepted; `inner` is how far its operands get. -/
theorem peak_wholeOr {x : Except String St} (hpass : x.toOption = emitted c r) {k inner : Nat}
    {p : Part}
    (hok : ∀ e rest c', r = some (e, rest) → e.gen c = some c' →
      max (max k (e.after c.code.length)) inner = e.top c.code.length)
    (hstop : accept c r = none → max k inner = p.top c.code.length) :
    max (max k (onOk x (·.code.length))) inner = (wholeOr (accept c r) p).top c.code.length := by
  rw [onOk_accept hpass]
  cases hr : accept c r with
  | none =>
    rw [Nat.max_zero]
    exact hstop hr
  | some t =>
    obtain ⟨e, rest, c'⟩ := t
    obtain ⟨hread, hgen⟩ := of_accept hr
    have hlen : (St.mk rest c' e.type).code.length = e.after c.code.length := gen_after e c c' hgen
    dsimp only
    rw [hlen]
    exact hok e rest c' hread hgen

/-- The first pass extends the tree: where the whole passes the second pass, its left end does. -/
theorem gen_of_climb {lev : Token} (h : parseClimb fuel lev l ts = some (e, rest))
    (hgen : e.gen c = some c') : ∃ c₁, l.gen c = some c₁ := by
  have hpass := (twoPass fuel).climb lev l ts c
  rw [h, emitted_some, hgen] at hpass
  obtain ⟨c₁, hl, -⟩ := Option.bind_eq_some_iff.mp hpass.symm
  exact ⟨c₁, hl⟩

theorem partClimb_whole {lev : Token} (h : parseClimb fuel lev l ts = some (e, rest))
    (hgen : e.gen c = some c') : partClimb fuel lev l ts c = .whole e := by
  induction fuel generalizing l ts with
  | zero => cases h
  | succ fuel ih =>
    rw [parseClimb] at h
    rw [partClimb]
    split at h
    · rename_i hrank
      simp only [Option.bind_eq_bind, Option.bind_eq_some_iff, Prod.exists] at h
      obtain ⟨e₁, ts₁, hop, hclimb⟩ := h
      obtain ⟨c₁, he₁⟩ := gen_of_climb hclimb hgen
      rw [if_pos hrank, accept_some hop he₁]
      exact ih hclimb
    · rename_i hrank
      cases h
      rw [if_neg hrank]

theorem part_whole {lev : Token} (h : parse fuel lev ts = some (e, rest))
    (hgen : e.gen c = some c') : part fuel lev ts c = .whole e := by
  cases fuel with
  | zero => cases h
  | succ fuel =>
    rw [parse] at h
    simp only [Option.bind_eq_bind, Option.bind_eq_some_iff, Prod.exists] at h
    obtain ⟨e₁, ts₁, hprim, hclimb⟩ := h
    obtain ⟨c₁, he₁⟩ := gen_of_climb hclimb hgen
    rw [part, accept_some hprim he₁]
    exact partClimb_whole hclimb hgen

theorem partPrimary_whole (h : parsePrimary fuel ts = some (e, rest)) (hgen : e.gen c = some c') :
    partPrimary fuel ts c = .whole e := by
  cases fuel with
  | zero => cases h
  | succ fuel =>
    rw [partPrimary, accept_some h hgen]
    rfl

theorem partOperator_whole (h : parseOperator fuel l ts = some (e, rest))
    (hgen : e.gen c = some c') : partOperator fuel l ts c = .whole e := by
  cases fuel with
  | zero => cases h
  | succ fuel =>
    rw [partOperator, accept_some h hgen]
    rfl

theorem partArgs_top {as : Args} (h : parseArgs fuel ts = some (as, rest))
    (hgen : as.gen c = some c') : (partArgs fuel ts c).top c.code.length = as.top c.code.length := by
  induction fuel generalizing ts as c with
  | zero => cases h
  | succ fuel ih =>
    rw [parseArgs] at h
    rw [partArgs]
    split at h
    · rename_i hhead
      cases h
      rw [if_pos hhead]
      rfl
    · rename_i hhead
      simp only [Option.bind_eq_bind, Option.bind_eq_some_iff, Prod.exists] at h
      obtain ⟨e, ts₁, hexpr, as', ts₂, hargs, hpair⟩ := h
      cases hpair
      simp only [Args.gen, Option.bind_eq_bind, Option.bind_eq_some_iff] at hgen
      obtain ⟨c₁, he, hrest⟩ := hgen
      have hlen : (c₁.emit [Op.psh.word]).code.length = e.after c.code.length + 1 := by
        rw [length_emit, gen_after e c c₁ he]
        rfl
      have hmore := ih hargs hrest
      rw [hlen] at hmore
      rw [if_neg hhead, accept_some hexpr he, Args.top, ← hmore]
      dsimp only
      by_cases hcomma : ts₁.headD .eof = .comma
      · rw [if_pos hcomma, Part.top, if_pos (decide_eq_true hcomma)]
      · rw [if_neg hcomma, Part.top, if_neg fun h => hcomma (of_decide_eq_true h)]

/-- Every run gets as far as what it has read. -/
structure Parts (fuel : Nat) : Prop where
  expr : ∀ lev ts c ty, peakExpr fuel lev ⟨ts, c, ty⟩ = (part fuel lev ts c).top c.code.length
  primary : ∀ ts c ty, peakPrimary fuel ⟨ts, c, ty⟩ = (partPrimary fuel ts c).top c.code.length
  args : ∀ t ts c ty, peakArgs fuel t ⟨ts, c, ty⟩ = (partArgs fuel ts c).top c.code.length
  climb : ∀ lev l ts c c₁, l.gen c = some c₁ →
    max (l.top c.code.length) (peakClimb fuel lev ⟨ts, c₁, l.type⟩) =
      (partClimb fuel lev l ts c).top c.code.length
  operator : ∀ l ts c c₁, l.gen c = some c₁ →
    max (l.top c.code.length) (peakOperator fuel ⟨ts, c₁, l.type⟩) =
      (partOperator fuel l ts c).top c.code.length

theorem Parts.expr_succ (h : Parts fuel) (lev : Token) (ts : List Token) (c : Buf) (ty : Nat) :
    peakExpr (fuel+1) lev ⟨ts, c, ty⟩ = (part (fuel+1) lev ts c).top c.code.length := by
  rw [peakExpr, onOk_accept ((twoPass fuel).primary ts c ty), part, h.primary]
  cases hr : accept c (parsePrimary fuel ts) with
  | none => exact Nat.max_zero _
  | some t =>
    obtain ⟨e, ts₁, c₁⟩ := t
    obtain ⟨hread, hgen⟩ := of_accept hr
    rw [partPrimary_whole hread hgen]
    exact h.climb lev e ts₁ c c₁ hgen

theorem Parts.climb_succ (h : Parts fuel) (lev : Token) (l : Exp) (ts : List Token) (c c₁ : Buf)
    (hl : l.gen c = some c₁) :
    max (l.top c.code.length) (peakClimb (fuel+1) lev ⟨ts, c₁, l.type⟩) =
      (partClimb (fuel+1) lev l ts c).top c.code.length := by
  have hhead : (St.mk ts c₁ l.type).tk = ts.headD .eof := rfl
  rw [peakClimb, partClimb, hhead]
  by_cases hrank : lev.rank ≤ (ts.headD .eof).rank
  · have hpass := (twoPass fuel).operator l ts c
    rw [hl, Option.bind_some] at hpass
    rw [if_pos hrank, if_pos hrank, onOk_accept hpass.symm, ← Nat.max_assoc,
      h.operator l ts c c₁ hl]
    cases hr : accept c (parseOperator fuel l ts) with
    | none => exact Nat.max_zero _
    | some t =>
      obtain ⟨e, ts₁, c₂⟩ := t
      obtain ⟨hread, hgen⟩ := of_accept hr
      rw [partOperator_whole hread hgen]
      exact h.climb lev e ts₁ c c₂ hgen
  · have hlen : (St.mk ts c₁ l.type).code.length = l.after c.code.length := gen_after l c c₁ hl
    rw [if_neg hrank, if_neg hrank, hlen]
    exact Nat.max_eq_left (le_top l c.code.length).2

theorem Parts.args_succ (h : Parts fuel) (t : Nat) (ts : List Token) (c : Buf) (ty : Nat) :
    peakArgs (fuel+1) t ⟨ts, c, ty⟩ = (partArgs (fuel+1) ts c).top c.code.length := by
  have hhead : (St.mk ts c ty).tk = ts.headD .eof := rfl
  rw [peakArgs, partArgs, hhead]
  by_cases hclose : ts.headD .eof = .rparen
  · rw [if_pos hclose, if_pos hclose]
    rfl
  · rw [if_neg hclose, if_neg hclose, onOk_accept ((twoPass fuel).expr .assign ts c ty), h.expr]
    cases hr : accept c (parse fuel .assign ts) with
    | none => exact Nat.max_zero _
    | some t =>
      obtain ⟨e, ts₁, c₁⟩ := t
      obtain ⟨hread, hgen⟩ := of_accept hr
      have hlen : (c₁.emit [Op.psh.word]).code.length = e.after c.code.length + 1 := by
        rw [length_emit, gen_after e c c₁ hgen]
        rfl
      have htk : (St.emit ⟨ts₁, c₁, e.type⟩ [Op.psh.word]).tk = ts₁.headD .eof := rfl
      rw [part_whole hread hgen]
      dsimp only
      rw [htk]
      by_cases hcomma : ts₁.headD .eof = .comma
      · rw [if_pos hcomma, if_pos hcomma, Part.top, Part.top, ← hlen]
        exact congrArg _ (h.args _ ts₁.tail _ e.type)
      · rw [if_neg hcomma, if_neg hcomma, Part.top, Part.top, ← hlen]
        exact congrArg _ (h.args _ ts₁ _ e.type)

/-- An operator with the operand that `expr` reads from `ts`, after words that get up to `k`. -/
theorem Parts.operand_step (h : Parts fuel) (f : Exp → Exp) {x : Except String St}
    (hpass : x.toOption = emitted c r) {k : Nat} {lev : Token} {c₀ : Buf} {ty : Nat} {p : Part}
    (hr : ∀ e rest, r = some (e, rest) → ∃ y ts', parse fuel lev ts = some (y, ts') ∧ e = f y)
    (hf : ∀ y c', (f y).gen c = some c' → (∃ c₁, y.gen c₀ = some c₁) ∧
      (f y).top c.code.length =
        max (max k (y.top c₀.code.length)) ((f y).after c.code.length))
    (hp : p.top c.code.length = max k ((part fuel lev ts c₀).top c₀.code.length)) :
    max (max k (onOk x (·.code.length))) (peakExpr fuel lev ⟨ts, c₀, ty⟩) =
      (wholeOr (accept c r) p).top c.code.length := by
  refine peak_wholeOr hpass (fun e rest c' hread hgen => ?_) fun _ => ?_
  · obtain ⟨y, ts', hparse, rfl⟩ := hr e rest hread
    obtain ⟨⟨c₁, hy⟩, htop⟩ := hf y c' hgen
    rw [h.expr, part_whole hparse hy, Part.top, htop]
    omega
  · rw [h.expr, hp]

/-- A prefix operator that is a single token; its words follow those of the operand. -/
theorem Parts.prefix_step (h : Parts fuel) (f : Exp → Exp) {x : Except String St}
    (hpass : x.toOption = emitted c (parse fuel .inc ts >>= fun r => some (f r.1, r.2)))
    (front : List Token) (ty : Nat)
    (hf : ∀ y c', (f y).gen c = some c' → (∃ c₁, y.gen c = some c₁) ∧
      (f y).top c.code.length = max (y.top c.code.length) ((f y).after c.code.length)) :
    max (max c.code.length (onOk x (·.code.length))) (peakExpr fuel .inc ⟨ts, c, ty⟩) =
      (wholeOr (accept c (parse fuel .inc ts >>= fun r => some (f r.1, r.2)))
        (.under front 0 (part fuel .inc ts c))).top c.code.length := by
  refine h.operand_step f hpass (fun e rest hread => ?_) (fun y c' hgen => ?_) ?_
  · simp only [Option.bind_eq_bind, Option.bind_eq_some_iff, Prod.exists] at hread
    obtain ⟨y, ts', hparse, hpair⟩ := hread
    cases hpair
    exact ⟨y, rest, hparse, rfl⟩
  · obtain ⟨hy, htop⟩ := hf y c' hgen
    rw [htop, Nat.max_eq_right (le_top y c.code.length).1]
    exact ⟨hy, rfl⟩
  · exact (Nat.max_eq_right (Part.le_top _ _)).symm

theorem Parts.call_step (h : Parts fuel) {x : Except String St} (s : Symbol) (ty : Nat)
    (hpass : x.toOption = emitted c (parseArgs fuel ts >>= fun r => some (.call s r.1, r.2))) :
    max (max c.code.length (onOk x (·.code.length))) (peakArgs fuel 0 ⟨ts, c, ty⟩) =
      (wholeOr (accept c (parseArgs fuel ts >>= fun r => some (.call s r.1, r.2)))
        (.under [.id s, .lparen] 0 (partArgs fuel ts c))).top c.code.length := by
  refine peak_wholeOr hpass (fun e rest c' hread hgen => ?_) fun _ => ?_
  · simp only [Option.bind_eq_bind, Option.bind_eq_some_iff, Prod.exists] at hread
    obtain ⟨as, ts', hargs, hpair⟩ := hread
    cases hpair
    simp only [Exp.gen, Option.bind_eq_bind, Option.bind_eq_some_iff] at hgen
    obtain ⟨c₁, has, -⟩ := hgen
    have hle := argsLe_top as c.code.length
    rw [h.args, partArgs_top hargs has, Exp.top]
    omega
  · rw [h.args]
    exact Nat.max_eq_right (Part.le_top _ _)

theorem Parts.paren_step (h : Parts fuel) {x : Except String St} (ty : Nat)
    (hpass : x.toOption = emitted c (parse fuel .assign ts >>= fun r =>
      closed .rparen r.2 >>= fun ts' => some (.paren r.1, ts'))) :
    max (max c.code.length (onOk x (·.code.length))) (peakExpr fuel .assign ⟨ts, c, ty⟩) =
      (wholeOr (accept c (parse fuel .assign ts >>= fun r =>
        closed .rparen r.2 >>= fun ts' => some (.paren r.1, ts')))
          (.under [.lparen] 0 (part fuel .assign ts c))).top c.code.length := by
  refine h.operand_step .paren hpass (fun e rest hread => ?_) (fun y c' hgen => ⟨⟨c', hgen⟩, ?_⟩) ?_
  · simp only [Option.bind_eq_bind, Option.bind_eq_some_iff, Prod.exists] at hread
    obtain ⟨y, ts₁, hparse, ts₂, -, hpair⟩ := hread
    cases hpair
    exact ⟨y, ts₁, hparse, rfl⟩
  · have hle := le_top y c.code.length
    rw [Exp.top, Exp.after]
    omega
  · exact (Nat.max_eq_right (Part.le_top _ _)).symm

theorem Parts.cast_step (h : Parts fuel) {x : Except String St} (type ty : Nat)
    (hpass : x.toOption = emitted c (parseType ts.tail >>= fun r => parse fuel .inc r.2 >>= fun r' =>
      some (.cast type r.1 r'.1, r'.2))) :
    max (max c.code.length (onOk x (·.code.length)))
        (onOk (St.typeName ⟨ts, c, ty⟩ type "bad cast") fun r => peakExpr fuel .inc r.1) =
      (wholeOr (accept c (parseType ts.tail >>= fun r => parse fuel .inc r.2 >>= fun r' =>
        some (.cast type r.1 r'.1, r'.2))) (match parseType ts.tail with
          | some (n, ts) => .under (typeToks type n) 0 (part fuel .inc ts c)
          | none => .stop)).top c.code.length := by
  have hname := typeName_toOption ts c ty type "bad cast"
  cases htype : parseType ts.tail with
  | none =>
    rw [htype] at hname hpass
    have hnone : ∀ f : St × Nat → Nat, onOk (St.typeName ⟨ts, c, ty⟩ type "bad cast") f = 0 := by
      intro f
      cases hx : St.typeName ⟨ts, c, ty⟩ type "bad cast" with
      | ok a => simp [hx, toOption_ok] at hname
      | error m => rfl
    rw [hnone]
    exact peak_wholeOr hpass nofun fun _ => Nat.max_zero _
  | some r =>
    obtain ⟨n, ts₁⟩ := r
    rw [htype] at hname hpass
    rw [ok_of_toOption hname]
    refine h.operand_step (.cast type n) hpass (fun e rest hread => ?_)
      (fun y c' hgen => ⟨⟨c', hgen⟩, ?_⟩) ?_
    · simp only [Option.bind_eq_bind, Option.bind_some, Option.bind_eq_some_iff,
        Prod.exists] at hread
      obtain ⟨y, ts₂, hparse, hpair⟩ := hread
      cases hpair
      exact ⟨y, rest, hparse, rfl⟩
    · have hle := le_top y c.code.length
      rw [Exp.top, Exp.after]
      omega
    · exact (Nat.max_eq_right (Part.le_top _ _)).symm

theorem Parts.minus_step (h : Parts fuel) {x : Except String St} (ty : Nat)
    (hpass : x.toOption = emitted c (parse fuel .inc ts >>= fun r => some (.un .minus r.1, r.2))) :
    max (max c.code.length (onOk x (·.code.length)))
        (peakExpr fuel .inc ⟨ts, c.emit [Op.imm.word, -1, Op.psh.word], ty⟩) =
      (wholeOr (accept c (parse fuel .inc ts >>= fun r => some (.un .minus r.1, r.2)))
        (.under [.sub] 3 (part fuel .inc ts (c.emit [Op.imm.word, -1, Op.psh.word])))).top
          c.code.length := by
  have hlen : (c.emit [Op.imm.word, -1, Op.psh.word]).code.length = c.code.length + 3 :=
    length_emit c _
  refine h.operand_step (.un .minus) hpass (fun e rest hread => ?_) (fun y c' hgen => ?_) ?_
  · simp only [Option.bind_eq_bind, Option.bind_eq_some_iff, Prod.exists] at hread
    obtain ⟨y, ts', hparse, hpair⟩ := hread
    cases hpair
    exact ⟨y, rest, hparse, rfl⟩
  · obtain ⟨c₁, hy, -⟩ := Option.map_eq_some_iff.mp hgen
    have hle := le_top y (c.code.length + 3)
    refine ⟨⟨c₁, hy⟩, ?_⟩
    rw [hlen, Exp.top]
    omega
  · have hle := Part.le_top (part fuel .inc ts (c.emit [Op.imm.word, -1, Op.psh.word]))
      (c.code.length + 3)
    rw [hlen, Part.top]
    omega

/-- The operands without operands only write. -/
theorem leaf_step {x : Except String St} (hpass : x.toOption = emitted c r)
    (hleaf : ∀ e rest, r = some (e, rest) → ∀ n, e.top n = e.after n) :
    max (max c.code.length (onOk x (·.code.length))) 0 =
      (wholeOr (accept c r) .stop).top c.code.length := by
  refine peak_wholeOr hpass (fun e rest c' hread hgen => ?_) fun _ => Nat.max_zero _
  have hle := (le_top e c.code.length).1
  rw [hleaf e rest hread] at hle ⊢
  omega

theorem parseOperand_leaf (h : parseOperand ts = some (e, rest)) (n : Nat) : e.top n = e.after n := by
  obtain ⟨tk, htk⟩ : ∃ tk, ts.headD .eof = tk := ⟨_, rfl⟩
  rw [parseOperand, htk] at h
  cases tk with
  | num v =>
    cases h
    rfl
  | str v =>
    cases h
    rfl
  | sizeof =>
    simp only [Option.bind_eq_bind, Option.bind_eq_some_iff, Prod.exists] at h
    obtain ⟨ts₁, hopen, type, htype, n, ts₂, hstars, hpair⟩ := h
    cases hpair
    rfl
  | _ => cases h

theorem Parts.primary_succ (h : Parts fuel) (ts : List Token) (c : Buf) (ty : Nat) :
    peakPrimary (fuel+1) ⟨ts, c, ty⟩ = (partPrimary (fuel+1) ts c).top c.code.length := by
  have hpass := (twoPass (fuel+1)).primary ts c ty
  obtain ⟨tk, htk⟩ : ∃ tk, ts.headD .eof = tk := ⟨_, rfl⟩
  have hs : (St.mk ts c ty).tk = tk := htk
  have htail : (St.next ⟨ts, c, ty⟩).tk = ts.tail.headD .eof := rfl
  have hleaf : parsePrimary (fuel+1) ts = parseOperand ts →
      max (max c.code.length (onOk (PerfProf.Expr.primary (fuel+1) ⟨ts, c, ty⟩) (·.code.length))) 0 =
        (wholeOr (accept c (parsePrimary (fuel+1) ts)) .stop).top c.code.length := fun heq =>
    leaf_step hpass fun e rest hread n => parseOperand_leaf (heq ▸ hread) n
  rw [peakPrimary, partPrimary, hs, htk]
  rw [parsePrimary, htk] at hpass hleaf ⊢
  cases tk with
  | id s =>
    dsimp only at hpass ⊢
    rw [htail]
    by_cases hopen : ts.tail.headD .eof = .lparen
    · rw [if_pos hopen] at hpass ⊢
      rw [if_pos hopen, if_pos hopen]
      exact h.call_step s ty hpass
    · rw [if_neg hopen] at hpass ⊢
      rw [if_neg hopen, if_neg hopen]
      exact leaf_step hpass fun e rest hread n => by cases hread; rfl
  | lparen =>
    dsimp only at hpass ⊢
    rw [htail]
    cases htype : (ts.tail.headD .eof).intType with
    | some type =>
      rw [htype] at hpass
      exact h.cast_step type ty hpass
    | none =>
      rw [htype] at hpass
      exact h.paren_step ty hpass
  | sub =>
    dsimp only at hpass ⊢
    rw [htail]
    cases hnum : (ts.tail.headD .eof).numVal with
    | some v =>
      rw [hnum] at hpass
      exact leaf_step hpass fun e rest hread n => by cases hread; rfl
    | none =>
      rw [hnum] at hpass
      exact h.minus_step ty hpass
  | mul =>
    refine h.prefix_step .deref hpass [.mul] ty fun y c' hgen => ⟨?_, rfl⟩
    obtain ⟨c₁, hy, -⟩ := Option.bind_eq_some_iff.mp hgen
    exact ⟨c₁, hy⟩
  | and =>
    refine h.prefix_step .addr hpass [.and] ty fun y c' hgen => ⟨?_, ?_⟩
    · obtain ⟨c₁, hy, -⟩ := Option.bind_eq_some_iff.mp hgen
      exact ⟨c₁, hy⟩
    · have hle := le_top y c.code.length
      rw [Exp.top, Exp.after]
      omega
  | bang =>
    refine h.prefix_step (.un .not) hpass [.bang] ty fun y c' hgen => ⟨?_, rfl⟩
    obtain ⟨c₁, hy, -⟩ := Option.map_eq_some_iff.mp hgen
    exact ⟨c₁, hy⟩
  | tilde =>
    refine h.prefix_step (.un .compl) hpass [.tilde] ty fun y c' hgen => ⟨?_, rfl⟩
    obtain ⟨c₁, hy, -⟩ := Option.map_eq_some_iff.mp hgen
    exact ⟨c₁, hy⟩
  | add =>
    refine h.prefix_step (.un .plus) hpass [.add] ty fun y c' hgen => ⟨⟨c', hgen⟩, ?_⟩
    have hle := le_top y c.code.length
    rw [Exp.top, Exp.after]
    exact (Nat.max_eq_left hle.2).symm
  | inc =>
    refine h.prefix_step (.pre true) hpass [.inc] ty fun y c' hgen => ⟨?_, rfl⟩
    obtain ⟨c₁, hy, -⟩ := Option.bind_eq_some_iff.mp hgen
    exact ⟨c₁, hy⟩
  | dec =>
    refine h.prefix_step (.pre false) hpass [.dec] ty fun y c' hgen => ⟨?_, rfl⟩
    obtain ⟨c₁, hy, -⟩ := Option.bind_eq_some_iff.mp hgen
    exact ⟨c₁, hy⟩
  | _ => exact hleaf rfl

/-- The left operand has already got as far as the operator starts. -/
theorem max_left (hl : l.gen c = some c₁) (x y ty : Nat) :
    max (l.top c.code.length) (max (max (St.mk ts c₁ ty).code.length x) y) =
      max (max (l.top c.code.length) x) y := by
  have hlen : (St.mk ts c₁ ty).code.length = l.after c.code.length := gen_after l c c₁ hl
  have hle := le_top l c.code.length
  omega

/-- An operator with a right operand, after `k` words. -/
theorem Parts.right_step (h : Parts fuel) (f : Exp → Exp) {lev : Token} {k : Nat} {c₀ : Buf}
    (hl : l.gen c = some c₁) (hlen : c₀.code.length = c₁.code.length + k) (sep : List Token)
    {x : Except String St} (ty : Nat)
    (hpass : x.toOption = emitted c (parse fuel lev ts >>= fun r => some (f r.1, r.2)))
    (hf : ∀ y c', (f y).gen c = some c' → (∃ c₂, y.gen c₀ = some c₂) ∧
      (f y).top c.code.length = max (max (l.top c.code.length) (y.top (l.after c.code.length + k)))
        ((f y).after c.code.length)) :
    max (max (l.top c.code.length) (onOk x (·.code.length))) (peakExpr fuel lev ⟨ts, c₀, ty⟩) =
      (wholeOr (accept c (parse fuel lev ts >>= fun r => some (f r.1, r.2)))
        (.gap l k sep (part fuel lev ts c₀))).top c.code.length := by
  rw [gen_after l c c₁ hl] at hlen
  refine h.operand_step f hpass (fun e rest hread => ?_) (fun y c' hgen => ?_) ?_
  · simp only [Option.bind_eq_bind, Option.bind_eq_some_iff, Prod.exists] at hread
    obtain ⟨y, ts', hparse, hpair⟩ := hread
    cases hpair
    exact ⟨y, rest, hparse, rfl⟩
  · rw [hlen]
    exact hf y c' hgen
  · rw [hlen]
    rfl

theorem Parts.binary_step (h : Parts fuel) (op : BinOp) (hl : l.gen c = some c₁)
    {x : Except String St} (ty : Nat)
    (hpass : x.toOption =
      emitted c (parse fuel op.operand ts >>= fun r => some (.bin op l r.1, r.2))) (tk : Token) :
    max (max (l.top c.code.length) (onOk x (·.code.length)))
        (peakExpr fuel op.operand ⟨ts, c₁.emit [Op.psh.word], ty⟩) =
      (wholeOr (accept c (parse fuel op.operand ts >>= fun r => some (.bin op l r.1, r.2)))
        (.gap l 1 [tk] (part fuel op.operand ts (c₁.emit [Op.psh.word])))).top c.code.length := by
  refine h.right_step (.bin op l) hl (length_emit c₁ _) [tk] ty hpass fun y c' hgen => ⟨?_, rfl⟩
  simp only [Exp.gen, hl, Option.bind_eq_bind, Option.bind_some, Option.bind_eq_some_iff] at hgen
  obtain ⟨c₂, hy, -⟩ := hgen
  exact ⟨c₂, hy⟩

theorem Parts.branch_step (h : Parts fuel) (op : Op) {g : Exp → Exp} {lev : Token}
    (hl : l.gen c = some c₁) {x : Except String St} (tk : Token) (ty : Nat)
    (hg : ∀ y, (g y).gen c = branch op y.gen c₁ ∧
      (g y).top c.code.length = max (l.top c.code.length) (y.top (l.after c.code.length + 2)) ∧
      (g y).after c.code.length = y.after (l.after c.code.length + 2))
    (hpass : x.toOption = emitted c (parse fuel lev ts >>= fun r => some (g r.1, r.2))) :
    max (max (l.top c.code.length) (onOk x (·.code.length)))
        (peakExpr fuel lev ⟨ts, c₁.reserve op, ty⟩) =
      (wholeOr (accept c (parse fuel lev ts >>= fun r => some (g r.1, r.2)))
        (.gap l 2 [tk] (part fuel lev ts (c₁.reserve op)))).top c.code.length := by
  refine h.right_step g hl (length_reserve c₁ op) [tk] ty hpass fun y c' hgen => ?_
  obtain ⟨hgen', htop, hafter⟩ := hg y
  rw [hgen'] at hgen
  obtain ⟨c₂, hy, -⟩ := branch_some hgen
  have hle := le_top y (l.after c.code.length + 2)
  refine ⟨⟨c₂, hy⟩, ?_⟩
  rw [htop, hafter]
  omega

theorem Parts.index_step (h : Parts fuel) (hl : l.gen c = some c₁) {x : Except String St} (ty : Nat)
    (hpass : x.toOption = emitted c (parse fuel .assign ts >>= fun r =>
      closed .rbrack r.2 >>= fun ts => some (.index l r.1, ts))) :
    max (max (l.top c.code.length) (onOk x (·.code.length)))
        (peakExpr fuel .assign ⟨ts, c₁.emit [Op.psh.word], ty⟩) =
      (wholeOr (accept c (parse fuel .assign ts >>= fun r =>
        closed .rbrack r.2 >>= fun ts => some (.index l r.1, ts)))
          (.gap l 1 [.brak] (part fuel .assign ts (c₁.emit [Op.psh.word])))).top c.code.length := by
  have hlen : (c₁.emit [Op.psh.word]).code.length = l.after c.code.length + 1 := by
    rw [length_emit, gen_after l c c₁ hl]
    rfl
  refine h.operand_step (.index l) hpass (fun e rest hread => ?_) (fun y c' hgen => ?_) ?_
  · simp only [Option.bind_eq_bind, Option.bind_eq_some_iff, Prod.exists] at hread
    obtain ⟨y, ts₁, hparse, ts₂, -, hpair⟩ := hread
    cases hpair
    exact ⟨y, ts₁, hparse, rfl⟩
  · simp only [Exp.gen, hl, Option.bind_eq_bind, Option.bind_some, Option.bind_eq_some_iff] at hgen
    obtain ⟨c₂, hy, -⟩ := hgen
    rw [hlen]
    exact ⟨⟨c₂, hy⟩, rfl⟩
  · rw [hlen]
    rfl

theorem Parts.assign_step (h : Parts fuel) (hl : l.gen c = some c₁) {x : Except String St} (ty : Nat)
    (hpass : x.toOption = emitted c (parse fuel .assign ts >>= fun r => some (.assign l r.1, r.2))) :
    max (max (l.top c.code.length) (onOk x (·.code.length)))
        (if c₁.endsLi then
          peakExpr fuel .assign ⟨ts, c₁.dropLi.emit [Op.psh.word], ty⟩ else 0) =
      (wholeOr (accept c (parse fuel .assign ts >>= fun r => some (.assign l r.1, r.2)))
        (if c₁.endsLi then .stored l (part fuel .assign ts (c₁.dropLi.emit [Op.psh.word]))
        else .whole l)).top c.code.length := by
  by_cases hends : c₁.endsLi = true
  · have hlen : (c₁.dropLi.emit [Op.psh.word]).code.length = l.after c.code.length - 1 := by
      have htwo := two_le_of_endsLi hends
      rw [length_emit, length_dropLi, ← gen_after l c c₁ hl, List.length_singleton]
      omega
    rw [if_pos hends, if_pos hends]
    refine h.operand_step (.assign l) hpass (fun e rest hread => ?_) (fun y c' hgen => ?_) ?_
    · simp only [Option.bind_eq_bind, Option.bind_eq_some_iff, Prod.exists] at hread
      obtain ⟨y, ts', hparse, hpair⟩ := hread
      cases hpair
      exact ⟨y, rest, hparse, rfl⟩
    · simp only [Exp.gen, hl, Option.bind_eq_bind, Option.bind_some, if_pos hends] at hgen
      obtain ⟨c₂, hy, -⟩ := Option.map_eq_some_iff.mp hgen
      rw [hlen]
      exact ⟨⟨c₂, hy⟩, rfl⟩
    · rw [hlen]
      rfl
  · rw [if_neg hends, if_neg hends]
    refine peak_wholeOr hpass (fun e rest c' hread hgen => ?_) fun _ => Nat.max_zero _
    simp only [Option.bind_eq_bind, Option.bind_eq_some_iff, Prod.exists] at hread
    obtain ⟨y, ts', hparse, hpair⟩ := hread
    cases hpair
    simp [Exp.gen, hl, hends] at hgen

theorem post_step_top (inc : Bool) {x : Except String St}
    (hpass : x.toOption = emitted c (some (.post inc l, ts))) :
    max (max (l.top c.code.length) (onOk x (·.code.length))) 0 =
      (wholeOr (accept c (some (.post inc l, ts))) (.whole l)).top c.code.length := by
  refine peak_wholeOr hpass (fun e rest c' hread hgen => ?_) fun _ => Nat.max_zero _
  cases hread
  exact Nat.max_zero _

/-- The operand of a call in the middle of an operator. -/
theorem Parts.inner (h : Parts fuel) (lev : Token) (ts : List Token) (c : Buf) (ty n : Nat)
    (hlen : c.code.length = n) : peakExpr fuel lev ⟨ts, c, ty⟩ = (part fuel lev ts c).top n := by
  rw [h.expr, hlen]

/-- `?:` from the colon on. -/
theorem Parts.colon_step (h : Parts fuel) {t : Exp} (hl : l.gen c = some c₁)
    (ht : t.gen (c₁.reserve .bz) = some c₂) {x : Except String St}
    (hpass : x.toOption = emitted c (closed .colon ts >>= fun ts => parse fuel .cond ts >>= fun r =>
      some (.cond l t r.1, r.2))) :
    max (max (l.top c.code.length) (onOk x (·.code.length)))
        (max (t.top (l.after c.code.length + 2))
          (onOk (St.expect ⟨ts, c₂, t.type⟩ .colon "conditional missing colon") fun s =>
            peakExpr fuel .cond ((s.patch ((c₁.reserve .bz).code.length - 1)
              (s.code.length + 2)).reserve .jmp))) =
      (wholeOr (accept c (closed .colon ts >>= fun ts => parse fuel .cond ts >>= fun r =>
        some (.cond l t r.1, r.2)))
          (match closed .colon ts with
            | some ts => .other l t (part fuel .cond ts
                ((c₂.patch (c₁.code.length + 1) (c₂.code.length + 2)).reserve .jmp))
            | none => .gap l 2 [.cond] (.whole t))).top c.code.length := by
  have hexpect := expect_toOption ts c₂ t.type .colon "conditional missing colon"
  cases hcolon : closed .colon ts with
  | none =>
    rw [hcolon] at hexpect hpass
    have hnone : ∀ f : St → Nat,
        onOk (St.expect ⟨ts, c₂, t.type⟩ .colon "conditional missing colon") f = 0 := by
      intro f
      cases hx : St.expect ⟨ts, c₂, t.type⟩ .colon "conditional missing colon" with
      | ok a => simp [hx, toOption_ok] at hexpect
      | error m => rfl
    rw [hnone, Nat.max_zero]
    exact peak_wholeOr hpass nofun fun _ => rfl
  | some ts₁ =>
    rw [hcolon] at hexpect hpass
    have hlen : ((c₂.patch (c₁.code.length + 1) (c₂.code.length + 2)).reserve .jmp).code.length =
        t.after (l.after c.code.length + 2) + 2 := by
      rw [length_reserve, length_patch, gen_after t _ c₂ ht, length_reserve, gen_after l c c₁ hl]
    have hlast := h.inner .cond ts₁
      ((c₂.patch (c₁.code.length + 1) (c₂.code.length + 2)).reserve .jmp) t.type _ hlen
    rw [ok_of_toOption hexpect, onOk, length_branch]
    have hstart : (St.patch ⟨ts₁, c₂, t.type⟩ (c₁.code.length + 1)
        ((St.mk ts₁ c₂ t.type).code.length + 2)).reserve .jmp =
          ⟨ts₁, (c₂.patch (c₁.code.length + 1) (c₂.code.length + 2)).reserve .jmp, t.type⟩ := rfl
    rw [hstart, hlast]
    refine peak_wholeOr hpass (fun e rest c' hread hgen => ?_) fun _ => (Nat.max_assoc ..).symm
    simp only [Option.bind_eq_bind, Option.bind_some, Option.bind_eq_some_iff, Prod.exists] at hread
    obtain ⟨f, ts₂, hparse, hpair⟩ := hread
    cases hpair
    simp only [Exp.gen, hl, ht, Option.bind_eq_bind, Option.bind_some] at hgen
    obtain ⟨c₃, hf, -⟩ := branch_some hgen
    have hle := le_top f (t.after (l.after c.code.length + 2) + 2)
    rw [part_whole hparse hf, Part.top, Exp.top, Exp.after]
    omega

theorem Parts.cond_step (h : Parts fuel) (hl : l.gen c = some c₁) {x : Except String St} (ty : Nat)
    (hpass : x.toOption = emitted c (parse fuel .assign ts >>= fun r =>
      closed .colon r.2 >>= fun ts => parse fuel .cond ts >>= fun r' =>
        some (.cond l r.1 r'.1, r'.2))) :
    max (max (l.top c.code.length) (onOk x (·.code.length)))
        (max (peakExpr fuel .assign ⟨ts, c₁.reserve .bz, ty⟩)
          (onOk (PerfProf.Expr.expr fuel .assign ⟨ts, c₁.reserve .bz, ty⟩) fun s =>
            onOk (s.expect .colon "conditional missing colon") fun s =>
              peakExpr fuel .cond ((s.patch ((c₁.reserve .bz).code.length - 1)
                (s.code.length + 2)).reserve .jmp))) =
      (wholeOr (accept c (parse fuel .assign ts >>= fun r => closed .colon r.2 >>= fun ts =>
        parse fuel .cond ts >>= fun r' => some (.cond l r.1 r'.1, r'.2)))
          (match accept (c₁.reserve .bz) (parse fuel .assign ts) with
            | some (t, ts, c') => match closed .colon ts with
              | some ts => .other l t (part fuel .cond ts
                  ((c'.patch (c₁.code.length + 1) (c'.code.length + 2)).reserve .jmp))
              | none => .gap l 2 [.cond] (.whole t)
            | none => .gap l 2 [.cond] (part fuel .assign ts (c₁.reserve .bz)))).top
        c.code.length := by
  have hlen : (c₁.reserve .bz).code.length = l.after c.code.length + 2 := by
    rw [length_reserve, gen_after l c c₁ hl]
  rw [h.inner .assign ts (c₁.reserve .bz) ty _ hlen,
    onOk_accept ((twoPass fuel).expr .assign ts (c₁.reserve .bz) ty)]
  cases ht : accept (c₁.reserve .bz) (parse fuel .assign ts) with
  | none =>
    rw [Nat.max_zero]
    refine peak_wholeOr hpass (fun e rest c' hread hgen => ?_) fun _ => rfl
    simp only [Option.bind_eq_bind, Option.bind_eq_some_iff, Prod.exists] at hread
    obtain ⟨t, ts₁, hparse, ts₂, -, f, ts₃, -, hpair⟩ := hread
    cases hpair
    simp only [Exp.gen, hl, Option.bind_eq_bind, Option.bind_some, Option.bind_eq_some_iff] at hgen
    obtain ⟨c₂, ht', -⟩ := hgen
    cases ht.symm.trans (accept_some hparse ht')
  | some r =>
    obtain ⟨t, ts₁, c₂⟩ := r
    obtain ⟨hparse, ht'⟩ := of_accept ht
    rw [part_whole hparse ht', Part.top]
    rw [hparse, Option.bind_eq_bind, Option.bind_some] at hpass ⊢
    dsimp only at hpass ⊢
    exact h.colon_step hl ht' hpass

theorem Parts.operator_succ (h : Parts fuel) (l : Exp) (ts : List Token) (c c₁ : Buf)
    (hl : l.gen c = some c₁) :
    max (l.top c.code.length) (peakOperator (fuel+1) ⟨ts, c₁, l.type⟩) =
      (partOperator (fuel+1) l ts c).top c.code.length := by
  have hpass := (twoPass (fuel+1)).operator l ts c
  obtain ⟨tk, htk⟩ : ∃ tk, ts.headD .eof = tk := ⟨_, rfl⟩
  have hs : (St.mk ts c₁ l.type).tk = tk := htk
  rw [hl, Option.bind_some] at hpass
  rw [peakOperator, partOperator, hs, htk, hl, max_left hl]
  replace hpass := hpass.symm
  rw [parseOperator, htk] at hpass ⊢
  cases tk with
  | assign => exact h.assign_step hl l.type hpass
  | cond => exact h.cond_step hl l.type hpass
  | lor =>
    refine h.branch_step .bnz hl .lor l.type (fun y => ⟨?_, rfl, rfl⟩) hpass
    rw [Exp.gen, hl, Option.bind_eq_bind, Option.bind_some]
  | lan =>
    refine h.branch_step .bz hl .lan l.type (fun y => ⟨?_, rfl, rfl⟩) hpass
    rw [Exp.gen, hl, Option.bind_eq_bind, Option.bind_some]
  | brak => exact h.index_step hl l.type hpass
  | inc => exact post_step_top true hpass
  | dec => exact post_step_top false hpass
  | or => exact h.binary_step .or hl l.type hpass .or
  | xor => exact h.binary_step .xor hl l.type hpass .xor
  | and => exact h.binary_step .and hl l.type hpass .and
  | eq => exact h.binary_step .eq hl l.type hpass .eq
  | ne => exact h.binary_step .ne hl l.type hpass .ne
  | lt => exact h.binary_step .lt hl l.type hpass .lt
  | gt => exact h.binary_step .gt hl l.type hpass .gt
  | le => exact h.binary_step .le hl l.type hpass .le
  | ge => exact h.binary_step .ge hl l.type hpass .ge
  | shl => exact h.binary_step .shl hl l.type hpass .shl
  | shr => exact h.binary_step .shr hl l.type hpass .shr
  | add => exact h.binary_step .add hl l.type hpass .add
  | sub => exact h.binary_step .sub hl l.type hpass .sub
  | mul => exact h.binary_step .mul hl l.type hpass .mul
  | div => exact h.binary_step .div hl l.type hpass .div
  | mod => exact h.binary_step .mod hl l.type hpass .mod
  | _ => exact peak_wholeOr hpass (fun _ _ _ hr _ => by cases hr) fun _ => Nat.max_zero _

theorem parts (fuel : Nat) : Parts fuel := by
  induction fuel with
  | zero =>
    refine ⟨fun _ _ _ _ => rfl, fun _ _ _ => rfl, fun _ _ _ _ => rfl, ?_, ?_⟩
    · intro lev l ts c c₁ hl
      exact (Nat.max_eq_left ((Nat.le_of_eq (gen_after l c c₁ hl)).trans (le_top l _).2))
    · intro l ts c c₁ hl
      exact (Nat.max_eq_left ((Nat.le_of_eq (gen_after l c c₁ hl)).trans (le_top l _).2))
  | succ fuel ih =>
    exact ⟨ih.expr_succ, ih.primary_succ, ih.args_succ, ih.climb_succ, ih.operator_succ⟩

end Exact

section Program

/-- The loop of `expr_compile` gets as far as what it has read. -/
theorem peakExprs_part (fuel : Nat) (ts : List Token) (c : Buf) (ty : Nat) :
    peakExprs fuel ⟨ts, c, ty⟩ = (partAll fuel ts c).top c.code.length := by
  induction fuel generalizing ts c ty with
  | zero => rfl
  | succ fuel ih =>
    rw [peakExprs, partAll, onOk_accept ((twoPass _).expr .assign ts c ty), (parts _).expr]
    cases hr : accept c (parse (3 * ts.length + 3) .assign ts) with
    | none => exact Nat.max_zero _
    | some t =>
      obtain ⟨e, ts₁, c₁⟩ := t
      obtain ⟨hread, hgen⟩ := of_accept hr
      have hlen : c₁.code.length = e.after c.code.length := gen_after e c c₁ hgen
      have htk : (St.mk ts₁ c₁ e.type).tk = ts₁.headD .eof := rfl
      rw [part_whole hread hgen, Part.top]
      dsimp only
      rw [htk]
      by_cases hcomma : ts₁.headD .eof = .comma
      · rw [if_pos hcomma, if_pos hcomma, Part.top, Nat.add_zero, ← hlen]
        exact congrArg _ (ih ts₁.tail c₁ e.type)
      · have hexit : (St.emit ⟨ts₁, c₁, e.type⟩ [Op.exit.word]).code.length = c₁.code.length + 1 :=
          length_emit c₁ _
        rw [if_neg hcomma, if_neg hcomma, Part.top, ← hlen, hexit]

/-- What is read of an accepted text are its trees. -/
theorem partAll_top {fuel : Nat} {ts rest : List Token} {e : Exp} {es : List Exp} {c c' : Buf}
    (hread : readAll fuel ts = some (e, es, rest)) (hgen : genAll e es c = some c') :
    (partAll fuel ts c).top c.code.length = topAll e es c.code.length := by
  induction fuel generalizing ts e es c with
  | zero => cases hread
  | succ fuel ih =>
    simp only [readAll, Option.bind_eq_bind, Option.bind_eq_some_iff, Prod.exists] at hread
    obtain ⟨e₁, ts₁, hparse, hread⟩ := hread
    rw [partAll]
    split at hread
    · rename_i hcomma
      simp only [Option.bind_eq_some_iff, Prod.exists] at hread
      obtain ⟨e', es', rest', hmore, hpair⟩ := hread
      cases hpair
      simp only [genAll, Option.bind_eq_bind, Option.bind_eq_some_iff] at hgen
      obtain ⟨c₁, hgen₁, hgen'⟩ := hgen
      rw [accept_some hparse hgen₁]
      dsimp only
      rw [if_pos hcomma, Part.top, topAll, Nat.add_zero, ← gen_after e c c₁ hgen₁, ih hmore hgen']
    · rename_i hcomma
      cases hread
      rw [accept_some hparse hgen]
      dsimp only
      rw [if_neg hcomma]
      rfl

/-- Every run, accepted or not, stays within what its tokens bring. -/
theorem peakExprs_le (fuel : Nat) (s : St) : peakExprs fuel s ≤ s.credit := by
  induction fuel generalizing s with
  | zero => exact length_le_credit s
  | succ fuel ih =>
    rw [peakExprs]
    refine Nat.max_le.mpr ⟨(within _).expr .assign s, onOk_le fun s' hs' => ?_⟩
    have hcost := (expr_spends (k := 14) (by decide) (by decide) hs').credit
    split_ifs with hcomma
    · have hnext := credit_next (s := s') (by rw [hcomma]; exact nofun)
      have hpeak := ih s'.next
      omega
    · have hemit := credit_emit s' [Op.exit.word]
      have hlen := length_le_credit (s'.emit [Op.exit.word])
      rw [List.length_singleton] at hemit
      omega

end Program

end PerfProf.Expr
