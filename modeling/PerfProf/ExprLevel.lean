import PerfProf.ExprParse

/-! The levels passed to the recursive calls of `expr` are those of the documented precedence: the
tokens of an expression of the grammar are read back as its tree. -/
namespace PerfProf.Expr

section Levels

/-- The level at which an expression of a documented precedence is read. -/
def levOf : Nat → Token
  | 0 | 1 | 2 => .inc
  | 3 => .mul
  | 4 => .add
  | 5 => .shl
  | 6 => .lt
  | 7 => .eq
  | 8 => .and
  | 9 => .xor
  | 10 => .or
  | 11 => .lan
  | 12 => .lor
  | 13 => .cond
  | _ => .assign

def entry (k : Nat) : Nat := (levOf k).rank

/-- The token after an expression of precedence `k` must come before this one. -/
def stop (k : Nat) : Nat :=
  if k ≤ 1 then 24 else if k ≤ 3 then entry 2 else if k ≤ 12 then entry (k - 1) else entry k

theorem entry_anti {j k : Nat} (hk : k ≤ 14) (h : j ≤ k) : entry k ≤ entry j := by
  have hall : ∀ k < 15, ∀ j < 15, j ≤ k → entry k ≤ entry j := by decide
  exact hall k (by omega) j (by omega) h

theorem stop_anti {j k : Nat} (hk : k ≤ 14) (h : j ≤ k) : stop k ≤ stop j := by
  have hall : ∀ k < 15, ∀ j < 15, j ≤ k → stop k ≤ stop j := by decide
  exact hall k (by omega) j (by omega) h

theorem entry_pos (k : Nat) : 1 ≤ entry k := by
  unfold entry levOf
  split <;> decide

theorem stop_pos {k : Nat} (hk : k ≤ 14) : 1 ≤ stop k := by
  have hall : ∀ k < 15, 1 ≤ stop k := by decide
  exact hall k (by omega)

/-- A parenthesis makes a call of an identifier, and a string is joined to the one before it. -/
def Token.joins : Token → Bool
  | .lparen | .str _ => true
  | _ => false

theorem Token.rank_lt (tk : Token) : tk.rank < 24 := by
  cases tk <;> simp [Token.rank]

theorem BinOp.level_facts (op : BinOp) :
    3 ≤ op.level ∧ op.level ≤ 10 ∧ entry op.level ≤ op.token.rank ∧ op.token.rank < stop op.level ∧
      op.operand.rank = entry (op.level - 1) ∧ stop op.level = entry (op.level - 1) ∧
      op.token.joins = false := by
  cases op <;> decide

theorem Exp.level_le (e : Exp) : e.level ≤ 14 := by
  cases e with
  | bin op l r => exact (BinOp.level_facts op).2.1.trans (by decide)
  | _ => simp [Exp.level]

theorem parseOperator_bin (op : BinOp) (fuel : Nat) (l : Exp) (ts : List Token) :
    parseOperator (fuel+1) l (op.token :: ts) =
      (parse fuel op.operand ts).bind fun r => some (.bin op l r.1, r.2) := by
  cases op <;> rw [parseOperator] <;> rfl

end Levels

section Reads
variable {e l r : Exp} {rest : List Token}

/-- What may come after an expression of precedence `k`. -/
def Follows (k : Nat) (rest : List Token) : Prop :=
  (rest.headD .eof).rank < stop k ∧ (rest.headD .eof).joins = false

/-- The tokens of `e` take `expr` to the head of its loop, with the tree of `e`. -/
def Reads (e : Exp) : Prop :=
  ∀ (fuel : Nat) (lev : Token) (rest : List Token), 1 ≤ lev.rank → lev.rank ≤ entry e.level →
    Follows e.level rest → 3 * (e.toks ++ rest).length + 3 ≤ fuel →
    ∃ fuel', 3 * rest.length + 2 ≤ fuel' ∧
      parse fuel lev (e.toks ++ rest) = parseClimb fuel' lev e rest

theorem Follows.mono {j k : Nat} (h : Follows k rest) (hk : k ≤ 14) (hj : j ≤ k) : Follows j rest :=
  ⟨Nat.lt_of_lt_of_le h.1 (stop_anti hk hj), h.2⟩

theorem follows_of_rank {tk : Token} (h : tk.rank = 0) (hl : tk.joins = false) (ts : List Token)
    {k : Nat} (hk : k ≤ 14) : Follows k (tk :: ts) :=
  ⟨by rw [List.headD_cons, h]; exact stop_pos hk, hl⟩

theorem parseClimb_done {fuel : Nat} {lev : Token} (hf : 1 ≤ fuel)
    (h : (rest.headD .eof).rank < lev.rank) : parseClimb fuel lev e rest = some (e, rest) := by
  obtain ⟨f, rfl⟩ : ∃ f, fuel = f + 1 := ⟨fuel - 1, by omega⟩
  rw [parseClimb, if_neg (by omega)]

/-- A whole operand is read at its level. -/
theorem Reads.full (h : Reads e) {n : Nat} {t : Token} (h1 : 1 ≤ t.rank)
    (hlev : t.rank ≤ entry e.level) (hrest : Follows e.level rest)
    (hstop : (rest.headD .eof).rank < t.rank) (hf : 3 * (e.toks ++ rest).length + 3 ≤ n) :
    parse n t (e.toks ++ rest) = some (e, rest) := by
  obtain ⟨fuel', hf', heq⟩ := h n t rest h1 hlev hrest hf
  rw [heq]
  exact parseClimb_done (by omega) hstop

/-- An operand or a prefix operator. -/
theorem reads_of_primary
    (h : ∀ fuel rest, Follows e.level rest → 3 * (e.toks ++ rest).length ≤ fuel →
      parsePrimary (fuel+1) (e.toks ++ rest) = some (e, rest)) : Reads e := by
  intro fuel lev rest _ _ hrest hf
  obtain ⟨f, rfl⟩ : ∃ f, fuel = f + 2 := ⟨fuel - 2, by omega⟩
  refine ⟨f + 1, ?_, ?_⟩
  · rw [List.length_append] at hf
    omega
  · rw [parse, h f rest hrest (by omega)]
    rfl

/-- The tokens of `l` take a loop of level `k` to the operator `tk`, with the tree of `l`. -/
def ReadsTo (k : Nat) (tk : Token) (l : Exp) : Prop :=
  ∀ (fuel : Nat) (lev : Token) (ts : List Token), 1 ≤ lev.rank → lev.rank ≤ entry k →
    3 * (l.toks ++ tk :: ts).length + 3 ≤ fuel →
    ∃ fuel', 3 * (tk :: ts).length + 2 ≤ fuel' ∧
      parse fuel lev (l.toks ++ tk :: ts) = parseClimb fuel' lev l (tk :: ts)

theorem Reads.to (h : Reads l) {k : Nat} (hk : k ≤ 14) (hlevel : l.level ≤ k) {tk : Token}
    (hfollow : ∀ ts, Follows l.level (tk :: ts)) : ReadsTo k tk l :=
  fun fuel lev ts h1 hlev hf => h fuel lev _ h1 (hlev.trans (entry_anti hk hlevel)) (hfollow ts) hf

/-- An operator after its left operand. -/
theorem reads_of_turn {tk : Token} {ts : List Token} (hl : ReadsTo e.level tk l)
    (htoks : e.toks = l.toks ++ tk :: ts) (hentry : entry e.level ≤ tk.rank)
    (h : ∀ fuel rest, Follows e.level rest → 3 * (ts ++ rest).length + 3 ≤ fuel →
      parseOperator (fuel+1) l (tk :: (ts ++ rest)) = some (e, rest)) : Reads e := by
  intro fuel lev rest h1 hlev hrest hf
  have hlist : e.toks ++ rest = l.toks ++ (tk :: (ts ++ rest)) := by
    rw [htoks, List.append_assoc]
    rfl
  rw [hlist] at hf ⊢
  obtain ⟨fuel₁, hf₁, heq⟩ := hl fuel lev _ h1 hlev hf
  rw [List.length_cons] at hf₁
  obtain ⟨f, rfl⟩ : ∃ f, fuel₁ = f + 2 := ⟨fuel₁ - 2, by omega⟩
  refine ⟨f + 1, ?_, ?_⟩
  · rw [List.length_append] at hf₁
    omega
  · rw [heq, parseClimb, List.headD_cons, if_pos (hlev.trans hentry), h f rest hrest (by omega)]
    rfl

theorem reads_of_operator {tk : Token} {ts : List Token} (hl : Reads l)
    (htoks : e.toks = l.toks ++ tk :: ts) (hlevel : l.level ≤ e.level)
    (hentry : entry e.level ≤ tk.rank) (hfollow : Follows l.level (tk :: ts))
    (h : ∀ fuel rest, Follows e.level rest → 3 * (ts ++ rest).length + 3 ≤ fuel →
      parseOperator (fuel+1) l (tk :: (ts ++ rest)) = some (e, rest)) : Reads e :=
  reads_of_turn (hl.to e.level_le hlevel fun _ => hfollow) htoks hentry h

/-- No expression starts with a closing parenthesis or a type. -/
theorem toks_head : ∀ e : Exp, ∃ tk ts, e.toks = tk :: ts ∧ tk ≠ .rparen ∧ tk.intType = none
  | .num v => ⟨.num v, [], rfl, nofun, rfl⟩
  | .negNum v => ⟨.sub, [.num v], rfl, nofun, rfl⟩
  | .str v more => ⟨.str v, more.map .str, rfl, nofun, rfl⟩
  | .var s => ⟨.id s, [], rfl, nofun, rfl⟩
  | .sizeof type n => ⟨.sizeof, typeToks type n, rfl, nofun, rfl⟩
  | .call s as => ⟨.id s, _, rfl, nofun, rfl⟩
  | .paren e => ⟨.lparen, _, rfl, nofun, rfl⟩
  | .un op e => ⟨op.token, _, rfl, by cases op <;> exact nofun, by cases op <;> rfl⟩
  | .deref e => ⟨.mul, _, rfl, nofun, rfl⟩
  | .addr e => ⟨.and, _, rfl, nofun, rfl⟩
  | .pre inc e => ⟨incToken inc, _, rfl, by cases inc <;> exact nofun, by cases inc <;> rfl⟩
  | .cast type n e => ⟨.lparen, _, rfl, nofun, rfl⟩
  | .index e i => by
    obtain ⟨tk, ts, h, h1, h2⟩ := toks_head e
    exact ⟨tk, _, by rw [Exp.toks, h]; rfl, h1, h2⟩
  | .post inc e => by
    obtain ⟨tk, ts, h, h1, h2⟩ := toks_head e
    exact ⟨tk, _, by rw [Exp.toks, h]; rfl, h1, h2⟩
  | .bin op l r => by
    obtain ⟨tk, ts, h, h1, h2⟩ := toks_head l
    exact ⟨tk, _, by rw [Exp.toks, h]; rfl, h1, h2⟩
  | .land l r => by
    obtain ⟨tk, ts, h, h1, h2⟩ := toks_head l
    exact ⟨tk, _, by rw [Exp.toks, h]; rfl, h1, h2⟩
  | .lor l r => by
    obtain ⟨tk, ts, h, h1, h2⟩ := toks_head l
    exact ⟨tk, _, by rw [Exp.toks, h]; rfl, h1, h2⟩
  | .cond c t f => by
    obtain ⟨tk, ts, h, h1, h2⟩ := toks_head c
    exact ⟨tk, _, by rw [Exp.toks, h]; rfl, h1, h2⟩
  | .assign l r => by
    obtain ⟨tk, ts, h, h1, h2⟩ := toks_head l
    exact ⟨tk, _, by rw [Exp.toks, h]; rfl, h1, h2⟩

/-- Nothing is applied to a number from the right: it is no pointer and no lvalue. -/
theorem toks_head_num : ∀ e : Exp, e.Grammar → e.level ≤ 2 → e.isNum = false →
    ∃ tk ts, e.toks = tk :: ts ∧ tk.numVal = none
  | .num v, _, _, hn => by cases hn
  | .negNum v, _, _, _ => ⟨.sub, [.num v], rfl, rfl⟩
  | .str v more, _, _, _ => ⟨.str v, more.map .str, rfl, rfl⟩
  | .var s, _, _, _ => ⟨.id s, [], rfl, rfl⟩
  | .sizeof type n, _, _, _ => ⟨.sizeof, typeToks type n, rfl, rfl⟩
  | .call s as, _, _, _ => ⟨.id s, _, rfl, rfl⟩
  | .paren e, _, _, _ => ⟨.lparen, _, rfl, rfl⟩
  | .un op e, _, _, _ => ⟨op.token, _, rfl, by cases op <;> rfl⟩
  | .deref e, _, _, _ => ⟨.mul, _, rfl, rfl⟩
  | .addr e, _, _, _ => ⟨.and, _, rfl, rfl⟩
  | .pre inc e, _, _, _ => ⟨incToken inc, _, rfl, by cases inc <;> rfl⟩
  | .cast type n e, _, _, _ => ⟨.lparen, _, rfl, rfl⟩
  | .index e i, hg, _, _ => by
    obtain ⟨hge, -, hlev, hty⟩ := hg
    have hnum : e.isNum = false := by
      cases e with
      | num v => exact absurd hty (by simp [Exp.type, tyInt, ptr])
      | _ => rfl
    obtain ⟨tk, ts, h, h1⟩ := toks_head_num e hge (by omega) hnum
    exact ⟨tk, _, by rw [Exp.toks, h]; rfl, h1⟩
  | .post inc e, hg, _, _ => by
    obtain ⟨hge, hlev, hlv⟩ := hg
    have hnum : e.isNum = false := by
      cases e with
      | num v => cases hlv
      | _ => rfl
    obtain ⟨tk, ts, h, h1⟩ := toks_head_num e hge (by omega) hnum
    exact ⟨tk, _, by rw [Exp.toks, h]; rfl, h1⟩
  | .bin op l r, _, hlev, _ => by
    have := (BinOp.level_facts op).1
    simp only [Exp.level] at hlev
    omega
  | .land .., _, hlev, _ => absurd hlev (by simp [Exp.level])
  | .lor .., _, hlev, _ => absurd hlev (by simp [Exp.level])
  | .cond .., _, hlev, _ => absurd hlev (by simp [Exp.level])
  | .assign .., _, hlev, _ => absurd hlev (by simp [Exp.level])

theorem Reads.bin {op : BinOp} (hl : Reads l) (hr : Reads r) (h1 : l.level ≤ op.level)
    (h2 : r.level < op.level) : Reads (.bin op l r) := by
  obtain ⟨h3, h10, hentry, hstop, hoperand, hstop', hne⟩ := op.level_facts
  refine reads_of_operator hl rfl h1 hentry ?_ fun fuel rest hrest hf => ?_
  · exact ⟨Nat.lt_of_lt_of_le hstop (stop_anti (by omega) h1), hne⟩
  have hlt : (rest.headD .eof).rank < op.operand.rank := by
    have hlt : (rest.headD .eof).rank < stop op.level := hrest.1
    rw [hoperand, ← hstop']
    exact hlt
  rw [parseOperator_bin, hr.full (by rw [hoperand]; exact entry_pos _) ?_ ?_ hlt hf]
  · rfl
  · rw [hoperand]
    exact entry_anti (by omega) (by omega)
  · exact hrest.mono (show op.level ≤ 14 by omega) (Nat.le_of_lt h2)

theorem parseType_toks (n : Nat) (ts : List Token) :
    parseType (List.replicate n .mul ++ .rparen :: ts) = some (n, ts) := by
  have htake : (List.replicate n Token.mul ++ .rparen :: ts).takeWhile (· = .mul) =
      List.replicate n .mul := by
    rw [List.takeWhile_append_of_pos (by simp)]
    simp
  have hdrop : (List.replicate n Token.mul ++ .rparen :: ts).dropWhile (· = .mul) =
      .rparen :: ts := by
    rw [List.dropWhile_append_of_pos (by simp)]
    simp
  unfold parseType
  rw [hdrop, htake, List.length_replicate]

theorem closed_cons (tk : Token) (ts : List Token) : closed tk (tk :: ts) = some ts := by
  simp [closed]

/-- The operand of a prefix operator. -/
theorem Reads.prefixed (h : Reads e) (hlev : e.level ≤ 2) {n k : Nat} (hk : 2 ≤ k) (hk' : k ≤ 3)
    (hrest : Follows k rest) (hf : 3 * (e.toks ++ rest).length + 3 ≤ n) :
    parse n .inc (e.toks ++ rest) = some (e, rest) := by
  have hentry : entry e.level = Token.inc.rank := by
    have hall : ∀ k < 3, entry k = Token.inc.rank := by decide
    exact hall _ (by omega)
  refine h.full (by decide) (by rw [hentry]) (hrest.mono (by omega) (by omega)) ?_ hf
  have hall : ∀ k < 4, 2 ≤ k → stop k = Token.inc.rank := by decide
  rw [← hall k (by omega) hk]
  exact hrest.1

/-- What stands between brackets. -/
theorem Reads.inner (h : Reads e) {t : Token} (hrank : t.rank = 0) (htk : t.joins = false)
    (ts : List Token) {n : Nat} (hf : 3 * (e.toks ++ t :: ts).length + 3 ≤ n) :
    parse n .assign (e.toks ++ t :: ts) = some (e, t :: ts) := by
  refine h.full (by decide) ?_ (follows_of_rank hrank htk ts e.level_le) ?_ hf
  · have hassign : Token.assign.rank = entry 14 := by decide
    rw [hassign]
    exact entry_anti (Nat.le_refl 14) e.level_le
  · rw [List.headD_cons, hrank]
    decide

theorem Reads.land (hl : Reads l) (hr : Reads r) (h1 : l.level ≤ 11) (h2 : r.level < 11) :
    Reads (.land l r) := by
  refine reads_of_operator hl rfl h1 (by decide : entry 11 ≤ Token.lan.rank) ?_
    fun fuel rest hrest hf => ?_
  · exact ⟨Nat.lt_of_lt_of_le (by decide : Token.lan.rank < stop 11) (stop_anti (by decide) h1), rfl⟩
  · have hread := hr.full (t := .or) (by decide)
      (entry_anti (by decide : 10 ≤ 14) (Nat.le_of_lt_succ h2))
      (hrest.mono (by decide : 11 ≤ 14) (Nat.le_of_lt h2)) hrest.1 hf
    simp only [parseOperator, List.headD_cons, List.tail_cons, hread]
    rfl

theorem Reads.lor (hl : Reads l) (hr : Reads r) (h1 : l.level ≤ 12) (h2 : r.level < 12) :
    Reads (.lor l r) := by
  refine reads_of_operator hl rfl h1 (by decide : entry 12 ≤ Token.lor.rank) ?_
    fun fuel rest hrest hf => ?_
  · exact ⟨Nat.lt_of_lt_of_le (by decide : Token.lor.rank < stop 12) (stop_anti (by decide) h1), rfl⟩
  · have hread := hr.full (t := .lan) (by decide)
      (entry_anti (by decide : 11 ≤ 14) (Nat.le_of_lt_succ h2))
      (hrest.mono (by decide : 12 ≤ 14) (Nat.le_of_lt h2)) hrest.1 hf
    simp only [parseOperator, List.headD_cons, List.tail_cons, hread]
    rfl

theorem Reads.assign (hl : Reads l) (hr : Reads r) (h1 : l.level ≤ 13) : Reads (.assign l r) := by
  refine reads_of_operator hl rfl (h1.trans (by decide : 13 ≤ 14))
    (by decide : entry 14 ≤ Token.assign.rank) ?_ fun fuel rest hrest hf => ?_
  · exact ⟨Nat.lt_of_lt_of_le (by decide : Token.assign.rank < stop 13)
      (stop_anti (by decide) h1), rfl⟩
  · have hread := hr.full (t := .assign) (by decide) (entry_anti (by decide : 14 ≤ 14) r.level_le)
      (hrest.mono (by decide : 14 ≤ 14) r.level_le) hrest.1 hf
    simp only [parseOperator, List.headD_cons, List.tail_cons, hread]
    rfl

theorem Reads.cond {c t f : Exp} (hc : Reads c) (ht : Reads t) (hf' : Reads f) (h1 : c.level ≤ 12)
    (h2 : f.level ≤ 13) : Reads (.cond c t f) := by
  refine reads_of_operator hc rfl (h1.trans (by decide : 12 ≤ 13))
    (by decide : entry 13 ≤ Token.cond.rank) ?_ fun fuel rest hrest hf => ?_
  · exact ⟨Nat.lt_of_lt_of_le (by decide : Token.cond.rank < stop 12)
      (stop_anti (by decide) h1), rfl⟩
  · rw [List.append_assoc, List.cons_append] at hf ⊢
    have hmid := ht.inner (t := .colon) rfl rfl (f.toks ++ rest) hf
    have hlast := hf'.full (t := .cond) (n := fuel) (by decide)
      (entry_anti (by decide : 13 ≤ 14) h2) (hrest.mono (by decide : 13 ≤ 14) h2) hrest.1 (by
        simp only [List.length_append, List.length_cons] at hf ⊢
        omega)
    simp only [parseOperator, List.headD_cons, List.tail_cons, hmid, Option.bind_eq_bind,
      Option.bind_some, closed_cons, hlast]

/-- An operand of a postfix operator, up to the operator. -/
def ReadsTight (e : Exp) : Prop :=
  ∀ tk : Token, entry 1 ≤ tk.rank → tk.joins = false → ReadsTo 1 tk e

theorem Reads.tight (h : Reads e) (h1 : e.level ≤ 1) : ReadsTight e := by
  intro tk _ hjoin
  refine h.to (by decide) h1 fun ts => ⟨?_, hjoin⟩
  have hstop : stop e.level = 24 := if_pos h1
  rw [hstop]
  exact tk.rank_lt

theorem ReadsTight.index {i : Exp} (hl : ReadsTight e) (hi : Reads i) : Reads (.index e i) := by
  have htk : entry 1 ≤ Token.brak.rank := by decide
  refine reads_of_turn (hl .brak htk rfl) rfl htk fun fuel rest hrest hf => ?_
  rw [List.append_assoc, List.singleton_append] at hf ⊢
  have hmid := hi.inner (t := .rbrack) rfl rfl rest hf
  simp only [parseOperator, List.headD_cons, List.tail_cons, hmid, Option.bind_eq_bind,
    Option.bind_some, closed_cons]

theorem ReadsTight.post (inc : Bool) (hl : ReadsTight e) : Reads (.post inc e) := by
  have htk : entry 1 ≤ (incToken inc).rank ∧ (incToken inc).joins = false := by
    cases inc <;> decide
  refine reads_of_turn (hl _ htk.1 htk.2) rfl htk.1 fun fuel rest hrest hf => ?_
  cases inc <;> rfl

end Reads

section Primaries
variable {e : Exp} {rest : List Token}

theorem reads_num (v : Long) : Reads (.num v) := by
  refine reads_of_primary fun fuel rest hrest hf => ?_
  simp only [parsePrimary, Exp.toks, List.singleton_append, List.headD_cons]
  rfl

theorem reads_negNum (v : Long) : Reads (.negNum v) := by
  refine reads_of_primary fun fuel rest hrest hf => ?_
  simp only [parsePrimary, Exp.toks, List.cons_append, List.headD_cons, List.tail_cons]
  rfl

theorem reads_var (s : Symbol) : Reads (.var s) := by
  refine reads_of_primary fun fuel rest hrest hf => ?_
  show parsePrimary (fuel+1) (.id s :: rest) = some (.var s, rest)
  have hopen : rest.headD .eof ≠ .lparen := by
    intro hopen
    have hjoin := hrest.2
    rw [hopen] at hjoin
    cases hjoin
  rw [parsePrimary]
  exact if_neg hopen

theorem strVals_toks (more : List Long) (h : (rest.headD .eof).joins = false) :
    strVals (more.map .str ++ rest) = more ∧
      (more.map Token.str ++ rest).dropWhile St.isStr = rest := by
  induction more with
  | nil =>
    cases rest with
    | nil => exact ⟨rfl, rfl⟩
    | cons tk rest =>
      cases tk with
      | str v => cases h
      | _ => exact ⟨rfl, rfl⟩
  | cons w more ih => exact ⟨congrArg (w :: ·) ih.1, ih.2⟩

theorem reads_str (v : Long) (more : List Long) : Reads (.str v more) := by
  refine reads_of_primary fun fuel rest hrest hf => ?_
  obtain ⟨hvals, hdrop⟩ := strVals_toks more hrest.2
  rw [Exp.toks, List.cons_append, parsePrimary]
  have hstrs : ((Token.str v) :: (more.map Token.str ++ rest)).dropWhile St.isStr = rest := hdrop
  simp only [parseOperand, List.headD_cons, List.tail_cons, hvals, hstrs]

theorem reads_sizeof (type n : Nat) : Reads (.sizeof type n) := by
  refine reads_of_primary fun fuel rest hrest hf => ?_
  have htoks : (Exp.sizeof type n).toks ++ rest =
      .sizeof :: .lparen :: .int type :: (List.replicate n .mul ++ .rparen :: rest) := by
    simp [Exp.toks, typeToks]
  rw [htoks]
  simp only [parsePrimary, parseOperand, List.headD_cons, List.tail_cons, closed_cons,
    Option.bind_eq_bind, Option.bind_some, Token.intType, parseType_toks]

/-- The tokens of the arguments take the loop over them behind the closing parenthesis. -/
def ReadsArgs (as : Args) : Prop :=
  ∀ (fuel : Nat) (rest : List Token), 3 * (as.toks ++ .rparen :: rest).length + 4 ≤ fuel →
    parseArgs fuel (as.toks ++ .rparen :: rest) = some (as, rest)

theorem readsArgs_nil : ReadsArgs .nil := by
  intro fuel rest hf
  obtain ⟨f, rfl⟩ : ∃ f, fuel = f + 1 := ⟨fuel - 1, by omega⟩
  rw [parseArgs, Args.toks, List.nil_append, List.headD_cons, if_pos rfl]
  rfl

theorem readsArgs_cons (h : Reads e) {comma : Bool} {as : Args} (has : ReadsArgs as)
    (hcomma : comma = true ↔ as.count ≠ 0) : ReadsArgs (.cons e comma as) := by
  intro fuel rest hf
  obtain ⟨tk, ts, hhead, hne, -⟩ := toks_head e
  obtain ⟨f, rfl⟩ : ∃ f, fuel = f + 1 := ⟨fuel - 1, by omega⟩
  have htoks : (Args.cons e comma as).toks ++ .rparen :: rest =
      e.toks ++ ((if comma then [.comma] else []) ++ (as.toks ++ .rparen :: rest)) := by
    simp [Args.toks]
  rw [htoks] at hf ⊢
  have hfirst : ∀ after, (e.toks ++ after).headD .eof ≠ .rparen := by
    rw [hhead]
    exact fun _ => hne
  have hlen : 1 ≤ e.toks.length := by
    rw [hhead]
    exact Nat.succ_le_succ (Nat.zero_le _)
  rw [List.length_append] at hf
  rw [parseArgs, if_neg (hfirst _)]
  cases comma with
  | true =>
    rw [if_pos rfl, List.singleton_append] at hf ⊢
    rw [List.length_cons] at hf
    have hmid := h.inner (t := .comma) rfl rfl (as.toks ++ .rparen :: rest) (n := f) (by
      rw [List.length_append, List.length_cons]
      omega)
    have hrest := has f rest (by omega)
    simp [hmid, hrest]
  | false =>
    have hnil : as = .nil := by
      cases as with
      | nil => rfl
      | cons e' comma' as' => cases hcomma.mpr (Nat.succ_ne_zero _)
    rw [hnil, Args.toks, if_neg Bool.false_ne_true, List.nil_append, List.nil_append] at hf ⊢
    rw [List.length_cons] at hf
    have hmid := h.inner (t := .rparen) rfl rfl rest (n := f) (by
      rw [List.length_append, List.length_cons]
      omega)
    have hrest := readsArgs_nil f rest (by
      rw [Args.toks, List.nil_append, List.length_cons]
      omega)
    rw [Args.toks, List.nil_append] at hrest
    simp [hmid, hrest]

theorem ReadsArgs.call {as : Args} (h : ReadsArgs as) (s : Symbol) : Reads (.call s as) := by
  refine reads_of_primary fun fuel rest hrest hf => ?_
  have htoks : (Exp.call s as).toks ++ rest = .id s :: .lparen :: (as.toks ++ .rparen :: rest) := by
    simp [Exp.toks]
  rw [htoks] at hf ⊢
  rw [List.length_cons, List.length_cons] at hf
  have hargs := h fuel rest (by omega)
  simp only [parsePrimary, List.headD_cons, List.tail_cons, if_true, hargs, Option.bind_eq_bind,
    Option.bind_some]

theorem Reads.paren (h : Reads e) : Reads (.paren e) := by
  refine reads_of_primary fun fuel rest hrest hf => ?_
  have htoks : (Exp.paren e).toks ++ rest = .lparen :: (e.toks ++ .rparen :: rest) := by
    simp [Exp.toks]
  rw [htoks] at hf ⊢
  obtain ⟨tk, ts, hhead, -, hint⟩ := toks_head e
  have hfirst : ((e.toks ++ .rparen :: rest).headD .eof).intType = none := by
    rw [hhead]
    exact hint
  have hmid := h.inner (t := .rparen) rfl rfl rest (n := fuel) (by
    rw [List.length_cons] at hf
    omega)
  simp only [parsePrimary, List.headD_cons, List.tail_cons, hfirst, hmid, Option.bind_eq_bind,
    Option.bind_some, closed_cons]

/-- The fuel that is left for the operand of a prefix operator. -/
theorem prefixed_fuel {tk : Token} {ts : List Token} {fuel : Nat}
    (hf : 3 * (tk :: ts).length ≤ fuel) : 3 * ts.length + 3 ≤ fuel := by
  rw [List.length_cons] at hf
  omega

theorem Reads.deref (h : Reads e) (hlev : e.level ≤ 2) : Reads (.deref e) := by
  refine reads_of_primary fun fuel rest hrest hf => ?_
  have hread := h.prefixed hlev (k := 2) (by decide) (by decide) hrest (prefixed_fuel hf)
  simp only [parsePrimary, Exp.toks, List.cons_append, List.headD_cons, List.tail_cons, hread]
  rfl

theorem Reads.addr (h : Reads e) (hlev : e.level ≤ 2) : Reads (.addr e) := by
  refine reads_of_primary fun fuel rest hrest hf => ?_
  have hread := h.prefixed hlev (k := 2) (by decide) (by decide) hrest (prefixed_fuel hf)
  simp only [parsePrimary, Exp.toks, List.cons_append, List.headD_cons, List.tail_cons, hread]
  rfl

theorem Reads.pre (inc : Bool) (h : Reads e) (hlev : e.level ≤ 2) : Reads (.pre inc e) := by
  refine reads_of_primary fun fuel rest hrest hf => ?_
  have hread := h.prefixed hlev (k := 2) (by decide) (by decide) hrest (prefixed_fuel hf)
  cases inc <;>
    simp only [parsePrimary, Exp.toks, incToken, List.cons_append, List.headD_cons, List.tail_cons,
      hread, if_true, Bool.false_eq_true, if_false] <;>
    rfl

theorem Reads.cast (type n : Nat) (h : Reads e) (hlev : e.level ≤ 2) : Reads (.cast type n e) := by
  refine reads_of_primary fun fuel rest hrest hf => ?_
  have htoks : (Exp.cast type n e).toks ++ rest =
      .lparen :: .int type :: (List.replicate n .mul ++ .rparen :: (e.toks ++ rest)) := by
    simp [Exp.toks, typeToks]
  rw [htoks] at hf ⊢
  have hread := h.prefixed hlev (k := 2) (by decide) (by decide) hrest (n := fuel) (by
    simp only [List.length_cons, List.length_append, List.length_replicate] at hf ⊢
    omega)
  simp only [parsePrimary, List.headD_cons, List.tail_cons, Token.intType, parseType_toks,
    Option.bind_eq_bind, Option.bind_some, hread]

theorem Reads.un {op : UnOp} (h : Reads e) (hlev : e.level ≤ 2)
    (hnum : op = .minus → (e.toks.headD .eof).numVal = none) : Reads (.un op e) := by
  refine reads_of_primary fun fuel rest hrest hf => ?_
  have hread := h.prefixed hlev (k := 2) (by decide) (by decide) hrest (prefixed_fuel hf)
  have hhead : (e.toks ++ rest).headD .eof = e.toks.headD .eof := by
    obtain ⟨tk, ts, hhead, -, -⟩ := toks_head e
    rw [hhead]
    rfl
  cases op with
  | minus =>
    simp only [parsePrimary, Exp.toks, UnOp.token, List.cons_append, List.headD_cons,
      List.tail_cons, hhead, hnum rfl, hread]
    rfl
  | _ =>
    simp only [parsePrimary, Exp.toks, UnOp.token, List.cons_append, List.headD_cons,
      List.tail_cons, hread]
    rfl

end Primaries

/-- The tokens of every expression of the grammar are read as its tree. -/
theorem reads_of_grammar : ∀ e : Exp, e.Grammar → Reads e
  | .num v, _ => reads_num v
  | .negNum v, _ => reads_negNum v
  | .str .., h => h.elim
  | .var s, _ => reads_var s
  | .sizeof type n, _ => reads_sizeof type n
  | .call s (.cons e false .nil), h =>
    (readsArgs_cons (reads_of_grammar e h.2) readsArgs_nil (by simp [Args.count])).call s
  | .call s .nil, h => h.2.elim
  | .call s (.cons e true rest), h => h.2.elim
  | .call s (.cons e false (.cons e' comma rest)), h => h.2.elim
  | .paren e, h => (reads_of_grammar e h).paren
  | .index e i, h => ((reads_of_grammar e h.1).tight h.2.2.1).index (reads_of_grammar i h.2.1)
  | .post inc e, h => ((reads_of_grammar e h.1).tight h.2.1).post inc
  | .un op e, h => (reads_of_grammar e h.1).un h.2.1 fun hop => by
    obtain ⟨tk, ts, htoks, hnum⟩ := toks_head_num e h.1 h.2.1 (h.2.2 hop)
    rw [htoks]
    exact hnum
  | .deref e, h => (reads_of_grammar e h.1).deref h.2.1
  | .addr e, h => (reads_of_grammar e h.1).addr h.2.1
  | .pre inc e, h => (reads_of_grammar e h.1).pre inc h.2.1
  | .cast type n e, h => (reads_of_grammar e h.1).cast type n h.2.1
  | .bin op l r, h =>
    (reads_of_grammar l h.1).bin (reads_of_grammar r h.2.1) h.2.2.1 h.2.2.2.1
  | .land l r, h => (reads_of_grammar l h.1).land (reads_of_grammar r h.2.1) h.2.2.1 h.2.2.2
  | .lor l r, h => (reads_of_grammar l h.1).lor (reads_of_grammar r h.2.1) h.2.2.1 h.2.2.2
  | .cond c t f, h => (reads_of_grammar c h.1).cond (reads_of_grammar t h.2.1)
    (reads_of_grammar f h.2.2.1) (Nat.le_of_lt_succ h.2.2.2.1) h.2.2.2.2
  | .assign l r, h => (reads_of_grammar l h.1).assign (reads_of_grammar r h.2.1)
    (h.2.2.1.trans (by decide))

theorem length_commaToks (e : Exp) (es : List Exp) : es.length ≤ (commaToks e es).length := by
  induction es generalizing e with
  | nil => exact Nat.zero_le _
  | cons e' es ih =>
    have := ih e'
    simp only [commaToks, List.length_append, List.length_cons]
    omega

end PerfProf.Expr
