import Mathlib.Data.List.TakeWhile
import PerfProf.ExprCode

/-! Every text that is accepted is read as trees that keep the documented precedence. -/
namespace PerfProf.Expr

section Leveled

/-- A minus right before a number goes with the number, and `sizeof` with its type. -/
def Exp.isConst : Exp → Bool
  | .negNum _ | .sizeof .. => true
  | _ => false

/-- An operand of a postfix operator. -/
def Exp.Tight (e : Exp) : Prop := e.level ≤ 1 ∨ e.isConst = true

mutual

/-- The tree keeps the documented precedence and associativity. -/
def Exp.Leveled : Exp → Prop
  | .num _ | .negNum _ | .str .. | .var _ | .sizeof .. => True
  | .call _ as => as.Leveled
  | .paren e => e.Leveled
  | .index e i => e.Leveled ∧ i.Leveled ∧ e.Tight
  | .post _ e => e.Leveled ∧ e.Tight
  | .un _ e | .deref e | .addr e | .pre _ e | .cast _ _ e => e.Leveled ∧ e.level ≤ 2
  | .bin op l r => l.Leveled ∧ r.Leveled ∧ l.level ≤ op.level ∧ r.level < op.level
  | .land l r => l.Leveled ∧ r.Leveled ∧ l.level ≤ 11 ∧ r.level < 11
  | .lor l r => l.Leveled ∧ r.Leveled ∧ l.level ≤ 12 ∧ r.level < 12
  | .cond c t f => c.Leveled ∧ t.Leveled ∧ f.Leveled ∧ c.level < 13 ∧ f.level ≤ 13
  | .assign l r => l.Leveled ∧ r.Leveled ∧ l.level < 14

def Args.Leveled : Args → Prop
  | .nil => True
  | .cons e _ rest => e.Leveled ∧ rest.Leveled

end

/-- The operator that comes next does not bind tighter than the outermost one of `e`. -/
def Next (e : Exp) (rest : List Token) : Prop :=
  (rest.headD .eof).rank < stop e.level ∨ e.isConst = true

theorem next_of_level {e : Exp} (h : e.level ≤ 1) (rest : List Token) : Next e rest := by
  left
  have hstop : stop e.level = 24 := if_pos h
  rw [hstop]
  exact Token.rank_lt _

/-- The left operand of an operator of documented precedence `k`, the token of which is `tk`. -/
theorem Next.level_le {e : Exp} {rest : List Token} (h : Next e rest) {k : Nat} (hk : 2 ≤ k)
    (hrank : stop (k + 1) ≤ (rest.headD .eof).rank) : e.level ≤ k := by
  rcases h with hlt | hconst
  · by_contra hgt
    have hanti := stop_anti (j := k + 1) e.level_le (Nat.lt_of_not_le hgt)
    omega
  · cases e with
    | negNum v => exact hk
    | sizeof type n => exact hk
    | _ => cases hconst

theorem Next.tight {e : Exp} {rest : List Token} (h : Next e rest)
    (hrank : 21 ≤ (rest.headD .eof).rank) : e.Tight := by
  rcases h with hlt | hconst
  · left
    by_contra hgt
    have hstop := stop_anti (j := 2) e.level_le (Nat.lt_of_not_le hgt)
    have h2 : stop 2 = 21 := by decide
    omega
  · exact Or.inr hconst

end Leveled

section Sound
variable {fuel k : Nat} {ts rest : List Token} {e l : Exp}

theorem head_cons {tk : Token} (h : ts.headD .eof = tk) (hne : tk ≠ .eof) : ts = tk :: ts.tail := by
  cases ts with
  | nil => exact absurd h.symm hne
  | cons t ts => exact congrArg (· :: ts) h

theorem closed_some {tk : Token} (h : closed tk ts = some rest) (hne : tk ≠ .eof) :
    ts = tk :: rest := by
  unfold closed at h
  split at h
  · cases h
    exact head_cons ‹_› hne
  · cases h

theorem parseType_some {n : Nat} (h : parseType ts = some (n, rest)) :
    ts = List.replicate n .mul ++ .rparen :: rest := by
  have hsplit := List.takeWhile_append_dropWhile (p := fun t => decide (t = Token.mul)) (l := ts)
  unfold parseType at h
  split at h
  · rename_i rest' hdrop
    cases h
    rw [hdrop] at hsplit
    rw [← hsplit]
    congr 1
    refine List.eq_replicate_iff.mpr ⟨by rw [hsplit], ?_⟩
    intro t ht
    have hmul := List.mem_takeWhile_imp ht
    exact of_decide_eq_true hmul
  · cases h

theorem strVals_split (ts : List Token) :
    ts = (strVals ts).map .str ++ ts.dropWhile St.isStr := by
  induction ts with
  | nil => rfl
  | cons t ts ih =>
    cases t with
    | str v =>
      rw [strVals, List.dropWhile_cons_of_pos rfl, List.map_cons, List.cons_append, ← ih]
    | _ => rfl

theorem intType_some {tk : Token} {type : Nat} (h : tk.intType = some type) : tk = .int type := by
  cases tk with
  | int t => exact congrArg Token.int (Option.some.inj h)
  | _ => cases h

theorem numVal_some {tk : Token} {v : Long} (h : tk.numVal = some v) : tk = .num v := by
  cases tk with
  | num t => exact congrArg Token.num (Option.some.inj h)
  | _ => cases h

theorem binOf_some {tk : Token} {op : BinOp} (h : binOf tk = some op) : tk = op.token := by
  cases tk <;> cases h <;> rfl

theorem operand_levOf (op : BinOp) : op.operand = levOf (op.level - 1) := by
  cases op <;> rfl

/-- What has been read, with its level and what comes next. -/
structure Read (k : Nat) (ts rest : List Token) (e : Exp) : Prop where
  toks : ts = e.toks ++ rest
  leveled : e.Leveled
  level : e.level ≤ k
  next : (rest.headD .eof).rank < entry k

/-- An operand read before the loop, or one turn of the loop after `l`. -/
structure Turn (l : List Token) (ts rest : List Token) (e : Exp) : Prop where
  toks : l ++ ts = e.toks ++ rest
  leveled : e.Leveled
  next : Next e rest

/-- Soundness of the first pass, up to a depth. -/
structure Sound (fuel : Nat) : Prop where
  parse : ∀ k ts rest e, 2 ≤ k → k ≤ 14 → parse fuel (levOf k) ts = some (e, rest) →
    Read k ts rest e
  primary : ∀ ts rest e, parsePrimary fuel ts = some (e, rest) → Turn [] ts rest e ∧ e.level ≤ 2
  args : ∀ ts rest as, parseArgs fuel ts = some (as, rest) →
    ts = as.toks ++ .rparen :: rest ∧ as.Leveled
  climb : ∀ k l ts rest e, 2 ≤ k → k ≤ 14 → l.Leveled → l.level ≤ k → Next l ts →
    parseClimb fuel (levOf k) l ts = some (e, rest) → Read k (l.toks ++ ts) rest e
  operator : ∀ l ts rest e, l.Leveled → Next l ts → parseOperator fuel l ts = some (e, rest) →
    Turn l.toks ts rest e ∧ ∀ k, 2 ≤ k → k ≤ 14 → entry k ≤ (ts.headD .eof).rank → e.level ≤ k

theorem Sound.climb_succ (h : Sound fuel) (k : Nat) (l : Exp) (ts rest : List Token) (e : Exp)
    (hk : 2 ≤ k) (hk' : k ≤ 14) (hl : l.Leveled) (hlev : l.level ≤ k) (hnext : Next l ts)
    (hparse : parseClimb (fuel+1) (levOf k) l ts = some (e, rest)) :
    Read k (l.toks ++ ts) rest e := by
  rw [parseClimb] at hparse
  split at hparse
  · rename_i hrank
    simp only [Option.bind_eq_bind, Option.bind_eq_some_iff, Prod.exists] at hparse
    obtain ⟨e₁, ts₁, hop, hrest⟩ := hparse
    obtain ⟨hturn, hlevel⟩ := h.operator l ts ts₁ e₁ hl hnext hop
    rw [hturn.toks]
    exact h.climb k e₁ ts₁ rest e hk hk' hturn.leveled (hlevel k hk hk' hrank) hturn.next hrest
  · rename_i hrank
    cases hparse
    exact ⟨rfl, hl, hlev, Nat.lt_of_not_le hrank⟩

theorem Sound.parse_succ (h : Sound fuel) (k : Nat) (ts rest : List Token) (e : Exp)
    (hk : 2 ≤ k) (hk' : k ≤ 14) (hparse : PerfProf.Expr.parse (fuel+1) (levOf k) ts = some (e, rest)) :
    Read k ts rest e := by
  rw [PerfProf.Expr.parse] at hparse
  simp only [Option.bind_eq_bind, Option.bind_eq_some_iff, Prod.exists] at hparse
  obtain ⟨e₁, ts₁, hprim, hrest⟩ := hparse
  obtain ⟨hturn, hlevel⟩ := h.primary ts ts₁ e₁ hprim
  have htoks : ts = e₁.toks ++ ts₁ := hturn.toks
  rw [htoks]
  exact h.climb k e₁ ts₁ rest e hk hk' hturn.leveled (hlevel.trans hk) hturn.next hrest

theorem Sound.args_succ (h : Sound fuel) (ts rest : List Token) (as : Args)
    (hparse : parseArgs (fuel+1) ts = some (as, rest)) :
    ts = as.toks ++ .rparen :: rest ∧ as.Leveled := by
  rw [parseArgs] at hparse
  split at hparse
  · rename_i hhead
    cases hparse
    exact ⟨head_cons hhead (by simp), trivial⟩
  · simp only [Option.bind_eq_bind, Option.bind_eq_some_iff, Prod.exists] at hparse
    obtain ⟨e, ts₁, hexpr, as', ts₂, hargs, hpair⟩ := hparse
    cases hpair
    have hread := h.parse 14 ts ts₁ e (by decide) (by decide) hexpr
    obtain ⟨htoks, hlev⟩ := h.args _ rest as' hargs
    refine ⟨?_, hread.leveled, hlev⟩
    rw [hread.toks, Args.toks, List.append_assoc]
    congr 1
    split at htoks
    · rename_i hcomma
      rw [if_pos hcomma, List.singleton_append, List.cons_append, ← htoks]
      exact head_cons (of_decide_eq_true hcomma) (by simp)
    · rename_i hcomma
      rw [if_neg hcomma, List.nil_append]
      exact htoks

/-- A turn of the loop that reads a right operand at level `j`. -/
theorem Read.turn {r : Exp} {j : Nat} {ts₁ : List Token} {tk : Token} (h : Read j ts₁ rest r)
    (hts : ts = tk :: ts₁) (htoks : e.toks = l.toks ++ tk :: r.toks) (hlev : e.Leveled)
    (hstop : entry j ≤ stop e.level) : Turn l.toks ts rest e := by
  refine ⟨?_, hlev, Or.inl (Nat.lt_of_lt_of_le h.next hstop)⟩
  rw [hts, h.toks, htoks, List.append_assoc]
  rfl

/-- The level of a tree is bounded by what its operator's token allows. -/
theorem level_of_entry {j k : Nat} {t : Token} (hrank : t.rank < entry (j - 1)) (hj : 3 ≤ j)
    (hj' : j ≤ 14) (hentry : entry k ≤ t.rank) : j ≤ k := by
  by_contra hgt
  have hanti := entry_anti (j := k) (k := j - 1) (by omega) (by omega)
  omega

section Turns
variable {l r : Exp} (h : Sound fuel) (hl : l.Leveled) (hnext : Next l ts)
include h hl hnext

theorem Sound.assign_turn (htk : ts.headD .eof = .assign)
    (hr : Expr.parse fuel .assign ts.tail = some (r, rest)) : Turn l.toks ts rest (.assign l r) := by
  have hread := h.parse 14 _ rest r (by decide) (by decide) hr
  have hlev := hnext.level_le (k := 13) (by decide) (by rw [htk]; decide)
  exact hread.turn (head_cons htk (by simp)) rfl ⟨hl, hread.leveled, Nat.lt_succ_of_le hlev⟩
    (by decide : entry 14 ≤ stop 14)

theorem Sound.cond_turn {t f : Exp} {ts₁ ts₂ : List Token} (htk : ts.headD .eof = .cond)
    (ht : Expr.parse fuel .assign ts.tail = some (t, ts₁)) (hcolon : closed .colon ts₁ = some ts₂)
    (hf : Expr.parse fuel .cond ts₂ = some (f, rest)) : Turn l.toks ts rest (.cond l t f) := by
  have hread := h.parse 14 _ ts₁ t (by decide) (by decide) ht
  have hread' := h.parse 13 _ rest f (by decide) (by decide) hf
  have hlev := hnext.level_le (k := 12) (by decide) (by rw [htk]; decide)
  refine ⟨?_, ⟨hl, hread.leveled, hread'.leveled, Nat.lt_succ_of_le hlev, hread'.level⟩,
    Or.inl hread'.next⟩
  rw [head_cons htk (by simp), hread.toks, closed_some hcolon (by simp), hread'.toks]
  simp [Exp.toks]

theorem Sound.lor_turn (htk : ts.headD .eof = .lor)
    (hr : Expr.parse fuel .lan ts.tail = some (r, rest)) : Turn l.toks ts rest (.lor l r) := by
  have hread := h.parse 11 _ rest r (by decide) (by decide) hr
  have hlev := hnext.level_le (k := 12) (by decide) (by rw [htk]; decide)
  exact hread.turn (head_cons htk (by simp)) rfl
    ⟨hl, hread.leveled, hlev, Nat.lt_succ_of_le hread.level⟩ (by decide : entry 11 ≤ stop 12)

theorem Sound.land_turn (htk : ts.headD .eof = .lan)
    (hr : Expr.parse fuel .or ts.tail = some (r, rest)) : Turn l.toks ts rest (.land l r) := by
  have hread := h.parse 10 _ rest r (by decide) (by decide) hr
  have hlev := hnext.level_le (k := 11) (by decide) (by rw [htk]; decide)
  exact hread.turn (head_cons htk (by simp)) rfl
    ⟨hl, hread.leveled, hlev, Nat.lt_succ_of_le hread.level⟩ (by decide : entry 10 ≤ stop 11)

theorem Sound.index_turn {i : Exp} {ts₁ : List Token} (htk : ts.headD .eof = .brak)
    (hi : Expr.parse fuel .assign ts.tail = some (i, ts₁)) (hclose : closed .rbrack ts₁ = some rest) :
    Turn l.toks ts rest (.index l i) := by
  have hread := h.parse 14 _ ts₁ i (by decide) (by decide) hi
  have htight := hnext.tight (by rw [htk]; decide)
  refine ⟨?_, ⟨hl, hread.leveled, htight⟩, next_of_level (e := .index l i) (Nat.le_refl 1) rest⟩
  rw [head_cons htk (by simp), hread.toks, closed_some hclose (by simp)]
  simp [Exp.toks]

theorem Sound.bin_turn {op : BinOp} (htk : ts.headD .eof = op.token)
    (hr : Expr.parse fuel op.operand ts.tail = some (r, rest)) : Turn l.toks ts rest (.bin op l r) := by
  obtain ⟨h3, h10, -, -, -, hstop, -⟩ := op.level_facts
  rw [operand_levOf] at hr
  have hread := h.parse (op.level - 1) _ rest r (by omega) (by omega) hr
  have hcut : stop (op.level + 1) ≤ (ts.headD .eof).rank := by
    have hall : ∀ op : BinOp, stop (op.level + 1) ≤ op.token.rank := by
      intro op
      cases op <;> decide
    rw [htk]
    exact hall op
  have hlev := hnext.level_le (k := op.level) (by omega) hcut
  have hne : op.token ≠ .eof := by cases op <;> simp [BinOp.token]
  exact hread.turn (head_cons htk hne) rfl
    ⟨hl, hread.leveled, hlev, by have := hread.level; omega⟩ (Nat.le_of_eq hstop.symm)

end Turns

theorem post_turn {l : Exp} (inc : Bool) (hl : l.Leveled) (hnext : Next l ts)
    (htk : ts.headD .eof = incToken inc) : Turn l.toks ts ts.tail (.post inc l) := by
  have hne : incToken inc ≠ .eof := by cases inc <;> simp [incToken]
  have htight := hnext.tight (by rw [htk]; cases inc <;> decide)
  refine ⟨?_, ⟨hl, htight⟩, next_of_level (e := .post inc l) (Nat.le_refl 1) _⟩
  rw [Exp.toks, List.append_assoc]
  exact congrArg _ (head_cons htk hne)

theorem Sound.operator_succ (h : Sound fuel) (l : Exp) (ts rest : List Token) (e : Exp)
    (hl : l.Leveled) (hnext : Next l ts) (hparse : parseOperator (fuel+1) l ts = some (e, rest)) :
    Turn l.toks ts rest e ∧ ∀ k, 2 ≤ k → k ≤ 14 → entry k ≤ (ts.headD .eof).rank → e.level ≤ k := by
  have hlow : ∀ k, 2 ≤ k → 1 ≤ k := fun k hk => Nat.le_trans (by decide : 1 ≤ 2) hk
  rw [parseOperator.eq_def] at hparse
  dsimp only at hparse
  split at hparse
  · rename_i htk
    simp only [Option.bind_eq_bind, Option.bind_eq_some_iff, Prod.exists] at hparse
    obtain ⟨r, ts₁, hr, hpair⟩ := hparse
    cases hpair
    refine ⟨h.assign_turn hl hnext htk hr, fun k _ _ hentry => ?_⟩
    rw [htk] at hentry
    exact level_of_entry (j := 14) (t := .assign) (by decide) (by decide) (by decide) hentry
  · rename_i htk
    simp only [Option.bind_eq_bind, Option.bind_eq_some_iff, Prod.exists] at hparse
    obtain ⟨t, ts₁, ht, ts₂, hcolon, f, ts₃, hf, hpair⟩ := hparse
    cases hpair
    refine ⟨h.cond_turn hl hnext htk ht hcolon hf, fun k _ _ hentry => ?_⟩
    rw [htk] at hentry
    exact level_of_entry (j := 13) (t := .cond) (by decide) (by decide) (by decide) hentry
  · rename_i htk
    simp only [Option.bind_eq_bind, Option.bind_eq_some_iff, Prod.exists] at hparse
    obtain ⟨r, ts₁, hr, hpair⟩ := hparse
    cases hpair
    refine ⟨h.lor_turn hl hnext htk hr, fun k _ _ hentry => ?_⟩
    rw [htk] at hentry
    exact level_of_entry (j := 12) (t := .lor) (by decide) (by decide) (by decide) hentry
  · rename_i htk
    simp only [Option.bind_eq_bind, Option.bind_eq_some_iff, Prod.exists] at hparse
    obtain ⟨r, ts₁, hr, hpair⟩ := hparse
    cases hpair
    refine ⟨h.land_turn hl hnext htk hr, fun k _ _ hentry => ?_⟩
    rw [htk] at hentry
    exact level_of_entry (j := 11) (t := .lan) (by decide) (by decide) (by decide) hentry
  · rename_i htk
    simp only [Option.bind_eq_bind, Option.bind_eq_some_iff, Prod.exists] at hparse
    obtain ⟨i, ts₁, hi, ts₂, hclose, hpair⟩ := hparse
    cases hpair
    exact ⟨h.index_turn hl hnext htk hi hclose, fun k hk _ _ => hlow k hk⟩
  · rename_i htk
    cases hparse
    exact ⟨post_turn true hl hnext htk, fun k hk _ _ => hlow k hk⟩
  · rename_i htk
    cases hparse
    exact ⟨post_turn false hl hnext htk, fun k hk _ _ => hlow k hk⟩
  · simp only [Option.bind_eq_bind, Option.bind_eq_some_iff, Prod.exists] at hparse
    obtain ⟨op, hop, r, ts₁, hr, hpair⟩ := hparse
    cases hpair
    have htk := binOf_some hop
    obtain ⟨h3, h10, -, hrank, -, hstop, -⟩ := op.level_facts
    refine ⟨h.bin_turn hl hnext htk hr, fun k _ _ hentry => ?_⟩
    rw [htk] at hentry
    exact level_of_entry (j := op.level) (t := op.token) (by omega) h3 (by omega) hentry

/-- A prefix operator with its operand. -/
theorem Read.prefixed {e₁ : Exp} {ts₁ : List Token} (h : Read 2 ts₁ rest e₁) (front : List Token)
    (hts : ts = front ++ ts₁) (htoks : e.toks = front ++ e₁.toks) (hlev : e.Leveled)
    (hlevel : e.level = 2) : Turn [] ts rest e ∧ e.level ≤ 2 := by
  refine ⟨⟨?_, hlev, Or.inl ?_⟩, Nat.le_of_eq hlevel⟩
  · rw [List.nil_append, hts, h.toks, htoks, List.append_assoc]
  · rw [hlevel]
    exact h.next

/-- A prefix operator that is a single token. -/
theorem Sound.prefixed (h : Sound fuel) {tk : Token} (htk : ts.headD .eof = tk) (hne : tk ≠ .eof)
    {f : Exp → Exp} (hf : ∀ x : Exp, (f x).toks = tk :: x.toks ∧ (f x).level = 2 ∧
      (x.Leveled → x.level ≤ 2 → (f x).Leveled))
    (hparse : ((Expr.parse fuel .inc ts.tail) >>= fun r => some (f r.1, r.2)) =
      some (e, rest)) : Turn [] ts rest e ∧ e.level ≤ 2 := by
  simp only [Option.bind_eq_bind, Option.bind_eq_some_iff, Prod.exists] at hparse
  obtain ⟨e₁, ts₁, hexpr, hpair⟩ := hparse
  cases hpair
  have hread := h.parse 2 _ rest e₁ (by decide) (by decide) hexpr
  obtain ⟨htoks, hlevel, hlev⟩ := hf e₁
  exact hread.prefixed [tk] (head_cons htk hne) htoks (hlev hread.leveled hread.level)
    hlevel

/-- An operand that ends in itself. -/
theorem turn_operand (htoks : ts = e.toks ++ rest) (hlev : e.Leveled)
    (hlevel : e.level ≤ 1 ∨ e.isConst = true) : Turn [] ts rest e ∧ e.level ≤ 2 := by
  refine ⟨⟨htoks, hlev, ?_⟩, ?_⟩
  · cases hlevel with
    | inl hle => exact next_of_level hle rest
    | inr hconst => exact Or.inr hconst
  · cases hlevel with
    | inl hle => exact hle.trans (by decide)
    | inr hconst =>
      cases e with
      | negNum v => exact Nat.le_refl 2
      | sizeof type n => exact Nat.le_refl 2
      | _ => cases hconst

theorem parseOperand_sound (hparse : parseOperand ts = some (e, rest)) :
    Turn [] ts rest e ∧ e.level ≤ 2 := by
  obtain ⟨tk, htk⟩ : ∃ tk, ts.headD .eof = tk := ⟨_, rfl⟩
  rw [parseOperand, htk] at hparse
  cases tk with
  | num v =>
    cases hparse
    exact turn_operand (head_cons htk (by simp)) trivial (Or.inl (Nat.zero_le _))
  | str v =>
    obtain ⟨ts', rfl⟩ : ∃ ts', ts = .str v :: ts' := ⟨_, head_cons htk (by simp)⟩
    cases hparse
    refine turn_operand ?_ trivial (Or.inl (Nat.zero_le _))
    exact congrArg (.str v :: ·) (strVals_split ts')
  | sizeof =>
    simp only [Option.bind_eq_bind, Option.bind_eq_some_iff, Prod.exists] at hparse
    obtain ⟨ts₁, hopen, type, htype, n, ts₂, hstars, hpair⟩ := hparse
    cases hpair
    refine turn_operand ?_ trivial (Or.inr rfl)
    have hts := head_cons htk (by simp)
    have hts₁ := head_cons (intType_some htype) (by simp)
    rw [parseType_some hstars] at hts₁
    rw [hts, closed_some hopen (by simp), hts₁]
    simp [Exp.toks, typeToks]
  | _ => cases hparse

theorem Sound.primary_succ (h : Sound fuel) (ts rest : List Token) (e : Exp)
    (hparse : parsePrimary (fuel+1) ts = some (e, rest)) : Turn [] ts rest e ∧ e.level ≤ 2 := by
  rw [parsePrimary.eq_def] at hparse
  dsimp only at hparse
  split at hparse
  · rename_i s htk
    have hts := head_cons htk (by simp)
    split at hparse
    · rename_i hopen
      simp only [Option.bind_eq_bind, Option.bind_eq_some_iff, Prod.exists] at hparse
      obtain ⟨as, ts₁, hargs, hpair⟩ := hparse
      cases hpair
      obtain ⟨htoks, hlev⟩ := h.args _ rest as hargs
      refine turn_operand ?_ hlev (Or.inl (Nat.le_refl 1))
      rw [hts, head_cons hopen (by simp), htoks]
      simp [Exp.toks]
    · cases hparse
      exact turn_operand hts trivial (Or.inl (Nat.zero_le _))
  · rename_i htk
    have hts := head_cons htk (by simp)
    split at hparse
    · rename_i type htype
      simp only [Option.bind_eq_bind, Option.bind_eq_some_iff, Prod.exists] at hparse
      obtain ⟨n, ts₁, hstars, e₁, ts₂, hexpr, hpair⟩ := hparse
      cases hpair
      have hread := h.parse 2 _ rest e₁ (by decide) (by decide) hexpr
      refine hread.prefixed (typeToks type n) ?_ rfl ⟨hread.leveled, hread.level⟩ rfl
      rw [hts, head_cons (intType_some htype) (by simp), parseType_some hstars]
      simp [typeToks]
    · simp only [Option.bind_eq_bind, Option.bind_eq_some_iff, Prod.exists] at hparse
      obtain ⟨e₁, ts₁, hexpr, ts₂, hclose, hpair⟩ := hparse
      cases hpair
      have hread := h.parse 14 _ ts₁ e₁ (by decide) (by decide) hexpr
      refine turn_operand ?_ hread.leveled (Or.inl (Nat.zero_le _))
      rw [hts, hread.toks, closed_some hclose (by simp)]
      simp [Exp.toks]
  · rename_i htk
    exact h.prefixed (f := .deref) htk (by simp) (fun x => ⟨rfl, rfl, And.intro⟩) hparse
  · rename_i htk
    exact h.prefixed (f := .addr) htk (by simp) (fun x => ⟨rfl, rfl, And.intro⟩) hparse
  · rename_i htk
    exact h.prefixed (f := .un .not) htk (by simp) (fun x => ⟨rfl, rfl, And.intro⟩) hparse
  · rename_i htk
    exact h.prefixed (f := .un .compl) htk (by simp) (fun x => ⟨rfl, rfl, And.intro⟩) hparse
  · rename_i htk
    exact h.prefixed (f := .un .plus) htk (by simp) (fun x => ⟨rfl, rfl, And.intro⟩) hparse
  · rename_i htk
    split at hparse
    · rename_i v hnum
      cases hparse
      refine turn_operand ?_ trivial (Or.inr rfl)
      have hts := head_cons htk (by simp)
      rw [head_cons (numVal_some hnum) (by simp)] at hts
      exact hts
    · exact h.prefixed (f := .un .minus) htk (by simp) (fun x => ⟨rfl, rfl, And.intro⟩) hparse
  · rename_i htk
    exact h.prefixed (f := .pre true) htk (by simp) (fun x => ⟨rfl, rfl, And.intro⟩) hparse
  · rename_i htk
    exact h.prefixed (f := .pre false) htk (by simp) (fun x => ⟨rfl, rfl, And.intro⟩) hparse
  · exact parseOperand_sound hparse

/-- The first pass keeps the documented precedence. -/
theorem sound (fuel : Nat) : Sound fuel := by
  induction fuel with
  | zero =>
    refine ⟨?_, ?_, ?_, ?_, ?_⟩
    · intro k ts rest e _ _ hparse
      cases hparse
    · intro ts rest e hparse
      cases hparse
    · intro ts rest as hparse
      cases hparse
    · intro k l ts rest e _ _ _ _ _ hparse
      cases hparse
    · intro l ts rest e _ _ hparse
      cases hparse
  | succ fuel ih =>
    exact ⟨ih.parse_succ, ih.primary_succ, ih.args_succ, ih.climb_succ, ih.operator_succ⟩

end Sound

section Program

/-- The second pass over expressions between commas. -/
def genAll : Exp → List Exp → Buf → Option Buf
  | e, [], c => e.gen c
  | e, e' :: es, c => do
    let c ← e.gen c
    genAll e' es c

/-- The first pass over expressions between commas, with the tokens after the last. -/
def readAll : Nat → List Token → Option (Exp × List Exp × List Token)
  | 0, _ => none
  | fuel+1, ts => do
    let (e, ts) ← parse (3 * ts.length + 3) .assign ts
    if ts.headD .eof = .comma then
      let (e', es, rest) ← readAll fuel ts.tail
      some (e, e' :: es, rest)
    else some (e, [], ts)

/-- The loop of `expr_compile` in two passes. -/
theorem exprs_toOption (fuel : Nat) (ts : List Token) (c : Buf) (ty : Nat) :
    (exprs fuel ⟨ts, c, ty⟩).toOption.map St.buf =
      (readAll fuel ts).bind fun r => genAll r.1 r.2.1 c := by
  induction fuel generalizing ts c ty with
  | zero => rfl
  | succ fuel ih =>
    rw [exprs, toOption_bind, (twoPass _).expr, readAll]
    cases hparse : parse (3 * ts.length + 3) .assign ts with
    | none => rfl
    | some r =>
      obtain ⟨e, ts₁⟩ := r
      rw [emitted_some, Option.bind_eq_bind, Option.bind_some]
      dsimp only
      by_cases hcomma : ts₁.headD .eof = .comma
      · have hsplit : ∀ r : Exp × List Exp × List Token,
            genAll e (r.1 :: r.2.1) c = (e.gen c).bind fun c => genAll r.1 r.2.1 c :=
          fun _ => rfl
        have hrest : ∀ c', ((if St.tk ⟨ts₁, c', e.type⟩ = .comma then
            exprs fuel (St.next ⟨ts₁, c', e.type⟩) else .ok ⟨ts₁, c', e.type⟩).toOption).map
              St.buf = (readAll fuel ts₁.tail).bind fun r => genAll r.1 r.2.1 c' := by
          intro c'
          rw [if_pos (show St.tk ⟨ts₁, c', e.type⟩ = .comma from hcomma)]
          exact ih ts₁.tail c' e.type
        rw [if_pos hcomma]
        cases hgen : e.gen c with
        | none =>
          cases readAll fuel ts₁.tail with
          | none => rfl
          | some r => simp [hsplit, hgen]
        | some c' =>
          rw [Option.map_some, Option.bind_some, hrest]
          cases readAll fuel ts₁.tail with
          | none => rfl
          | some r => simp [hsplit, hgen]
      · rw [if_neg hcomma]
        cases hgen : e.gen c with
        | none => simp [genAll, hgen]
        | some c' =>
          rw [Option.map_some, Option.bind_some,
            if_neg (show ¬ St.tk ⟨ts₁, c', e.type⟩ = .comma from hcomma)]
          simp [genAll, hgen, toOption_ok]

theorem readAll_sound {fuel : Nat} {ts rest : List Token} {e : Exp} {es : List Exp}
    (h : readAll fuel ts = some (e, es, rest)) :
    ts = commaToks e es ++ rest ∧ ∀ x ∈ e :: es, x.Leveled := by
  induction fuel generalizing ts e es with
  | zero => cases h
  | succ fuel ih =>
    simp only [readAll, Option.bind_eq_bind, Option.bind_eq_some_iff, Prod.exists] at h
    obtain ⟨e₁, ts₁, hparse, h⟩ := h
    have hread := (sound _).parse 14 ts ts₁ e₁ (by decide) (by decide) hparse
    split at h
    · rename_i hcomma
      simp only [Option.bind_eq_some_iff, Prod.exists] at h
      obtain ⟨e', es', rest', hmore, hpair⟩ := h
      cases hpair
      obtain ⟨htoks, hlev⟩ := ih hmore
      constructor
      · rw [hread.toks, head_cons hcomma (by simp), htoks, commaToks]
        simp
      · exact List.forall_mem_cons.mpr ⟨hread.leveled, hlev⟩
    · cases h
      exact ⟨hread.toks, List.forall_mem_singleton.mpr hread.leveled⟩

/-- The trees that `expr_compile` reads from the tokens, as the second pass accepts them. -/
theorem exprs_sound {fuel : Nat} {ts : List Token} {c : Buf} {ty : Nat} {s : St}
    (h : exprs fuel ⟨ts, c, ty⟩ = .ok s) :
    ∃ e es rest, ts = commaToks e es ++ rest ∧ (∀ x ∈ e :: es, x.Leveled) ∧
      genAll e es c = some s.buf := by
  have hpass := exprs_toOption fuel ts c ty
  rw [h, toOption_ok, Option.map_some] at hpass
  obtain ⟨⟨e, es, rest⟩, hread, hgen⟩ := Option.bind_eq_some_iff.mp hpass.symm
  obtain ⟨htoks, hlev⟩ := readAll_sound hread
  exact ⟨e, es, rest, htoks, hlev, hgen⟩

end Program

end PerfProf.Expr
