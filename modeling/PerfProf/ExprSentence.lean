import PerfProf.ExprSound
import PerfProf.ExprWritten

/-! The sentences of the documented grammar: `expr` reads the whole of one, and what it reads where
commas stand between the arguments is one. -/
namespace PerfProf.Expr

section Sentence

mutual

/-- The documented grammar: the table of precedence, and arguments of a call with exactly one comma
between two of them. -/
def Exp.Documented : Exp → Prop
  | .num _ | .negNum _ | .str .. | .var _ | .sizeof .. => True
  | .call _ as => as.Documented
  | .paren e => e.Documented
  | .index e i => e.Documented ∧ i.Documented ∧ e.level ≤ 1
  | .post _ e => e.Documented ∧ e.level ≤ 1
  | .un _ e | .deref e | .addr e | .pre _ e | .cast _ _ e => e.Documented ∧ e.level ≤ 2
  | .bin op l r => l.Documented ∧ r.Documented ∧ l.level ≤ op.level ∧ r.level < op.level
  | .land l r => l.Documented ∧ r.Documented ∧ l.level ≤ 11 ∧ r.level < 11
  | .lor l r => l.Documented ∧ r.Documented ∧ l.level ≤ 12 ∧ r.level < 12
  | .cond c t f => c.Documented ∧ t.Documented ∧ f.Documented ∧ c.level < 13 ∧ f.level ≤ 13
  | .assign l r => l.Documented ∧ r.Documented ∧ l.level < 14

def Args.Documented : Args → Prop
  | .nil => True
  | .cons e comma rest => e.Documented ∧ (comma = true ↔ rest.count ≠ 0) ∧ rest.Documented

end

def textToks (tab : Symtab) (strBase : Long) (text : List Char) : List Token :=
  tokens tab strBase (text.length + 1) ⟨text, 0, 0⟩

/-- The whole text is a comma-separated list of expressions. -/
structure Sentence (tab : Symtab) (strBase : Long) (text : List Char) : Prop where
  written : Written text
  parts : ∃ e es, textToks tab strBase text = commaToks e es ∧
    ∀ x ∈ e :: es, x.Documented

mutual

/-- Each turn of the loop over arguments finds a comma if and only if it is not the last. -/
def Exp.Separated : Exp → Prop
  | .num _ | .negNum _ | .str .. | .var _ | .sizeof .. => True
  | .call _ as => as.Separated
  | .paren e | .post _ e | .un _ e | .deref e | .addr e | .pre _ e | .cast _ _ e => e.Separated
  | .index l r | .bin _ l r | .land l r | .lor l r | .assign l r => l.Separated ∧ r.Separated
  | .cond c t f => c.Separated ∧ t.Separated ∧ f.Separated

def Args.Separated : Args → Prop
  | .nil => True
  | .cons e comma rest => e.Separated ∧ (comma = true ↔ rest.count ≠ 0) ∧ rest.Separated

end

end Sentence

section Minus

/-- The tree in which a minus goes with the number at the left end of `e`. -/
def Exp.withMinus : Exp → Option Exp
  | .num v => some (.negNum v)
  | .index e i => e.withMinus.map (.index · i)
  | .post inc e => e.withMinus.map (.post inc)
  | _ => none

/-- A minus before `e`, as `expr` reads it. -/
def Exp.negate (e : Exp) : Exp := e.withMinus.getD (.un .minus e)

mutual

/-- The tree that `expr` reads where the expression is written. -/
def Exp.asRead : Exp → Exp
  | .call s as => .call s as.asRead
  | .paren e => .paren e.asRead
  | .index e i => .index e.asRead i.asRead
  | .post inc e => .post inc e.asRead
  | .un op e => match op with
    | .minus => e.asRead.negate
    | op => .un op e.asRead
  | .deref e => .deref e.asRead
  | .addr e => .addr e.asRead
  | .pre inc e => .pre inc e.asRead
  | .cast type n e => .cast type n e.asRead
  | .bin op l r => .bin op l.asRead r.asRead
  | .land l r => .land l.asRead r.asRead
  | .lor l r => .lor l.asRead r.asRead
  | .cond c t f => .cond c.asRead t.asRead f.asRead
  | .assign l r => .assign l.asRead r.asRead
  | e => e

def Args.asRead : Args → Args
  | .nil => .nil
  | .cons e comma rest => .cons e.asRead comma rest.asRead

end

theorem withMinus_facts {e e' : Exp} (h : e.withMinus = some e') :
    e'.toks = .sub :: e.toks ∧ (e.Separated → e'.Separated) ∧ e'.level ≤ 2 ∧
      e'.withMinus = none := by
  induction e using Exp.withMinus.induct generalizing e' with
  | case1 v =>
    cases h
    exact ⟨rfl, fun _ => trivial, Nat.le_refl 2, rfl⟩
  | case2 e i ih =>
    obtain ⟨e₁, h₁, rfl⟩ := Option.map_eq_some_iff.mp h
    obtain ⟨htoks, hsep, -, hnone⟩ := ih h₁
    refine ⟨?_, fun hs => ⟨hsep hs.1, hs.2⟩, Nat.le_succ 1, ?_⟩
    · rw [Exp.toks, Exp.toks, htoks, List.cons_append]
    · rw [Exp.withMinus, hnone, Option.map_none]
  | case3 inc e ih =>
    obtain ⟨e₁, h₁, rfl⟩ := Option.map_eq_some_iff.mp h
    obtain ⟨htoks, hsep, -, hnone⟩ := ih h₁
    refine ⟨?_, fun hs => hsep hs, Nat.le_succ 1, ?_⟩
    · rw [Exp.toks, Exp.toks, htoks, List.cons_append]
    · rw [Exp.withMinus, hnone, Option.map_none]
  | case4 e h1 h2 h3 =>
    rw [Exp.withMinus.eq_def] at h
    split at h
    · exact absurd rfl (h1 _)
    · exact absurd rfl (h2 _ _)
    · exact absurd rfl (h3 _ _)
    · cases h

theorem negate_facts (e : Exp) : e.negate.toks = .sub :: e.toks ∧
    (e.Separated → e.negate.Separated) ∧ e.negate.level ≤ 2 := by
  unfold Exp.negate
  cases h : e.withMinus with
  | none => exact ⟨rfl, id, Nat.le_refl 2⟩
  | some e' =>
    obtain ⟨htoks, hsep, hlev, -⟩ := withMinus_facts h
    exact ⟨htoks, hsep, hlev⟩

theorem asRead_level (e : Exp) : e.asRead.level ≤ e.level := by
  cases e with
  | un op e =>
    cases op with
    | minus => exact (negate_facts e.asRead).2.2
    | _ => exact Nat.le_refl 2
  | _ => exact Nat.le_refl _

theorem asRead_count (as : Args) : as.asRead.count = as.count := by
  induction as using Args.count.induct with
  | case1 => rfl
  | case2 e comma rest ih => exact congrArg Nat.succ ih

mutual

/-- Both trees are written the same. -/
theorem asRead_toks : ∀ e : Exp, e.asRead.toks = e.toks
  | .num _ | .negNum _ | .str .. | .var _ | .sizeof .. => rfl
  | .call s as => by rw [Exp.asRead, Exp.toks, Exp.toks, asRead_argToks as]
  | .paren e => by rw [Exp.asRead, Exp.toks, Exp.toks, asRead_toks e]
  | .index e i => by rw [Exp.asRead, Exp.toks, Exp.toks, asRead_toks e, asRead_toks i]
  | .post inc e => by rw [Exp.asRead, Exp.toks, Exp.toks, asRead_toks e]
  | .un op e => by
    cases op with
    | minus => exact (negate_facts e.asRead).1.trans (congrArg _ (asRead_toks e))
    | _ => exact congrArg (List.cons _) (asRead_toks e)
  | .deref e => by rw [Exp.asRead, Exp.toks, Exp.toks, asRead_toks e]
  | .addr e => by rw [Exp.asRead, Exp.toks, Exp.toks, asRead_toks e]
  | .pre inc e => by rw [Exp.asRead, Exp.toks, Exp.toks, asRead_toks e]
  | .cast type n e => by rw [Exp.asRead, Exp.toks, Exp.toks, asRead_toks e]
  | .bin op l r => by rw [Exp.asRead, Exp.toks, Exp.toks, asRead_toks l, asRead_toks r]
  | .land l r => by rw [Exp.asRead, Exp.toks, Exp.toks, asRead_toks l, asRead_toks r]
  | .lor l r => by rw [Exp.asRead, Exp.toks, Exp.toks, asRead_toks l, asRead_toks r]
  | .cond c t f => by
    rw [Exp.asRead, Exp.toks, Exp.toks, asRead_toks c, asRead_toks t, asRead_toks f]
  | .assign l r => by rw [Exp.asRead, Exp.toks, Exp.toks, asRead_toks l, asRead_toks r]

theorem asRead_argToks : ∀ as : Args, as.asRead.toks = as.toks
  | .nil => rfl
  | .cons e comma rest => by
    rw [Args.asRead, Args.toks, Args.toks, asRead_toks e, asRead_argToks rest]

end

mutual

theorem asRead_separated : ∀ e : Exp, e.Documented → e.asRead.Separated
  | .num _, _ | .negNum _, _ | .str .., _ | .var _, _ | .sizeof .., _ => trivial
  | .call s as, h => asRead_argSeparated as h
  | .paren e, h => asRead_separated e h
  | .index e i, h => ⟨asRead_separated e h.1, asRead_separated i h.2.1⟩
  | .post inc e, h => asRead_separated e h.1
  | .un op e, h => by
    have ih := asRead_separated e h.1
    cases op with
    | minus => exact (negate_facts e.asRead).2.1 ih
    | _ => exact ih
  | .deref e, h => asRead_separated e h.1
  | .addr e, h => asRead_separated e h.1
  | .pre inc e, h => asRead_separated e h.1
  | .cast type n e, h => asRead_separated e h.1
  | .bin op l r, h => ⟨asRead_separated l h.1, asRead_separated r h.2.1⟩
  | .land l r, h => ⟨asRead_separated l h.1, asRead_separated r h.2.1⟩
  | .lor l r, h => ⟨asRead_separated l h.1, asRead_separated r h.2.1⟩
  | .cond c t f, h => ⟨asRead_separated c h.1, asRead_separated t h.2.1, asRead_separated f h.2.2.1⟩
  | .assign l r, h => ⟨asRead_separated l h.1, asRead_separated r h.2.1⟩

theorem asRead_argSeparated : ∀ as : Args, as.Documented → as.asRead.Separated
  | .nil, _ => trivial
  | .cons e comma rest, h => by
    refine ⟨asRead_separated e h.1, ?_, asRead_argSeparated rest h.2.2⟩
    rw [asRead_count]
    exact h.2.1

end

end Minus

section Reads
variable {e e' : Exp}

/-- `expr` reads the tree, also where a minus before it goes with a number. -/
structure ReadsSigned (e : Exp) : Prop where
  reads : Reads e
  signed : ∀ e', e.withMinus = some e' → Reads e' ∧ ReadsTight e'
  first : e.level ≤ 2 → e.withMinus = none → (e.toks.headD .eof).numVal = none

/-- A tree on which `withMinus` does nothing. -/
theorem Reads.plain (h : Reads e) (hminus : e.withMinus = none)
    (hfirst : e.level ≤ 2 → (e.toks.headD .eof).numVal = none) : ReadsSigned e :=
  ⟨h, fun _ he => absurd (hminus.symm.trans he) nofun, fun hl _ => hfirst hl⟩

theorem Reads.loose (h : Reads e) (hminus : e.withMinus = none) (hlev : 2 < e.level) :
    ReadsSigned e :=
  h.plain hminus fun hl => absurd hlev (Nat.not_lt.mpr hl)

theorem toks_append (e : Exp) (ts : List Token) : (e.toks ++ ts).headD .eof = e.toks.headD .eof := by
  obtain ⟨tk, rest, h, -, -⟩ := toks_head e
  rw [h]
  rfl

theorem readsTight_negNum (v : Long) : ReadsTight (.negNum v) := by
  intro tk _ _ fuel lev ts _ _ hf
  obtain ⟨f, rfl⟩ : ∃ f, fuel = f + 2 := ⟨fuel - 2, by omega⟩
  refine ⟨f + 1, ?_, ?_⟩
  · rw [List.length_append] at hf
    omega
  · rw [parse, Exp.toks, List.cons_append, List.singleton_append, parsePrimary]
    rfl

theorem ReadsSigned.tight (h : ReadsSigned e) (hlev : e.level ≤ 1) : ReadsTight e :=
  h.reads.tight hlev

theorem ReadsSigned.index {i : Exp} (h : ReadsSigned e) (hlev : e.level ≤ 1) (hi : Reads i) :
    ReadsSigned (.index e i) := by
  refine ⟨(h.tight hlev).index hi, fun e' he => ?_, fun _ hnone => ?_⟩
  · obtain ⟨e₁, h₁, rfl⟩ := Option.map_eq_some_iff.mp he
    have hread := (h.signed e₁ h₁).2.index hi
    exact ⟨hread, hread.tight (Nat.le_refl 1)⟩
  · rw [Exp.toks, toks_append]
    exact h.first (Nat.le_trans hlev (Nat.le_succ 1)) (Option.map_eq_none_iff.mp hnone)

theorem ReadsSigned.post (inc : Bool) (h : ReadsSigned e) (hlev : e.level ≤ 1) :
    ReadsSigned (.post inc e) := by
  refine ⟨(h.tight hlev).post inc, fun e' he => ?_, fun _ hnone => ?_⟩
  · obtain ⟨e₁, h₁, rfl⟩ := Option.map_eq_some_iff.mp he
    have hread := (h.signed e₁ h₁).2.post inc
    exact ⟨hread, hread.tight (Nat.le_refl 1)⟩
  · rw [Exp.toks, toks_append]
    exact h.first (Nat.le_trans hlev (Nat.le_succ 1)) (Option.map_eq_none_iff.mp hnone)

theorem ReadsSigned.negate (h : ReadsSigned e) (hlev : e.level ≤ 2) : ReadsSigned e.negate := by
  unfold Exp.negate
  cases he : e.withMinus with
  | none =>
    exact (h.reads.un hlev fun _ => h.first hlev he).plain rfl fun _ => rfl
  | some e' =>
    rw [Option.getD_some]
    obtain ⟨htoks, -, -, hnone⟩ := withMinus_facts he
    refine (h.signed e' he).1.plain hnone fun _ => ?_
    rw [htoks]
    rfl

mutual

/-- The tokens of every expression of the documented grammar are read as one tree. -/
theorem reads_asRead : ∀ e : Exp, e.Documented → ReadsSigned e.asRead
  | .num v, _ => ⟨reads_num v, fun e' he => by
      cases he
      exact ⟨reads_negNum v, readsTight_negNum v⟩, nofun⟩
  | .negNum v, _ => (reads_negNum v).plain rfl fun _ => rfl
  | .str v more, _ => (reads_str v more).plain rfl fun _ => rfl
  | .var s, _ => (reads_var s).plain rfl fun _ => rfl
  | .sizeof type n, _ => (reads_sizeof type n).plain rfl fun _ => rfl
  | .call s as, h => ((reads_argsAsRead as h).call s).plain rfl fun _ => rfl
  | .paren e, h => (reads_asRead e h).reads.paren.plain rfl fun _ => rfl
  | .index e i, h =>
    (reads_asRead e h.1).index ((asRead_level e).trans h.2.2) (reads_asRead i h.2.1).reads
  | .post inc e, h => (reads_asRead e h.1).post inc ((asRead_level e).trans h.2)
  | .un op e, h => by
    have ih := reads_asRead e h.1
    have hlev := (asRead_level e).trans h.2
    have hread : ∀ op, op ≠ .minus → Reads (.un op e.asRead) := fun op hop =>
      ih.reads.un hlev fun h => absurd h hop
    cases op with
    | minus => exact ih.negate hlev
    | plus => exact (hread .plus nofun).plain rfl fun _ => rfl
    | not => exact (hread .not nofun).plain rfl fun _ => rfl
    | compl => exact (hread .compl nofun).plain rfl fun _ => rfl
  | .deref e, h =>
    ((reads_asRead e h.1).reads.deref ((asRead_level e).trans h.2)).plain rfl fun _ => rfl
  | .addr e, h =>
    ((reads_asRead e h.1).reads.addr ((asRead_level e).trans h.2)).plain rfl fun _ => rfl
  | .pre inc e, h =>
    ((reads_asRead e h.1).reads.pre inc ((asRead_level e).trans h.2)).plain rfl fun _ => by
      cases inc <;> rfl
  | .cast type n e, h =>
    ((reads_asRead e h.1).reads.cast type n ((asRead_level e).trans h.2)).plain rfl fun _ => rfl
  | .bin op l r, h => by
    obtain ⟨hl, hr, h1, h2⟩ := h
    have hread : Reads (.bin op l.asRead r.asRead) := (reads_asRead l hl).reads.bin
      (reads_asRead r hr).reads ((asRead_level l).trans h1)
      (Nat.lt_of_le_of_lt (asRead_level r) h2)
    exact hread.loose rfl op.level_facts.1
  | .land l r, h =>
    ((reads_asRead l h.1).reads.land (reads_asRead r h.2.1).reads ((asRead_level l).trans h.2.2.1)
      (Nat.lt_of_le_of_lt (asRead_level r) h.2.2.2)).loose rfl (by decide : 2 < 11)
  | .lor l r, h =>
    ((reads_asRead l h.1).reads.lor (reads_asRead r h.2.1).reads ((asRead_level l).trans h.2.2.1)
      (Nat.lt_of_le_of_lt (asRead_level r) h.2.2.2)).loose rfl (by decide : 2 < 12)
  | .cond c t f, h =>
    ((reads_asRead c h.1).reads.cond (reads_asRead t h.2.1).reads (reads_asRead f h.2.2.1).reads
      (Nat.le_of_lt_succ (Nat.lt_of_le_of_lt (asRead_level c) h.2.2.2.1))
      ((asRead_level f).trans h.2.2.2.2)).loose rfl (by decide : 2 < 13)
  | .assign l r, h =>
    ((reads_asRead l h.1).reads.assign (reads_asRead r h.2.1).reads
      (Nat.le_of_lt_succ (Nat.lt_of_le_of_lt (asRead_level l) h.2.2))).loose rfl
      (by decide : 2 < 14)

theorem reads_argsAsRead : ∀ as : Args, as.Documented → ReadsArgs as.asRead
  | .nil, _ => readsArgs_nil
  | .cons e comma rest, h => by
    refine readsArgs_cons (reads_asRead e h.1).reads (reads_argsAsRead rest h.2.2) ?_
    rw [asRead_count]
    exact h.2.1

end

end Reads

section Accepted

/-- A constant is no pointer and its code does not end in a load. -/
theorem level_of_tight {e : Exp} {c c' : Buf} (hgen : e.gen c = some c') (h : e.Tight)
    (huse : ptr ≤ e.type ∨ c'.endsLi = true) : e.level ≤ 1 := by
  refine h.resolve_right fun hconst => ?_
  have hends : ∀ w : Long, (c.emit [Op.imm.word, w]).endsLi = false := by
    intro w
    simp only [Buf.endsLi, Buf.emit, List.dropLast_append_cons, List.dropLast_cons_cons,
      List.dropLast_singleton, List.getLast?_concat]
    rfl
  cases e with
  | negNum v =>
    cases hgen
    exact huse.elim (absurd · (by simp [Exp.type, tyInt, ptr])) (by simp [hends])
  | sizeof type n =>
    cases hgen
    exact huse.elim (absurd · (by simp [Exp.type, tyInt, ptr])) (by simp [hends])
  | _ => cases hconst

mutual

/-- Where commas stand between the arguments, what the second pass accepts is documented. -/
theorem documented_of_gen : ∀ (e : Exp) (c c' : Buf), e.gen c = some c' → e.Leveled →
    e.Separated → e.Documented
  | .num _, _, _, _, _, _ | .negNum _, _, _, _, _, _ | .str .., _, _, _, _, _
  | .var _, _, _, _, _, _ | .sizeof .., _, _, _, _, _ => trivial
  | .call s as, c, c', h, hl, hs => by
    simp only [Exp.gen, Option.bind_eq_bind, Option.bind_eq_some_iff] at h
    obtain ⟨c₁, has, -⟩ := h
    exact documentedArgs_of_gen as c c₁ has hl hs
  | .paren e, c, c', h, hl, hs => documented_of_gen e c c' h hl hs
  | .cast _ _ e, c, c', h, hl, hs => ⟨documented_of_gen e c c' h hl.1 hs, hl.2⟩
  | .index e i, c, c', h, hl, hs => by
    simp only [Exp.gen, Option.bind_eq_bind, Option.bind_eq_some_iff] at h
    obtain ⟨c₁, he, c₂, hi, hty⟩ := h
    split at hty
    · exact ⟨documented_of_gen e c c₁ he hl.1 hs.1, documented_of_gen i _ c₂ hi hl.2.1 hs.2,
        level_of_tight he hl.2.2 (.inl ‹_›)⟩
    · cases hty
  | .post _ e, c, c', h, hl, hs => by
    simp only [Exp.gen, Option.bind_eq_bind, Option.bind_eq_some_iff] at h
    obtain ⟨c₁, he, hends⟩ := h
    split at hends
    · exact ⟨documented_of_gen e c c₁ he hl.1 hs, level_of_tight he hl.2 (.inr ‹_›)⟩
    · cases hends
  | .deref e, c, c', h, hl, hs => by
    simp only [Exp.gen, Option.bind_eq_bind, Option.bind_eq_some_iff] at h
    obtain ⟨c₁, he, -⟩ := h
    exact ⟨documented_of_gen e c c₁ he hl.1 hs, hl.2⟩
  | .pre _ e, c, c', h, hl, hs => by
    simp only [Exp.gen, Option.bind_eq_bind, Option.bind_eq_some_iff] at h
    obtain ⟨c₁, he, -⟩ := h
    exact ⟨documented_of_gen e c c₁ he hl.1 hs, hl.2⟩
  | .addr e, c, c', h, hl, hs => by
    simp only [Exp.gen, Option.bind_eq_bind, Option.bind_eq_some_iff] at h
    obtain ⟨c₁, he, -⟩ := h
    exact ⟨documented_of_gen e c c₁ he hl.1 hs, hl.2⟩
  | .un op e, c, c', h, hl, hs => by
    cases op with
    | plus => exact ⟨documented_of_gen e c c' h hl.1 hs, hl.2⟩
    | _ =>
      obtain ⟨c₁, he, -⟩ := Option.map_eq_some_iff.mp h
      exact ⟨documented_of_gen e _ c₁ he hl.1 hs, hl.2⟩
  | .bin op l r, c, c', h, hl, hs => by
    simp only [Exp.gen, Option.bind_eq_bind, Option.bind_eq_some_iff] at h
    obtain ⟨c₁, h1, c₂, h2, -⟩ := h
    exact ⟨documented_of_gen l c c₁ h1 hl.1 hs.1, documented_of_gen r _ c₂ h2 hl.2.1 hs.2, hl.2.2⟩
  | .land l r, c, c', h, hl, hs => by
    simp only [Exp.gen, Option.bind_eq_bind, Option.bind_eq_some_iff] at h
    obtain ⟨c₁, h1, h2⟩ := h
    obtain ⟨c₂, h2, -⟩ := Option.map_eq_some_iff.mp h2
    exact ⟨documented_of_gen l c c₁ h1 hl.1 hs.1, documented_of_gen r _ c₂ h2 hl.2.1 hs.2, hl.2.2⟩
  | .lor l r, c, c', h, hl, hs => by
    simp only [Exp.gen, Option.bind_eq_bind, Option.bind_eq_some_iff] at h
    obtain ⟨c₁, h1, h2⟩ := h
    obtain ⟨c₂, h2, -⟩ := Option.map_eq_some_iff.mp h2
    exact ⟨documented_of_gen l c c₁ h1 hl.1 hs.1, documented_of_gen r _ c₂ h2 hl.2.1 hs.2, hl.2.2⟩
  | .cond x t f, c, c', h, hl, hs => by
    simp only [Exp.gen, Option.bind_eq_bind, Option.bind_eq_some_iff] at h
    obtain ⟨c₁, h1, c₂, h2, h3⟩ := h
    obtain ⟨c₃, h3, -⟩ := Option.map_eq_some_iff.mp h3
    exact ⟨documented_of_gen x c c₁ h1 hl.1 hs.1, documented_of_gen t _ c₂ h2 hl.2.1 hs.2.1,
      documented_of_gen f _ c₃ h3 hl.2.2.1 hs.2.2, hl.2.2.2⟩
  | .assign l r, c, c', h, hl, hs => by
    simp only [Exp.gen, Option.bind_eq_bind, Option.bind_eq_some_iff] at h
    obtain ⟨c₁, h1, h2⟩ := h
    split at h2
    · obtain ⟨c₂, h2, -⟩ := Option.map_eq_some_iff.mp h2
      exact ⟨documented_of_gen l c c₁ h1 hl.1 hs.1, documented_of_gen r _ c₂ h2 hl.2.1 hs.2, hl.2.2⟩
    · cases h2

theorem documentedArgs_of_gen : ∀ (as : Args) (c c' : Buf), as.gen c = some c' →
    as.Leveled → as.Separated → as.Documented
  | .nil, _, _, _, _, _ => trivial
  | .cons e _ rest, c, c', h, hl, hs => by
    simp only [Args.gen, Option.bind_eq_bind, Option.bind_eq_some_iff] at h
    obtain ⟨c₁, h1, h2⟩ := h
    exact ⟨documented_of_gen e c c₁ h1 hl.1 hs.1, hs.2.1,
      documentedArgs_of_gen rest _ c' h2 hl.2 hs.2.2⟩

end

theorem documented_of_genAll {e : Exp} {es : List Exp} {c c' : Buf}
    (hgen : genAll e es c = some c') (hlev : ∀ x ∈ e :: es, x.Leveled)
    (hsep : ∀ x ∈ e :: es, x.Separated) : ∀ x ∈ e :: es, x.Documented := by
  induction es generalizing e c with
  | nil =>
    rw [List.forall_mem_singleton] at hlev hsep ⊢
    exact documented_of_gen e c c' hgen hlev hsep
  | cons e' es ih =>
    rw [List.forall_mem_cons] at hlev hsep ⊢
    simp only [genAll, Option.bind_eq_bind, Option.bind_eq_some_iff] at hgen
    obtain ⟨c₁, h1, h2⟩ := hgen
    exact ⟨documented_of_gen e c c₁ h1 hlev.1 hsep.1, ih h2 hlev.2 hsep.2⟩

end Accepted

section Complete

/-- A list of expressions is read up to its end. -/
theorem readAll_complete (e : Exp) (es : List Exp) (h : ∀ x ∈ e :: es, Reads x) (fuel : Nat)
    (hf : es.length < fuel) : readAll fuel (commaToks e es) = some (e, es, []) := by
  induction es generalizing e fuel with
  | nil =>
    obtain ⟨f, rfl⟩ : ∃ f, fuel = f + 1 := ⟨fuel - 1, by omega⟩
    have hread : parse _ .assign (e.toks ++ []) = some (e, []) :=
      (List.forall_mem_singleton.mp h).full (by decide)
        (entry_anti (by decide : 14 ≤ 14) e.level_le) ⟨stop_pos e.level_le, rfl⟩ (by decide)
        (Nat.le_refl _)
    rw [List.append_nil] at hread
    rw [readAll, commaToks, hread]
    rfl
  | cons e' es ih =>
    obtain ⟨f, rfl⟩ : ∃ f, fuel = f + 1 := ⟨fuel - 1, by omega⟩
    rw [List.forall_mem_cons] at h
    have hread := h.1.inner (t := .comma) rfl rfl (commaToks e' es) (Nat.le_refl _)
    have hrest := ih e' h.2 f (Nat.lt_of_succ_lt_succ hf)
    rw [readAll, commaToks, hread]
    simp [hrest]

theorem commaToks_congr (f : Exp → Exp) (hf : ∀ e, (f e).toks = e.toks) (e : Exp)
    (es : List Exp) : commaToks (f e) (es.map f) = commaToks e es := by
  induction es generalizing e with
  | nil => exact hf e
  | cons e' es ih => rw [List.map_cons, commaToks, commaToks, hf, ih]

/-- The tokens of a sentence are read to the end, with a comma between any two arguments. -/
theorem Sentence.read {tab : Symtab} {strBase : Long} {text : List Char}
    (h : Sentence tab strBase text) :
    ∃ e es, readAll ((textToks tab strBase text).length + 1) (textToks tab strBase text) =
      some (e, es, []) ∧ ∀ x ∈ e :: es, x.Separated := by
  obtain ⟨-, e, es, htoks, hdoc⟩ := h
  have hmap : ∀ x ∈ e.asRead :: es.map Exp.asRead, ∃ y : Exp, y.Documented ∧ x = y.asRead := by
    intro x hx
    rw [← List.map_cons, List.mem_map] at hx
    obtain ⟨y, hy, rfl⟩ := hx
    exact ⟨y, hdoc y hy, rfl⟩
  have hreads : ∀ x ∈ e.asRead :: es.map Exp.asRead, Reads x := by
    intro x hx
    obtain ⟨y, hy, rfl⟩ := hmap x hx
    exact (reads_asRead y hy).reads
  have hfuel : (es.map Exp.asRead).length < (textToks tab strBase text).length + 1 := by
    rw [List.length_map, htoks]
    exact Nat.lt_succ_of_le (length_commaToks e es)
  have hread := readAll_complete e.asRead (es.map Exp.asRead) hreads _ hfuel
  rw [commaToks_congr Exp.asRead asRead_toks, ← htoks] at hread
  refine ⟨e.asRead, es.map Exp.asRead, hread, fun x hx => ?_⟩
  obtain ⟨y, hy, rfl⟩ := hmap x hx
  exact asRead_separated y hy

theorem accepted_iff (held : List (List Char × Symbol)) (data str : Long) (text : List Char)
    (declare : List GlobalVarDeclare) :
    (∃ prog, exprCompile held data str text declare = .ok prog) ↔
      ∃ tab e es rest code, symtab held data declare = some tab ∧
        readAll ((textToks tab str text).length + 1) (textToks tab str text) = some (e, es, rest) ∧
        genAll e es ⟨[0], []⟩ = some code := by
  unfold exprCompile
  cases htab : symtab held data declare with
  | none => exact iff_of_false nofun nofun
  | some tab =>
    have hpass : (exprs ((tokens tab str (text.length + 1) ⟨text, 0, 0⟩).length + 1)
        ⟨tokens tab str (text.length + 1) ⟨text, 0, 0⟩, ⟨[0], []⟩, 0⟩).toOption.map St.buf =
          (readAll ((textToks tab str text).length + 1) (textToks tab str text)).bind
            fun r => genAll r.1 r.2.1 ⟨[0], []⟩ := exprs_toOption _ _ _ _
    dsimp only
    cases hexprs : exprs ((tokens tab str (text.length + 1) ⟨text, 0, 0⟩).length + 1)
        ⟨tokens tab str (text.length + 1) ⟨text, 0, 0⟩, ⟨[0], []⟩, 0⟩ with
    | error m =>
      rw [hexprs, toOption_error, Option.map_none] at hpass
      refine iff_of_false nofun ?_
      rintro ⟨tab', e, es, rest, code, htab', hread, hgen⟩
      cases htab'
      rw [hread, Option.bind_some, hgen] at hpass
      cases hpass
    | ok s =>
      rw [hexprs, toOption_ok, Option.map_some] at hpass
      obtain ⟨⟨e, es, rest⟩, hread, hgen⟩ := Option.bind_eq_some_iff.mp hpass.symm
      exact iff_of_true ⟨_, rfl⟩ ⟨tab, e, es, rest, s.buf, rfl, hread, hgen⟩

end Complete

end PerfProf.Expr
