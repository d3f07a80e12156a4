import PerfProf.ExprSound

/-! The lvalue check of `expr`: it looks at one emitted word. Which operands pass it, and what an
accepted text then says about its operands. -/
namespace PerfProf.Expr

section Looks

mutual

/-- `=`, `++`, `--` and `&` are applied to lvalues. -/
def Exp.LvaluesOnly : Exp → Prop
  | .num _ | .negNum _ | .str .. | .var _ | .sizeof .. => True
  | .call _ as => as.LvaluesOnly
  | .paren e | .un _ e | .cast _ _ e | .deref e => e.LvaluesOnly
  | .index e i => e.LvaluesOnly ∧ i.LvaluesOnly
  | .post _ e | .pre _ e | .addr e => e.LvaluesOnly ∧ e.isLvalue = true
  | .bin _ l r | .land l r | .lor l r => l.LvaluesOnly ∧ r.LvaluesOnly
  | .cond c t f => c.LvaluesOnly ∧ t.LvaluesOnly ∧ f.LvaluesOnly
  | .assign l r => l.LvaluesOnly ∧ r.LvaluesOnly ∧ l.isLvalue = true

def Args.LvaluesOnly : Args → Prop
  | .nil => True
  | .cons e _ rest => e.LvaluesOnly ∧ rest.LvaluesOnly

end

def isLi (w : Long) : Bool := w == Op.li.word

/-- The word that ends the code of a binary operator. -/
def BinOp.last (op : BinOp) (tl tr : Nat) : Long :=
  if op = .sub ∧ ptr < tl ∧ tl = tr then Op.div.word else op.op.word

mutual

/-- The last word of the code of an expression. -/
def Exp.last : Exp → Long
  | .num v | .str v _ => v
  | .negNum v => -v
  | .var s =>
    if s.unloaded then (if s.cls = .loc then 0 - s.value else s.value) else word (width s.type)
  | .sizeof type n => word (width (type + n * ptr))
  | .call s as => if as.count ≠ 0 then word as.count else s.value
  | .paren e | .cast _ _ e => e.last
  | .index e _ | .deref e => word (width (e.type - ptr))
  | .post inc _ => (if inc then Op.sub else Op.add).word
  | .pre _ e => word (width e.type)
  | .addr e => e.addrLast
  | .un op e => match op with
    | .plus => e.last
    | .minus => Op.mul.word
    | .not => Op.eq.word
    | .compl => Op.xor.word
  | .bin op l r => op.last l.type r.type
  | .land _ r | .lor _ r => r.last
  | .cond _ _ f => f.last
  | .assign l _ => word (width l.type)

def Exp.addrLast : Exp → Long
  | .var s => s.value
  | .deref e => e.last
  | .index .. => Op.add.word
  | .paren e => e.addrLast
  | _ => 0

end

/-- The word before the last of a binary operator, whose right operand ends in `last`. -/
def BinOp.looksLoad (op : BinOp) (tl tr : Nat) (last : Long) : Bool :=
  if op = .sub ∧ ptr < tl ∧ tl = tr then isLi (word (stride tl))
  else if (op = .add ∨ op = .sub) ∧ ptr < tl then false
  else isLi last

mutual

/-- Does the word before the last of an expression's code look like `LI`? `before` tells it of the
word before the code, which matters for calls without arguments, whose code is one word. A pointer
into the code never does. -/
def Exp.looksLoad : Exp → Bool → Bool
  | .num _, _ | .negNum _, _ | .str .., _ | .sizeof .., _ => false
  | .var s, _ => !s.unloaded
  | .call s as, before => as.count = 0 && s.cls != .func && before
  | .paren e, before | .cast _ _ e, before => e.looksLoad before
  | .index .., _ | .deref _, _ => true
  | .post _ e, _ => isLi (word (incStep e.type))
  | .pre .., _ | .assign .., _ => false
  | .addr e, before => e.addrLooksLoad before
  | .un op e, before => match op with
    | .plus => e.looksLoad before
    | .minus => isLi e.last
    | .not | .compl => false
  | .bin op l r, _ => op.looksLoad l.type r.type r.last
  | .land _ r, _ | .lor _ r, _ => r.looksLoad false
  | .cond _ _ f, _ => f.looksLoad false

def Exp.addrLooksLoad : Exp → Bool → Bool
  | .deref e, before => e.looksLoad before
  | .index e i, _ => !decide (ptr < e.type) && isLi i.last
  | .paren e, before => e.addrLooksLoad before
  | _, _ => false

end

end Looks

section Words

/-- The check on the words of the code. -/
def endsLi (c : List Long) : Bool := c.dropLast.getLast? == some Op.li.word

theorem endsLi_two (c : List Long) (x y : Long) : endsLi (c ++ [x, y]) = isLi x := by
  rw [endsLi, List.append_cons, List.dropLast_concat, List.getLast?_concat]
  simp [isLi]

theorem endsLi_one (c : List Long) (x y : Long) : endsLi (c ++ [x] ++ [y]) = isLi x := by
  rw [List.append_assoc]
  exact endsLi_two c x y

theorem words_binLast (op : BinOp) (tl tr : Nat) :
    ∃ ws, words (op.code tl tr) = ws ++ [op.last tl tr] := by
  cases op with
  | add => exact ⟨words (scaleCode tl), by simp [BinOp.code, BinOp.last, BinOp.op]⟩
  | sub =>
    by_cases h : ptr < tl ∧ tl = tr
    · refine ⟨[Op.sub.word, Op.psh.word, Op.imm.word, word (stride tl)], ?_⟩
      rw [BinOp.code, if_pos h, BinOp.last, if_pos ⟨rfl, h⟩]
      rfl
    · exact ⟨words (scaleCode tl), by simp [BinOp.code, BinOp.last, BinOp.op, h]⟩
  | _ => exact ⟨[], rfl⟩

mutual

theorem words_last : ∀ (e : Exp) (b : Nat), e.Checked → ∃ ws, words (e.code b) = ws ++ [e.last]
  | .num v, b, _ => ⟨[Op.imm.word], rfl⟩
  | .negNum v, b, _ => ⟨[Op.imm.word], rfl⟩
  | .str v _, b, _ => ⟨[Op.imm.word], rfl⟩
  | .sizeof type n, b, _ => ⟨[Op.imm.word], rfl⟩
  | .var s, b, _ => by
    simp only [Exp.code, Exp.last]
    split
    · exact ⟨[(if s.cls = .loc then Op.lea else Op.imm).word], by simp [words_base]⟩
    · exact ⟨s.base.words ++ [Op.li.word], by simp⟩
  | .call s as, b, _ => by
    simp only [Exp.code, Exp.last]
    split
    · exact ⟨words (as.code b) ++ s.callIns.words ++ [Op.adj.word], by simp⟩
    · by_cases hfunc : s.cls = .func
      · exact ⟨words (as.code b) ++ [Op.jsr.word], by simp [words_callIns, hfunc]⟩
      · exact ⟨words (as.code b), by simp [words_callIns, hfunc]⟩
  | .paren e, b, h => words_last e b h
  | .cast _ _ e, b, h => words_last e b h
  | .index e i, b, _ => by
    rw [code_lvalue (.index e i) b rfl]
    exact ⟨words ((Exp.index e i).addrCode b) ++ [Op.li.word], by simp [Exp.last, Exp.type]⟩
  | .deref e, b, _ => ⟨words (e.code b) ++ [Op.li.word], by simp [Exp.code, Exp.last]⟩
  | .post inc e, b, _ => by
    refine ⟨words (e.addrCode b) ++ [Op.psh.word, Op.li.word, word (width e.type)] ++
      words (incCode inc e.type) ++ [Op.psh.word, Op.imm.word, word (incStep e.type)], ?_⟩
    simp [Exp.code, Exp.last, undoCode]
  | .pre inc e, b, _ => by
    refine ⟨words (e.addrCode b) ++ [Op.psh.word, Op.li.word, word (width e.type), Op.psh.word,
      Op.imm.word, word (incStep e.type), (if inc then Op.add else Op.sub).word, Op.si.word], ?_⟩
    simp [Exp.code, Exp.last, incCode]
  | .addr e, b, h => words_addrLast e b h.1 h.2
  | .un op e, b, h => by
    cases op with
    | plus => exact words_last e b h
    | minus => exact ⟨_, by simp only [Exp.code, Exp.last, ← List.cons_append, words_append]; rfl⟩
    | not => exact ⟨words (e.code b) ++ [Op.psh.word, Op.imm.word, 0], by simp [Exp.code, Exp.last]⟩
    | compl =>
      exact ⟨words (e.code b) ++ [Op.psh.word, Op.imm.word, -1], by simp [Exp.code, Exp.last]⟩
  | .bin op l r, b, _ => by
    obtain ⟨ws, hws⟩ := words_binLast op l.type r.type
    refine ⟨words (l.code b) ++ [Op.psh.word] ++ words (r.code (b + size (l.code b) + 1)) ++ ws, ?_⟩
    simp [Exp.code, Exp.last, hws]
  | .land l r, b, h => by
    obtain ⟨ws, hws⟩ := words_last r (b + size (l.code b) + 2) h.2
    refine ⟨words (l.code b) ++ [Op.bz.word, codePtr (b + size (l.code b) + 2 +
      size (r.code (b + size (l.code b) + 2)))] ++ ws, ?_⟩
    simp [Exp.code, Exp.last, hws]
  | .lor l r, b, h => by
    obtain ⟨ws, hws⟩ := words_last r (b + size (l.code b) + 2) h.2
    refine ⟨words (l.code b) ++ [Op.bnz.word, codePtr (b + size (l.code b) + 2 +
      size (r.code (b + size (l.code b) + 2)))] ++ ws, ?_⟩
    simp [Exp.code, Exp.last, hws]
  | .cond c t f, b, h => by
    obtain ⟨tb, htb⟩ : ∃ tb, b + size (c.code b) + 2 = tb := ⟨_, rfl⟩
    obtain ⟨fb, hfb⟩ : ∃ fb, tb + size (t.code tb) + 2 = fb := ⟨_, rfl⟩
    obtain ⟨ws, hws⟩ := words_last f fb h.2.2
    refine ⟨words (c.code b) ++ [Op.bz.word, codePtr fb] ++ words (t.code tb) ++
      [Op.jmp.word, codePtr (fb + size (f.code fb))] ++ ws, ?_⟩
    simp only [Exp.code, Exp.last, htb, hfb]
    simp [hws]
  | .assign l r, b, _ => by
    refine ⟨words (l.addrCode b) ++ [Op.psh.word] ++
      words (r.code (b + size (l.addrCode b) + 1)) ++ [Op.si.word], ?_⟩
    simp [Exp.code, Exp.last]

theorem words_addrLast : ∀ (e : Exp) (b : Nat), e.Checked → e.isLvalue = true →
    ∃ ws, words (e.addrCode b) = ws ++ [e.addrLast]
  | .var s, b, _, _ => ⟨[Op.imm.word], rfl⟩
  | .deref e, b, h, _ => words_last e b h.1
  | .index e i, b, _, _ => by
    refine ⟨words (e.code b) ++ [Op.psh.word] ++ words (i.code (b + size (e.code b) + 1)) ++
      words (scaleCode e.type), ?_⟩
    simp [Exp.addrCode, Exp.addrLast]
  | .paren e, b, h, hl => words_addrLast e b h hl

end

theorem isLi_word {op : Op} (h : op ≠ .li) : isLi op.word = false := by
  cases op <;> first | rfl | exact absurd rfl h

theorem isLi_codePtr (i : Nat) : isLi (codePtr i) = false := by
  have hlt : i % le < le := Nat.mod_lt i (by decide)
  have hval : (codePtr i).toNat = le + i % le :=
    Nat.mod_eq_of_lt (Nat.lt_trans (Nat.add_lt_add_left hlt le) (by decide))
  rw [isLi, beq_eq_false_iff_ne]
  intro h
  rw [h] at hval
  have hli : Op.li.word.toNat = 8 := rfl
  have hle : 8 < le := by decide
  omega

/-- The check on a binary operator after its right operand. -/
theorem endsLi_bin (op : BinOp) (tl tr : Nat) (c : List Long) (last : Long) :
    endsLi (c ++ [last] ++ words (op.code tl tr)) = op.looksLoad tl tr last := by
  have hscaled : ∀ o : Op, endsLi (c ++ [last] ++ words (scaleCode tl ++ [ins o])) =
      if ptr < tl then false else isLi last := by
    intro o
    unfold scaleCode
    split
    · have hwords : c ++ [last] ++
          words ([ins .psh, insArg .imm (word (stride tl)), ins .mul] ++ [ins o]) =
          c ++ [last, Op.psh.word, Op.imm.word, word (stride tl)] ++ [Op.mul.word, o.word] := by
        simp
      rw [hwords, endsLi_two]
      exact isLi_word nofun
    · exact endsLi_one c last o.word
  cases op with
  | add =>
    simp only [BinOp.code, hscaled, BinOp.looksLoad]
    simp
  | sub =>
    by_cases h : ptr < tl ∧ tl = tr
    · have hwords : c ++ [last] ++ words (BinOp.sub.code tl tr) =
          c ++ [last, Op.sub.word, Op.psh.word, Op.imm.word] ++ [word (stride tl), Op.div.word] := by
        rw [BinOp.code, if_pos h]
        simp
      rw [hwords, endsLi_two, BinOp.looksLoad, if_pos ⟨rfl, h⟩]
    · have hnot : ¬ (BinOp.sub = .sub ∧ ptr < tl ∧ tl = tr) := fun hs => h hs.2
      rw [BinOp.code, if_neg h, hscaled, BinOp.looksLoad, if_neg hnot]
      simp
  | _ => exact endsLi_one c last _

section Forms
variable (b : Nat) (c : List Long) (w : Long)

theorem endsLi_var (s : Symbol) :
    endsLi (c ++ [w] ++ words ((Exp.var s).code b)) = (Exp.var s).looksLoad (isLi w) := by
  obtain ⟨op, v, hop, hbase⟩ : ∃ op v, op ≠ Op.li ∧ s.base.words = [op.word, v] := by
    refine ⟨_, _, ?_, words_base s⟩
    split <;> exact nofun
  simp only [Exp.code, Exp.looksLoad]
  cases s.unloaded with
  | true =>
    have hwords : c ++ [w] ++ words [s.base] = c ++ [w] ++ [op.word, v] := by
      simp [hbase]
    rw [if_pos rfl, hwords, endsLi_two]
    exact isLi_word hop
  | false =>
    have hwords : c ++ [w] ++ words (s.base :: [insArg .li (word (width s.type))]) =
        c ++ [w, op.word, v] ++ [Op.li.word, word (width s.type)] := by
      simp [hbase]
    rw [if_neg nofun, hwords, endsLi_two]
    rfl

theorem endsLi_call (s : Symbol) (as : Args) :
    endsLi (c ++ [w] ++ words ((Exp.call s as).code b)) = (Exp.call s as).looksLoad (isLi w) := by
  simp only [Exp.code, Exp.looksLoad]
  split
  · rename_i hcount
    have hwords : c ++ [w] ++ words (as.code b ++ s.callIns :: [insArg .adj (word as.count)]) =
        c ++ [w] ++ words (as.code b) ++ s.callIns.words ++ [Op.adj.word, word as.count] := by
      simp
    have hadj : isLi Op.adj.word = false := isLi_word nofun
    rw [hwords, endsLi_two, hadj]
    simp [hcount]
  · rename_i hcount
    have hnil : as = .nil := by
      cases as with
      | nil => rfl
      | cons e comma rest => exact absurd (Nat.succ_ne_zero _) hcount
    have hwords : words (Args.nil.code b ++ [s.callIns]) = s.callIns.words := by
      simp [Args.code]
    rw [hnil, hwords, words_callIns]
    by_cases hfunc : s.cls = .func
    · have hjsr : isLi Op.jsr.word = false := isLi_word nofun
      rw [if_pos hfunc, endsLi_two, hjsr]
      simp [hfunc]
    · have hcls : (s.cls != .func) = true := bne_iff_ne.mpr hfunc
      rw [if_neg hfunc, hcls]
      exact endsLi_one c w s.value

theorem endsLi_post (inc : Bool) (e : Exp) :
    endsLi (c ++ [w] ++ words ((Exp.post inc e).code b)) = (Exp.post inc e).looksLoad (isLi w) := by
  have hwords : c ++ [w] ++ words ((Exp.post inc e).code b) =
      c ++ [w] ++ words (e.addrCode b) ++ [Op.psh.word, Op.li.word, word (width e.type)] ++
        words (incCode inc e.type) ++ [Op.psh.word, Op.imm.word] ++
        [word (incStep e.type), (if inc then Op.sub else Op.add).word] := by
    simp [Exp.code, undoCode]
  rw [hwords, endsLi_two]
  rfl

theorem endsLi_pre (inc : Bool) (e : Exp) :
    endsLi (c ++ [w] ++ words ((Exp.pre inc e).code b)) = (Exp.pre inc e).looksLoad (isLi w) := by
  have hwords : c ++ [w] ++ words ((Exp.pre inc e).code b) =
      c ++ [w] ++ words (e.addrCode b) ++ [Op.psh.word, Op.li.word, word (width e.type),
        Op.psh.word, Op.imm.word, word (incStep e.type),
        (if inc then Op.add else Op.sub).word] ++ [Op.si.word, word (width e.type)] := by
    simp [Exp.code, incCode]
  rw [hwords, endsLi_two]
  rfl

theorem endsLi_un {op : UnOp} {e : Exp} (hop : op ≠ .plus) (h : e.Checked) :
    endsLi (c ++ [w] ++ words ((Exp.un op e).code b)) = (Exp.un op e).looksLoad (isLi w) := by
  cases op with
  | plus => exact absurd rfl hop
  | minus =>
    obtain ⟨ws, hws⟩ := words_last e (b + 3) h
    have hwords : c ++ [w] ++ words ((Exp.un .minus e).code b) =
        c ++ [w, Op.imm.word, -1, Op.psh.word] ++ ws ++ [e.last] ++ [Op.mul.word] := by
      simp [Exp.code, hws]
    rw [hwords, endsLi_one]
    rfl
  | not =>
    have hwords : c ++ [w] ++ words ((Exp.un .not e).code b) =
        c ++ [w] ++ words (e.code b) ++ [Op.psh.word, Op.imm.word] ++ [0, Op.eq.word] := by
      simp [Exp.code]
    rw [hwords, endsLi_two]
    rfl
  | compl =>
    have hwords : c ++ [w] ++ words ((Exp.un .compl e).code b) =
        c ++ [w] ++ words (e.code b) ++ [Op.psh.word, Op.imm.word] ++ [-1, Op.xor.word] := by
      simp [Exp.code]
    rw [hwords, endsLi_two]
    rfl

theorem endsLi_binary (op : BinOp) (l : Exp) {r : Exp} (h : r.Checked) :
    endsLi (c ++ [w] ++ words ((Exp.bin op l r).code b)) = (Exp.bin op l r).looksLoad (isLi w) := by
  obtain ⟨ws, hws⟩ := words_last r (b + size (l.code b) + 1) h
  have hwords : c ++ [w] ++ words ((Exp.bin op l r).code b) =
      c ++ [w] ++ words (l.code b) ++ [Op.psh.word] ++ ws ++ [r.last] ++
        words (op.code l.type r.type) := by
    simp [Exp.code, hws]
  rw [hwords, endsLi_bin]
  rfl

end Forms

mutual

/-- What the check sees after the code of an expression. -/
theorem endsLi_code : ∀ (e : Exp) (b : Nat) (c : List Long) (w : Long), e.Checked →
    endsLi (c ++ [w] ++ words (e.code b)) = e.looksLoad (isLi w)
  | .num v, b, c, w, _ => endsLi_two (c ++ [w]) Op.imm.word v
  | .negNum v, b, c, w, _ => endsLi_two (c ++ [w]) Op.imm.word (-v)
  | .str v _, b, c, w, _ => endsLi_two (c ++ [w]) Op.imm.word v
  | .sizeof type n, b, c, w, _ => endsLi_two (c ++ [w]) Op.imm.word _
  | .var s, b, c, w, _ => endsLi_var b c w s
  | .call s as, b, c, w, _ => endsLi_call b c w s as
  | .paren e, b, c, w, h => endsLi_code e b c w h
  | .cast _ _ e, b, c, w, h => endsLi_code e b c w h
  | .index e i, b, c, w, h => by
    rw [code_lvalue (.index e i) b rfl, words_append, ← List.append_assoc]
    exact endsLi_two _ Op.li.word _
  | .deref e, b, c, w, h => by
    rw [Exp.code, words_append, ← List.append_assoc]
    exact endsLi_two _ Op.li.word _
  | .post inc e, b, c, w, _ => endsLi_post b c w inc e
  | .pre inc e, b, c, w, _ => endsLi_pre b c w inc e
  | .addr e, b, c, w, h => endsLi_addrCode e b c w h.1 h.2
  | .un op e, b, c, w, h => by
    cases op with
    | plus => exact endsLi_code e b c w h
    | minus | not | compl => exact endsLi_un b c w (by decide) h
  | .bin op l _, b, c, w, h => endsLi_binary b c w op l h.2
  | .land l r, b, c, w, h => by
    have hwords : c ++ [w] ++ words ((Exp.land l r).code b) =
        c ++ [w] ++ words (l.code b) ++ [Op.bz.word] ++
          [codePtr (b + size (l.code b) + 2 + size (r.code (b + size (l.code b) + 2)))] ++
          words (r.code (b + size (l.code b) + 2)) := by
      simp [Exp.code]
    rw [hwords, endsLi_code r (b + size (l.code b) + 2) _ _ h.2, isLi_codePtr]
    rfl
  | .lor l r, b, c, w, h => by
    have hwords : c ++ [w] ++ words ((Exp.lor l r).code b) =
        c ++ [w] ++ words (l.code b) ++ [Op.bnz.word] ++
          [codePtr (b + size (l.code b) + 2 + size (r.code (b + size (l.code b) + 2)))] ++
          words (r.code (b + size (l.code b) + 2)) := by
      simp [Exp.code]
    rw [hwords, endsLi_code r (b + size (l.code b) + 2) _ _ h.2, isLi_codePtr]
    rfl
  | .cond x t f, b, c, w, h => by
    obtain ⟨tb, htb⟩ : ∃ tb, b + size (x.code b) + 2 = tb := ⟨_, rfl⟩
    obtain ⟨fb, hfb⟩ : ∃ fb, tb + size (t.code tb) + 2 = fb := ⟨_, rfl⟩
    have hwords : c ++ [w] ++ words ((Exp.cond x t f).code b) =
        c ++ [w] ++ words (x.code b) ++ [Op.bz.word, codePtr fb] ++ words (t.code tb) ++
          [Op.jmp.word] ++ [codePtr (fb + size (f.code fb))] ++ words (f.code fb) := by
      simp only [Exp.code, htb, hfb]
      simp
    rw [hwords, endsLi_code f fb _ _ h.2.2, isLi_codePtr]
    rfl
  | .assign l r, b, c, w, h => by
    have hwords : c ++ [w] ++ words ((Exp.assign l r).code b) =
        c ++ [w] ++ words (l.addrCode b) ++ [Op.psh.word] ++
          words (r.code (b + size (l.addrCode b) + 1)) ++ [Op.si.word, word (width l.type)] := by
      simp [Exp.code]
    rw [hwords, endsLi_two]
    rfl

theorem endsLi_addrCode : ∀ (e : Exp) (b : Nat) (c : List Long) (w : Long), e.Checked →
    e.isLvalue = true → endsLi (c ++ [w] ++ words (e.addrCode b)) = e.addrLooksLoad (isLi w)
  | .var s, b, c, w, _, _ => endsLi_two (c ++ [w]) Op.imm.word s.value
  | .deref e, b, c, w, h, _ => endsLi_code e b c w h.1
  | .index e i, b, c, w, h, _ => by
    obtain ⟨ws, hws⟩ := words_last i (b + size (e.code b) + 1) h.2.1
    have hwords : c ++ [w] ++ words ((Exp.index e i).addrCode b) =
        c ++ [w] ++ words (e.code b) ++ [Op.psh.word] ++ ws ++ [i.last] ++
          words (BinOp.add.code e.type 0) := by
      simp [Exp.addrCode, hws, BinOp.code]
    rw [hwords, endsLi_bin]
    simp [BinOp.looksLoad, Exp.addrLooksLoad]
  | .paren e, b, c, w, h, hl => endsLi_addrCode e b c w h hl

end

end Words

section Slips

/-- An operand that is no lvalue, though its own operators are applied to lvalues, and that looks
like a load. -/
def Exp.Mistaken (e : Exp) (before : Bool) : Prop :=
  e.LvaluesOnly ∧ e.isLvalue = false ∧ e.looksLoad before = true

mutual

/-- `=`, `++`, `--` or `&` is applied to such an operand. `before` tells whether the word before the
code looks like `LI`, and `above` are the words that are left above it: a branch is patched only
after its operand, so the word before the operand is until then the one that was left there. -/
def Exp.Slips : Exp → Bool → List Long → Prop
  | .num _, _, _ | .negNum _, _, _ | .str .., _, _ | .var _, _, _ | .sizeof .., _, _ => False
  | .call _ as, before, above => as.Slips before above
  | .paren e, before, above | .cast _ _ e, before, above | .deref e, before, above =>
    e.Slips before above
  | .un op e, before, above => match op with
    | .minus => e.Slips false (above.drop 3)
    | .plus | .not | .compl => e.Slips before above
  | .index l r, before, above | .bin _ l r, before, above =>
    l.Slips before above ∨ r.Slips false ((l.above above).drop 1)
  | .post _ e, before, above | .pre _ e, before, above | .addr e, before, above =>
    e.Slips before above ∨ e.Mistaken before
  | .land l r, before, above | .lor l r, before, above =>
    l.Slips before above ∨
      r.Slips (isLi ((l.above above).getD 1 0)) ((l.above above).drop 2)
  | .cond c t f, before, above =>
    let left := (c.above above).drop 2
    c.Slips before above ∨ t.Slips (isLi ((c.above above).getD 1 0)) left ∨
      f.Slips (isLi ((t.above left).getD 1 0)) ((t.above left).drop 2)
  | .assign l r, before, above =>
    l.Slips before above ∨ l.Mistaken before ∨
      r.Slips false (word (width l.type) :: l.above above)

def Args.Slips : Args → Bool → List Long → Prop
  | .nil, _, _ => False
  | .cons e _ rest, before, above =>
    e.Slips before above ∨ rest.Slips false ((e.above above).drop 1)

end

def slipsAll : Exp → List Exp → Bool → List Long → Prop
  | e, [], before, above => e.Slips before above
  | e, e' :: es, before, above =>
    e.Slips before above ∨ slipsAll e' es (isLi e.last) (e.above above)

mutual

/-- A tree that the second pass accepts and whose operands are lvalues passes every check. -/
theorem checked_of_gen : ∀ (e : Exp) (c c' : Buf), e.gen c = some c' → e.LvaluesOnly → e.Checked
  | .num _, _, _, _, _ | .negNum _, _, _, _, _ | .str .., _, _, _, _ | .sizeof .., _, _, _, _ =>
    trivial
  | .var s, c, c', h, _ => by
    simp only [Exp.gen] at h
    split at h
    · exact Or.inl ‹_›
    · obtain ⟨ws, hws, -⟩ := Option.map_eq_some_iff.mp h
      unfold St.address at hws
      split at hws
      · exact Or.inr (Or.inl ‹_›)
      · exact Or.inr (Or.inr ‹_›)
      · cases hws
  | .call s as, c, c', h, hl => by
    simp only [Exp.gen, Option.bind_eq_bind, Option.bind_eq_some_iff] at h
    obtain ⟨c₁, has, hs⟩ := h
    refine ⟨?_, checkedArgs_of_gen as c c₁ has hl⟩
    obtain ⟨ws, hws, -⟩ := Option.map_eq_some_iff.mp hs
    unfold St.callee at hws
    split at hws
    · exact Or.inl ‹_›
    · exact Or.inr ‹_›
    · cases hws
  | .paren e, c, c', h, hl => checked_of_gen e c c' h hl
  | .cast _ _ e, c, c', h, hl => checked_of_gen e c c' h hl
  | .index e i, c, c', h, hl => by
    simp only [Exp.gen, Option.bind_eq_bind, Option.bind_eq_some_iff] at h
    obtain ⟨c₁, he, c₂, hi, hty⟩ := h
    split at hty
    · exact ⟨checked_of_gen e c c₁ he hl.1, checked_of_gen i _ c₂ hi hl.2, ‹_›⟩
    · cases hty
  | .deref e, c, c', h, hl => by
    simp only [Exp.gen, Option.bind_eq_bind, Option.bind_eq_some_iff] at h
    obtain ⟨c₁, he, hty⟩ := h
    split at hty
    · exact ⟨checked_of_gen e c c₁ he hl, ‹_›⟩
    · cases hty
  | .post _ e, c, c', h, hl => by
    simp only [Exp.gen, Option.bind_eq_bind, Option.bind_eq_some_iff] at h
    obtain ⟨c₁, he, -⟩ := h
    exact ⟨checked_of_gen e c c₁ he hl.1, hl.2⟩
  | .pre _ e, c, c', h, hl => by
    simp only [Exp.gen, Option.bind_eq_bind, Option.bind_eq_some_iff] at h
    obtain ⟨c₁, he, -⟩ := h
    exact ⟨checked_of_gen e c c₁ he hl.1, hl.2⟩
  | .addr e, c, c', h, hl => by
    simp only [Exp.gen, Option.bind_eq_bind, Option.bind_eq_some_iff] at h
    obtain ⟨c₁, he, -⟩ := h
    exact ⟨checked_of_gen e c c₁ he hl.1, hl.2⟩
  | .un op e, c, c', h, hl => by
    cases op with
    | plus => exact checked_of_gen e c c' h hl
    | _ =>
      obtain ⟨c₁, he, -⟩ := Option.map_eq_some_iff.mp h
      exact checked_of_gen e _ c₁ he hl
  | .bin op l r, c, c', h, hl => by
    simp only [Exp.gen, Option.bind_eq_bind, Option.bind_eq_some_iff] at h
    obtain ⟨c₁, h1, c₂, h2, -⟩ := h
    exact ⟨checked_of_gen l c c₁ h1 hl.1, checked_of_gen r _ c₂ h2 hl.2⟩
  | .land l r, c, c', h, hl => by
    simp only [Exp.gen, Option.bind_eq_bind, Option.bind_eq_some_iff] at h
    obtain ⟨c₁, h1, h2⟩ := h
    obtain ⟨c₂, h2, -⟩ := Option.map_eq_some_iff.mp h2
    exact ⟨checked_of_gen l c c₁ h1 hl.1, checked_of_gen r _ c₂ h2 hl.2⟩
  | .lor l r, c, c', h, hl => by
    simp only [Exp.gen, Option.bind_eq_bind, Option.bind_eq_some_iff] at h
    obtain ⟨c₁, h1, h2⟩ := h
    obtain ⟨c₂, h2, -⟩ := Option.map_eq_some_iff.mp h2
    exact ⟨checked_of_gen l c c₁ h1 hl.1, checked_of_gen r _ c₂ h2 hl.2⟩
  | .cond x t f, c, c', h, hl => by
    simp only [Exp.gen, Option.bind_eq_bind, Option.bind_eq_some_iff] at h
    obtain ⟨c₁, h1, c₂, h2, h3⟩ := h
    obtain ⟨c₃, h3, -⟩ := Option.map_eq_some_iff.mp h3
    exact ⟨checked_of_gen x c c₁ h1 hl.1, checked_of_gen t _ c₂ h2 hl.2.1,
      checked_of_gen f _ c₃ h3 hl.2.2⟩
  | .assign l r, c, c', h, hl => by
    simp only [Exp.gen, Option.bind_eq_bind, Option.bind_eq_some_iff] at h
    obtain ⟨c₁, h1, h2⟩ := h
    split at h2
    · obtain ⟨c₂, h2, -⟩ := Option.map_eq_some_iff.mp h2
      exact ⟨checked_of_gen l c c₁ h1 hl.1, checked_of_gen r _ c₂ h2 hl.2.1, hl.2.2⟩
    · cases h2

theorem checkedArgs_of_gen : ∀ (as : Args) (c c' : Buf), as.gen c = some c' →
    as.LvaluesOnly → as.Checked
  | .nil, _, _, _, _ => trivial
  | .cons e _ rest, c, c', h, hl => by
    simp only [Args.gen, Option.bind_eq_bind, Option.bind_eq_some_iff] at h
    obtain ⟨c₁, h1, h2⟩ := h
    exact ⟨checked_of_gen e c c₁ h1 hl.1, checkedArgs_of_gen rest _ c' h2 hl.2⟩

end

/-- What an accepted tree of lvalue operators has made of the buffer. -/
theorem gen_words {e : Exp} {c c' : Buf} (h : e.gen c = some c') (hl : e.LvaluesOnly) :
    c' = ⟨c.code ++ words (e.code c.code.length), e.above c.above⟩ := by
  have hgen := generates_of_checked e (checked_of_gen e c c' h hl) c
  rw [h] at hgen
  exact Option.some.inj hgen

/-- An operand that passed the check is an lvalue or was mistaken for one. -/
theorem mistaken_of_endsLi {e : Exp} {c : List Long} {w : Long} {a : List Long} {c' : Buf}
    (h : e.gen ⟨c ++ [w], a⟩ = some c') (hl : e.LvaluesOnly) (hends : c'.endsLi = true) :
    e.isLvalue = true ∨ e.Mistaken (isLi w) := by
  by_cases hlv : e.isLvalue = true
  · exact Or.inl hlv
  · right
    refine ⟨hl, Bool.eq_false_iff.mpr hlv, ?_⟩
    have hcheck := endsLi_code e (c ++ [w]).length c w (checked_of_gen e _ c' h hl)
    rw [gen_words h hl] at hends
    exact hcheck.symm.trans hends

/-- Where the second pass accepts the tree, its operands are lvalues, or one slipped. -/
def Exp.Judged (e : Exp) : Prop :=
  ∀ (c : List Long) (w : Long) (a : List Long) (c' : Buf), e.gen ⟨c ++ [w], a⟩ = some c' →
    e.LvaluesOnly ∨ e.Slips (isLi w) a

section Judged
variable {e l r : Exp}

/-- The operand of a check. -/
theorem Exp.Judged.operand (he : e.Judged) {c : List Long} {w : Long} {a : List Long} {c' : Buf}
    (h : e.gen ⟨c ++ [w], a⟩ = some c') (hends : c'.endsLi = true) :
    (e.LvaluesOnly ∧ e.isLvalue = true) ∨ e.Slips (isLi w) a ∨ e.Mistaken (isLi w) := by
  rcases he c w a c' h with hl | hs
  · exact (mistaken_of_endsLi h hl hends).imp (And.intro hl) Or.inr
  · exact Or.inr (Or.inl hs)

/-- The right operand, behind one word. -/
theorem Exp.Judged.right (hl : l.Judged) (hr : r.Judged) {c : List Long} {w v : Long} {a : List Long}
    {c₁ c₂ : Buf} (h1 : l.gen ⟨c ++ [w], a⟩ = some c₁) (h2 : r.gen (c₁.emit [v]) = some c₂) :
    (l.LvaluesOnly ∧ r.LvaluesOnly) ∨ l.Slips (isLi w) a ∨
      r.Slips (isLi v) ((l.above a).drop 1) := by
  rcases hl c w a c₁ h1 with hlv | hs
  · have hrec := hr c₁.code v _ c₂ h2
    rw [gen_words h1 hlv] at hrec
    exact hrec.imp (And.intro hlv) Or.inr
  · exact Or.inr (Or.inl hs)

/-- The operand of a branch, behind the word that is not patched yet. -/
theorem Exp.Judged.branched (hr : r.Judged) {op : Op} {c c' : Buf}
    (h : r.gen (c.reserve op) = some c') :
    r.LvaluesOnly ∨ r.Slips (isLi (c.above.getD 1 0)) (c.above.drop 2) := by
  have hcode : c.reserve op = ⟨c.code ++ [op.word] ++ [c.above.getD 1 0], c.above.drop 2⟩ := by
    rw [Buf.reserve, Buf.emit, List.append_assoc]
    rfl
  rw [hcode] at h
  exact hr _ _ _ c' h

theorem Exp.Judged.index (he : l.Judged) (hi : r.Judged) : (Exp.index l r).Judged := by
  intro c w a c' h
  simp only [Exp.gen, Option.bind_eq_bind, Option.bind_eq_some_iff] at h
  obtain ⟨c₁, h1, c₂, h2, -⟩ := h
  exact he.right hi h1 h2

theorem Exp.Judged.bin (hl : l.Judged) (hr : r.Judged) (op : BinOp) : (Exp.bin op l r).Judged := by
  intro c w a c' h
  simp only [Exp.gen, Option.bind_eq_bind, Option.bind_eq_some_iff] at h
  obtain ⟨c₁, h1, c₂, h2, -⟩ := h
  exact hl.right hr h1 h2

theorem Exp.Judged.deref (he : e.Judged) : (Exp.deref e).Judged := by
  intro c w a c' h
  simp only [Exp.gen, Option.bind_eq_bind, Option.bind_eq_some_iff] at h
  obtain ⟨c₁, h1, -⟩ := h
  exact he c w a c₁ h1

theorem Exp.Judged.un (he : e.Judged) (op : UnOp) : (Exp.un op e).Judged := by
  intro c w a c' h
  cases op with
  | plus => exact he c w a c' h
  | minus =>
    obtain ⟨c₁, h1, -⟩ := Option.map_eq_some_iff.mp h
    have hcode : (Buf.mk (c ++ [w]) a).emit [Op.imm.word, -1, Op.psh.word] =
        ⟨c ++ [w, Op.imm.word, -1] ++ [Op.psh.word], a.drop 3⟩ := by
      simp [Buf.emit]
    rw [hcode] at h1
    exact he _ _ _ c₁ h1
  | not =>
    obtain ⟨c₁, h1, -⟩ := Option.map_eq_some_iff.mp h
    exact he c w a c₁ h1
  | compl =>
    obtain ⟨c₁, h1, -⟩ := Option.map_eq_some_iff.mp h
    exact he c w a c₁ h1

theorem Exp.Judged.post (he : e.Judged) (inc : Bool) : (Exp.post inc e).Judged := by
  intro c w a c' h
  simp only [Exp.gen, Option.bind_eq_bind, Option.bind_eq_some_iff] at h
  obtain ⟨c₁, h1, hends⟩ := h
  split at hends
  · exact he.operand h1 ‹_›
  · cases hends

theorem Exp.Judged.pre (he : e.Judged) (inc : Bool) : (Exp.pre inc e).Judged := by
  intro c w a c' h
  simp only [Exp.gen, Option.bind_eq_bind, Option.bind_eq_some_iff] at h
  obtain ⟨c₁, h1, hends⟩ := h
  split at hends
  · exact he.operand h1 ‹_›
  · cases hends

theorem Exp.Judged.addr (he : e.Judged) : (Exp.addr e).Judged := by
  intro c w a c' h
  simp only [Exp.gen, Option.bind_eq_bind, Option.bind_eq_some_iff] at h
  obtain ⟨c₁, h1, hends⟩ := h
  split at hends
  · exact he.operand h1 ‹_›
  · cases hends

/-- The operands of `&&` and `||`. -/
theorem Exp.Judged.logical (hl : l.Judged) (hr : r.Judged) {op : Op} {c : List Long} {w : Long}
    {a : List Long} {c' : Buf} (h : (l.gen ⟨c ++ [w], a⟩ >>= branch op r.gen) = some c') :
    (l.LvaluesOnly ∧ r.LvaluesOnly) ∨ l.Slips (isLi w) a ∨
      r.Slips (isLi ((l.above a).getD 1 0)) ((l.above a).drop 2) := by
  obtain ⟨c₁, h1, h2⟩ := Option.bind_eq_some_iff.mp h
  obtain ⟨c₂, h2, -⟩ := Option.map_eq_some_iff.mp h2
  rcases hl c w a c₁ h1 with hlv | hs
  · have hrec := hr.branched h2
    rw [gen_words h1 hlv] at hrec
    exact hrec.imp (And.intro hlv) Or.inr
  · exact Or.inr (Or.inl hs)

theorem Exp.Judged.land (hl : l.Judged) (hr : r.Judged) : (Exp.land l r).Judged :=
  fun _ _ _ _ h => hl.logical hr h

theorem Exp.Judged.lor (hl : l.Judged) (hr : r.Judged) : (Exp.lor l r).Judged :=
  fun _ _ _ _ h => hl.logical hr h

theorem Exp.Judged.cond {x t f : Exp} (hx : x.Judged) (ht : t.Judged) (hf : f.Judged) :
    (Exp.cond x t f).Judged := by
  intro c w a c' h
  simp only [Exp.gen, Option.bind_eq_bind, Option.bind_eq_some_iff] at h
  obtain ⟨c₁, h1, c₂, h2, h3⟩ := h
  obtain ⟨c₃, h3, -⟩ := Option.map_eq_some_iff.mp h3
  rcases hx c w a c₁ h1 with hlx | hs
  · have hthen := ht.branched h2
    have helse := hf.branched h3
    rw [gen_words h1 hlx] at hthen
    rcases hthen with hlt | hs
    · have habove : (c₂.patch (c₁.code.length + 1) (c₂.code.length + 2)).above =
          t.above ((x.above a).drop 2) := by
        rw [gen_words h2 hlt, gen_words h1 hlx]
        rfl
      rw [habove] at helse
      exact helse.imp (fun hlf => ⟨hlx, hlt, hlf⟩) fun hs => Or.inr (Or.inr hs)
    · exact Or.inr (Or.inr (Or.inl hs))
  · exact Or.inr (Or.inl hs)

theorem Exp.Judged.assign (hl : l.Judged) (hr : r.Judged) : (Exp.assign l r).Judged := by
  intro c w a c' h
  simp only [Exp.gen, Option.bind_eq_bind, Option.bind_eq_some_iff] at h
  obtain ⟨c₁, h1, h2⟩ := h
  split at h2
  · rename_i hends
    obtain ⟨c₂, h2, -⟩ := Option.map_eq_some_iff.mp h2
    rcases hl.operand h1 hends with ⟨hlv, hlvalue⟩ | hs | hm
    · have hgen := generates_of_checked l (checked_of_gen l _ c₁ h1 hlv)
      obtain ⟨c₃, hc₃, -, hdrop, -⟩ := hgen.lvalue hlvalue ⟨c ++ [w], a⟩
      rw [h1] at hc₃
      cases hc₃
      rw [hdrop] at h2
      exact (hr _ Op.psh.word _ c₂ h2).imp (fun hrv => ⟨hlv, hrv, hlvalue⟩)
        fun hs => Or.inr (Or.inr hs)
    · exact Or.inr (Or.inl hs)
    · exact Or.inr (Or.inr (Or.inl hm))
  · cases h2

end Judged

mutual

theorem judged : ∀ e : Exp, e.Judged
  | .num _ | .negNum _ | .str .. | .var _ | .sizeof .. => fun _ _ _ _ _ => Or.inl trivial
  | .call s as => fun c w a c' h => by
    simp only [Exp.gen, Option.bind_eq_bind, Option.bind_eq_some_iff] at h
    obtain ⟨c₁, has, -⟩ := h
    exact judgedArgs as c w a c₁ has
  | .paren e => judged e
  | .cast _ _ e => judged e
  | .deref e => (judged e).deref
  | .un op e => (judged e).un op
  | .index e i => (judged e).index (judged i)
  | .post inc e => (judged e).post inc
  | .pre inc e => (judged e).pre inc
  | .addr e => (judged e).addr
  | .bin op l r => (judged l).bin (judged r) op
  | .land l r => (judged l).land (judged r)
  | .lor l r => (judged l).lor (judged r)
  | .cond x t f => (judged x).cond (judged t) (judged f)
  | .assign l r => (judged l).assign (judged r)

theorem judgedArgs : ∀ (as : Args) (c : List Long) (w : Long) (a : List Long) (c' : Buf),
    as.gen ⟨c ++ [w], a⟩ = some c' → as.LvaluesOnly ∨ as.Slips (isLi w) a
  | .nil, _, _, _, _, _ => Or.inl trivial
  | .cons e _ rest, c, w, a, c', h => by
    simp only [Args.gen, Option.bind_eq_bind, Option.bind_eq_some_iff] at h
    obtain ⟨c₁, h1, h2⟩ := h
    rcases judged e c w a c₁ h1 with hlv | hs
    · have hrec := judgedArgs rest c₁.code Op.psh.word _ c' h2
      rw [gen_words h1 hlv] at hrec
      exact hrec.imp (And.intro hlv) Or.inr
    · exact Or.inr (Or.inl hs)

end

theorem not_mistaken {e : Exp} (h : e.isLvalue = true) (before : Bool) : ¬ e.Mistaken before := by
  intro hm
  have := hm.2.1
  rw [h] at this
  cases this

mutual

theorem not_slips : ∀ (e : Exp) (before : Bool) (a : List Long), e.LvaluesOnly → ¬ e.Slips before a
  | .num _, _, _, _ | .negNum _, _, _, _ | .str .., _, _, _ | .var _, _, _, _
  | .sizeof .., _, _, _ => id
  | .call _ as, before, a, h => not_slipsArgs as before a h
  | .paren e, before, a, h => not_slips e before a h
  | .cast _ _ e, before, a, h => not_slips e before a h
  | .deref e, before, a, h => not_slips e before a h
  | .un op e, before, a, h => by
    cases op with
    | minus => exact not_slips e _ _ h
    | _ => exact not_slips e before a h
  | .index e i, before, a, h => not_or.mpr ⟨not_slips e before a h.1, not_slips i _ _ h.2⟩
  | .post _ e, before, a, h => not_or.mpr ⟨not_slips e before a h.1, not_mistaken h.2 before⟩
  | .pre _ e, before, a, h => not_or.mpr ⟨not_slips e before a h.1, not_mistaken h.2 before⟩
  | .addr e, before, a, h => not_or.mpr ⟨not_slips e before a h.1, not_mistaken h.2 before⟩
  | .bin _ l r, before, a, h => not_or.mpr ⟨not_slips l before a h.1, not_slips r _ _ h.2⟩
  | .land l r, before, a, h => not_or.mpr ⟨not_slips l before a h.1, not_slips r _ _ h.2⟩
  | .lor l r, before, a, h => not_or.mpr ⟨not_slips l before a h.1, not_slips r _ _ h.2⟩
  | .cond c t f, before, a, h => not_or.mpr ⟨not_slips c before a h.1,
    not_or.mpr ⟨not_slips t _ _ h.2.1, not_slips f _ _ h.2.2⟩⟩
  | .assign l r, before, a, h => not_or.mpr ⟨not_slips l before a h.1,
    not_or.mpr ⟨not_mistaken h.2.2 before, not_slips r _ _ h.2.1⟩⟩

theorem not_slipsArgs : ∀ (as : Args) (before : Bool) (a : List Long), as.LvaluesOnly →
    ¬ as.Slips before a
  | .nil, _, _, _ => id
  | .cons e _ rest, before, a, h =>
    not_or.mpr ⟨not_slips e before a h.1, not_slipsArgs rest _ _ h.2⟩

end

/-- Expressions between commas: each operand is an lvalue, unless one was mistaken for one. -/
theorem lvalues_iff_all (e : Exp) (es : List Exp) (c : List Long) (w : Long) (a : List Long)
    (c' : Buf) (h : genAll e es ⟨c ++ [w], a⟩ = some c') :
    (∀ x ∈ e :: es, x.LvaluesOnly) ↔ ¬ slipsAll e es (isLi w) a := by
  induction es generalizing e c w a with
  | nil =>
    rw [List.forall_mem_singleton]
    exact ⟨not_slips e _ a, fun hn => (judged e c w a c' h).resolve_right hn⟩
  | cons e' es ih =>
    simp only [genAll, Option.bind_eq_bind, Option.bind_eq_some_iff] at h
    obtain ⟨c₁, h1, h2⟩ := h
    -- once `e` is in order, what comes before `e'` is the last word of `e`
    have hnext : e.LvaluesOnly → ((∀ x ∈ e' :: es, x.LvaluesOnly) ↔
        ¬ slipsAll e' es (isLi e.last) (e.above a)) := by
      intro hl
      obtain ⟨ws, hws⟩ := words_last e (c ++ [w]).length (checked_of_gen e _ c₁ h1 hl)
      have hc₁ : c₁ = ⟨(c ++ [w] ++ ws) ++ [e.last], e.above a⟩ := by
        rw [gen_words h1 hl]
        dsimp only
        rw [hws, List.append_assoc (c ++ [w])]
      rw [hc₁] at h2
      exact ih e' _ _ _ h2
    rw [List.forall_mem_cons, slipsAll, not_or]
    constructor
    · intro hall
      exact ⟨not_slips e _ a hall.1, (hnext hall.1).mp hall.2⟩
    · intro hn
      have hl := (judged e c w a c₁ h1).resolve_right hn.1
      exact ⟨hl, (hnext hl).mpr hn.2⟩

/-- `long a` and `long b`. -/
def longs : List GlobalVarDeclare := [⟨['a'], 0, 8, 8⟩, ⟨['b'], 8, 8, 8⟩]

def longVar (n : Nat) : Exp := .var ⟨.glo, 3, word n, true⟩

/-- The `&` leaves the size 8 of its load where `&&` keeps room for its target. -/
example : (exprCompile [] 4096 8192 "&a && ntohl()++".toList longs).toOption.isSome = true ∧
    (exprCompile [] 4096 8192 "a && ntohl()++".toList longs).toOption.isSome = false := by
  decide +kernel

end Slips

end PerfProf.Expr
