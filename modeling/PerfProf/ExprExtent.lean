import PerfProf.ExprSound

/-! How far the code of a tree reaches: where it ends, the highest position on the way there, and
what both owe to the number of tokens. -/
namespace PerfProf.Expr

section Extent

/-- The words of a binary operator after its right operand. -/
def BinOp.extent (op : BinOp) (l r : Exp) : Nat := (op.words l.type r.type).length

mutual

/-- The position of `e` behind the code of the tree, from the position before it. -/
def Exp.after : Exp → Nat → Nat
  | .num _, n | .negNum _, n | .str .., n | .sizeof .., n => n + 2
  | .var s, n => n + if s.unloaded then 2 else 4
  | .call s as, n => as.after n + (s.callIns.words.length + if as.count ≠ 0 then 2 else 0)
  | .paren e, n | .cast _ _ e, n => e.after n
  | .index e i, n => i.after (e.after n + 1) + ((scaleWords e.type).length + 3)
  | .post _ e, n => e.after n + 11
  | .un op e, n => match op with
    | .plus => e.after n
    | .minus => e.after (n + 3) + 1
    | .not | .compl => e.after n + 4
  | .deref e, n => e.after n + 2
  | .addr e, n => e.after n - 2
  | .pre _ e, n => e.after n + 7
  | .bin op l r, n => r.after (l.after n + 1) + op.extent l r
  | .land l r, n | .lor l r, n => r.after (l.after n + 2)
  | .cond c t f, n => f.after (t.after (c.after n + 2) + 2)
  | .assign l r, n => r.after (l.after n - 1) + 2

def Args.after : Args → Nat → Nat
  | .nil, n => n
  | .cons e _ rest, n => rest.after (e.after n + 1)

end

mutual

/-- The highest position on the way. -/
def Exp.top : Exp → Nat → Nat
  | .num v, n => (Exp.num v).after n
  | .negNum v, n => (Exp.negNum v).after n
  | .str v more, n => (Exp.str v more).after n
  | .sizeof type k, n => (Exp.sizeof type k).after n
  | .var s, n => (Exp.var s).after n
  | .call s as, n => max (as.top n) ((Exp.call s as).after n)
  | .paren e, n | .cast _ _ e, n => e.top n
  | .index e i, n => max (max (e.top n) (i.top (e.after n + 1))) ((Exp.index e i).after n)
  | .post inc e, n => max (e.top n) ((Exp.post inc e).after n)
  | .un op e, n => match op with
    | .plus => e.top n
    | .minus => max (e.top (n + 3)) ((Exp.un .minus e).after n)
    | op => max (e.top n) ((Exp.un op e).after n)
  | .deref e, n => max (e.top n) ((Exp.deref e).after n)
  | .addr e, n => e.top n
  | .pre inc e, n => max (e.top n) ((Exp.pre inc e).after n)
  | .bin op l r, n => max (max (l.top n) (r.top (l.after n + 1))) ((Exp.bin op l r).after n)
  | .land l r, n | .lor l r, n => max (l.top n) (r.top (l.after n + 2))
  | .cond c t f, n => max (max (c.top n) (t.top (c.after n + 2)))
      (f.top (t.after (c.after n + 2) + 2))
  | .assign l r, n => max (max (l.top n) (r.top (l.after n - 1))) ((Exp.assign l r).after n)

def Args.top : Args → Nat → Nat
  | .nil, n => n
  | .cons e _ rest, n => max (e.top n) (rest.top (e.after n + 1))

end

/-- The highest position over expressions between commas, with the `EXIT` behind the last. -/
def topAll : Exp → List Exp → Nat → Nat
  | e, [], n => max (e.top n) (e.after n + 1)
  | e, e' :: es, n => max (e.top n) (topAll e' es (e.after n))

end Extent

section Top

mutual

theorem le_top : ∀ (e : Exp) (n : Nat), n ≤ e.top n ∧ e.after n ≤ e.top n
  | .num _, n | .negNum _, n | .str .., n | .sizeof .., n =>
    ⟨Nat.le_add_right n 2, Nat.le_refl _⟩
  | .var s, n => ⟨Nat.le_add_right n _, Nat.le_refl _⟩
  | .call s as, n => by
    have has := argsLe_top as n
    simp only [Exp.top]
    omega
  | .paren e, n | .cast _ _ e, n => le_top e n
  | .index e i, n => by
    have he := le_top e n
    simp only [Exp.top]
    omega
  | .post _ e, n | .pre _ e, n | .deref e, n => by
    have he := le_top e n
    simp only [Exp.top]
    omega
  | .addr e, n => by
    have he := le_top e n
    simp only [Exp.top, Exp.after]
    omega
  | .un op e, n => by
    cases op with
    | plus => exact le_top e n
    | minus =>
      have he := le_top e (n + 3)
      simp only [Exp.top]
      omega
    | _ =>
      have he := le_top e n
      simp only [Exp.top]
      omega
  | .bin op l r, n => by
    have hl := le_top l n
    simp only [Exp.top]
    omega
  | .land l r, n | .lor l r, n => by
    have hl := le_top l n
    have hr := le_top r (l.after n + 2)
    simp only [Exp.top, Exp.after]
    omega
  | .cond c t f, n => by
    have hc := le_top c n
    have hf := le_top f (t.after (c.after n + 2) + 2)
    simp only [Exp.top, Exp.after]
    omega
  | .assign l r, n => by
    have hl := le_top l n
    simp only [Exp.top]
    omega

theorem argsLe_top : ∀ (as : Args) (n : Nat), n ≤ as.top n ∧ as.after n ≤ as.top n
  | .nil, n => ⟨Nat.le_refl n, Nat.le_refl n⟩
  | .cons e _ rest, n => by
    have he := le_top e n
    have hrest := argsLe_top rest (e.after n + 1)
    simp only [Args.top, Args.after]
    omega

end

end Top

section Words
variable {c c' : Buf}

theorem length_dropLi (c : Buf) : c.dropLi.code.length = c.code.length - 2 := by
  rw [Buf.dropLi, List.length_dropLast, List.length_dropLast]
  omega

theorem length_emit (c : Buf) (ws : List Long) :
    (c.emit ws).code.length = c.code.length + ws.length := List.length_append

theorem length_reserve (c : Buf) (op : Op) :
    (c.reserve op).code.length = c.code.length + 2 := length_emit c _

theorem length_patch (c : Buf) (d target : Nat) : (c.patch d target).code.length = c.code.length :=
  List.length_set

theorem two_le_of_endsLi (h : c.endsLi = true) : 2 ≤ c.code.length := by
  by_contra hshort
  have hnil : c.code.dropLast = [] := by
    rw [← List.length_eq_zero_iff, List.length_dropLast]
    omega
  rw [Buf.endsLi, hnil] at h
  cases h

theorem length_pushLi (h : c.endsLi = true) : c.pushLi.code.length = c.code.length + 1 := by
  have hlen := two_le_of_endsLi h
  rw [Buf.pushLi, length_emit, length_dropLi]
  simp only [List.length_cons, List.length_nil]
  omega

theorem branch_some {op : Op} {f : Buf → Option Buf} (h : branch op f c = some c') :
    ∃ c₁, f (c.reserve op) = some c₁ ∧ c'.code.length = c₁.code.length := by
  obtain ⟨c₁, hf, rfl⟩ := Option.map_eq_some_iff.mp h
  exact ⟨c₁, hf, length_patch ..⟩

theorem length_address {s : Symbol} {ws : List Long} (h : St.address s = some ws) :
    ws.length = 2 := by
  unfold St.address at h
  split at h <;> cases h <;> rfl

theorem length_callee {s : Symbol} {ws : List Long} (h : St.callee s = some ws) :
    ws.length = s.callIns.words.length := by
  unfold St.callee at h
  split at h <;> cases h <;> simp [words_callIns, *]

mutual

/-- Where the code of an accepted tree ends. -/
theorem gen_after : ∀ (e : Exp) (c c' : Buf), e.gen c = some c' →
    c'.code.length = e.after c.code.length
  | .num _, c, c', h | .negNum _, c, c', h | .str .., c, c', h | .sizeof .., c, c', h => by
    cases h
    rw [length_emit]
    rfl
  | .var s, c, c', h => by
    simp only [Exp.gen] at h
    split at h
    · rename_i hnum
      cases h
      have hun : s.unloaded = true := by simp [Symbol.unloaded, hnum]
      rw [length_emit, Exp.after, hun]
      rfl
    · rename_i hnum
      obtain ⟨ws, hws, rfl⟩ := Option.map_eq_some_iff.mp h
      have hun : s.unloaded = s.isArray := by simp [Symbol.unloaded, hnum]
      rw [length_emit, List.length_append, length_address hws, Exp.after, hun]
      split_ifs <;> rfl
  | .call s as, c, c', h => by
    simp only [Exp.gen, Option.bind_eq_bind, Option.bind_eq_some_iff] at h
    obtain ⟨c₁, has, hs⟩ := h
    obtain ⟨ws, hws, rfl⟩ := Option.map_eq_some_iff.mp hs
    rw [length_emit, List.length_append, length_callee hws, gen_argsAfter as c c₁ has, Exp.after]
    split_ifs <;> rfl
  | .paren e, c, c', h => gen_after e c c' h
  | .cast _ _ e, c, c', h => gen_after e c c' h
  | .index e i, c, c', h => by
    simp only [Exp.gen, Option.bind_eq_bind, Option.bind_eq_some_iff] at h
    obtain ⟨c₁, he, c₂, hi, hty⟩ := h
    split at hty
    · cases hty
      have hlen := gen_after i _ c₂ hi
      rw [length_emit, gen_after e c c₁ he] at hlen
      rw [length_emit, hlen, List.length_append]
      rfl
    · cases hty
  | .post inc e, c, c', h => by
    simp only [Exp.gen, Option.bind_eq_bind, Option.bind_eq_some_iff] at h
    obtain ⟨c₁, he, hends⟩ := h
    split at hends
    · cases hends
      rw [length_emit, length_pushLi ‹_›, gen_after e c c₁ he]
      rfl
    · cases hends
  | .un op e, c, c', h => by
    cases op with
    | plus => exact gen_after e c c' h
    | minus =>
      obtain ⟨c₁, he, rfl⟩ := Option.map_eq_some_iff.mp h
      have hlen := gen_after e _ c₁ he
      rw [length_emit] at hlen
      rw [length_emit, hlen]
      rfl
    | _ =>
      obtain ⟨c₁, he, rfl⟩ := Option.map_eq_some_iff.mp h
      rw [length_emit, gen_after e _ c₁ he]
      rfl
  | .deref e, c, c', h => by
    simp only [Exp.gen, Option.bind_eq_bind, Option.bind_eq_some_iff] at h
    obtain ⟨c₁, he, hty⟩ := h
    split at hty
    · cases hty
      rw [length_emit, gen_after e c c₁ he]
      rfl
    · cases hty
  | .addr e, c, c', h => by
    simp only [Exp.gen, Option.bind_eq_bind, Option.bind_eq_some_iff] at h
    obtain ⟨c₁, he, hends⟩ := h
    split at hends
    · cases hends
      rw [length_dropLi, gen_after e c c₁ he]
      rfl
    · cases hends
  | .pre inc e, c, c', h => by
    simp only [Exp.gen, Option.bind_eq_bind, Option.bind_eq_some_iff] at h
    obtain ⟨c₁, he, hends⟩ := h
    split at hends
    · cases hends
      rw [length_emit, length_pushLi ‹_›, gen_after e c c₁ he]
      rfl
    · cases hends
  | .bin op l r, c, c', h => by
    simp only [Exp.gen, Option.bind_eq_bind, Option.bind_eq_some_iff] at h
    obtain ⟨c₁, h1, c₂, h2, h3⟩ := h
    cases h3
    have hlen := gen_after r _ c₂ h2
    rw [length_emit, gen_after l c c₁ h1] at hlen
    rw [length_emit, hlen]
    rfl
  | .land l r, c, c', h | .lor l r, c, c', h => by
    simp only [Exp.gen, Option.bind_eq_bind, Option.bind_eq_some_iff] at h
    obtain ⟨c₁, h1, h2⟩ := h
    obtain ⟨c₂, h2, hlen⟩ := branch_some h2
    rw [hlen, gen_after r _ c₂ h2, length_reserve, gen_after l c c₁ h1]
    rfl
  | .cond x t f, c, c', h => by
    simp only [Exp.gen, Option.bind_eq_bind, Option.bind_eq_some_iff] at h
    obtain ⟨c₁, h1, c₂, h2, h3⟩ := h
    obtain ⟨c₃, h3, hlen⟩ := branch_some h3
    rw [hlen, gen_after f _ c₃ h3, length_reserve, length_patch, gen_after t _ c₂ h2,
      length_reserve, gen_after x c c₁ h1]
    rfl
  | .assign l r, c, c', h => by
    simp only [Exp.gen, Option.bind_eq_bind, Option.bind_eq_some_iff] at h
    obtain ⟨c₁, h1, h2⟩ := h
    split at h2
    · obtain ⟨c₂, h3, rfl⟩ := Option.map_eq_some_iff.mp h2
      have hpos := two_le_of_endsLi ‹_›
      have hlen := gen_after r _ c₂ h3
      have hstart : (c₁.dropLi.emit [Op.psh.word]).code.length = c₁.code.length - 1 := by
        rw [length_emit, length_dropLi, List.length_singleton]
        omega
      rw [hstart, gen_after l c c₁ h1] at hlen
      rw [length_emit, hlen]
      rfl
    · cases h2

theorem gen_argsAfter : ∀ (as : Args) (c c' : Buf), as.gen c = some c' →
    c'.code.length = as.after c.code.length
  | .nil, c, c', h => by
    cases h
    rfl
  | .cons e _ rest, c, c', h => by
    simp only [Args.gen, Option.bind_eq_bind, Option.bind_eq_some_iff] at h
    obtain ⟨c₁, h1, h2⟩ := h
    rw [gen_argsAfter rest _ c' h2, length_emit, gen_after e c c₁ h1]
    rfl

end

end Words

section Tokens

theorem length_scaleWords_le (t : Nat) : (scaleWords t).length ≤ 4 := by
  unfold scaleWords
  split_ifs
  · exact Nat.le_refl 4
  · exact Nat.zero_le 4

theorem length_callIns_le (s : Symbol) : s.callIns.words.length ≤ 2 := by
  rw [words_callIns]
  split_ifs
  · exact Nat.le_refl 2
  · exact Nat.le_succ 1

theorem extent_le (op : BinOp) (l r : Exp) : op.extent l r ≤ 5 := by
  have hone : ∀ w : Long, [w].length ≤ 5 := fun _ => Nat.le_add_left 1 4
  unfold BinOp.extent BinOp.words
  cases op with
  | add =>
    rw [List.length_append]
    exact Nat.succ_le_succ (length_scaleWords_le l.type)
  | sub =>
    dsimp only
    split_ifs
    · exact Nat.le_refl 5
    · rw [List.length_append]
      exact Nat.succ_le_succ (length_scaleWords_le l.type)
  | _ => exact hone _

mutual

/-- Eleven words for each token, the most being those of a postfix `++`; seven are left over. -/
theorem after_le : ∀ (e : Exp) (n : Nat), e.after n + 7 ≤ n + 11 * e.toks.length
  | .num _, n | .negNum _, n | .str .., n | .sizeof .., n => by
    simp only [Exp.after, Exp.toks, typeToks, List.length_cons]
    omega
  | .var s, n => by
    simp only [Exp.after, Exp.toks, List.length_cons, List.length_nil]
    split_ifs <;> omega
  | .call s as, n => by
    have has := argsAfter_le as n
    have hcall := length_callIns_le s
    simp only [Exp.after, Exp.toks, List.length_cons, List.length_append, List.length_nil]
    split_ifs <;> omega
  | .paren e, n => by
    have he := after_le e n
    simp only [Exp.after, Exp.toks, List.length_cons, List.length_append, List.length_nil]
    omega
  | .cast _ _ e, n => by
    have he := after_le e n
    simp only [Exp.after, Exp.toks, List.length_append]
    omega
  | .index e i, n => by
    have he := after_le e n
    have hi := after_le i (e.after n + 1)
    have hscale := length_scaleWords_le e.type
    simp only [Exp.after, Exp.toks, List.length_cons, List.length_append, List.length_nil]
    omega
  | .post _ e, n => by
    have he := after_le e n
    simp only [Exp.after, Exp.toks, List.length_cons, List.length_append, List.length_nil]
    omega
  | .un op e, n => by
    cases op with
    | minus =>
      have he := after_le e (n + 3)
      simp only [Exp.after, Exp.toks, List.length_cons]
      omega
    | _ =>
      have he := after_le e n
      simp only [Exp.after, Exp.toks, List.length_cons]
      omega
  | .deref e, n | .addr e, n | .pre _ e, n => by
    have he := after_le e n
    simp only [Exp.after, Exp.toks, List.length_cons]
    omega
  | .bin op l r, n => by
    have hl := after_le l n
    have hr := after_le r (l.after n + 1)
    have hop := extent_le op l r
    simp only [Exp.after, Exp.toks, List.length_cons, List.length_append]
    omega
  | .land l r, n | .lor l r, n => by
    have hl := after_le l n
    have hr := after_le r (l.after n + 2)
    simp only [Exp.after, Exp.toks, List.length_cons, List.length_append]
    omega
  | .cond c t f, n => by
    have hc := after_le c n
    have ht := after_le t (c.after n + 2)
    have hf := after_le f (t.after (c.after n + 2) + 2)
    simp only [Exp.after, Exp.toks, List.length_cons, List.length_append]
    omega
  | .assign l r, n => by
    have hl := after_le l n
    have hr := after_le r (l.after n - 1)
    simp only [Exp.after, Exp.toks, List.length_cons, List.length_append]
    omega

theorem argsAfter_le : ∀ (as : Args) (n : Nat), as.after n ≤ n + 11 * as.toks.length
  | .nil, n => Nat.le_add_right n _
  | .cons e comma rest, n => by
    have he := after_le e n
    have hrest := argsAfter_le rest (e.after n + 1)
    simp only [Args.after, Args.toks, List.length_append]
    omega

end

end Tokens

end PerfProf.Expr
