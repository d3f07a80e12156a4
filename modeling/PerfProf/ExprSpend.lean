import PerfProf.ExprExtent

/-! What the calls of the parser spend: each takes tokens, no more words than these bring, and no
more depth than it is given. -/
namespace PerfProf.Expr

section Credit

/-- What the position can still reach if each token brings eleven words. -/
def St.credit (s : St) : Nat := s.code.length + 11 * s.toks.length

/-- A call takes a token at least, and leaves `k` of the words that its tokens bring. -/
structure Spends (k : Nat) (s s' : St) : Prop where
  shorter : s'.toks.length < s.toks.length
  credit : s'.credit + k ≤ s.credit

variable {s s' : St}

theorem credit_emit (s : St) (ws : List Long) : (s.emit ws).credit = s.credit + ws.length := by
  have hcode : (s.emit ws).code.length = s.code.length + ws.length := length_emit s.buf ws
  have htoks : (s.emit ws).toks = s.toks := rfl
  rw [St.credit, St.credit, hcode, htoks]
  omega

theorem length_next (h : s.tk ≠ .eof) : s.next.toks.length + 1 = s.toks.length := by
  have htoks : s.toks = s.tk :: s.toks.tail := head_cons rfl h
  rw [htoks]
  rfl

theorem credit_next (h : s.tk ≠ .eof) : s.next.credit + 11 = s.credit := by
  have hlen := length_next h
  have hcode : s.next.code.length = s.code.length := rfl
  rw [St.credit, St.credit]
  omega

theorem expect_spends {tk : Token} {msg : String} (h : s.expect tk msg = .ok s') (htk : tk ≠ .eof) :
    Spends 11 s s' := by
  unfold St.expect at h
  split at h
  · rename_i hhead
    cases h
    have hne : s.tk ≠ .eof := by
      rw [hhead]
      exact htk
    exact ⟨Nat.le_of_eq (length_next hne), Nat.le_of_eq (credit_next hne)⟩
  · cases h

theorem credit_reserve (s : St) (op : Op) : (s.reserve op).credit = s.credit + 2 :=
  credit_emit s _

theorem credit_patch (s : St) (d target : Nat) : (s.patch d target).credit = s.credit :=
  congrArg (· + 11 * s.toks.length) (length_patch s.buf d target)

theorem credit_setTy (s : St) (ty : Nat) : (s.setTy ty).credit = s.credit := rfl

theorem credit_dropLi (h : s.endsInLi = true) : s.dropLi.credit + 2 = s.credit := by
  have hlen : 2 ≤ s.code.length := two_le_of_endsLi h
  have hdrop : s.dropLi.code.length = s.code.length - 2 := length_dropLi s.buf
  rw [St.credit, St.credit, hdrop]
  have htoks : s.dropLi.toks = s.toks := rfl
  rw [htoks]
  omega

theorem bind_eq_ok {α β : Type} {x : Except String α} {f : α → Except String β} {b : β} :
    (x >>= f) = .ok b ↔ ∃ a, x = .ok a ∧ f a = .ok b := by
  cases x with
  | error m => exact iff_of_false nofun nofun
  | ok a => exact ⟨fun h => ⟨a, rfl, h⟩, fun ⟨_, ha, h⟩ => by cases ha; exact h⟩

/-- The tree and the words of a call that returns. -/
theorem emitted_ok {c : Buf} {r : Option (Exp × List Token)} {x : Except String St}
    (hpass : x.toOption = emitted c r) (h : x = .ok s') :
    ∃ e, r = some (e, s'.toks) ∧ e.gen c = some s'.buf ∧ s'.ty = e.type := by
  rw [h, toOption_ok] at hpass
  obtain ⟨⟨e, rest⟩, hr, hgen⟩ := Option.bind_eq_some_iff.mp hpass.symm
  obtain ⟨c', hc', rfl⟩ := Option.map_eq_some_iff.mp hgen
  exact ⟨e, hr, hc', rfl⟩

/-- A tree owes seven words less than its tokens bring. -/
theorem spends_of_gen {e : Exp} (hgen : e.gen s.buf = some s'.buf)
    (htoks : s.toks = e.toks ++ s'.toks) : Spends 7 s s' := by
  have hlen : s'.code.length = e.after s.code.length := gen_after e s.buf s'.buf hgen
  have hle := after_le e s.code.length
  have hsplit : s.toks.length = e.toks.length + s'.toks.length := by
    rw [htoks, List.length_append]
  have hpos : 0 < e.toks.length := by
    obtain ⟨tk, ts, he, -, -⟩ := toks_head e
    rw [he]
    exact Nat.zero_lt_succ _
  refine ⟨by omega, ?_⟩
  rw [St.credit, St.credit]
  omega

theorem expr_spends {fuel k : Nat} (hk : 2 ≤ k) (hk' : k ≤ 14)
    (h : expr fuel (levOf k) s = .ok s') : Spends 7 s s' := by
  obtain ⟨e, hparse, hgen, -⟩ := emitted_ok ((twoPass fuel).expr _ s.toks s.buf s.ty) h
  exact spends_of_gen hgen ((sound fuel).parse k _ _ e hk hk' hparse).toks

theorem primary_spends {fuel : Nat} (h : primary fuel s = .ok s') : Spends 7 s s' := by
  obtain ⟨e, hparse, hgen, -⟩ := emitted_ok ((twoPass fuel).primary s.toks s.buf s.ty) h
  exact spends_of_gen hgen ((sound fuel).primary _ _ e hparse).1.toks

theorem binary_some {tk lev : Token} {op : Op} (h : St.binary tk = some (lev, op)) :
    ∃ b : BinOp, binOf tk = some b ∧ lev = b.operand ∧ b ≠ .add ∧ b ≠ .sub := by
  cases tk <;> cases h <;> exact ⟨_, rfl, rfl, nofun, nofun⟩

theorem operand_spends {fuel : Nat} (op : BinOp) (h : expr fuel op.operand s = .ok s') :
    Spends 7 s s' := by
  obtain ⟨h3, h10, -⟩ := op.level_facts
  rw [operand_levOf] at h
  exact expr_spends (by omega) (by omega) h

theorem scale_toks (s : St) (t : Nat) : (s.scale t).toks = s.toks := by
  unfold St.scale
  split_ifs <;> rfl

theorem subtract_toks (s : St) (t : Nat) : (s.subtract t).toks = s.toks := by
  unfold St.subtract
  split_ifs
  · rfl
  · exact scale_toks s t

theorem credit_scale (s : St) (t : Nat) : (s.scale t).credit ≤ s.credit + 4 := by
  unfold St.scale
  split_ifs
  · rw [credit_emit]
    exact Nat.le_refl _
  · exact Nat.le_add_right _ _

theorem credit_pushLi (h : s.endsInLi = true) : s.pushLi.credit = s.credit + 1 := by
  have hdrop := credit_dropLi h
  have hpush := credit_emit s.dropLi [Op.psh.word, Op.li.word, s.code.getLastD 0]
  simp only [List.length_cons, List.length_nil] at hpush
  have heq : s.pushLi.credit = (s.dropLi.emit [Op.psh.word, Op.li.word, s.code.getLastD 0]).credit :=
    rfl
  omega

theorem credit_incStore (s : St) (op : Op) : (s.incStore op).credit = s.credit + 6 :=
  credit_emit s _

theorem credit_subtract (s : St) (t : Nat) : (s.subtract t).credit ≤ s.credit + 5 := by
  have hscale := credit_scale s t
  unfold St.subtract
  split_ifs
  · rw [credit_setTy, credit_emit]
    exact Nat.le_refl _
  · rw [credit_setTy, credit_emit, List.length_singleton]
    omega

/-- A postfix `++` or `--` writes the eleven words of its token. -/
theorem credit_post {u : List Long} (op : Op) (hends : s.endsInLi = true) (htk : s.tk ≠ .eof)
    (hu : u.length = 4) : ((s.pushLi.incStore op).next.emit u).credit = s.credit := by
  have hpush := credit_pushLi hends
  have hstore := credit_incStore s.pushLi op
  have hnext : (s.pushLi.incStore op).next.credit + 11 = (s.pushLi.incStore op).credit :=
    credit_next htk
  rw [credit_emit, hu]
  omega

/-- The right operand of an operator that writes `ws` before it and at most `n` words after it. -/
theorem Spends.operand {ws : List Long} {s₁ : St} {n : Nat} (h : Spends 7 (s.next.emit ws) s₁)
    (htk : s.tk ≠ .eof) (htoks : s'.toks.length ≤ s₁.toks.length) (hcredit : s'.credit ≤ s₁.credit + n)
    (hn : ws.length + n ≤ 18) : Spends 0 s s' := by
  have hlen := length_next htk
  have hstart := credit_next htk
  have hless : s₁.toks.length < s.next.toks.length := h.shorter
  have hcost := h.credit
  rw [credit_emit] at hcost
  exact ⟨by omega, by omega⟩

variable {fuel : Nat} {s₁ s₂ s₃ : St}

theorem assign_spends (htk : s.tk ≠ .eof) (hends : s.endsInLi = true)
    (h : expr fuel .assign (s.next.dropLi.emit [Op.psh.word]) = .ok s₁) (w : Long) (ty : Nat) :
    Spends 0 s ((s₁.emit [Op.si.word, w]).setTy ty) := by
  have hspends := expr_spends (k := 14) (by decide) (by decide) h
  have hless : s₁.toks.length < s.next.toks.length := hspends.shorter
  have hcost := hspends.credit
  have hdrop := credit_dropLi (s := s.next) hends
  have hlen := length_next htk
  have hstart := credit_next htk
  rw [credit_emit, List.length_singleton] at hcost
  refine ⟨Nat.lt_trans hless (Nat.le_of_eq hlen), ?_⟩
  rw [credit_setTy, credit_emit, List.length_cons, List.length_singleton]
  omega

theorem cond_spends {m : String} {d : Nat} {v : Nat} (htk : s.tk ≠ .eof)
    (h : expr fuel .assign (s.next.reserve .bz) = .ok s₁) (hcolon : s₁.expect .colon m = .ok s₂)
    (h' : expr fuel .cond ((s₂.patch d v).reserve .jmp) = .ok s₃) (d' v' : Nat) :
    Spends 0 s (s₃.patch d' v') := by
  have hspends := expr_spends (k := 13) (by decide) (by decide) h'
  have hclose := expect_spends hcolon nofun
  have hless : s₃.toks.length < s₂.toks.length := hspends.shorter
  have hcost := hspends.credit
  have hgap := hclose.credit
  rw [credit_reserve, credit_patch] at hcost
  refine (expr_spends (k := 14) (by decide) (by decide) h).operand (n := 0) htk ?_ ?_ (by decide : 2 + 0 ≤ 18)
  · exact Nat.le_of_lt (Nat.lt_trans hless hclose.shorter)
  · rw [credit_patch]
    omega

/-- `||` and `&&`, of which only the jump and the level of the right operand differ. -/
theorem logic_spends {k : Nat} {op : Op} (hk : 2 ≤ k) (hk' : k ≤ 14) (htk : s.tk ≠ .eof)
    (h : expr fuel (levOf k) (s.next.reserve op) = .ok s₁) (d v : Nat) :
    Spends 0 s ((s₁.patch d v).setTy tyInt) := by
  refine (expr_spends hk hk' h).operand (n := 0) htk (Nat.le_refl _) ?_ (by decide : 2 + 0 ≤ 18)
  rw [credit_setTy, credit_patch]
  exact Nat.le_refl _

theorem index_spends {m : String} (htk : s.tk ≠ .eof)
    (h : expr fuel .assign (s.next.emit [Op.psh.word]) = .ok s₁) (hclose : s₁.expect .rbrack m = .ok s₂)
    (t ty : Nat) (w : Long) :
    Spends 0 s (((s₂.scale t).emit [Op.add.word, Op.li.word, w]).setTy ty) := by
  have hend := expect_spends hclose nofun
  have hgap := hend.credit
  have hscale := credit_scale s₂ t
  have htoks : (s₂.scale t).toks.length = s₂.toks.length := congrArg _ (scale_toks s₂ t)
  refine (expr_spends (k := 14) (by decide) (by decide) h).operand (n := 0) htk ?_ ?_ (by decide : 1 + 0 ≤ 18)
  · exact Nat.le_trans (Nat.le_of_eq htoks) (Nat.le_of_lt hend.shorter)
  · rw [credit_setTy, credit_emit]
    simp only [List.length_cons, List.length_nil]
    omega

/-- No operator writes more words than its tokens bring. -/
theorem operator_spends (h : operator fuel s = .ok s') : Spends 0 s s' := by
  cases fuel with
  | zero => cases h
  | succ fuel =>
    have hne : ∀ {tk}, s.tk = tk → tk ≠ .eof → s.tk ≠ .eof := fun htk hneq => htk ▸ hneq
    rw [operator.eq_def] at h
    dsimp only at h
    split at h
    · rename_i htk
      split at h
      · rename_i hends
        obtain ⟨s₁, hexpr, heq⟩ := bind_eq_ok.mp h
        cases heq
        exact assign_spends (hne htk nofun) hends hexpr _ _
      · cases h
    · rename_i htk
      obtain ⟨s₁, hexpr, h⟩ := bind_eq_ok.mp h
      obtain ⟨s₂, hcolon, h⟩ := bind_eq_ok.mp h
      obtain ⟨s₃, hexpr', heq⟩ := bind_eq_ok.mp h
      cases heq
      exact cond_spends (hne htk nofun) hexpr hcolon hexpr' _ _
    · rename_i htk
      obtain ⟨s₁, hexpr, heq⟩ := bind_eq_ok.mp h
      cases heq
      exact logic_spends (k := 11) (by decide) (by decide) (hne htk nofun) hexpr _ _
    · rename_i htk
      obtain ⟨s₁, hexpr, heq⟩ := bind_eq_ok.mp h
      cases heq
      exact logic_spends (k := 10) (by decide) (by decide) (hne htk nofun) hexpr _ _
    · rename_i htk
      obtain ⟨s₁, hexpr, heq⟩ := bind_eq_ok.mp h
      cases heq
      refine (operand_spends .add hexpr).operand (hne htk nofun)
        (Nat.le_of_eq (congrArg _ (scale_toks s₁ s.ty))) ?_ (by decide : 1 + 5 ≤ 18)
      have hscale := credit_scale s₁ s.ty
      rw [credit_setTy, credit_emit, List.length_singleton]
      omega
    · rename_i htk
      obtain ⟨s₁, hexpr, heq⟩ := bind_eq_ok.mp h
      cases heq
      exact (operand_spends .sub hexpr).operand (hne htk nofun)
        (Nat.le_of_eq (congrArg _ (subtract_toks s₁ s.ty))) (credit_subtract s₁ s.ty) (by decide : 1 + 5 ≤ 18)
    · rename_i htk
      obtain ⟨s₁, hexpr, h⟩ := bind_eq_ok.mp h
      obtain ⟨s₂, hclose, heq⟩ := bind_eq_ok.mp h
      split at heq
      · cases heq
        exact index_spends (hne htk nofun) hexpr hclose _ _ _
      · cases heq
    · rename_i htk
      split at h
      · rename_i hends
        cases h
        have htk' := hne htk nofun
        exact ⟨Nat.le_of_eq (length_next htk'), Nat.le_of_eq (credit_post (St.incOp .inc) hends htk' rfl)⟩
      · cases h
    · rename_i htk
      split at h
      · rename_i hends
        cases h
        have htk' := hne htk nofun
        exact ⟨Nat.le_of_eq (length_next htk'), Nat.le_of_eq (credit_post (St.incOp .dec) hends htk' rfl)⟩
      · cases h
    · split at h
      · rename_i lev op hbinary
        obtain ⟨b, -, rfl, -, -⟩ := binary_some hbinary
        obtain ⟨s₁, hexpr, heq⟩ := bind_eq_ok.mp h
        cases heq
        exact (operand_spends b hexpr).operand (by
          intro htk
          rw [htk] at hbinary
          cases hbinary) (Nat.le_refl _) (Nat.le_of_eq (credit_emit s₁ _)) (by decide : 1 + 1 ≤ 18)
      · cases h

end Credit

section Depth
variable {α β : Type} {s s' : St} {fuel : Nat}

theorem bind_ne_error {x : Except String α} {f : α → Except String β} {m : String}
    (hx : x ≠ .error m) (hf : ∀ a, x = .ok a → f a ≠ .error m) : (x >>= f) ≠ .error m := by
  cases x with
  | error m' =>
    intro h
    cases h
    exact hx rfl
  | ok a => exact hf a rfl

theorem ite_ne_error {p : Prop} [Decidable p] {x y : Except String α} {m : String}
    (hx : p → x ≠ .error m) (hy : ¬p → y ≠ .error m) : (if p then x else y) ≠ .error m := by
  split_ifs with h
  · exact hx h
  · exact hy h

theorem error_ne {m m' : String} (h : m ≠ m') : (Except.error m : Except String α) ≠ .error m' :=
  fun heq => h (Except.error.inj heq)

theorem ok_ne {r : α} {m : String} : (Except.ok r : Except String α) ≠ .error m := nofun

theorem expect_ne (tk : Token) {msg m : String} (h : msg ≠ m) : s.expect tk msg ≠ .error m :=
  ite_ne_error (fun _ => nofun) fun _ => error_ne h

theorem typeName_ne {type : Nat} {msg m : String} (h : msg ≠ m) :
    s.typeName type msg ≠ .error m := by
  unfold St.typeName
  split
  split
  · exact nofun
  · rename_i ty toks m' hexpect
    intro heq
    cases heq
    exact expect_ne .rparen h hexpect

theorem operand_ne (s : St) : s.operand ≠ .error "too deep" := by
  obtain ⟨tk, htk⟩ : ∃ tk, s.tk = tk := ⟨_, rfl⟩
  rw [St.operand, htk]
  cases tk with
  | num v => exact ok_ne
  | str v => exact ok_ne
  | sizeof =>
    refine bind_ne_error (expect_ne .lparen (by simp)) fun s₁ _ => ?_
    cases htype : s₁.tk.intType with
    | some type => exact bind_ne_error (typeName_ne (by simp)) fun _ _ => ok_ne
    | none => exact error_ne (by simp)
  | _ => exact error_ne (by simp)

theorem typeName_code {type : Nat} {msg : String} {r : St × Nat}
    (h : s.typeName type msg = .ok r) : r.1.code = s.code := by
  unfold St.typeName at h
  dsimp only at h
  split at h
  · rename_i s₁ hclose
    cases h
    unfold St.expect at hclose
    split at hclose
    · cases hclose
      rfl
    · cases hclose
  · cases h

theorem typeName_length {type : Nat} {msg : String} {r : St × Nat}
    (h : s.typeName type msg = .ok r) : r.1.toks.length ≤ s.toks.length := by
  unfold St.typeName at h
  rw [stars_eq] at h
  dsimp only at h
  split at h
  · rename_i s₁ hclose
    cases h
    have hend := (expect_spends hclose (by simp)).shorter
    have hlen := (List.dropWhile_suffix (fun t => decide (t = Token.mul))
      (l := s.next.toks)).length_le
    have htail : s.next.toks.length ≤ s.toks.length := (List.tail_suffix s.toks).length_le
    dsimp only at hend ⊢
    omega
  · cases h

/-- Three calls for a token, and those at the end of the input. -/
structure Deep (fuel : Nat) : Prop where
  expr : ∀ lev s, 3 * s.toks.length + 3 ≤ fuel → expr fuel lev s ≠ .error "too deep"
  primary : ∀ s, 3 * s.toks.length + 2 ≤ fuel → primary fuel s ≠ .error "too deep"
  args : ∀ t s, 3 * s.toks.length + 4 ≤ fuel → args fuel t s ≠ .error "too deep"
  climb : ∀ lev s, 3 * s.toks.length + 2 ≤ fuel → climb fuel lev s ≠ .error "too deep"
  operator : ∀ s, 3 * s.toks.length + 1 ≤ fuel → operator fuel s ≠ .error "too deep"

theorem Deep.expr_succ (h : Deep fuel) (lev : Token) (s : St)
    (hf : 3 * s.toks.length + 3 ≤ fuel + 1) :
    PerfProf.Expr.expr (fuel+1) lev s ≠ .error "too deep" := by
  rw [PerfProf.Expr.expr]
  refine bind_ne_error (h.primary s (by omega)) fun s' hs' => h.climb lev s' ?_
  have hless := (primary_spends hs').shorter
  omega

theorem Deep.climb_succ (h : Deep fuel) (lev : Token) (s : St)
    (hf : 3 * s.toks.length + 2 ≤ fuel + 1) :
    PerfProf.Expr.climb (fuel+1) lev s ≠ .error "too deep" := by
  rw [PerfProf.Expr.climb]
  refine ite_ne_error (fun _ => ?_) fun _ => ok_ne
  refine bind_ne_error (h.operator s (by omega)) fun s' hs' => h.climb lev s' ?_
  have hless := (operator_spends hs').shorter
  omega

theorem Deep.args_succ (h : Deep fuel) (t : Nat) (s : St)
    (hf : 3 * s.toks.length + 4 ≤ fuel + 1) :
    PerfProf.Expr.args (fuel+1) t s ≠ .error "too deep" := by
  rw [PerfProf.Expr.args]
  refine ite_ne_error (fun _ => ok_ne) fun _ => ?_
  refine bind_ne_error (h.expr .assign s (by omega)) fun s' hs' => ?_
  have hless := (expr_spends (k := 14) (by decide) (by decide) hs').shorter
  have htail : s'.next.toks.length ≤ s'.toks.length := (List.tail_suffix s'.toks).length_le
  refine h.args (t + 1) _ ?_
  split_ifs
  · exact Nat.le_trans (Nat.add_le_add_right (Nat.mul_le_mul_left 3 htail) 4) (by omega)
  · exact Nat.le_trans (Nat.le_refl (3 * s'.toks.length + 4)) (by omega)

theorem call_ne (s : St) (sym : Symbol) (t : Nat) : s.call sym t ≠ .error "too deep" := by
  unfold St.call
  cases St.callee sym with
  | none => exact error_ne (by simp)
  | some ws => exact ok_ne

theorem ident_ne (s : St) (sym : Symbol) : s.ident sym ≠ .error "too deep" := by
  refine ite_ne_error (fun _ => ok_ne) fun _ => ?_
  cases St.address sym with
  | none => exact error_ne (by simp)
  | some ws => exact ite_ne_error (fun _ => ok_ne) fun _ => ok_ne

/-- An operand after the first token. -/
theorem Deep.after (h : Deep fuel) (htk : s.tk ≠ .eof) (hf : 3 * s.toks.length ≤ fuel) (lev : Token)
    {s₁ : St} (hs₁ : s₁.toks.length ≤ s.next.toks.length) :
    PerfProf.Expr.expr fuel lev s₁ ≠ .error "too deep" := by
  have hlen := length_next htk
  exact h.expr lev s₁ (by omega)

theorem Deep.primary_succ (h : Deep fuel) (s : St) (hf : 3 * s.toks.length + 2 ≤ fuel + 1) :
    PerfProf.Expr.primary (fuel+1) s ≠ .error "too deep" := by
  obtain ⟨tk, htk⟩ : ∃ tk, s.tk = tk := ⟨_, rfl⟩
  have hprefix : s.tk ≠ .eof → ∀ f : St → Except String St, (∀ s₁, f s₁ ≠ .error "too deep") →
      (PerfProf.Expr.expr fuel .inc s.next >>= f) ≠ .error "too deep" := fun hne f hfin =>
    bind_ne_error (h.after hne (by omega) .inc (Nat.le_refl _)) fun s₁ _ => hfin s₁
  rw [PerfProf.Expr.primary.eq_def]
  dsimp only
  rw [htk]
  cases tk with
  | eof => exact error_ne (by simp)
  | id sym =>
    refine ite_ne_error (fun hopen => ?_) fun _ => ident_ne _ _
    have hlen := length_next (s := s) (by simp [htk])
    have hlen' := length_next (s := s.next) (by simp [hopen])
    exact bind_ne_error (h.args 0 s.next.next (by omega)) fun r _ => call_ne _ _ _
  | lparen =>
    have hne : s.tk ≠ .eof := by simp [htk]
    dsimp only
    cases htype : s.next.tk.intType with
    | some type =>
      refine bind_ne_error (typeName_ne (by simp)) fun r hr => ?_
      exact bind_ne_error (h.after hne (by omega) .inc (typeName_length hr)) fun s₁ _ => ok_ne
    | none =>
      exact bind_ne_error (h.after hne (by omega) .assign (Nat.le_refl _)) fun s₁ _ =>
        expect_ne .rparen (by simp)
  | mul =>
    exact hprefix (by simp [htk]) _ fun s₁ =>
      ite_ne_error (fun _ => ok_ne) fun _ => error_ne (by simp)
  | and =>
    exact hprefix (by simp [htk]) _ fun s₁ =>
      ite_ne_error (fun _ => ok_ne) fun _ => error_ne (by simp)
  | bang => exact hprefix (by simp [htk]) _ fun s₁ => ok_ne
  | tilde => exact hprefix (by simp [htk]) _ fun s₁ => ok_ne
  | add => exact hprefix (by simp [htk]) _ fun s₁ => ok_ne
  | sub =>
    dsimp only
    cases hnum : s.next.tk.numVal with
    | some v => exact ok_ne
    | none =>
      exact bind_ne_error (h.after (by simp [htk]) (by omega) .inc (Nat.le_refl _))
        fun s₁ _ => ok_ne
  | inc =>
    exact hprefix (by simp [htk]) _ fun s₁ =>
      ite_ne_error (fun _ => ok_ne) fun _ => error_ne (by simp)
  | dec =>
    exact hprefix (by simp [htk]) _ fun s₁ =>
      ite_ne_error (fun _ => ok_ne) fun _ => error_ne (by simp)
  | _ => exact operand_ne s

theorem Deep.operator_succ (h : Deep fuel) (s : St) (hf : 3 * s.toks.length + 1 ≤ fuel + 1) :
    PerfProf.Expr.operator (fuel+1) s ≠ .error "too deep" := by
  obtain ⟨tk, htk⟩ : ∃ tk, s.tk = tk := ⟨_, rfl⟩
  have hright : s.tk ≠ .eof → ∀ lev ws (f : St → Except String St),
      (∀ s₁, f s₁ ≠ .error "too deep") →
      (PerfProf.Expr.expr fuel lev (s.next.emit ws) >>= f) ≠ .error "too deep" :=
    fun hne lev ws f hfin =>
      bind_ne_error (h.after hne (by omega) lev (Nat.le_refl _)) fun s₁ _ => hfin s₁
  rw [PerfProf.Expr.operator.eq_def]
  dsimp only
  rw [htk]
  cases tk with
  | assign =>
    refine ite_ne_error (fun _ => ?_) fun _ => error_ne (by simp)
    exact bind_ne_error (h.after (by simp [htk]) (by omega) .assign (Nat.le_refl _))
      fun s₁ _ => ok_ne
  | cond =>
    have hne : s.tk ≠ .eof := by simp [htk]
    refine bind_ne_error (h.after hne (by omega) .assign (Nat.le_refl _)) fun s₁ hs₁ => ?_
    refine bind_ne_error (expect_ne .colon (by simp)) fun s₂ hs₂ => ?_
    have hless : s₁.toks.length < s.next.toks.length :=
      (expr_spends (k := 14) (by decide) (by decide) hs₁ :).shorter
    have hclose := (expect_spends hs₂ (by simp)).shorter
    refine bind_ne_error (h.after hne (by omega) .cond ?_) fun s₃ _ => ok_ne
    exact Nat.le_of_lt (Nat.lt_trans hclose hless)
  | lor => exact hright (by simp [htk]) _ _ _ fun s₁ => ok_ne
  | lan => exact hright (by simp [htk]) _ _ _ fun s₁ => ok_ne
  | add => exact hright (by simp [htk]) _ _ _ fun s₁ => ok_ne
  | sub => exact hright (by simp [htk]) _ _ _ fun s₁ => ok_ne
  | brak =>
    exact hright (by simp [htk]) _ _ _ fun s₁ =>
      bind_ne_error (expect_ne .rbrack (by simp)) fun s₂ _ =>
        ite_ne_error (fun _ => ok_ne) fun _ => error_ne (by simp)
  | inc => exact ite_ne_error (fun _ => ok_ne) fun _ => error_ne (by simp)
  | dec => exact ite_ne_error (fun _ => ok_ne) fun _ => error_ne (by simp)
  | or | xor | and | eq | ne | lt | gt | le | ge | shl | shr | mul | div | mod =>
    exact hright (by simp [htk]) _ _ _ fun s₁ => ok_ne
  | _ => exact error_ne (by simp)

theorem deep (fuel : Nat) : Deep fuel := by
  induction fuel with
  | zero =>
    refine ⟨?_, ?_, ?_, ?_, ?_⟩
    · intro lev s hf
      omega
    · intro s hf
      omega
    · intro t s hf
      omega
    · intro lev s hf
      omega
    · intro s hf
      omega
  | succ fuel ih =>
    exact ⟨ih.expr_succ, ih.primary_succ, ih.args_succ, ih.climb_succ, ih.operator_succ⟩

/-- `expr_compile` never gives up a text for its depth. -/
theorem exprs_ne (fuel : Nat) (s : St) (hf : s.toks.length < fuel) :
    exprs fuel s ≠ .error "too deep" := by
  induction fuel generalizing s with
  | zero => exact absurd hf (Nat.not_lt_zero _)
  | succ fuel ih =>
    rw [exprs]
    refine bind_ne_error ((deep _).expr .assign s (Nat.le_refl _)) fun s' hs' => ?_
    have hless := (expr_spends (k := 14) (by decide) (by decide) hs').shorter
    refine ite_ne_error (fun hcomma => ih s'.next ?_) fun _ => ok_ne
    have hlen := length_next (s := s') (by simp [hcomma])
    omega

end Depth

end PerfProf.Expr
