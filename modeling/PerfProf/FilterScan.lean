import PerfProf.FilterLang

/-! What a text that is read as a filter cannot have: a parenthesis that is not closed, or a string
with a quote in it. -/
namespace PerfProf.FilterLang

section Derivation
variable {ts rest front : List Token} {e : Expr} {n : Nat} {level : Level}

/-- The tokens of an expression. -/
inductive Derives : List Token → Expr → Prop
  | num (field w : List Char) (o : Op) (v : Nat) : Derives [.word field, .op o, .word w] (.num field o v)
  | str (field v : List Char) (o : Op) : Derives [.word field, .op o, .str v] (.str field o v)
  | paren {ts : List Token} {e : Expr} (h : Derives ts e) : Derives (.lparen :: ts ++ [.rparen]) e
  | and {ts us : List Token} {e e' : Expr} (h : Derives ts e) (h' : Derives us e') :
      Derives (ts ++ .and :: us) (.and e e')
  | or {ts us : List Token} {e e' : Expr} (h : Derives ts e) (h' : Derives us e') :
      Derives (ts ++ .or :: us) (.or e e')

theorem parseAtom_cases (h : parse (n + 1) .atom ts = some (e, rest)) :
    (∃ ts', ts = .lparen :: ts' ∧ parse n .or ts' = some (e, .rparen :: rest)) ∨
      ∃ front, ts = front ++ rest ∧ Derives front e := by
  cases ts with
  | nil => cases h
  | cons t ts =>
    cases t with
    | lparen =>
      left
      rw [parse] at h
      cases hor : parse n .or ts with
      | none => rw [hor] at h; cases h
      | some r =>
        obtain ⟨e', rest'⟩ := r
        rw [hor] at h
        cases rest' with
        | nil => cases h
        | cons t rest' => cases t <;> cases h; exact ⟨ts, rfl, hor⟩
    | word field =>
      right
      cases ts with
      | nil => cases h
      | cons t ts =>
        cases t with
        | op o =>
          cases ts with
          | nil => cases h
          | cons t ts =>
            cases t with
            | word w =>
              change (if o = .glob then none else (number w).map fun v => (Expr.num field o v, ts)) = _ at h
              split_ifs at h
              obtain ⟨v, -, heq⟩ := Option.map_eq_some_iff.mp h
              cases heq
              exact ⟨_, rfl, .num field w o v⟩
            | str v =>
              change (if o = .eq ∨ o = .ne ∨ o = .glob then some (Expr.str field o v, ts) else none) = _ at h
              split_ifs at h
              cases h
              exact ⟨_, rfl, .str field v o⟩
            | _ => cases h
        | _ => cases h
    | _ => cases h

/-- What is parsed is an expression in front of the rest. -/
theorem parse_derives (h : parse n level ts = some (e, rest)) : ∃ front, ts = front ++ rest ∧ Derives front e := by
  induction n generalizing level ts e rest with
  | zero => cases h
  | succ n ih =>
    cases level with
    | or =>
      rw [parse] at h
      cases hand : parse n .and ts with
      | none => rw [hand] at h; cases h
      | some r =>
        obtain ⟨e₁, rest₁⟩ := r
        obtain ⟨front, rfl, hfront⟩ := ih hand
        rw [hand] at h
        cases rest₁ with
        | nil => cases h; exact ⟨front, rfl, hfront⟩
        | cons t rest₁ =>
          cases t with
          | or =>
            obtain ⟨⟨e₂, rest₂⟩, hor, heq⟩ := Option.map_eq_some_iff.mp h
            obtain ⟨front', rfl, hfront'⟩ := ih hor
            cases heq
            exact ⟨front ++ .or :: front', by rw [List.append_assoc, List.cons_append], hfront.or hfront'⟩
          | _ => cases h; exact ⟨front, rfl, hfront⟩
    | and =>
      rw [parse] at h
      cases hatom : parse n .atom ts with
      | none => rw [hatom] at h; cases h
      | some r =>
        obtain ⟨e₁, rest₁⟩ := r
        obtain ⟨front, rfl, hfront⟩ := ih hatom
        rw [hatom] at h
        cases rest₁ with
        | nil => cases h; exact ⟨front, rfl, hfront⟩
        | cons t rest₁ =>
          cases t with
          | and =>
            obtain ⟨⟨e₂, rest₂⟩, hand, heq⟩ := Option.map_eq_some_iff.mp h
            obtain ⟨front', rfl, hfront'⟩ := ih hand
            cases heq
            exact ⟨front ++ .and :: front', by rw [List.append_assoc, List.cons_append], hfront.and hfront'⟩
          | _ => cases h; exact ⟨front, rfl, hfront⟩
    | atom =>
      rcases parseAtom_cases h with ⟨ts', rfl, hor⟩ | hfront
      · obtain ⟨front, rfl, hfront⟩ := ih hor
        refine ⟨.lparen :: front ++ [.rparen], ?_, hfront.paren⟩
        rw [List.cons_append, List.cons_append, List.append_assoc, List.singleton_append]
      · exact hfront

theorem read_derives {text : List Char} (h : read text = some e) : Derives (tokens text) e := by
  unfold FilterLang.read at h
  cases hparse : parse (3 * (tokens text).length + 1) .or (tokens text) with
  | none => rw [hparse] at h; cases h
  | some r =>
    obtain ⟨e', rest⟩ := r
    rw [hparse] at h
    cases rest with
    | cons t rest => cases h
    | nil =>
      cases h
      obtain ⟨front, hfront, hderives⟩ := parse_derives hparse
      rw [List.append_nil] at hfront
      exact hfront ▸ hderives

end Derivation

section Depth
variable {cs ds v h f : List Char} {ts : List Token} {s : LexState} {c : Char} {e : Expr}

def Token.depth : Token → Int
  | .lparen => 1
  | .rparen => -1
  | _ => 0

/-- Parentheses that are open at the end. -/
def depth (ts : List Token) : Int := (ts.map Token.depth).sum

theorem depth_append (ts us : List Token) : depth (ts ++ us) = depth ts + depth us := by
  rw [depth, List.map_append, List.sum_append]
  rfl

theorem depth_concat (ts : List Token) (t : Token) : depth (ts ++ [t]) = depth ts + t.depth := by
  rw [depth_append]
  exact congrArg _ (Int.add_zero _)

theorem depth_cons (t : Token) (ts : List Token) : depth (t :: ts) = t.depth + depth ts := rfl

/-- The parentheses of an expression are closed. -/
theorem Derives.depth_eq (h : Derives ts e) : depth ts = 0 := by
  induction h with
  | num => rfl
  | str => rfl
  | paren _ ih =>
    rw [List.cons_append, depth_cons, depth_concat, ih]
    rfl
  | and _ _ ih ih' =>
    rw [depth_append, depth_cons, ih, ih']
    rfl
  | or _ _ ih ih' =>
    rw [depth_append, depth_cons, ih, ih']
    rfl

/-- A string is open. -/
def LexState.InStr (s : LexState) : Prop := ∃ v, s.cur = .str v

theorem not_inStr (h : ∀ v, s.cur ≠ .str v) : ¬ s.InStr :=
  fun hstr => hstr.elim h

def charDepth (c : Char) : Int := if c = '(' then 1 else if c = ')' then -1 else 0

theorem wordChar_charDepth (h : wordChar c = true) : charDepth c = 0 := by
  have hopen : c ≠ '(' := fun heq => by rw [heq] at h; exact absurd h (by decide)
  have hclose : c ≠ ')' := fun heq => by rw [heq] at h; exact absurd h (by decide)
  rw [charDepth, if_neg hopen, if_neg hclose]

theorem flush_punct (out : List Token) (p : Char) : depth (LexState.flush ⟨out, .punct p⟩) = depth out := by
  unfold LexState.flush
  dsimp only
  split <;> first | rfl | (rw [depth_concat]; exact Int.add_zero _)

theorem flush_word (out : List Token) (w : List Char) : depth (LexState.flush ⟨out, .word w⟩) = depth out :=
  (depth_concat out (.word w)).trans (Int.add_zero _)

theorem fresh_spec (out : List Token) (c : Char) :
    depth (fresh out c).flush = depth out + charDepth c ∧ ((fresh out c).InStr ↔ c = '"') := by
  rw [fresh]
  by_cases hword : wordChar c = true
  · have hquote : c ≠ '"' := fun heq => by rw [heq] at hword; exact absurd hword (by decide)
    rw [if_pos hword, wordChar_charDepth hword]
    exact ⟨depth_concat _ _, iff_of_false (not_inStr (by simp)) hquote⟩
  · rw [if_neg hword]
    by_cases hopen : c = '('
    · subst hopen
      exact ⟨depth_concat _ _, iff_of_false (not_inStr (by simp)) (by decide)⟩
    · by_cases hclose : c = ')'
      · subst hclose
        exact ⟨depth_concat _ _, iff_of_false (not_inStr (by simp)) (by decide)⟩
      · rw [if_neg hopen, if_neg hclose, charDepth, if_neg hopen, if_neg hclose]
        by_cases htilde : c = '~'
        · subst htilde
          exact ⟨depth_concat _ _, iff_of_false (not_inStr (by simp)) (by decide)⟩
        · rw [if_neg htilde]
          by_cases hquote : c = '"'
          · rw [if_pos hquote]
            exact ⟨depth_concat _ _, iff_of_true ⟨[], rfl⟩ hquote⟩
          · rw [if_neg hquote]
            by_cases hspace : c = ' '
            · rw [if_pos hspace]
              exact ⟨(Int.add_zero _).symm, iff_of_false (not_inStr (by simp)) hquote⟩
            · rw [if_neg hspace]
              exact ⟨(flush_punct out c).trans (Int.add_zero _).symm,
                iff_of_false (not_inStr (by simp)) hquote⟩

/-- An operator of two characters opens and closes nothing. -/
theorem pair_spec {p : Char} {t : Token} (h : pair p c = some t) : t.depth = 0 ∧ charDepth c = 0 ∧ c ≠ '"' := by
  unfold pair at h
  split at h <;> cases h <;> exact ⟨rfl, by decide, by decide⟩

/-- What a character outside of strings does to the parentheses that are open. -/
theorem lexChar_spec (hs : ¬ s.InStr) (c : Char) :
    depth (lexChar s c).flush = depth s.flush + charDepth c ∧ ((lexChar s c).InStr ↔ c = '"') := by
  obtain ⟨out, cur⟩ := s
  cases cur with
  | none => exact fresh_spec out c
  | str v => exact absurd ⟨v, rfl⟩ hs
  | word w =>
    rw [lexChar]
    dsimp only
    by_cases hword : wordChar c = true
    · have hquote : c ≠ '"' := fun heq => by rw [heq] at hword; exact absurd hword (by decide)
      rw [if_pos hword, wordChar_charDepth hword]
      refine ⟨?_, iff_of_false (not_inStr (by simp)) hquote⟩
      rw [flush_word, flush_word]
      exact (Int.add_zero _).symm
    · rw [if_neg hword]
      exact fresh_spec _ c
  | punct p =>
    rw [lexChar]
    dsimp only
    cases hpair : pair p c with
    | none => exact fresh_spec _ c
    | some t =>
      obtain ⟨ht, hc, hquote⟩ := pair_spec hpair
      refine ⟨?_, iff_of_false (not_inStr (by simp)) hquote⟩
      rw [flush_punct, hc]
      exact (depth_concat _ _).trans (congrArg _ ht)

/-- No beginning closes a parenthesis that was open before. -/
structure Nested (cs : List Char) : Prop where
  prefixes : ∀ s : LexState, ¬ s.InStr → ∀ p, p <+: cs → depth s.flush ≤ depth (lex p s).flush
  ends : ∀ s : LexState, ¬ s.InStr → ¬ (lex cs s).InStr

theorem nested_nil : Nested [] :=
  ⟨fun _ _ _ hp => List.prefix_nil.mp hp ▸ Int.le_refl _, fun _ hs => hs⟩

/-- A beginning of two parts. -/
theorem prefix_append_cases {p : List Char} (hp : p <+: cs ++ ds) : p <+: cs ∨ ∃ p', p = cs ++ p' ∧ p' <+: ds := by
  obtain ⟨rest, heq⟩ := hp
  rcases List.append_eq_append_iff.mp heq with ⟨as, has, -⟩ | ⟨bs, hbs, hds⟩
  · exact Or.inl ⟨as, has.symm⟩
  · exact Or.inr ⟨bs, hbs, rest, hds.symm⟩

theorem Nested.append (h : Nested cs) (h' : Nested ds) : Nested (cs ++ ds) := by
  refine ⟨fun s hs p hp => ?_, fun s hs => ?_⟩
  · rcases prefix_append_cases hp with hp | ⟨p', rfl, hp'⟩
    · exact h.prefixes s hs p hp
    · rw [lex_append]
      exact Int.le_trans (h.prefixes s hs cs (List.prefix_refl cs)) (h'.prefixes _ (h.ends s hs) p' hp')
  · rw [lex_append]
    exact h'.ends _ (h.ends s hs)

theorem nested_char (hclose : c ≠ ')') (hquote : c ≠ '"') : Nested [c] := by
  have hdepth : 0 ≤ charDepth c := by
    rw [charDepth, if_neg hclose]
    split_ifs <;> decide
  refine ⟨fun s hs p hp => ?_, fun s hs => ?_⟩
  · rcases List.prefix_cons_iff.mp hp with rfl | ⟨t, rfl, ht⟩
    · exact Int.le_refl _
    · rw [List.prefix_nil.mp ht]
      have hstep := (lexChar_spec hs c).1
      change depth s.flush ≤ depth (lexChar s c).flush
      omega
  · exact fun hstr => hquote ((lexChar_spec hs c).2.mp hstr)

/-- A text without closing parentheses and strings. -/
theorem nested_plain (h : cs.all (fun c => c != ')' && c != '"') = true) : Nested cs := by
  induction cs with
  | nil => exact nested_nil
  | cons c cs ih =>
    rw [List.all_cons, Bool.and_eq_true, Bool.and_eq_true, bne_iff_ne, bne_iff_ne] at h
    exact (nested_char h.1.1 h.1.2).append (ih h.2)

/-- What stands in parentheses leaves one open until they are closed. -/
theorem Nested.open (h : Nested cs) (hs : ¬ s.InStr) {p : List Char} (hp : p <+: cs) :
    depth s.flush + 1 ≤ depth (lex ('(' :: p) s).flush := by
  obtain ⟨hdepth, hstr⟩ := lexChar_spec hs '('
  have hin : ¬ (lexChar s '(').InStr := fun hin => absurd (hstr.mp hin) (by decide)
  have hrest := h.prefixes _ hin p hp
  rw [hdepth] at hrest
  exact hrest

theorem Nested.paren (h : Nested cs) : Nested ('(' :: cs ++ [')']) := by
  have hin (s : LexState) (hs : ¬ s.InStr) : ¬ (lex ('(' :: cs) s).InStr :=
    h.ends _ fun hin => absurd ((lexChar_spec hs '(').2.mp hin) (by decide)
  refine ⟨fun s hs p hp => ?_, fun s hs => ?_⟩
  · rcases prefix_append_cases hp with hp | ⟨p', rfl, hp'⟩
    · rcases List.prefix_cons_iff.mp hp with rfl | ⟨t, rfl, ht⟩
      · exact Int.le_refl _
      · exact Int.le_of_lt (h.open hs ht)
    · have hopen := h.open hs (List.prefix_refl cs)
      rw [lex_append]
      rcases List.prefix_cons_iff.mp hp' with rfl | ⟨t, rfl, ht⟩
      · exact Int.le_of_lt hopen
      · rw [List.prefix_nil.mp ht]
        have hclose := (lexChar_spec (hin s hs) ')').1
        have hone : charDepth ')' = -1 := rfl
        change depth s.flush ≤ depth (lexChar (lex ('(' :: cs) s) ')').flush
        omega
  · rw [lex_append]
    exact fun hstr => absurd ((lexChar_spec (hin s hs) ')').2.mp hstr) (by decide)

theorem lexChar_quote (hs : ¬ s.InStr) : lexChar s '"' = ⟨s.flush, .str []⟩ := by
  obtain ⟨out, cur⟩ := s
  cases cur with
  | none => rfl
  | str v => exact absurd ⟨v, rfl⟩ hs
  | word w => rfl
  | punct p =>
    rw [lexChar]
    dsimp only
    cases hpair : pair p '"' with
    | none => rfl
    | some t => exact absurd rfl (pair_spec hpair).2.2

theorem nested_str (hv : '"' ∉ v) : Nested ('"' :: v ++ ['"']) := by
  have hopen (s : LexState) (hs : ¬ s.InStr) {t : List Char} (ht : t <+: v) :
      lex ('"' :: t) s = ⟨s.flush, .str t⟩ := by
    have hstep : lex ('"' :: t) s = lex t (lexChar s '"') := rfl
    rw [hstep, lexChar_quote hs, lex_str (fun hin => hv (ht.subset hin)), List.nil_append]
  have hclose (s : LexState) (hs : ¬ s.InStr) :
      lex ['"'] (lex ('"' :: v) s) = ⟨s.flush ++ [.str v], .none⟩ := by
    rw [hopen s hs (List.prefix_refl v)]
    rfl
  have hstr (s : LexState) (hs : ¬ s.InStr) {t : List Char} (ht : t <+: v) :
      depth s.flush ≤ depth (lex ('"' :: t) s).flush := by
    rw [hopen s hs ht]
    exact Int.le_of_eq ((Int.add_zero _).symm.trans (depth_concat s.flush .bad).symm)
  refine ⟨fun s hs p hp => ?_, fun s hs => ?_⟩
  · rcases prefix_append_cases hp with hp | ⟨p', rfl, hp'⟩
    · rcases List.prefix_cons_iff.mp hp with rfl | ⟨t, rfl, ht⟩
      · exact Int.le_refl _
      · exact hstr s hs ht
    · rcases List.prefix_cons_iff.mp hp' with rfl | ⟨t, rfl, ht⟩
      · rw [List.append_nil]
        exact hstr s hs (List.prefix_refl v)
      · rw [List.prefix_nil.mp ht, lex_append, hclose s hs]
        exact Int.le_of_eq ((Int.add_zero _).symm.trans (depth_concat s.flush (.str v)).symm)
  · rw [lex_append, hclose s hs]
    exact not_inStr (by simp)

/-- A text that is cut off inside a parenthesis is not a filter. -/
theorem read_cut (hh : Nested h) (hf : Nested f) {p : List Char} (hp : p <+: f) : read (h ++ '(' :: p) = none := by
  have hstart : ¬ LexState.InStr ⟨[], .none⟩ := not_inStr (by simp)
  cases hread : read (h ++ '(' :: p) with
  | none => rfl
  | some e =>
    have hzero := (read_derives hread).depth_eq
    have hhead := hh.prefixes _ hstart h (List.prefix_refl h)
    have hopen := hf.open (hh.ends _ hstart) hp
    have hstart0 : depth (LexState.flush ⟨[], .none⟩) = 0 := rfl
    rw [tokens, lex_append] at hzero
    omega

end Depth

section Quotes
variable {cs : List Char} {ts : List Token} {s : LexState} {c : Char} {e : Expr}

/-- No string has a quote in it. -/
def QuoteFree (ts : List Token) : Prop := ∀ v, .str v ∈ ts → '"' ∉ v

def Expr.QuoteFree : Expr → Prop
  | num _ _ _ => True
  | str _ _ v => '"' ∉ v
  | and e e' => e.QuoteFree ∧ e'.QuoteFree
  | or e e' => e.QuoteFree ∧ e'.QuoteFree

theorem QuoteFree.append_left {us : List Token} (h : FilterLang.QuoteFree (ts ++ us)) : FilterLang.QuoteFree ts :=
  fun v hv => h v (List.mem_append_left _ hv)

theorem QuoteFree.append_right {us : List Token} (h : FilterLang.QuoteFree (ts ++ us)) : FilterLang.QuoteFree us :=
  fun v hv => h v (List.mem_append_right _ hv)

theorem Derives.quoteFree (hd : Derives ts e) (h : QuoteFree ts) : e.QuoteFree := by
  induction hd with
  | num => trivial
  | str field v o => exact h v (by simp)
  | paren _ ih =>
    rw [List.cons_append] at h
    exact ih fun v hv => h v (List.mem_cons_of_mem _ (List.mem_append_left _ hv))
  | and _ _ ih ih' => exact ⟨ih h.append_left, ih' fun v hv => h.append_right v (List.mem_cons_of_mem _ hv)⟩
  | or _ _ ih ih' => exact ⟨ih h.append_left, ih' fun v hv => h.append_right v (List.mem_cons_of_mem _ hv)⟩

/-- What the lexer keeps. -/
structure LexState.QuoteFree (s : LexState) : Prop where
  out : FilterLang.QuoteFree s.out
  cur : ∀ v, s.cur = .str v → '"' ∉ v

theorem quoteFree_concat {t : Token} (h : QuoteFree ts) (ht : ∀ v, t = .str v → '"' ∉ v) : QuoteFree (ts ++ [t]) := by
  intro v hv
  rcases List.mem_append.mp hv with hv | hv
  · exact h v hv
  · exact ht v (List.mem_singleton.mp hv).symm

theorem LexState.QuoteFree.flush (h : s.QuoteFree) : FilterLang.QuoteFree s.flush := by
  unfold LexState.flush
  split <;> first | exact h.out | exact quoteFree_concat h.out (by simp)

theorem quoteFree_fresh {out : List Token} (h : QuoteFree out) (c : Char) : (fresh out c).QuoteFree := by
  have hclosed (t : Token) (ht : ∀ v, t ≠ .str v) : LexState.QuoteFree ⟨out ++ [t], .none⟩ :=
    ⟨quoteFree_concat h fun v hv => absurd hv (ht v), by simp⟩
  rw [fresh]
  split_ifs
  · exact ⟨h, by simp⟩
  · exact hclosed _ (by simp)
  · exact hclosed _ (by simp)
  · exact hclosed _ (by simp)
  · exact ⟨h, fun v hv => by cases hv; exact List.not_mem_nil⟩
  · exact ⟨h, by simp⟩
  · exact ⟨h, by simp⟩

theorem LexState.QuoteFree.lexChar (h : s.QuoteFree) (c : Char) : (lexChar s c).QuoteFree := by
  obtain ⟨out, cur⟩ := s
  cases cur with
  | none => exact quoteFree_fresh h.out c
  | word w =>
    rw [FilterLang.lexChar]
    dsimp only
    split_ifs
    · exact ⟨h.out, by simp⟩
    · exact quoteFree_fresh h.flush c
  | str v =>
    have hv := h.cur v rfl
    rw [FilterLang.lexChar]
    dsimp only
    split_ifs with hquote
    · exact ⟨quoteFree_concat h.out fun v' hv' => by cases hv'; exact hv, by simp⟩
    · refine ⟨h.out, fun v' hv' hin => ?_⟩
      cases hv'
      rcases List.mem_append.mp hin with hin | hin
      · exact hv hin
      · exact hquote (List.mem_singleton.mp hin).symm
  | punct p =>
    rw [FilterLang.lexChar]
    dsimp only
    cases hpair : pair p c with
    | none => exact quoteFree_fresh h.flush c
    | some t =>
      refine ⟨quoteFree_concat h.out fun v hv => ?_, by simp⟩
      subst hv
      unfold pair at hpair
      split at hpair <;> cases hpair

theorem read_quoteFree {text : List Char} (h : read text = some e) : e.QuoteFree := by
  refine (read_derives h).quoteFree (LexState.QuoteFree.flush ?_)
  have hlex : ∀ cs (s : LexState), s.QuoteFree → (lex cs s).QuoteFree := by
    intro cs
    induction cs with
    | nil => exact fun _ hs => hs
    | cons c cs ih => exact fun s hs => ih _ (hs.lexChar c)
  exact hlex text _ ⟨by simp [QuoteFree], by simp⟩

/-- Two events that differ in strings with quotes only are the same to a filter. -/
theorem eval_quoteFree {glob : List Char → List Char → Bool} {ev ev' : Event} (h : e.QuoteFree)
    (hnum : ev.num = ev'.num) (hstr : ∀ field v, '"' ∉ v → (ev.str field = v ↔ ev'.str field = v))
    (hglob : ∀ field v, '"' ∉ v → glob v (ev.str field) = glob v (ev'.str field)) :
    e.eval glob ev = e.eval glob ev' := by
  induction e with
  | num field o v => rw [Expr.eval, Expr.eval, hnum]
  | str field o v =>
    have hbeq : (ev.str field == v) = (ev'.str field == v) := by
      rw [Bool.eq_iff_iff, beq_iff_eq, beq_iff_eq]
      exact hstr field v h
    cases o with
    | eq => exact hbeq
    | ne => exact congrArg not hbeq
    | glob => exact hglob field v h
    | _ => rfl
  | and e e' ih ih' => rw [Expr.eval, Expr.eval, ih h.1, ih' h.2]
  | or e e' ih ih' => rw [Expr.eval, Expr.eval, ih h.1, ih' h.2]

end Quotes

end PerfProf.FilterLang
