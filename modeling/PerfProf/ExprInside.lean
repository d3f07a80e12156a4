import PerfProf.ExprLexer

/-! The lexer stays in the text, up to a constant that is not closed. -/
namespace PerfProf.Expr

section Spec

/-- The position is at or before the NUL, and no more has been written to the pool than the text
is long. -/
structure Inside (text beyond : List Char) (l : Lex) : Prop where
  position : beyond.length < l.p.length
  pool : l.str ≤ text.length

/-- The next `k` calls of `next` stay inside, and each that finds a token gets on. -/
def SafeCalls (tab : Symtab) (strBase : Long) (text beyond : List Char) : Nat → Lex → Prop
  | 0, l => Inside text beyond l
  | k+1, l => Inside text beyond l ∧
    ((nextMem tab strBase (l.p.length + 1) l).1 ≠ .eof →
      (nextMem tab strBase (l.p.length + 1) l).2.p.length < l.p.length) ∧
    SafeCalls tab strBase text beyond k (nextMem tab strBase (l.p.length + 1) l).2

/-- A constant that starts behind `pre` and is not closed. -/
structure Opens (text pre : List Char) (q : Char) (r : List Char) : Prop where
  split : text = pre ++ q :: r
  outside : modeText pre = .text
  quote : isQuote q = true
  unclosed : unclosed q r = true

end Spec

section Find

/-- Whatever ends in a constant has one that is not closed. -/
theorem opens_of_mode : ∀ (n : Nat) (cs : List Char), cs.length ≤ n →
    (modeText cs = .quote → ∃ pre q r, Opens cs pre q r) ∧
    (modeComment cs = .quote → ∃ pre q r, cs = pre ++ q :: r ∧ modeComment pre = .text ∧
      isQuote q = true ∧ unclosed q r = true) ∧
    ∀ q₀, modeQuote q₀ cs = .quote → unclosed q₀ cs = true ∨
      ∃ pre q r, cs = pre ++ q :: r ∧ modeQuote q₀ pre = .text ∧
        isQuote q = true ∧ unclosed q r = true := by
  intro n
  induction n with
  | zero =>
    intro cs hn
    rw [List.length_eq_zero_iff.mp (Nat.le_zero.mp hn)]
    exact ⟨nofun, nofun, fun _ _ => .inl rfl⟩
  | succ n ih =>
    intro cs hn
    cases cs with
    | nil => exact ⟨nofun, nofun, fun _ _ => .inl rfl⟩
    | cons c cs =>
      rw [List.length_cons] at hn
      obtain ⟨ihText, ihComment, ihQuote⟩ := ih cs (by omega)
      refine ⟨fun h => ?_, fun h => ?_, fun q₀ h => ?_⟩
      · rw [modeText] at h
        split_ifs at h with hcomment hquote
        · obtain ⟨pre, q, r, rfl, hpre, hq, hr⟩ := ihComment h
          refine ⟨c :: pre, q, r, rfl, ?_, hq, hr⟩
          cases pre with
          | nil => cases hpre
          | cons d pre =>
            have hcomment' : c = '#' ∨ c = '/' ∧ (d :: pre).head? = some '/' := hcomment
            rw [modeText, if_pos hcomment']
            exact hpre
        · obtain hopen | ⟨pre, q, r, rfl, hpre, hq, hr⟩ := ihQuote c h
          · exact ⟨[], c, cs, rfl, rfl, hquote, hopen⟩
          · refine ⟨c :: pre, q, r, rfl, ?_, hq, hr⟩
            rw [modeText, if_neg, if_pos hquote, hpre]
            rintro (rfl | ⟨rfl, _⟩)
            · cases hquote
            · cases hquote
        · obtain ⟨pre, q, r, rfl, hpre, hq, hr⟩ := ihText h
          refine ⟨c :: pre, q, r, rfl, ?_, hq, hr⟩
          rw [modeText, if_neg, if_neg hquote, hpre]
          rintro (hc | ⟨hc, hhead⟩)
          · exact hcomment (.inl hc)
          · cases pre with
            | nil => cases hhead
            | cons d pre => exact hcomment (.inr ⟨hc, hhead⟩)
      · rw [modeComment] at h
        split_ifs at h with hline
        · obtain ⟨pre, q, r, rfl, hpre, hq, hr⟩ := ihText h
          exact ⟨c :: pre, q, r, rfl, by rw [modeComment, if_pos hline, hpre], hq, hr⟩
        · obtain ⟨pre, q, r, rfl, hpre, hq, hr⟩ := ihComment h
          exact ⟨c :: pre, q, r, rfl, by rw [modeComment, if_neg hline, hpre], hq, hr⟩
      · rw [modeQuote_cons] at h
        rw [unclosed_cons]
        by_cases hc : c = q₀
        · rw [if_pos hc] at h
          obtain ⟨pre, q, r, rfl, hpre, hq, hr⟩ := ihText h
          exact .inr ⟨c :: pre, q, r, rfl, by rw [modeQuote_cons, if_pos hc, hpre], hq, hr⟩
        · rw [if_neg hc] at h ⊢
          by_cases hesc : c = '\x5c'
          · rw [if_pos hesc] at h ⊢
            cases cs with
            | nil => exact .inl rfl
            | cons d cs =>
              rw [List.length_cons] at hn
              obtain hopen | ⟨pre, q, r, rfl, hpre, hq, hr⟩ := (ih cs (by omega)).2.2 q₀ h
              · exact .inl hopen
              · refine .inr ⟨c :: d :: pre, q, r, rfl, ?_, hq, hr⟩
                rw [modeQuote_cons, if_neg hc, if_pos hesc]
                exact hpre
          · rw [if_neg hesc] at h ⊢
            obtain hopen | ⟨pre, q, r, rfl, hpre, hq, hr⟩ := ihQuote q₀ h
            · exact .inl hopen
            · refine .inr ⟨c :: pre, q, r, rfl, ?_, hq, hr⟩
              rw [modeQuote_cons, if_neg hc, if_neg hesc, hpre]

end Find

section Calls
variable {tab : Symtab} {strBase : Long} {text beyond w : List Char}

/-- The number of calls that find a token in a text. -/
def tokenCount (tab : Symtab) (strBase : Long) (l : Lex) : Nat :=
  (tokens tab strBase (l.p.length + 1) l).length

/-- One call, in the state that has `l` before `w`. -/
theorem call_inStep (tab : Symtab) (strBase : Long) {l : Lex} (h : Ends l.p w) :
    InStep tab strBase w l (nextMem tab strBase ((l.extend w).p.length + 1) (l.extend w))
      (next tab strBase (l.p.length + 1) l) := by
  have hstep := next_inStep tab strBase w.length (l.p.length + 1) l h (Nat.lt_succ_self _)
  have hfuel : l.p.length + 1 + w.length = (l.extend w).p.length + 1 := by
    rw [Lex.extend, List.length_append]
    omega
  rwa [hfuel] at hstep

theorem inside_extend {l : Lex} (hw : beyond.length < w.length)
    (hpool : l.str + l.p.length ≤ text.length) : Inside text beyond (l.extend w) := by
  refine ⟨?_, ?_⟩
  · rw [Lex.extend, List.length_append]
    omega
  · exact Nat.le_trans (Nat.le_add_right _ _) hpool

theorem tokens_fuel : ∀ (fuel fuel' : Nat) (l : Lex), l.p.length < fuel → l.p.length < fuel' →
    Ends l.p w → tokens tab strBase fuel l = tokens tab strBase fuel' l
  | 0, _, _, hf, _, _ => absurd hf (Nat.not_lt_zero _)
  | _, 0, _, _, hf, _ => absurd hf (Nat.not_lt_zero _)
  | fuel+1, fuel'+1, l, hf, hf', hends => by
    have hstep := call_inStep tab strBase hends
    cases hnext : next tab strBase (l.p.length + 1) l with
    | mk tk l' =>
      rw [hnext] at hstep
      obtain ⟨htk, _⟩ | ⟨htk, _, htook⟩ := hstep
      · cases htk
        rw [tokens, tokens, hnext]
      · have hshort := htook.shorter
        dsimp only at hshort
        have ih := tokens_fuel fuel fuel' l' (by omega) (by omega) htook.ends
        rw [tokens, tokens, hnext]
        cases tk <;> first | exact absurd rfl htk | exact congrArg (List.cons _) ih

theorem tokenCount_succ {l l' : Lex} {tk : Token}
    (hnext : next tab strBase (l.p.length + 1) l = (tk, l')) (htk : tk ≠ .eof)
    (htook : Took l l' w) : tokenCount tab strBase l = tokenCount tab strBase l' + 1 := by
  have hshort := htook.shorter
  have hfuel : tokens tab strBase l.p.length l' = tokens tab strBase (l'.p.length + 1) l' :=
    tokens_fuel _ _ l' hshort (Nat.lt_succ_self _) htook.ends
  rw [tokenCount, tokens, hnext, tokenCount, ← hfuel]
  cases tk <;> first | exact absurd rfl htk | rfl

theorem tokenCount_zero {l l' : Lex}
    (hnext : next tab strBase (l.p.length + 1) l = (.eof, l')) : tokenCount tab strBase l = 0 := by
  rw [tokenCount, tokens, hnext]
  rfl

/-- At the NUL every call finds the end of the input again. -/
theorem safe_end (k : Nat) {l : Lex} (hl : l.p = nul :: beyond) (hpool : l.str ≤ text.length) :
    SafeCalls tab strBase text beyond k l := by
  have hinside : Inside text beyond l := ⟨by rw [hl]; exact Nat.lt_succ_self _, hpool⟩
  induction k with
  | zero => exact hinside
  | succ k ih =>
    have hnext : nextMem tab strBase (l.p.length + 1) l = (.eof, l) := by
      rw [nextMem, hl]
      exact if_pos rfl
    rw [SafeCalls, hnext]
    exact ⟨hinside, fun h => absurd rfl h, ih⟩

/-- As many calls as there are tokens before `w` are safe, and any number where `w` is the NUL. -/
theorem safe_calls : ∀ (k : Nat) (l : Lex), Ends l.p w → beyond.length < w.length →
    l.str + l.p.length ≤ text.length → w = nul :: beyond ∨ k ≤ tokenCount tab strBase l →
      SafeCalls tab strBase text beyond k (l.extend w)
  | 0, l, _, hw, hpool, _ => inside_extend hw hpool
  | k+1, l, hends, hw, hpool, hk => by
    have hstep := call_inStep tab strBase hends
    have hlen : l.p.length < (l.extend w).p.length := by
      rw [Lex.extend, List.length_append]
      omega
    rw [SafeCalls]
    refine ⟨inside_extend hw hpool, ?_⟩
    cases hnext : next tab strBase (l.p.length + 1) l with
    | mk tk l' =>
      rw [hnext] at hstep
      obtain ⟨htk, fuel, hmem⟩ | ⟨htk, hmem, htook⟩ := hstep
      · cases htk
        have hnul : w = nul :: beyond := by
          refine hk.resolve_right fun h => ?_
          rw [tokenCount_zero hnext] at h
          exact Nat.not_succ_le_zero k h
        have hcall : nextMem tab strBase (fuel + 1) { l with p := w } =
            (.eof, { l with p := w }) := by
          rw [nextMem, hnul]
          exact if_pos rfl
        rw [hmem, hcall]
        exact ⟨fun h => absurd rfl h, safe_end k hnul (by dsimp only; omega)⟩
      · have hpool' := htook.pool
        have hshort := htook.shorter
        dsimp only at hpool' hshort
        rw [hmem]
        refine ⟨fun _ => ?_, safe_calls k l' htook.ends hw (by omega) ?_⟩
        · rw [Lex.extend, Lex.extend, List.length_append, List.length_append]
          exact Nat.add_lt_add_right hshort _
        · refine hk.imp id fun h => ?_
          rw [tokenCount_succ hnext htk htook] at h
          exact Nat.le_of_succ_le_succ h

/-- The call that reads a constant which is not closed leaves the text. -/
theorem open_past {q : Char} {r : List Char} (hq : isQuote q = true) (hr : unclosed q r = true)
    (hn : nul ∉ r) (fuel : Nat) (ival : Long) (str : Nat) :
    (nextMem tab strBase (fuel + 1) ⟨q :: (r ++ nul :: beyond), ival, str⟩).2.p.length ≤
      beyond.length := by
  have hpast := quoted_past r ival 0 beyond hr hn
  rw [isQuote, Bool.or_eq_true, beq_iff_eq, beq_iff_eq] at hq
  obtain rfl | rfl := hq
  · exact hpast
  · exact hpast

theorem unsafe_calls {q : Char} {r : List Char} (hq : isQuote q = true)
    (hr : unclosed q r = true) (hn : nul ∉ r) : ∀ (k : Nat) (l : Lex),
    Ends l.p (q :: (r ++ nul :: beyond)) → tokenCount tab strBase l < k →
      ¬ SafeCalls tab strBase text beyond k (l.extend (q :: (r ++ nul :: beyond)))
  | 0, _, _, hk => absurd hk (Nat.not_lt_zero _)
  | k+1, l, hends, hk => by
    intro hsafe
    have hstep := call_inStep tab strBase hends
    rw [SafeCalls] at hsafe
    cases hnext : next tab strBase (l.p.length + 1) l with
    | mk tk l' =>
      rw [hnext] at hstep
      obtain ⟨_, fuel, hmem⟩ | ⟨htk, hmem, htook⟩ := hstep
      · have hafter := hsafe.2.2
        rw [hmem] at hafter
        have hinside : Inside text beyond (nextMem tab strBase (fuel + 1)
            { l with p := q :: (r ++ nul :: beyond) }).2 := by
          cases k with
          | zero => exact hafter
          | succ k => exact hafter.1
        exact Nat.not_le.mpr hinside.position (open_past hq hr hn fuel l.ival l.str)
      · rw [hmem] at hsafe
        rw [tokenCount_succ hnext htk htook] at hk
        exact unsafe_calls hq hr hn k l' htook.ends (Nat.lt_of_succ_lt_succ hk) hsafe.2.2

/-- `k` calls stay in the text if and only if every constant that is not closed starts behind `k`
tokens at least: none is then read. -/
theorem lexer_inside_iff (tab : Symtab) (strBase : Long) (text beyond : List Char)
    (htext : nul ∉ text) (k : Nat) :
    SafeCalls tab strBase text beyond k ⟨text ++ nul :: beyond, 0, 0⟩ ↔
      ∀ pre q r, Opens text pre q r → k ≤ tokenCount tab strBase ⟨pre, 0, 0⟩ := by
  have hopen : ∀ {pre q r}, Opens text pre q r → nul ∉ r ∧
      Ends pre (q :: (r ++ nul :: beyond)) := by
    intro pre q r h
    have hsplit := h.split
    refine ⟨fun hr => htext ?_, ⟨q, _, rfl, .inr h.quote⟩, fun hp => htext ?_, .inl h.outside⟩
    · rw [hsplit]
      exact List.mem_append_right _ (List.mem_cons_of_mem q hr)
    · rw [hsplit]
      exact List.mem_append_left _ hp
  have hstart : ∀ {pre q r}, Opens text pre q r → (⟨text ++ nul :: beyond, 0, 0⟩ : Lex) =
      (⟨pre, 0, 0⟩ : Lex).extend (q :: (r ++ nul :: beyond)) := by
    intro pre q r h
    rw [Lex.extend, h.split, List.append_assoc, List.cons_append]
  constructor
  · intro hsafe pre q r h
    by_contra hk
    rw [hstart h] at hsafe
    exact unsafe_calls h.quote h.unclosed (hopen h).1 k _ (hopen h).2 (Nat.lt_of_not_le hk) hsafe
  · intro hall
    by_cases hmode : modeText text = .quote
    · obtain ⟨pre, q, r, h⟩ := (opens_of_mode _ text (Nat.le_refl _)).1 hmode
      rw [hstart h]
      refine safe_calls k _ (hopen h).2 ?_ ?_ (.inr (hall pre q r h))
      · simp only [List.length_cons, List.length_append]
        omega
      · rw [h.split, List.length_append]
        dsimp only
        omega
    · have hends : Ends text (nul :: beyond) := by
        refine ⟨⟨nul, beyond, rfl, .inl rfl⟩, htext, ?_⟩
        cases hm : modeText text with
        | text => exact .inl rfl
        | comment => exact .inr ⟨rfl, rfl⟩
        | quote => exact absurd hm hmode
      exact safe_calls k ⟨text, 0, 0⟩ hends (Nat.lt_succ_self _) (Nat.le_of_eq (Nat.zero_add _))
        (.inl rfl)

/-- The call that reads the number is inside, the one that reads the quote after it is not. -/
theorem lexer_inside_iff_number :
    SafeCalls builtins 0 ['5', '\x22'] [] 1 ⟨['5', '\x22', nul], 0, 0⟩ ∧
      ¬ SafeCalls builtins 0 ['5', '\x22'] [] 2 ⟨['5', '\x22', nul], 0, 0⟩ := by
  have hopen : Opens ['5', '\x22'] ['5'] '\x22' [] := ⟨rfl, rfl, rfl, rfl⟩
  have hpre : ∀ pre q r, Opens ['5', '\x22'] pre q r → pre = ['5'] := by
    intro pre q r h
    have hsplit := h.split
    match pre with
    | [] =>
      cases hsplit
      cases h.quote
    | [c] =>
      cases hsplit
      rfl
    | c :: d :: pre => simp at hsplit
  constructor
  · refine (lexer_inside_iff builtins 0 ['5', '\x22'] [] (by decide) 1).mpr fun pre q r h => ?_
    rw [hpre pre q r h]
    decide
  · intro hsafe
    have hk := (lexer_inside_iff builtins 0 ['5', '\x22'] [] (by decide) 2).mp hsafe _ _ _ hopen
    exact absurd hk (by decide)

/-- A single quote: `++p` steps over the NUL. -/
theorem quote_past_nul : ¬ ∀ (tab : Symtab) (strBase : Long) (text beyond : List Char),
    nul ∉ text → ∀ k, SafeCalls tab strBase text beyond k ⟨text ++ nul :: beyond, 0, 0⟩ := by
  intro h
  have hsafe := (h [] 0 ['\x22'] ['a'] (by decide) 1).2.2
  exact absurd hsafe.position (by decide)

end Calls

end PerfProf.Expr
