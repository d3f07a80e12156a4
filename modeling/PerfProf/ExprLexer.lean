import PerfProf.ExprCompile

/-! The lexer on the memory the text lies in: the text, its NUL, and whatever comes after it. The
loops of `next` look for the NUL where the source does. -/
namespace PerfProf.Expr

section Memory

def nul : Char := '\x00'

def inLine (c : Char) : Bool := c != '\n' && c != nul

/-- The loop over a constant in memory, up to the character it stops at. What follows a backslash
is taken unseen. -/
def quotedMem (q : Char) : Long → Nat → List Char → Long × Nat × List Char
  | ival, n, [] => (ival, n, [])
  | ival, n, c :: p =>
    if c = nul ∨ c = q then (ival, n, c :: p)
    else if c = '\x5c' then match p with
      | [] => (0, n + 1, [])
      | c' :: p => quotedMem q (if c' = 'n' then 10 else charLong c') (n + 1) p
    else quotedMem q (charLong c) (n + 1) p

/-- `next` in memory; `++p` after a constant steps over whatever its loop has stopped at. -/
def nextMem (tab : Symtab) (strBase : Long) : Nat → Lex → Token × Lex
  | 0, l => (.eof, l)
  | fuel+1, l => match l.p with
    | [] => (.eof, l)
    | c :: p =>
      let l' := { l with p := p }
      let isWord := fun c => isAlpha c || isDigit c
      if c = nul then (.eof, l)
      else if c = '#' then nextMem tab strBase fuel { l with p := p.dropWhile inLine }
      else if isAlpha c then
        (match tab.find (c :: p.takeWhile isWord) with
          | .int type => .int type
          | .sizeof => .sizeof
          | .id s => .id s, { l with p := p.dropWhile isWord })
      else if isDigit c then number c l'
      else if c = '/' then
        if p.head? = some '/' then
          nextMem tab strBase fuel { l with p := p.tail.dropWhile inLine }
        else (.div, l')
      else if c = '\x27' then
        let (ival, _, p) := quotedMem c l.ival 0 p
        (.num ival, ⟨p.tail, ival, l.str + 1⟩)
      else if c = '\x22' then
        let (_, n, p) := quotedMem c l.ival 0 p
        let ival := strBase + word l.str
        (.str ival, ⟨p.tail, ival, l.str + n + 1⟩)
      else if c = '=' then ifNext '=' .eq .assign l'
      else if c = '+' then ifNext '+' .inc .add l'
      else if c = '-' then ifNext '-' .dec .sub l'
      else if c = '!' then ifNext '=' .ne .bang l'
      else if c = '<' then
        if p.head? = some '=' then (.le, { l with p := p.tail }) else ifNext '<' .shl .lt l'
      else if c = '>' then
        if p.head? = some '=' then (.ge, { l with p := p.tail }) else ifNext '>' .shr .gt l'
      else if c = '|' then ifNext '|' .lor .or l'
      else if c = '&' then ifNext '&' .lan .and l'
      else if c = '^' then (.xor, l')
      else if c = '%' then (.mod, l')
      else if c = '*' then (.mul, l')
      else if c = '[' then (.brak, l')
      else if c = '?' then (.cond, l')
      else if c = '~' then (.tilde, l')
      else if c = ';' then (.semi, l')
      else if c = '\x7b' then (.lbrace, l')
      else if c = '\x7d' then (.rbrace, l')
      else if c = '(' then (.lparen, l')
      else if c = ')' then (.rparen, l')
      else if c = ']' then (.rbrack, l')
      else if c = ',' then (.comma, l')
      else if c = ':' then (.colon, l')
      else nextMem tab strBase fuel l'

end Memory

section Modes

inductive Mode where
  | text | comment | quote
deriving DecidableEq

def isQuote (c : Char) : Bool := c == '\x27' || c == '\x22'

mutual

/-- Where a text ends that starts outside of comments and constants. -/
def modeText : List Char → Mode
  | [] => .text
  | c :: cs =>
    if c = '#' ∨ c = '/' ∧ cs.head? = some '/' then modeComment cs
    else if isQuote c then modeQuote c cs
    else modeText cs

def modeComment : List Char → Mode
  | [] => .comment
  | c :: cs => if c = '\n' then modeText cs else modeComment cs

def modeQuote (q : Char) : List Char → Mode
  | [] => .quote
  | c :: cs =>
    if c = q then modeText cs
    else if c = '\x5c' then match cs with
      | [] => .quote
      | _ :: cs => modeQuote q cs
    else modeQuote q cs

end

/-- The rest of a text in which a constant is not closed. -/
def unclosed (q : Char) : List Char → Bool
  | [] => true
  | c :: cs =>
    if c = q then false
    else if c = '\x5c' then match cs with
      | [] => true
      | _ :: cs => unclosed q cs
    else unclosed q cs

end Modes

section Hard

/-- A NUL or a quote: no token but a constant goes on over it. -/
def Hard (w : List Char) : Prop := ∃ h z, w = h :: z ∧ (h = nul ∨ isQuote h = true)

/-- The text stops for the lexer where `w` begins. -/
structure Ends (text w : List Char) : Prop where
  hard : Hard w
  nonul : nul ∉ text
  mode : modeText text = .text ∨ modeText text = .comment ∧ w.head? = some nul

def Lex.extend (l : Lex) (w : List Char) : Lex := { l with p := l.p ++ w }

theorem Hard.head_ne {w : List Char} (h : Hard w) {c : Char} (hn : c ≠ nul)
    (hq : isQuote c = false) : w.head? ≠ some c := by
  obtain ⟨d, z, rfl, hd⟩ := h
  intro heq
  cases heq
  cases hd with
  | inl h => exact hn h
  | inr h => simp [h] at hq

variable {w : List Char} (hw : Hard w)
include hw

theorem dropWhile_hard {p : Char → Bool} (hn : p nul = false) (hq : ∀ c, isQuote c → p c = false)
    (a : List Char) : (a ++ w).dropWhile p = a.dropWhile p ++ w := by
  obtain ⟨d, z, rfl, hd⟩ := hw
  have hpd : p d = false := by
    cases hd with
    | inl h => rw [h, hn]
    | inr h => exact hq d h
  induction a with
  | nil => rw [List.nil_append, List.dropWhile_cons_of_neg (by simp [hpd])]; rfl
  | cons c a ih =>
    rw [List.cons_append, List.dropWhile_cons, List.dropWhile_cons]
    split_ifs
    · exact ih
    · rfl

theorem takeWhile_hard {p : Char → Bool} (hn : p nul = false) (hq : ∀ c, isQuote c → p c = false)
    (a : List Char) : (a ++ w).takeWhile p = a.takeWhile p := by
  obtain ⟨d, z, rfl, hd⟩ := hw
  have hpd : p d = false := by
    cases hd with
    | inl h => rw [h, hn]
    | inr h => exact hq d h
  induction a with
  | nil => rw [List.nil_append, List.takeWhile_cons_of_neg (by simp [hpd])]; rfl
  | cons c a ih =>
    rw [List.cons_append, List.takeWhile_cons, List.takeWhile_cons]
    split_ifs
    · rw [ih]
    · rfl

theorem head_hard {c : Char} (hn : c ≠ nul) (hq : isQuote c = false) (a : List Char) :
    (a ++ w).head? = some c ↔ a.head? = some c := by
  cases a with
  | nil => exact iff_of_false (hw.head_ne hn hq) nofun
  | cons d a => rfl

theorem number_hard (c : Char) (l : Lex) :
    number c (l.extend w) = ((number c l).1, (number c l).2.extend w) := by
  have hx : (l.p ++ w).head? = some 'x' ∨ (l.p ++ w).head? = some 'X' ↔
      l.p.head? = some 'x' ∨ l.p.head? = some 'X' :=
    or_congr (head_hard hw (by decide) rfl l.p) (head_hard hw (by decide) rfl l.p)
  have hquote : ∀ {p : Char → Bool}, p '\x27' = false → p '\x22' = false →
      ∀ c, isQuote c = true → p c = false := by
    intro p h1 h2 c hc
    rw [isQuote, Bool.or_eq_true, beq_iff_eq, beq_iff_eq] at hc
    obtain rfl | rfl := hc
    · exact h1
    · exact h2
  unfold number Lex.extend
  dsimp only
  by_cases hc : c ≠ '0'
  · rw [if_pos hc, if_pos hc, takeWhile_hard hw rfl (hquote rfl rfl),
      dropWhile_hard hw rfl (hquote rfl rfl)]
  · rw [if_neg hc, if_neg hc]
    by_cases hhex : l.p.head? = some 'x' ∨ l.p.head? = some 'X'
    · rw [if_pos hhex, if_pos (hx.mpr hhex)]
      cases hp : l.p with
      | nil => simp [hp] at hhex
      | cons d a =>
        rw [List.cons_append, List.tail_cons, List.tail_cons,
          takeWhile_hard hw rfl (hquote rfl rfl), dropWhile_hard hw rfl (hquote rfl rfl)]
    · rw [if_neg hhex, if_neg fun h => hhex (hx.mp h), takeWhile_hard hw rfl (hquote rfl rfl),
        dropWhile_hard hw rfl (hquote rfl rfl)]

end Hard

section Plain

/-- A character that opens neither a comment nor a constant. -/
def Plain (c : Char) : Prop := c ≠ '#' ∧ c ≠ '/' ∧ isQuote c = false

theorem modeText_plain {c : Char} (h : Plain c) (cs : List Char) :
    modeText (c :: cs) = modeText cs := by
  rw [modeText, if_neg, if_neg]
  · simp [h.2.2]
  · rintro (h1 | ⟨h1, _⟩)
    · exact h.1 h1
    · exact h.2.1 h1

theorem modeText_dropWhile {p : Char → Bool} (hp : ∀ c, p c = true → Plain c) (cs : List Char) :
    modeText (cs.dropWhile p) = modeText cs := by
  induction cs with
  | nil => rfl
  | cons c cs ih =>
    rw [List.dropWhile_cons]
    split_ifs with h
    · rw [ih, modeText_plain (hp c h)]
    · rfl

theorem plain_of_ne {p : Char → Bool} (h1 : p '#' = false) (h2 : p '/' = false)
    (h3 : p '\x27' = false) (h4 : p '\x22' = false) (c : Char) (hc : p c = true) : Plain c := by
  refine ⟨?_, ?_, ?_⟩
  · rintro rfl
    rw [h1] at hc
    cases hc
  · rintro rfl
    rw [h2] at hc
    cases hc
  · rw [isQuote, Bool.or_eq_false_iff, beq_eq_false_iff_ne, beq_eq_false_iff_ne]
    constructor
    · rintro rfl
      rw [h3] at hc
      cases hc
    · rintro rfl
      rw [h4] at hc
      cases hc

theorem modeComment_dropWhile (cs : List Char) :
    modeComment cs = if cs.dropWhile (fun c => c ≠ '\n') = [] then .comment
      else modeText (cs.dropWhile fun c => c ≠ '\n') := by
  induction cs with
  | nil => rfl
  | cons c cs ih =>
    rw [modeComment]
    by_cases h : c = '\n'
    · have hstop : (c :: cs).dropWhile (fun c => c ≠ '\n') = c :: cs :=
        List.dropWhile_cons_of_neg (by simp [h])
      rw [if_pos h, hstop, if_neg (List.cons_ne_nil c cs), h,
        modeText_plain ⟨by decide, by decide, rfl⟩]
    · have hstep : (c :: cs).dropWhile (fun c => c ≠ '\n') = cs.dropWhile fun c => c ≠ '\n' :=
        List.dropWhile_cons_of_pos (by simp [h])
      rw [if_neg h, hstep]
      exact ih

/-- In a text without NUL a comment ends at the same place in memory. -/
theorem dropWhile_inLine {cs : List Char} (hn : nul ∉ cs) {w : List Char}
    (h : cs.dropWhile (fun c => c ≠ '\n') = [] → w.head? = some nul) :
    (cs ++ w).dropWhile inLine = cs.dropWhile (fun c => c ≠ '\n') ++ w := by
  induction cs with
  | nil =>
    have hw := h rfl
    cases w with
    | nil => cases hw
    | cons d z =>
      cases hw
      rfl
  | cons c cs ih =>
    rw [List.mem_cons, not_or] at hn
    rw [List.cons_append, List.dropWhile_cons, List.dropWhile_cons]
    by_cases hc : c = '\n'
    · rw [if_neg (by simp [inLine, hc]), if_neg (by simp [hc])]
      rfl
    · rw [if_pos (by simp [inLine, hc, Ne.symm hn.1]), if_pos (by simp [hc])]
      refine ih hn.2 fun hnil => h ?_
      rw [List.dropWhile_cons, if_pos (by simp [hc]), hnil]

end Plain

section Quotes
variable {q c : Char}

theorem quotedMem_stop (h : c = nul ∨ c = q) (ival : Long) (n : Nat) (p : List Char) :
    quotedMem q ival n (c :: p) = (ival, n, c :: p) := by
  rw [quotedMem.eq_def]
  exact if_pos h

theorem quotedMem_escape (h : ¬(c = nul ∨ c = q)) (hc : c = '\x5c') (ival : Long) (n : Nat)
    (c' : Char) (p : List Char) : quotedMem q ival n (c :: c' :: p) =
      quotedMem q (if c' = 'n' then 10 else charLong c') (n + 1) p := by
  rw [quotedMem.eq_def]
  dsimp only
  rw [if_neg h, if_pos hc]

theorem quotedMem_step (h : ¬(c = nul ∨ c = q)) (hc : c ≠ '\x5c') (ival : Long) (n : Nat)
    (p : List Char) : quotedMem q ival n (c :: p) = quotedMem q (charLong c) (n + 1) p := by
  rw [quotedMem.eq_def]
  dsimp only
  rw [if_neg h, if_neg hc]

theorem quotedMem_length : ∀ (p : List Char) (ival : Long) (n : Nat),
    (quotedMem q ival n p).2.2.length ≤ p.length
  | [], _, _ => Nat.le_refl _
  | [c], ival, n => by
    by_cases h : c = nul ∨ c = q
    · rw [quotedMem_stop h]
    · by_cases hc : c = '\x5c'
      · rw [quotedMem.eq_def]
        dsimp only
        rw [if_neg h, if_pos hc]
        exact Nat.zero_le _
      · rw [quotedMem_step h hc]
        exact Nat.zero_le _
  | c :: c' :: p, ival, n => by
    have h1 : p.length ≤ (c :: c' :: p).length := by simp only [List.length_cons]; omega
    have h2 : (c' :: p).length ≤ (c :: c' :: p).length := Nat.le_succ _
    by_cases h : c = nul ∨ c = q
    · rw [quotedMem_stop h]
    · by_cases hc : c = '\x5c'
      · rw [quotedMem_escape h hc]
        exact Nat.le_trans (quotedMem_length p _ _) h1
      · rw [quotedMem_step h hc]
        exact Nat.le_trans (quotedMem_length (c' :: p) _ _) h2

/-- How a constant goes on: its quote, a backslash with the character after it, or neither. -/
theorem unclosed_cons (c : Char) (cs : List Char) : unclosed q (c :: cs) =
    if c = q then false
    else if c = '\x5c' then match cs with
      | [] => true
      | _ :: cs => unclosed q cs
    else unclosed q cs := by
  rw [unclosed.eq_def]

theorem modeQuote_cons (c : Char) (cs : List Char) : modeQuote q (c :: cs) =
    if c = q then modeText cs
    else if c = '\x5c' then match cs with
      | [] => .quote
      | _ :: cs => modeQuote q cs
    else modeQuote q cs := by
  rw [modeQuote.eq_def]

theorem quoted_cons (c : Char) (ival : Long) (n : Nat) (p : List Char) :
    quoted q ival n (c :: p) =
      if c = q then (ival, n, p)
      else if c = '\x5c' then match p with
        | [] => (0, n + 1, [])
        | c' :: p => quoted q (if c' = 'n' then 10 else charLong c') (n + 1) p
      else quoted q (charLong c) (n + 1) p :=
  quoted.eq_def q ival n (c :: p)

/-- A constant that is closed ends at the same place in memory. -/
theorem quoted_closed : ∀ (p : List Char) (ival : Long) (n : Nat), unclosed q p = false →
    nul ∉ p → ∃ v m p', quoted q ival n p = (v, m, p') ∧
      (∀ w, quotedMem q ival n (p ++ w) = (v, m, q :: (p' ++ w))) ∧
      modeQuote q p = modeText p' ∧ p' <:+ p ∧ m + p'.length + 1 ≤ n + p.length
  | [], _, _, h, _ => by cases h
  | c :: cs, ival, n, h, hn => by
    rw [List.mem_cons, not_or] at hn
    rw [unclosed_cons] at h
    rw [quoted_cons, modeQuote_cons]
    by_cases hc : c = q
    · rw [if_pos hc, if_pos hc]
      refine ⟨ival, n, cs, rfl, fun w => ?_, rfl, List.suffix_cons _ _, ?_⟩
      · rw [List.cons_append, quotedMem_stop (.inr hc), hc]
      · rw [List.length_cons]
        omega
    · have hmem : ¬(c = nul ∨ c = q) := not_or.mpr ⟨Ne.symm hn.1, hc⟩
      rw [if_neg hc] at h
      rw [if_neg hc, if_neg hc]
      by_cases hesc : c = '\x5c'
      · rw [if_pos hesc] at h
        rw [if_pos hesc, if_pos hesc]
        cases cs with
        | nil => cases h
        | cons c' p =>
          have hn' : nul ∉ p := fun hp => hn.2 (List.mem_cons_of_mem _ hp)
          obtain ⟨v, m, p', h1, h2, h3, h4, h5⟩ :=
            quoted_closed p (if c' = 'n' then 10 else charLong c') (n + 1) h hn'
          refine ⟨v, m, p', h1, fun w => ?_, h3, h4.trans ⟨[c, c'], rfl⟩, ?_⟩
          · rw [List.cons_append, List.cons_append, quotedMem_escape hmem hesc]
            exact h2 w
          · simp only [List.length_cons]
            omega
      · rw [if_neg hesc] at h
        rw [if_neg hesc, if_neg hesc]
        obtain ⟨v, m, p', h1, h2, h3, h4, h5⟩ := quoted_closed cs (charLong c) (n + 1) h hn.2
        refine ⟨v, m, p', h1, fun w => ?_, h3, h4.trans (List.suffix_cons _ _), ?_⟩
        · rw [List.cons_append, quotedMem_step hmem hesc]
          exact h2 w
        · rw [List.length_cons]
          omega

theorem modeQuote_unclosed : ∀ p : List Char, unclosed q p = true → modeQuote q p = .quote
  | [], _ => rfl
  | c :: cs, h => by
    rw [unclosed_cons] at h
    rw [modeQuote_cons]
    by_cases hc : c = q
    · rw [if_pos hc] at h
      cases h
    · rw [if_neg hc] at h ⊢
      by_cases hesc : c = '\x5c'
      · rw [if_pos hesc] at h ⊢
        cases cs with
        | nil => rfl
        | cons c' p => exact modeQuote_unclosed p h
      · rw [if_neg hesc] at h ⊢
        exact modeQuote_unclosed cs h

/-- One that is not closed takes the lexer past the NUL: `++p` steps over the NUL, or the NUL was
taken with a backslash. -/
theorem quoted_past : ∀ (p : List Char) (ival : Long) (n : Nat) (z : List Char),
    unclosed q p = true → nul ∉ p →
      (quotedMem q ival n (p ++ nul :: z)).2.2.tail.length ≤ z.length
  | [], ival, n, z, _, _ => by
    rw [List.nil_append, quotedMem_stop (.inl rfl)]
    exact Nat.le_refl _
  | c :: cs, ival, n, z, h, hn => by
    rw [List.mem_cons, not_or] at hn
    rw [unclosed_cons] at h
    by_cases hc : c = q
    · rw [if_pos hc] at h
      cases h
    · have hmem : ¬(c = nul ∨ c = q) := not_or.mpr ⟨Ne.symm hn.1, hc⟩
      rw [if_neg hc] at h
      by_cases hesc : c = '\x5c'
      · rw [if_pos hesc] at h
        cases cs with
        | nil =>
          rw [List.singleton_append, quotedMem_escape hmem hesc, List.length_tail]
          exact Nat.le_trans (Nat.sub_le _ _) (quotedMem_length z _ _)
        | cons c' p =>
          rw [List.cons_append, List.cons_append, quotedMem_escape hmem hesc]
          exact quoted_past p _ _ z h fun hp => hn.2 (List.mem_cons_of_mem _ hp)
      · rw [if_neg hesc] at h
        rw [List.cons_append, quotedMem_step hmem hesc]
        exact quoted_past cs _ _ z h hn.2

end Quotes

section Step
variable {tab : Symtab} {strBase : Long} {w : List Char}

/-- What a call that finds a token leaves of the text. -/
structure Took (l l' : Lex) (w : List Char) : Prop where
  suffix : l'.p <:+ l.p
  shorter : l'.p.length < l.p.length
  pool : l'.str + l'.p.length ≤ l.str + l.p.length
  ends : Ends l'.p w

/-- A call in memory goes with the call on the text, up to the end of the text. -/
def InStep (tab : Symtab) (strBase : Long) (w : List Char) (l : Lex) (mem text : Token × Lex) :
    Prop :=
  text.1 = .eof ∧ (∃ fuel, mem = nextMem tab strBase (fuel + 1) { l with p := w }) ∨
    text.1 ≠ .eof ∧ mem = (text.1, text.2.extend w) ∧ Took l text.2 w

theorem Ends.suffix {a a' : List Char} (h : Ends a w) (hs : a' <:+ a)
    (hm : modeText a' = modeText a) : Ends a' w :=
  ⟨h.hard, fun hn => h.nonul (hs.mem hn), by rw [hm]; exact h.mode⟩

/-- Skipped characters. -/
theorem InStep.skip {l l₁ : Lex} {mem text : Token × Lex} (h : InStep tab strBase w l₁ mem text)
    (hp : l₁.p <:+ l.p) (hival : l₁.ival = l.ival) (hstr : l₁.str = l.str) :
    InStep tab strBase w l mem text := by
  have hlen := hp.length_le
  obtain ⟨heof, hmem⟩ | ⟨hne, hmem, htook⟩ := h
  · refine .inl ⟨heof, ?_⟩
    have hl : ({ l₁ with p := w } : Lex) = { l with p := w } := by rw [hival, hstr]
    rwa [hl] at hmem
  · refine .inr ⟨hne, hmem, htook.suffix.trans hp, ?_, ?_, htook.ends⟩
    · exact Nat.lt_of_lt_of_le htook.shorter hlen
    · have hpool := htook.pool
      omega

/-- A token without a constant. -/
theorem inStep_token {l : Lex} {c : Char} {a p' : List Char} {tk : Token} (ival : Long)
    (hl : l.p = c :: a) (hends : Ends l.p w) (htk : tk ≠ .eof) (hs : p' <:+ a)
    (hm : modeText p' = modeText l.p) :
    InStep tab strBase w l (tk, ⟨p' ++ w, ival, l.str⟩) (tk, ⟨p', ival, l.str⟩) := by
  have hlen := hs.length_le
  have hsuffix : p' <:+ l.p := by
    rw [hl]
    exact hs.trans (List.suffix_cons c a)
  refine .inr ⟨htk, rfl, hsuffix, ?_, ?_, hends.suffix hsuffix hm⟩
  · rw [hl, List.length_cons]
    exact Nat.lt_succ_of_le hlen
  · rw [hl, List.length_cons]
    dsimp only
    omega

/-- A token that takes the character `d` as well, if it comes next. -/
theorem inStep_next {l : Lex} {c d : Char} {a : List Char} {two : Token} {mem text : Token × Lex}
    (hl : l.p = c :: a) (hends : Ends l.p w) (hc : Plain c) (hd : Plain d) (hn : d ≠ nul)
    (htwo : two ≠ .eof) (h : InStep tab strBase w l mem text) :
    InStep tab strBase w l
      (if (a ++ w).head? = some d then (two, ⟨(a ++ w).tail, l.ival, l.str⟩) else mem)
      (if a.head? = some d then (two, ⟨a.tail, l.ival, l.str⟩) else text) := by
  have hhead := head_hard hends.hard hn hd.2.2 a
  by_cases hnext : a.head? = some d
  · rw [if_pos hnext, if_pos (hhead.mpr hnext)]
    cases a with
    | nil => cases hnext
    | cons d' a =>
      cases hnext
      refine inStep_token l.ival hl hends htwo (List.suffix_cons _ _) ?_
      rw [hl, modeText_plain hc, modeText_plain hd]
  · rw [if_neg hnext, if_neg fun h => hnext (hhead.mp h)]
    exact h

theorem InStep.ite {l : Lex} {P : Prop} [Decidable P] {mem text mem' text' : Token × Lex}
    (h : InStep tab strBase w l mem text) (h' : InStep tab strBase w l mem' text') :
    InStep tab strBase w l (if P then mem else mem') (if P then text else text') := by
  split_ifs
  · exact h
  · exact h'

theorem number_shape (c : Char) (l : Lex) : ∃ v p', number c l = (.num v, ⟨p', v, l.str⟩) ∧
    p' <:+ l.p ∧ modeText p' = modeText l.p := by
  have hplain : ∀ {p : Char → Bool}, p '#' = false → p '/' = false → p '\x27' = false →
      p '\x22' = false → ∀ cs : List Char, modeText (cs.dropWhile p) = modeText cs :=
    fun h1 h2 h3 h4 cs => modeText_dropWhile (plain_of_ne h1 h2 h3 h4) cs
  unfold number
  by_cases hc : c ≠ '0'
  · rw [if_pos hc]
    exact ⟨_, _, rfl, List.dropWhile_suffix _, hplain rfl rfl rfl rfl _⟩
  · rw [if_neg hc]
    by_cases hhex : l.p.head? = some 'x' ∨ l.p.head? = some 'X'
    · rw [if_pos hhex]
      refine ⟨_, _, rfl, (List.dropWhile_suffix _).trans (List.tail_suffix _), ?_⟩
      rw [hplain rfl rfl rfl rfl]
      cases hp : l.p with
      | nil => simp [hp] at hhex
      | cons d a =>
        have hd : Plain d := by
          rw [hp, List.head?_cons, Option.some.injEq, Option.some.injEq] at hhex
          obtain rfl | rfl := hhex
          · exact ⟨by decide, by decide, rfl⟩
          · exact ⟨by decide, by decide, rfl⟩
        rw [modeText_plain hd]
        rfl
    · rw [if_neg hhex]
      exact ⟨_, _, rfl, List.dropWhile_suffix _, hplain rfl rfl rfl rfl _⟩

theorem inStep_number {l : Lex} {c : Char} {a : List Char} (hl : l.p = c :: a)
    (hends : Ends l.p w) (hc : Plain c) :
    InStep tab strBase w l (number c ⟨a ++ w, l.ival, l.str⟩) (number c ⟨a, l.ival, l.str⟩) := by
  have hmem := number_hard hends.hard c ⟨a, l.ival, l.str⟩
  rw [Lex.extend] at hmem
  obtain ⟨v, p', hnum, hs, hm⟩ := number_shape c ⟨a, l.ival, l.str⟩
  rw [hmem, hnum]
  exact inStep_token v hl hends nofun hs (by rw [hm, hl, modeText_plain hc])

theorem isWord_plain (c : Char) (h : (isAlpha c || isDigit c) = true) : Plain c :=
  @plain_of_ne (fun c => isAlpha c || isDigit c) rfl rfl rfl rfl c h

theorem inStep_word {l : Lex} {c : Char} {a : List Char} (hl : l.p = c :: a)
    (hends : Ends l.p w) (hc : isAlpha c = true) :
    InStep tab strBase w l
      (match tab.find (c :: (a ++ w).takeWhile fun c => isAlpha c || isDigit c) with
        | .int type => .int type
        | .sizeof => .sizeof
        | .id s => .id s,
        ⟨(a ++ w).dropWhile fun c => isAlpha c || isDigit c, l.ival, l.str⟩)
      (match tab.find (c :: a.takeWhile fun c => isAlpha c || isDigit c) with
        | .int type => .int type
        | .sizeof => .sizeof
        | .id s => .id s,
        ⟨a.dropWhile fun c => isAlpha c || isDigit c, l.ival, l.str⟩) := by
  have hquote : ∀ c, isQuote c = true → (isAlpha c || isDigit c) = false := by
    intro c hc
    rw [isQuote, Bool.or_eq_true, beq_iff_eq, beq_iff_eq] at hc
    obtain rfl | rfl := hc <;> rfl
  rw [takeWhile_hard hends.hard rfl hquote, dropWhile_hard hends.hard rfl hquote]
  refine inStep_token l.ival hl hends ?_ (List.dropWhile_suffix _) ?_
  · split <;> exact nofun
  · rw [modeText_dropWhile isWord_plain, hl, modeText_plain (isWord_plain c (by simp [hc]))]

/-- A comment, from the character after its mark on. -/
theorem Ends.comment {a b : List Char} (h : Ends b w) (hb : modeText b = modeComment a)
    (hs : a <:+ b) :
    (a ++ w).dropWhile inLine = a.dropWhile (fun c => c ≠ '\n') ++ w ∧
      Ends (a.dropWhile fun c => c ≠ '\n') w := by
  have hn : nul ∉ a := fun hn => h.nonul (hs.mem hn)
  have hmode := h.mode
  rw [hb, modeComment_dropWhile] at hmode
  split_ifs at hmode with hnil
  · have hw : w.head? = some nul := hmode.elim nofun And.right
    refine ⟨dropWhile_inLine hn fun _ => hw, ?_⟩
    rw [hnil]
    exact ⟨h.hard, List.not_mem_nil, .inl rfl⟩
  · refine ⟨dropWhile_inLine hn fun h => absurd h hnil, h.hard, fun hd => ?_, hmode⟩
    exact hn ((List.dropWhile_suffix _).mem hd)

/-- A constant that is closed. -/
theorem Ends.closed {c : Char} {a : List Char} (h : Ends (c :: a) w) (hc : isQuote c = true) :
    unclosed c a = false ∧ modeText (c :: a) = modeQuote c a := by
  have hmode : modeText (c :: a) = modeQuote c a := by
    rw [modeText, if_neg, if_pos hc]
    rintro (rfl | ⟨rfl, _⟩)
    · cases hc
    · cases hc
  refine ⟨?_, hmode⟩
  by_contra hopen
  rw [Bool.not_eq_false] at hopen
  have hquote := h.mode
  rw [hmode, modeQuote_unclosed a hopen] at hquote
  exact hquote.elim nofun fun h => nomatch h.1

theorem inStep_char {l : Lex} {c : Char} {a : List Char} (hl : l.p = c :: a)
    (hends : Ends l.p w) (hc : isQuote c = true) :
    InStep tab strBase w l
      (.num (quotedMem c l.ival 0 (a ++ w)).1,
        ⟨(quotedMem c l.ival 0 (a ++ w)).2.2.tail, (quotedMem c l.ival 0 (a ++ w)).1, l.str + 1⟩)
      (.num (quoted c l.ival 0 a).1,
        ⟨(quoted c l.ival 0 a).2.2, (quoted c l.ival 0 a).1, l.str + 1⟩) := by
  have hends' : Ends (c :: a) w := hl ▸ hends
  obtain ⟨hclosed, hmode⟩ := hends'.closed hc
  have hn : nul ∉ a := fun h => hends'.nonul (List.mem_cons_of_mem c h)
  obtain ⟨v, m, p', h1, h2, h3, h4, h5⟩ := quoted_closed a l.ival 0 hclosed hn
  rw [h1, h2]
  have hsuffix : p' <:+ l.p := by
    rw [hl]
    exact h4.trans (List.suffix_cons c a)
  refine .inr ⟨nofun, rfl, hsuffix, ?_, ?_, hends.suffix hsuffix (by rw [hl, hmode, h3])⟩
  · rw [hl, List.length_cons]
    dsimp only
    omega
  · rw [hl, List.length_cons]
    dsimp only
    omega

theorem inStep_str {l : Lex} {c : Char} {a : List Char} (hl : l.p = c :: a)
    (hends : Ends l.p w) (hc : isQuote c = true) (v : Long) :
    InStep tab strBase w l
      (.str v, ⟨(quotedMem c l.ival 0 (a ++ w)).2.2.tail, v,
        l.str + (quotedMem c l.ival 0 (a ++ w)).2.1 + 1⟩)
      (.str v, ⟨(quoted c l.ival 0 a).2.2, v, l.str + (quoted c l.ival 0 a).2.1 + 1⟩) := by
  have hends' : Ends (c :: a) w := hl ▸ hends
  obtain ⟨hclosed, hmode⟩ := hends'.closed hc
  have hn : nul ∉ a := fun h => hends'.nonul (List.mem_cons_of_mem c h)
  obtain ⟨v', m, p', h1, h2, h3, h4, h5⟩ := quoted_closed a l.ival 0 hclosed hn
  rw [h1, h2]
  have hsuffix : p' <:+ l.p := by
    rw [hl]
    exact h4.trans (List.suffix_cons c a)
  refine .inr ⟨nofun, rfl, hsuffix, ?_, ?_, hends.suffix hsuffix (by rw [hl, hmode, h3])⟩
  · rw [hl, List.length_cons]
    dsimp only
    omega
  · rw [hl, List.length_cons]
    dsimp only
    omega

/-- A call of `next` in memory is the call on the text. -/
theorem next_inStep (tab : Symtab) (strBase : Long) (m : Nat) : ∀ (fuel : Nat) (l : Lex),
    Ends l.p w → l.p.length < fuel →
      InStep tab strBase w l (nextMem tab strBase (fuel + m) (l.extend w))
        (next tab strBase fuel l)
  | 0, _, _, hf => absurd hf (Nat.not_lt_zero _)
  | fuel+1, ⟨[], ival, str⟩, hends, hf => by
    refine .inl ⟨rfl, fuel + m, ?_⟩
    rw [Nat.add_right_comm]
    rfl
  | fuel+1, ⟨c :: a, ival, str⟩, hends, hf => by
    have hf' : a.length < fuel := Nat.lt_of_succ_lt_succ hf
    have hnul : c ≠ nul := fun h => hends.nonul (h ▸ List.mem_cons_self)
    rw [Nat.add_right_comm, nextMem, next, Lex.extend]
    simp only [List.cons_append, if_neg hnul]
    by_cases h1 : c = '#'
    · rw [if_pos h1, if_pos h1]
      have hmode : modeText (c :: a) = modeComment a := by rw [modeText, if_pos (.inl h1)]
      obtain ⟨hdrop, hends'⟩ := hends.comment hmode (List.suffix_cons c a)
      have hlen := (List.dropWhile_suffix (fun c => decide (c ≠ '\n')) (l := a)).length_le
      rw [hdrop]
      exact (next_inStep tab strBase m fuel ⟨_, ival, str⟩ hends' (by dsimp only; omega)).skip
        ((List.dropWhile_suffix _).trans (List.suffix_cons c a)) rfl rfl
    rw [if_neg h1, if_neg h1]
    by_cases h2 : isAlpha c = true
    · rw [if_pos h2, if_pos h2]
      exact inStep_word rfl hends h2
    rw [if_neg h2, if_neg h2]
    by_cases h3 : isDigit c = true
    · rw [if_pos h3, if_pos h3]
      exact inStep_number rfl hends (isWord_plain c (by simp [h3]))
    rw [if_neg h3, if_neg h3]
    by_cases h4 : c = '/'
    · rw [if_pos h4, if_pos h4]
      have hhead := head_hard hends.hard (c := '/') (by decide) rfl a
      by_cases hslash : a.head? = some '/'
      · rw [if_pos hslash, if_pos (hhead.mpr hslash)]
        cases a with
        | nil => cases hslash
        | cons d b =>
          cases hslash
          have hmode : modeText (c :: '/' :: b) = modeComment b := by
            rw [modeText, if_pos (.inr ⟨h4, rfl⟩), modeComment, if_neg (by decide)]
          have hs : b <:+ c :: '/' :: b := ⟨[c, '/'], rfl⟩
          obtain ⟨hdrop, hends'⟩ := hends.comment hmode hs
          have hlen := (List.dropWhile_suffix (fun c => decide (c ≠ '\n')) (l := b)).length_le
          rw [List.length_cons] at hf'
          rw [List.cons_append, List.tail_cons, List.tail_cons, hdrop]
          exact (next_inStep tab strBase m fuel ⟨_, ival, str⟩ hends' (by dsimp only; omega)).skip
            ((List.dropWhile_suffix _).trans hs) rfl rfl
      · rw [if_neg hslash, if_neg fun h => hslash (hhead.mp h)]
        refine inStep_token ival rfl hends nofun List.suffix_rfl ?_
        rw [modeText, if_neg, if_neg (by rw [h4]; decide)]
        rintro (h | ⟨_, h⟩)
        · exact h1 h
        · exact hslash h
    rw [if_neg h4, if_neg h4]
    by_cases h5 : c = '\x27'
    · rw [if_pos h5, if_pos h5]
      exact inStep_char rfl hends (by rw [h5]; rfl)
    rw [if_neg h5, if_neg h5]
    by_cases h6 : c = '\x22'
    · rw [if_pos h6, if_pos h6]
      exact inStep_str rfl hends (by rw [h6]; rfl) _
    rw [if_neg h6, if_neg h6]
    have hc : Plain c := ⟨h1, h4, by simp [isQuote, h5, h6]⟩
    have hone : ∀ tk : Token, tk ≠ .eof → InStep tab strBase w ⟨c :: a, ival, str⟩
        (tk, ⟨a ++ w, ival, str⟩) (tk, ⟨a, ival, str⟩) := fun tk htk =>
      inStep_token ival rfl hends htk List.suffix_rfl (modeText_plain hc a).symm
    have hnext : ∀ (d : Char) (two : Token) (mem text : Token × Lex), Plain d → d ≠ nul →
        two ≠ .eof → InStep tab strBase w ⟨c :: a, ival, str⟩ mem text →
        InStep tab strBase w ⟨c :: a, ival, str⟩
          (if (a ++ w).head? = some d then (two, ⟨(a ++ w).tail, ival, str⟩) else mem)
          (if a.head? = some d then (two, ⟨a.tail, ival, str⟩) else text) :=
      fun d two mem text hd hn htwo h => inStep_next rfl hends hc hd hn htwo h
    have htwo : ∀ (d : Char) (two one : Token), Plain d → d ≠ nul → two ≠ .eof → one ≠ .eof →
        InStep tab strBase w ⟨c :: a, ival, str⟩ (ifNext d two one ⟨a ++ w, ival, str⟩)
          (ifNext d two one ⟨a, ival, str⟩) := fun d two one hd hn htwo hne =>
      hnext d two _ _ hd hn htwo (hone one hne)
    have heq : Plain '=' := ⟨by decide, by decide, rfl⟩
    refine .ite (htwo '=' _ _ heq (by decide) nofun nofun) ?_
    refine .ite (htwo '+' _ _ ⟨by decide, by decide, rfl⟩ (by decide) nofun nofun) ?_
    refine .ite (htwo '-' _ _ ⟨by decide, by decide, rfl⟩ (by decide) nofun nofun) ?_
    refine .ite (htwo '=' _ _ heq (by decide) nofun nofun) ?_
    refine .ite (hnext '=' _ _ _ heq (by decide) nofun
      (htwo '<' _ _ ⟨by decide, by decide, rfl⟩ (by decide) nofun nofun)) ?_
    refine .ite (hnext '=' _ _ _ heq (by decide) nofun
      (htwo '>' _ _ ⟨by decide, by decide, rfl⟩ (by decide) nofun nofun)) ?_
    refine .ite (htwo '|' _ _ ⟨by decide, by decide, rfl⟩ (by decide) nofun nofun) ?_
    refine .ite (htwo '&' _ _ ⟨by decide, by decide, rfl⟩ (by decide) nofun nofun) ?_
    refine .ite (hone _ nofun) (.ite (hone _ nofun) (.ite (hone _ nofun) (.ite (hone _ nofun) ?_)))
    refine .ite (hone _ nofun) (.ite (hone _ nofun) (.ite (hone _ nofun) (.ite (hone _ nofun) ?_)))
    refine .ite (hone _ nofun) (.ite (hone _ nofun) (.ite (hone _ nofun) (.ite (hone _ nofun) ?_)))
    refine .ite (hone _ nofun) (.ite (hone _ nofun) ?_)
    have hends' : Ends a w := hends.suffix (List.suffix_cons c a) (modeText_plain hc a).symm
    exact (next_inStep tab strBase m fuel ⟨a, ival, str⟩ hends' hf').skip
      (List.suffix_cons c a) rfl rfl

end Step

end PerfProf.Expr
