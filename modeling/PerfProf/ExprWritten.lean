import PerfProf.ExprLexer

/-! The characters of a text: lexemes, white space and comments, and the scan that tells whether
`next` drops any other. -/
namespace PerfProf.Expr

section Written

def isSpace (c : Char) : Bool := c == ' ' || ('\t' ≤ c && c ≤ '\r')

/-- The characters of the tokens other than constants. -/
def inToken (c : Char) : Bool :=
  isAlpha c || isDigit c || "/=+-!<>|&^%*[?~;\x7b\x7d()],:".toList.contains c

mutual

/-- Outside of comments and constants the text consists of tokens and white space, and every
constant is closed. -/
def clean : List Char → Bool
  | [] => true
  | c :: cs =>
    if c = '#' ∨ c = '/' ∧ cs.head? = some '/' then cleanComment cs
    else if isQuote c then cleanQuote c cs
    else (isSpace c || inToken c) && clean cs

def cleanComment : List Char → Bool
  | [] => true
  | c :: cs => if c = '\n' then clean cs else cleanComment cs

def cleanQuote (q : Char) : List Char → Bool
  | [] => false
  | c :: cs =>
    if c = q then clean cs
    else if c = '\x5c' then match cs with
      | [] => false
      | _ :: cs => cleanQuote q cs
    else cleanQuote q cs

end

/-- The rest of a constant, with its closing quote. -/
inductive Constant (q : Char) : List Char → Prop where
  | close : Constant q [q]
  | escape (c : Char) {w : List Char} : Constant q w → Constant q ('\x5c' :: c :: w)
  | char {c : Char} {w : List Char} : c ≠ q → c ≠ '\x5c' → Constant q w → Constant q (c :: w)

def operators : List (List Char) :=
  ["/", "=", "==", "+", "++", "-", "--", "!", "!=", "<", "<=", "<<", ">", ">=", ">>", "|", "||",
    "&", "&&", "^", "%", "*", "[", "?", "~", ";", "\x7b", "\x7d", "(", ")", "]", ",", ":"].map
    String.toList

inductive Lexeme : List Char → Prop where
  | name {c : Char} {w : List Char} : isAlpha c = true →
      (∀ d ∈ w, (isAlpha d || isDigit d) = true) → Lexeme (c :: w)
  | number {c : Char} {w : List Char} : isDigit c = true → (∀ d ∈ w, isDigit d = true) →
      Lexeme (c :: w)
  | hex {x : Char} {w : List Char} : x = 'x' ∨ x = 'X' → (∀ d ∈ w, isHex d = true) →
      Lexeme ('0' :: x :: w)
  | constant {q : Char} {w : List Char} : isQuote q = true → Constant q w → Lexeme (q :: w)
  | operator {w : List Char} : w ∈ operators → Lexeme w

/-- The text consists of lexemes, white space and comments; a slash before another one begins a
comment. -/
inductive Written : List Char → Prop where
  | done : Written []
  | space {c : Char} {cs : List Char} : isSpace c = true → Written cs → Written (c :: cs)
  | comment {mark line cs : List Char} : mark = ['#'] ∨ mark = ['/', '/'] → '\n' ∉ line →
      cs = [] ∨ cs.head? = some '\n' → Written cs → Written (mark ++ line ++ cs)
  | lexeme {w cs : List Char} : Lexeme w → ¬ (w = ['/'] ∧ cs.head? = some '/') → Written cs →
      Written (w ++ cs)

/-- A character of a token that begins neither a comment nor a constant. -/
theorem clean_inToken {c : Char} {cs : List Char} (hc : inToken c = true)
    (hslash : ¬ (c = '/' ∧ cs.head? = some '/')) : clean (c :: cs) = clean cs := by
  have hnot : ∀ d : Char, inToken d = false → c ≠ d := by
    rintro d hd rfl
    rw [hc] at hd
    cases hd
  have hquote : isQuote c = false := by
    rw [isQuote, Bool.or_eq_false_iff, beq_eq_false_iff_ne, beq_eq_false_iff_ne]
    exact ⟨hnot _ (by decide), hnot _ (by decide)⟩
  rw [clean, if_neg, if_neg (by rw [hquote]; exact Bool.false_ne_true), hc, Bool.or_true, Bool.true_and]
  rintro (h | h)
  · exact hnot '#' (by decide) h
  · exact hslash h

theorem clean_inTokens {w cs : List Char} (hw : ∀ c ∈ w, inToken c = true)
    (hslash : '/' ∈ w → w = ['/'] ∧ cs.head? ≠ some '/') : clean (w ++ cs) = clean cs := by
  induction w with
  | nil => rfl
  | cons c w ih =>
    rw [List.cons_append, clean_inToken (hw c List.mem_cons_self), ih]
    · exact fun d hd => hw d (List.mem_cons_of_mem c hd)
    · intro h
      have hone := (hslash (List.mem_cons_of_mem c h)).1
      rw [List.cons.injEq] at hone
      rw [hone.2] at h
      cases h
    · rintro ⟨rfl, hnext⟩
      obtain ⟨hone, hne⟩ := hslash List.mem_cons_self
      rw [List.cons.injEq] at hone
      rw [hone.2] at hnext
      exact hne hnext

theorem cleanQuote_constant {q : Char} (hq : isQuote q = true) {w : List Char} (hw : Constant q w)
    (cs : List Char) : cleanQuote q (w ++ cs) = clean cs := by
  have hesc : '\x5c' ≠ q := by
    rintro rfl
    cases hq
  induction hw with
  | close => rw [List.singleton_append, cleanQuote.eq_def]; exact if_pos rfl
  | escape c _ ih =>
    rw [List.cons_append, List.cons_append, cleanQuote.eq_def]
    dsimp only
    rw [if_neg hesc, if_pos rfl, ih]
  | char h1 h2 _ ih =>
    rw [List.cons_append, cleanQuote.eq_def]
    dsimp only
    rw [if_neg h1, if_neg h2, ih]

theorem inToken_word {c : Char} (h : (isAlpha c || isDigit c) = true) : inToken c = true := by
  rw [inToken, h, Bool.true_or]

theorem not_slash_word {w : List Char} (h : ∀ c ∈ w, (isAlpha c || isDigit c) = true) :
    '/' ∉ w := fun hmem => by
  have hslash := h '/' hmem
  revert hslash
  decide

theorem isWord_hex {c : Char} (h : isHex c = true) : (isAlpha c || isDigit c) = true := by
  simp only [isHex, isAlpha, isDigit, Bool.or_eq_true, Bool.and_eq_true, decide_eq_true_eq,
    beq_iff_eq] at h ⊢
  obtain (⟨h1, h2⟩ | ⟨h1, h2⟩) | ⟨h1, h2⟩ := h
  · exact .inr ⟨h1, h2⟩
  · exact .inl (.inl (.inl ⟨h1, Char.le_trans h2 (by decide)⟩))
  · exact .inl (.inl (.inr ⟨h1, Char.le_trans h2 (by decide)⟩))

theorem clean_lexeme {w cs : List Char} (hw : Lexeme w)
    (hslash : ¬ (w = ['/'] ∧ cs.head? = some '/')) (h : clean cs = true) :
    clean (w ++ cs) = true := by
  have hword : ∀ w : List Char, (∀ c ∈ w, (isAlpha c || isDigit c) = true) →
      clean (w ++ cs) = true := fun w hw => by
    rw [clean_inTokens (fun c hc => inToken_word (hw c hc)) fun h => absurd h (not_slash_word hw), h]
  cases hw with
  | name hc hw =>
    refine hword _ fun d hd => ?_
    rw [List.mem_cons] at hd
    obtain rfl | hd := hd
    · rw [hc, Bool.true_or]
    · exact hw d hd
  | number hc hw =>
    refine hword _ fun d hd => ?_
    rw [List.mem_cons] at hd
    obtain rfl | hd := hd
    · rw [hc, Bool.or_true]
    · rw [hw d hd, Bool.or_true]
  | hex hx hw =>
    refine hword _ fun d hd => ?_
    rw [List.mem_cons, List.mem_cons] at hd
    obtain rfl | rfl | hd := hd
    · decide
    · obtain rfl | rfl := hx <;> decide
    · exact isWord_hex (hw d hd)
  | constant hq hw =>
    rename_i q w
    rw [List.cons_append, clean, if_neg, if_pos hq, cleanQuote_constant hq hw, h]
    rintro (rfl | ⟨rfl, -⟩)
    · cases hq
    · cases hq
  | operator hw =>
    have hall : operators.all (fun w => w.all inToken && (!w.contains '/' || w == ['/'])) = true :=
      rfl
    have hin := List.all_eq_true.mp hall w hw
    rw [Bool.and_eq_true, List.all_eq_true, Bool.or_eq_true, Bool.not_eq_true', beq_iff_eq] at hin
    have hone : '/' ∈ w → w = ['/'] := fun hmem => hin.2.resolve_left fun hno =>
      Bool.false_ne_true (hno.symm.trans (List.contains_iff_mem.mpr hmem))
    rw [clean_inTokens hin.1 fun hmem => ⟨hone hmem, fun hnext => hslash ⟨hone hmem, hnext⟩⟩, h]

theorem cleanComment_line {line cs : List Char} (hline : '\n' ∉ line)
    (hcs : cs = [] ∨ cs.head? = some '\n') (h : clean cs = true) :
    cleanComment (line ++ cs) = true := by
  induction line with
  | nil =>
    cases cs with
    | nil => rfl
    | cons c cs =>
      obtain rfl : c = '\n' := by simpa using hcs
      rw [List.nil_append, cleanComment, if_pos rfl]
      exact h
  | cons c line ih =>
    rw [List.mem_cons, not_or] at hline
    rw [List.cons_append, cleanComment, if_neg (Ne.symm hline.1)]
    exact ih hline.2

theorem clean_of_written {text : List Char} (h : Written text) : clean text = true := by
  induction h with
  | done => rfl
  | @space c cs hc hcs ih =>
    have hnot : ∀ d : Char, isSpace d = false → c ≠ d := by
      rintro d hd rfl
      rw [hc] at hd
      cases hd
    have hquote : isQuote c = false := by
      rw [isQuote, Bool.or_eq_false_iff, beq_eq_false_iff_ne, beq_eq_false_iff_ne]
      exact ⟨hnot _ (by decide), hnot _ (by decide)⟩
    rw [clean, if_neg, if_neg (by rw [hquote]; exact Bool.false_ne_true), hc, ih]
    · rfl
    · rintro (h | ⟨h, -⟩)
      · exact hnot '#' (by decide) h
      · exact hnot '/' (by decide) h
  | comment hmark hline hnext _ ih =>
    have hcomment := cleanComment_line hline hnext ih
    obtain rfl | rfl := hmark
    · rw [List.append_assoc, List.singleton_append, clean, if_pos (.inl rfl), hcomment]
    · rw [List.append_assoc, List.cons_append, List.singleton_append, clean,
        if_pos (.inr ⟨rfl, rfl⟩), cleanComment, if_neg (by decide), hcomment]
  | lexeme hw hslash _ ih => exact clean_lexeme hw hslash ih

theorem lexeme_inToken {c : Char} (h : inToken c = true) : Lexeme [c] := by
  rw [inToken, Bool.or_eq_true, Bool.or_eq_true] at h
  obtain (h | h) | h := h
  · exact .name h (List.forall_mem_nil _)
  · exact .number h (List.forall_mem_nil _)
  · have hall : "/=+-!<>|&^%*[?~;\x7b\x7d()],:".toList.all (operators.contains [·]) = true := rfl
    exact .operator (List.contains_iff_mem.mp
      (List.all_eq_true.mp hall c (List.contains_iff_mem.mp h)))

/-- Each of the three scans splits off what it has read. -/
theorem written_of_scan : ∀ (n : Nat) (cs : List Char), cs.length ≤ n →
    (clean cs = true → Written cs) ∧
    (cleanComment cs = true → ∃ line rest, cs = line ++ rest ∧ '\n' ∉ line ∧
      (rest = [] ∨ rest.head? = some '\n') ∧ Written rest) ∧
    ∀ q, cleanQuote q cs = true → ∃ w rest, cs = w ++ rest ∧ Constant q w ∧ Written rest := by
  intro n
  induction n with
  | zero =>
    intro cs hn
    rw [List.length_eq_zero_iff.mp (Nat.le_zero.mp hn)]
    exact ⟨fun _ => .done, fun _ => ⟨[], [], rfl, List.not_mem_nil, .inl rfl, .done⟩,
      fun _ hq => by cases hq⟩
  | succ n ih =>
    intro cs hn
    cases cs with
    | nil =>
      exact ⟨fun _ => .done, fun _ => ⟨[], [], rfl, List.not_mem_nil, .inl rfl, .done⟩,
        fun _ hq => by cases hq⟩
    | cons c cs =>
      rw [List.length_cons] at hn
      obtain ⟨ihText, ihComment, ihQuote⟩ := ih cs (by omega)
      refine ⟨fun h => ?_, fun h => ?_, fun q h => ?_⟩
      · rw [clean] at h
        split_ifs at h with hmark hquote
        · obtain ⟨line, rest, rfl, hline, hnext, hrest⟩ := ihComment h
          obtain rfl | ⟨rfl, hslash⟩ := hmark
          · exact Written.comment (.inl rfl) hline hnext hrest
          · cases line with
            | nil =>
              obtain rfl | hnl := hnext
              · cases hslash
              · cases hnl.symm.trans hslash
            | cons d line =>
              cases hslash
              rw [List.mem_cons, not_or] at hline
              exact Written.comment (.inr rfl) hline.2 hnext hrest
        · obtain ⟨w, rest, rfl, hw, hrest⟩ := ihQuote c h
          refine Written.lexeme (.constant hquote hw) ?_ hrest
          rintro ⟨heq, -⟩
          cases heq
          cases hquote
        · rw [Bool.and_eq_true, Bool.or_eq_true] at h
          have hrest := ihText h.2
          by_cases hspace : isSpace c = true
          · exact .space hspace hrest
          · refine Written.lexeme (lexeme_inToken (h.1.resolve_left hspace)) ?_ hrest
            rintro ⟨heq, hslash⟩
            cases heq
            exact hmark (.inr ⟨rfl, hslash⟩)
      · rw [cleanComment] at h
        split_ifs at h with hline
        · refine ⟨[], c :: cs, rfl, List.not_mem_nil, .inr (by rw [hline]; rfl), ?_⟩
          rw [hline]
          exact .space rfl (ihText h)
        · obtain ⟨line, rest, rfl, hno, hnext, hrest⟩ := ihComment h
          refine ⟨c :: line, rest, rfl, ?_, hnext, hrest⟩
          rw [List.mem_cons, not_or]
          exact ⟨Ne.symm hline, hno⟩
      · rw [cleanQuote.eq_def] at h
        dsimp only at h
        by_cases hc : c = q
        · rw [if_pos hc] at h
          subst hc
          exact ⟨[c], cs, rfl, .close, ihText h⟩
        · rw [if_neg hc] at h
          by_cases hesc : c = '\x5c'
          · rw [if_pos hesc] at h
            subst hesc
            cases cs with
            | nil => cases h
            | cons d cs =>
              rw [List.length_cons] at hn
              obtain ⟨w, rest, rfl, hw, hrest⟩ := (ih cs (by omega)).2.2 q h
              exact ⟨'\x5c' :: d :: w, rest, rfl, .escape d hw, hrest⟩
          · rw [if_neg hesc] at h
            obtain ⟨w, rest, rfl, hw, hrest⟩ := ihQuote q h
            exact ⟨c :: w, rest, rfl, .char hc hesc hw, hrest⟩

theorem written_iff (text : List Char) : Written text ↔ clean text = true :=
  ⟨clean_of_written, (written_of_scan text.length text (Nat.le_refl _)).1⟩

end Written

end PerfProf.Expr
