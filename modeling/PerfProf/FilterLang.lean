import Mathlib.Algebra.Order.Ring.Int
import Mathlib.Data.List.Basic
import Mathlib.Data.List.Forall2

/-! The language of the event filters of the kernel: conditions on the fields of an event, joined by
`&&` and `||`, of which `&&` binds tighter. A text is read character by character into words, strings
and operators, and these by recursive descent. -/
namespace PerfProf.FilterLang

section Language

/-- Operators of a condition. -/
inductive Op where
  | eq | ne | lt | le | gt | ge | glob
deriving DecidableEq

inductive Token where
  | lparen | rparen | or | and
  | op (o : Op)
  | word (w : List Char)
  | str (s : List Char)
  | bad
deriving DecidableEq

inductive Expr where
  | num (field : List Char) (o : Op) (v : Nat)
  | str (field : List Char) (o : Op) (v : List Char)
  | and (e e' : Expr)
  | or (e e' : Expr)
deriving DecidableEq

/-- The fields of an event. -/
structure Event where
  num : List Char → Int
  str : List Char → List Char

def Op.compares (o : Op) (a b : Int) : Bool := match o with
  | eq => a == b
  | ne => a != b
  | lt => a < b
  | le => a ≤ b
  | gt => b < a
  | ge => b ≤ a
  | glob => false

/-- Whether an event meets the conditions; `glob` tells whether a string matches a pattern. -/
def Expr.eval (glob : List Char → List Char → Bool) (ev : Event) : Expr → Bool
  | num field o v => o.compares (ev.num field) v
  | str field o v => match o with
    | .eq => ev.str field == v
    | .ne => ev.str field != v
    | .glob => glob v (ev.str field)
    | _ => false
  | and e e' => e.eval glob ev && e'.eval glob ev
  | or e e' => e.eval glob ev || e'.eval glob ev

end Language

section Lexer

def wordChar (c : Char) : Bool := c.isAlphanum || c == '_'

/-- What the characters read last may still become. -/
inductive Cur where
  | none
  | word (w : List Char)
  | str (s : List Char)
  | punct (c : Char)
deriving DecidableEq

structure LexState where
  out : List Token
  cur : Cur
deriving DecidableEq

/-- The tokens if nothing follows. -/
def LexState.flush (s : LexState) : List Token := match s.cur with
  | .none => s.out
  | .word w => s.out ++ [.word w]
  | .str _ => s.out ++ [.bad]
  | .punct '<' => s.out ++ [.op .lt]
  | .punct '>' => s.out ++ [.op .gt]
  | .punct _ => s.out ++ [.bad]

/-- An operator of two characters. -/
def pair : Char → Char → Option Token
  | '=', '=' => some (.op .eq)
  | '!', '=' => some (.op .ne)
  | '<', '=' => some (.op .le)
  | '>', '=' => some (.op .ge)
  | '&', '&' => some .and
  | '|', '|' => some .or
  | _, _ => none

/-- A character that begins something new. -/
def fresh (out : List Token) (c : Char) : LexState :=
  if wordChar c then ⟨out, .word [c]⟩
  else if c = '(' then ⟨out ++ [.lparen], .none⟩
  else if c = ')' then ⟨out ++ [.rparen], .none⟩
  else if c = '~' then ⟨out ++ [.op .glob], .none⟩
  else if c = '"' then ⟨out, .str []⟩
  else if c = ' ' then ⟨out, .none⟩
  else ⟨out, .punct c⟩

def lexChar (s : LexState) (c : Char) : LexState := match s.cur with
  | .none => fresh s.out c
  | .word w => if wordChar c then ⟨s.out, .word (w ++ [c])⟩ else fresh s.flush c
  | .str v => if c = '"' then ⟨s.out ++ [.str v], .none⟩ else ⟨s.out, .str (v ++ [c])⟩
  | .punct p => match pair p c with
    | some t => ⟨s.out ++ [t], .none⟩
    | none => fresh s.flush c

def lex (cs : List Char) (s : LexState) : LexState := cs.foldl lexChar s

def tokens (text : List Char) : List Token := (lex text ⟨[], .none⟩).flush

/-- A decimal number; with a leading zero it would be octal. -/
def number (w : List Char) : Option Nat :=
  if w.all Char.isDigit && (w == ['0'] || w.head? != some '0') then some (Nat.ofDigitChars 10 w 0) else none

end Lexer

section Parser

inductive Level where
  | or | and | atom

/-- Conditions of a level at the front of the tokens, and what follows them. -/
def parse : Nat → Level → List Token → Option (Expr × List Token)
  | 0, _, _ => none
  | n + 1, .or, ts => match parse n .and ts with
    | some (e, .or :: rest) => (parse n .or rest).map fun (e', rest) => (.or e e', rest)
    | r => r
  | n + 1, .and, ts => match parse n .atom ts with
    | some (e, .and :: rest) => (parse n .and rest).map fun (e', rest) => (.and e e', rest)
    | r => r
  | n + 1, .atom, .lparen :: ts => match parse n .or ts with
    | some (e, .rparen :: rest) => some (e, rest)
    | _ => none
  | _ + 1, .atom, .word field :: .op o :: .word v :: rest =>
    if o = .glob then none else (number v).map fun v => (.num field o v, rest)
  | _ + 1, .atom, .word field :: .op o :: .str v :: rest =>
    if o = .eq ∨ o = .ne ∨ o = .glob then some (.str field o v, rest) else none
  | _ + 1, .atom, _ => none

/-- What a text means, if it is a filter. -/
def read (text : List Char) : Option Expr :=
  match parse (3 * (tokens text).length + 1) .or (tokens text) with
  | some (e, []) => some e
  | _ => none

end Parser

section Lexes
variable {cs ds w v : List Char} {ts us : List Token} {s : LexState} {c : Char}

/-- Nothing but a word is still open. -/
def LexState.Closed (s : LexState) : Prop := s.cur = .none ∨ ∃ w, s.cur = .word w

/-- After a separator the characters give these tokens. -/
def Lexes (cs : List Char) (ts : List Token) : Prop :=
  ∀ out, (lex cs ⟨out, .none⟩).Closed ∧ (lex cs ⟨out, .none⟩).flush = out ++ ts

/-- After a word the characters give these tokens, and what follows them begins something new. -/
def Splits (cs : List Char) (ts : List Token) : Prop :=
  ∀ s : LexState, s.Closed → lex cs s = ⟨s.flush ++ ts, .none⟩

theorem Lexes.tokens (h : Lexes cs ts) : tokens cs = ts := (h []).2

theorem lex_append (cs ds : List Char) (s : LexState) : lex (cs ++ ds) s = lex ds (lex cs s) :=
  List.foldl_append

theorem Splits.lexes (h : Splits cs ts) : Lexes cs ts := by
  intro out
  rw [h _ (Or.inl rfl)]
  exact ⟨Or.inl rfl, rfl⟩

theorem Lexes.split (h : Lexes cs ts) (h' : Splits ds us) : Lexes (cs ++ ds) (ts ++ us) := by
  intro out
  obtain ⟨hclosed, hflush⟩ := h out
  rw [lex_append, h' _ hclosed, hflush, List.append_assoc]
  exact ⟨Or.inl rfl, rfl⟩

theorem Splits.then (h : Splits cs ts) (h' : Lexes ds us) : Lexes (cs ++ ds) (ts ++ us) := by
  intro out
  have hrest := h' (out ++ ts)
  rw [lex_append, h _ (Or.inl rfl), ← List.append_assoc]
  exact hrest

/-- A part between two separators. -/
theorem Lexes.join (h : Lexes cs ts) (hsep : Splits ds us) (h' : Lexes w ts') :
    Lexes (cs ++ ds ++ w) (ts ++ us ++ ts') := by
  intro out
  obtain ⟨hclosed, hflush⟩ := h out
  have hrest := h' (out ++ ts ++ us)
  rw [lex_append, lex_append, hsep _ hclosed, hflush, ← List.append_assoc, ← List.append_assoc]
  exact hrest

theorem lexChar_closed (hs : s.Closed) (hc : wordChar c = false) : lexChar s c = fresh s.flush c := by
  obtain ⟨out, cur⟩ := s
  rcases hs with hcur | ⟨w, hcur⟩
  · cases hcur
    rfl
  · cases hcur
    rw [lexChar]
    dsimp only
    rw [hc]
    exact if_neg Bool.false_ne_true

/-- A separator that begins with no character of a word. -/
theorem splits_cons (hc : wordChar c = false) (h : ∀ out, lex cs (fresh out c) = ⟨out ++ ts, .none⟩) :
    Splits (c :: cs) ts := by
  intro s hs
  have hstep : lex (c :: cs) s = lex cs (lexChar s c) := rfl
  rw [hstep, lexChar_closed hs hc, h]

theorem lex_word (hw : ∀ c ∈ w, wordChar c = true) (out : List Token) :
    lex w ⟨out, .word v⟩ = ⟨out, .word (v ++ w)⟩ := by
  induction w generalizing v with
  | nil => rw [List.append_nil]; rfl
  | cons c w ih =>
    obtain ⟨hc, hw⟩ := List.forall_mem_cons.mp hw
    have hstep : lexChar ⟨out, .word v⟩ c = ⟨out, .word (v ++ [c])⟩ := by
      rw [lexChar]
      exact if_pos hc
    have hcons : lex (c :: w) ⟨out, .word v⟩ = lex w (lexChar ⟨out, .word v⟩ c) := rfl
    rw [hcons, hstep, ih hw, List.append_assoc, List.singleton_append]

theorem lex_word_alone (hne : w ≠ []) (hw : ∀ c ∈ w, wordChar c = true) (out : List Token) :
    lex w ⟨out, .none⟩ = ⟨out, .word w⟩ := by
  cases w with
  | nil => exact absurd rfl hne
  | cons c w =>
    obtain ⟨hc, hw⟩ := List.forall_mem_cons.mp hw
    have hstep : lexChar ⟨out, .none⟩ c = ⟨out, .word [c]⟩ := by
      rw [lexChar, fresh]
      exact if_pos hc
    have hcons : lex (c :: w) ⟨out, .none⟩ = lex w (lexChar ⟨out, .none⟩ c) := rfl
    rw [hcons, hstep, lex_word hw]
    rfl

theorem lexes_word (hne : w ≠ []) (hw : ∀ c ∈ w, wordChar c = true) : Lexes w [.word w] := by
  intro out
  rw [lex_word_alone hne hw]
  exact ⟨Or.inr ⟨_, rfl⟩, rfl⟩

theorem lex_str (hv : '"' ∉ v) (out : List Token) (front : List Char) :
    lex v ⟨out, .str front⟩ = ⟨out, .str (front ++ v)⟩ := by
  induction v generalizing front with
  | nil => rw [List.append_nil]; rfl
  | cons c v ih =>
    obtain ⟨hc, hv⟩ := not_or.mp (mt List.mem_cons.mpr hv)
    have hstep : lexChar ⟨out, .str front⟩ c = ⟨out, .str (front ++ [c])⟩ := by
      rw [lexChar]
      exact if_neg (Ne.symm hc)
    have hcons : lex (c :: v) ⟨out, .str front⟩ = lex v (lexChar ⟨out, .str front⟩ c) := rfl
    rw [hcons, hstep, ih hv, List.append_assoc, List.singleton_append]

theorem splits_str (hv : '"' ∉ v) : Splits ('"' :: v ++ ['"']) [.str v] := by
  rw [List.cons_append]
  refine splits_cons (by decide) fun out => ?_
  have hfresh : fresh out '"' = ⟨out, .str []⟩ := rfl
  rw [hfresh, lex_append, lex_str hv, List.nil_append]
  rfl

theorem splits_or : Splits " || ".toList [.or] := splits_cons (by decide) fun _ => rfl

theorem splits_and : Splits "&&".toList [.and] := splits_cons (by decide) fun _ => rfl

theorem splits_lparen : Splits ['('] [.lparen] := splits_cons (by decide) fun _ => rfl

theorem splits_rparen : Splits [')'] [.rparen] := splits_cons (by decide) fun _ => rfl

theorem splits_eq : Splits "==".toList [.op .eq] := splits_cons (by decide) fun _ => rfl

theorem splits_le : Splits "<=".toList [.op .le] := splits_cons (by decide) fun _ => rfl

theorem splits_ge : Splits ">=".toList [.op .ge] := splits_cons (by decide) fun _ => rfl

theorem splits_space : Splits [' '] [] := by
  refine splits_cons (by decide) fun out => ?_
  rw [List.append_nil]
  rfl

end Lexes

section Parses
variable {ts us rest : List Token} {e e' : Expr} {field w : List Char} {o : Op} {n v : Nat}

/-- The tokens are an expression of a level, whatever follows. -/
def ParsesAtom (ts : List Token) (e : Expr) : Prop :=
  ∀ n rest, 3 * ts.length ≤ n + 2 → parse n .atom (ts ++ rest) = some (e, rest)

def ParsesAnd (ts : List Token) (e : Expr) : Prop :=
  ∀ n rest, 3 * ts.length ≤ n + 1 → rest.head? ≠ some .and → parse n .and (ts ++ rest) = some (e, rest)

def ParsesOr (ts : List Token) (e : Expr) : Prop :=
  ∀ n rest, 3 * ts.length ≤ n → rest.head? ≠ some .and → rest.head? ≠ some .or →
    parse n .or (ts ++ rest) = some (e, rest)

theorem ParsesOr.read {text : List Char} (h : ParsesOr (tokens text) e) : read text = some e := by
  have hparse := h (3 * (tokens text).length + 1) [] (Nat.le_succ _) nofun nofun
  rw [List.append_nil] at hparse
  rw [FilterLang.read, hparse]

theorem parsesAtom_num (ho : o ≠ .glob) (hv : number w = some v) :
    ParsesAtom [.word field, .op o, .word w] (.num field o v) := by
  intro n rest hn
  have hlen : 9 ≤ n + 2 := hn
  cases n with
  | zero => omega
  | succ n =>
    change (if o = .glob then none else (number w).map fun v => (Expr.num field o v, rest)) = _
    rw [if_neg ho, hv]
    rfl

theorem parsesAtom_str {s : List Char} (ho : o = .eq ∨ o = .ne ∨ o = .glob) :
    ParsesAtom [.word field, .op o, .str s] (.str field o s) := by
  intro n rest hn
  have hlen : 9 ≤ n + 2 := hn
  cases n with
  | zero => omega
  | succ n => exact if_pos ho

theorem ParsesOr.paren (h : ParsesOr ts e) : ParsesAtom (.lparen :: ts ++ [.rparen]) e := by
  intro n rest hn
  rw [List.length_append, List.length_cons, List.length_singleton] at hn
  cases n with
  | zero => omega
  | succ n =>
    have hinner := h n (.rparen :: rest) (by omega) nofun nofun
    have hfront : .lparen :: ts ++ [.rparen] ++ rest = .lparen :: (ts ++ .rparen :: rest) := by
      rw [List.cons_append, List.cons_append, List.append_assoc, List.singleton_append]
    rw [hfront, parse, hinner]

theorem ParsesAtom.and_single (h : ParsesAtom ts e) (hne : ts ≠ []) : ParsesAnd ts e := by
  intro n rest hn hrest
  have hlen := List.length_pos_of_ne_nil hne
  cases n with
  | zero => omega
  | succ n =>
    rw [parse, h n rest (by omega)]
    cases rest with
    | nil => rfl
    | cons t rest =>
      cases t with
      | and => exact absurd rfl hrest
      | _ => rfl

theorem ParsesAtom.and_cons (h : ParsesAtom ts e) (h' : ParsesAnd us e') (hne : us ≠ []) :
    ParsesAnd (ts ++ .and :: us) (.and e e') := by
  intro n rest hn hrest
  have hlen := List.length_pos_of_ne_nil hne
  rw [List.length_append, List.length_cons] at hn
  cases n with
  | zero => omega
  | succ n =>
    rw [List.append_assoc, List.cons_append, parse, h n _ (by omega)]
    dsimp only
    rw [h' n rest (by omega) hrest]
    rfl

theorem ParsesAnd.or_single (h : ParsesAnd ts e) (hne : ts ≠ []) : ParsesOr ts e := by
  intro n rest hn hand hor
  have hlen := List.length_pos_of_ne_nil hne
  cases n with
  | zero => omega
  | succ n =>
    rw [parse, h n rest (by omega) hand]
    cases rest with
    | nil => rfl
    | cons t rest =>
      cases t with
      | or => exact absurd rfl hor
      | _ => rfl

theorem ParsesAnd.or_cons (h : ParsesAnd ts e) (h' : ParsesOr us e') (hne : us ≠ []) :
    ParsesOr (ts ++ .or :: us) (.or e e') := by
  intro n rest hn hand hor
  have hlen := List.length_pos_of_ne_nil hne
  rw [List.length_append, List.length_cons] at hn
  cases n with
  | zero => omega
  | succ n =>
    rw [List.append_assoc, List.cons_append, parse, h n (.or :: (us ++ rest)) (by omega) nofun]
    dsimp only
    rw [h' n rest (by omega) hand hor]
    rfl

end Parses

section Numbers

/-- Digits that `%d` prints for a number that is not negative. -/
def decimal (n : Nat) : List Char := Nat.toDigits 10 n

theorem wordChar_of_isDigit {c : Char} (h : c.isDigit = true) : wordChar c = true := by
  rw [wordChar, Char.isAlphanum, h, Bool.or_true, Bool.true_or]

theorem decimal_wordChar (n : Nat) : ∀ c ∈ decimal n, wordChar c = true := fun _ hc =>
  wordChar_of_isDigit (Nat.isDigit_of_mem_toDigits (by decide) (by decide) hc)

theorem lexes_decimal (n : Nat) : Lexes (decimal n) [.word (decimal n)] :=
  lexes_word Nat.toDigits_ne_nil (decimal_wordChar n)

/-- No number but zero begins with a zero. -/
theorem decimal_head {n : Nat} (hn : n ≠ 0) : (decimal n).head? ≠ some '0' := by
  induction n using Nat.strongRecOn with
  | ind n ih =>
    rw [decimal]
    rcases Nat.lt_or_ge n 10 with hlt | hge
    · rw [Nat.toDigits_of_lt_base hlt, List.head?_cons]
      have hdigit : ∀ n < 10, n ≠ 0 → some (Nat.digitChar n) ≠ some '0' := by decide
      exact hdigit n hlt hn
    · have hdiv : n / 10 ≠ 0 := by omega
      have hfirst := ih (n / 10) (Nat.div_lt_self (by omega) (by decide)) hdiv
      rw [Nat.toDigits_of_base_le (by decide) hge]
      rw [decimal] at hfirst
      rw [List.head?_append_of_ne_nil _ Nat.toDigits_ne_nil]
      exact hfirst

theorem number_decimal (n : Nat) : number (decimal n) = some n := by
  have hall : (decimal n).all Char.isDigit = true :=
    List.all_eq_true.mpr fun c hc => Nat.isDigit_of_mem_toDigits (by decide) (by decide) hc
  have hzero : (decimal n == ['0'] || (decimal n).head? != some '0') = true := by
    by_cases hn : n = 0
    · subst hn
      rfl
    · rw [Bool.or_eq_true, bne_iff_ne]
      exact Or.inr (decimal_head hn)
  rw [number, hall, hzero]
  exact congrArg some Nat.ofDigitChars_ten_toDigits

end Numbers

section Texts
variable {t t' sep field opText v : List Char} {e e' : Expr} {o : Op} {n : Nat}

/-- The name of a field. -/
def IsField (field : List Char) : Prop := field ≠ [] ∧ ∀ c ∈ field, wordChar c = true

theorem isField_of_all (hne : field ≠ []) (h : field.all wordChar = true) : IsField field :=
  ⟨hne, List.all_eq_true.mp h⟩

/-- The text is an expression of a level. -/
def TextAtom (t : List Char) (e : Expr) : Prop := ∃ ts, ts ≠ [] ∧ Lexes t ts ∧ ParsesAtom ts e

def TextAnd (t : List Char) (e : Expr) : Prop := ∃ ts, ts ≠ [] ∧ Lexes t ts ∧ ParsesAnd ts e

def TextOr (t : List Char) (e : Expr) : Prop := ∃ ts, ts ≠ [] ∧ Lexes t ts ∧ ParsesOr ts e

theorem TextOr.read (h : TextOr t e) : read t = some e := by
  obtain ⟨ts, -, hlex, hparse⟩ := h
  exact ParsesOr.read (hlex.tokens.symm ▸ hparse)

theorem IsField.lexes (h : IsField field) : Lexes field [.word field] := lexes_word h.1 h.2

theorem textAtom_num (hf : IsField field) (hop : Splits opText [.op o]) (ho : o ≠ .glob) (n : Nat) :
    TextAtom (field ++ opText ++ decimal n) (.num field o n) :=
  ⟨_, List.cons_ne_nil _ _, hf.lexes.join hop (lexes_decimal n), parsesAtom_num ho (number_decimal n)⟩

theorem textAtom_str (hf : IsField field) (hop : Splits opText [.op o]) (ho : o = .eq ∨ o = .ne ∨ o = .glob)
    (hv : '"' ∉ v) : TextAtom (field ++ opText ++ ('"' :: v ++ ['"'])) (.str field o v) :=
  ⟨_, List.cons_ne_nil _ _, hf.lexes.join hop (splits_str hv).lexes, parsesAtom_str ho⟩

theorem TextOr.paren (h : TextOr t e) : TextAtom ('(' :: t ++ [')']) e := by
  obtain ⟨ts, -, hlex, hparse⟩ := h
  have hopen := splits_lparen.then hlex
  exact ⟨_, List.cons_ne_nil _ _, hopen.split splits_rparen, hparse.paren⟩

theorem TextAtom.and_single (h : TextAtom t e) : TextAnd t e := by
  obtain ⟨ts, hne, hlex, hparse⟩ := h
  exact ⟨ts, hne, hlex, hparse.and_single hne⟩

theorem TextAnd.or_single (h : TextAnd t e) : TextOr t e := by
  obtain ⟨ts, hne, hlex, hparse⟩ := h
  exact ⟨ts, hne, hlex, hparse.or_single hne⟩

theorem TextAtom.and (h : TextAtom t e) (hsep : Splits sep [.and]) (h' : TextAnd t' e') :
    TextAnd (t ++ sep ++ t') (.and e e') := by
  obtain ⟨ts, -, hlex, hparse⟩ := h
  obtain ⟨us, hne', hlex', hparse'⟩ := h'
  have hboth := hlex.join hsep hlex'
  rw [List.append_assoc ts] at hboth
  exact ⟨_, List.append_ne_nil_of_right_ne_nil _ (List.cons_ne_nil _ _), hboth, hparse.and_cons hparse' hne'⟩

theorem TextAnd.or (h : TextAnd t e) (hsep : Splits sep [.or]) (h' : TextOr t' e') :
    TextOr (t ++ sep ++ t') (.or e e') := by
  obtain ⟨ts, -, hlex, hparse⟩ := h
  obtain ⟨us, hne', hlex', hparse'⟩ := h'
  have hboth := hlex.join hsep hlex'
  rw [List.append_assoc ts] at hboth
  exact ⟨_, List.append_ne_nil_of_right_ne_nil _ (List.cons_ne_nil _ _), hboth, hparse.or_cons hparse' hne'⟩

/-- Terms joined by `||`. -/
def orAll : Expr → List Expr → Expr
  | e, [] => e
  | e, e' :: es => .or e (orAll e' es)

theorem textOr_join {texts : List (List Char)} {es : List Expr} (h : List.Forall₂ TextAnd texts es)
    (ht : TextAnd t e) : TextOr (" || ".toList.intercalate (t :: texts)) (orAll e es) := by
  induction h generalizing t e with
  | nil => exact (List.intercalate_singleton ..).symm ▸ ht.or_single
  | cons hfirst _ ih =>
    rw [List.intercalate_cons_cons]
    exact ht.or splits_or (ih hfirst)

theorem eval_orAll (glob : List Char → List Char → Bool) (ev : Event) (e : Expr) (es : List Expr) :
    (orAll e es).eval glob ev = true ↔ ∃ e' ∈ e :: es, e'.eval glob ev = true := by
  induction es generalizing e with
  | nil => simp only [orAll, List.mem_singleton, exists_eq_left]
  | cons e' es ih =>
    rw [orAll, Expr.eval, Bool.or_eq_true, ih]
    simp only [List.mem_cons, exists_eq_or_imp]

/-- Joined terms are true if one of them is. -/
theorem textOr_terms {α : Type} {l : List α} {term : α → List Char} {expr : α → Expr} (hne : l ≠ [])
    (hterm : ∀ a ∈ l, TextAnd (term a) (expr a)) : ∃ e, TextOr (" || ".toList.intercalate (l.map term)) e ∧
      ∀ glob ev, e.eval glob ev = true ↔ ∃ a ∈ l, (expr a).eval glob ev = true := by
  cases l with
  | nil => exact absurd rfl hne
  | cons a l =>
    obtain ⟨ha, hl⟩ := List.forall_mem_cons.mp hterm
    have hterms : List.Forall₂ TextAnd (l.map term) (l.map expr) := by
      rw [List.forall₂_map_left_iff, List.forall₂_map_right_iff, List.forall₂_same]
      exact hl
    refine ⟨_, textOr_join hterms ha, fun glob ev => ?_⟩
    rw [eval_orAll, ← List.map_cons]
    simp only [List.mem_map, exists_exists_and_eq_and]

theorem TextAnd.ne_nil (h : TextAnd t e) : t ≠ [] := by
  rintro rfl
  obtain ⟨ts, hne, hlex, -⟩ := h
  exact hne hlex.tokens.symm

end Texts

end PerfProf.FilterLang
