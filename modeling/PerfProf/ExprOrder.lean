import PerfProf.ExprSentence

/-! Which of the texts that `expr_compile` accepts are sentences: those in which `next` drops nothing
and each token goes on where the one before it stops. -/
namespace PerfProf.Expr

section Order

/-- Where a token stands: where an operand is due (at the `start` of one, after an `opened`
parenthesis, after that of a call), after an operand (`name` and `text` are those that a parenthesis
and a string may follow), in the parentheses of a cast, or in those after `sizeof`. -/
inductive Place where
  | start | opened | called | done | name | text | cast | size
deriving DecidableEq

/-- An operand is due. -/
def Place.Before (p : Place) : Prop := p = .start ∨ p = .opened ∨ p = .called

def Place.After (p : Place) : Prop := p = .done ∨ p = .name ∨ p = .text

instance (p : Place) : Decidable p.After := inferInstanceAs (Decidable (_ ∨ _ ∨ _))

/-- The brackets that are open and the place after a token where an operand is due. -/
def begins (n : Nat) (p : Place) : Token → Option (Nat × Place)
  | .num _ => some (n, .done)
  | .str _ => some (n, .text)
  | .id _ => some (n, .name)
  | .sizeof => some (n, .size)
  | .int _ => if p = .opened then some (n - 1, .cast) else none
  | .lparen => some (n + 1, .opened)
  | .rparen => if p = .called then some (n - 1, .done) else none
  | .mul | .and | .bang | .tilde | .add | .sub | .inc | .dec => some (n, .start)
  | _ => none

/-- The same after an operand. A `?` is open up to its colon. -/
def goesOn (n : Nat) (p : Place) : Token → Option (Nat × Place)
  | .lparen => if p = .name then some (n + 1, .called) else none
  | .str _ => if p = .text then some (n, .text) else none
  | .rparen | .rbrack => if n = 0 then none else some (n - 1, .done)
  | .colon => if n = 0 then none else some (n - 1, .start)
  | .brak | .cond => some (n + 1, .start)
  | .inc | .dec => some (n, .done)
  | .eof | .num _ | .id _ | .int _ | .sizeof | .bang | .tilde | .semi | .lbrace | .rbrace => none
  | _ => some (n, .start)

def follow (n : Nat) (p : Place) (tk : Token) : Option (Nat × Place) :=
  match p with
  | .start | .opened | .called => begins n p tk
  | .done | .name | .text => goesOn n p tk
  | .cast => some (n, if tk = .rparen then .start else .cast)
  | .size => some (n, if tk = .rparen then .done else .size)

/-- The tokens follow one another, and the last is the end of an operand with no bracket open. -/
def scan : Nat → Place → List Token → Bool
  | n, p, [] => n == 0 && decide p.After
  | n, p, tk :: ts => match follow n p tk with
    | some (n, p) => scan n p ts
    | none => false

/-- Operands and operators alternate, no comma stands before a parenthesis, and every bracket is
closed. -/
def InOrder (toks : List Token) : Prop := scan 0 .start toks = true

variable {n : Nat} {p q : Place} {ts rest : List Token} {tk : Token}

theorem scan_step {m : Nat} {r : Place} (h : follow n p tk = some (m, r)) (ts : List Token) :
    scan n p (tk :: ts) = scan m r ts := by
  rw [scan, h]

theorem scan_cons (h : scan n p (tk :: ts) = true) :
    ∃ n' p', follow n p tk = some (n', p') ∧ scan n' p' ts = true := by
  rw [scan] at h
  cases hstep : follow n p tk with
  | none =>
    rw [hstep] at h
    cases h
  | some r =>
    rw [hstep] at h
    exact ⟨r.1, r.2, rfl, h⟩

theorem follow_before (hp : p.Before) (tk : Token) : follow n p tk = begins n p tk := by
  obtain rfl | rfl | rfl := hp <;> rfl

theorem follow_after (hq : q.After) (tk : Token) : follow n q tk = goesOn n q tk := by
  obtain rfl | rfl | rfl := hq <;> rfl

/-- A token with which an operand begins, whatever it comes after. -/
theorem scan_begins {m : Nat} {r : Place} (hp : p.Before) (h : begins n p tk = some (m, r))
    (ts : List Token) : scan n p (tk :: ts) = scan m r ts :=
  scan_step ((follow_before hp tk).trans h) ts

theorem scan_goesOn {m : Nat} {r : Place} (hq : q.After) (h : goesOn n q tk = some (m, r))
    (ts : List Token) : scan n q (tk :: ts) = scan m r ts :=
  scan_step ((follow_after hq tk).trans h) ts

theorem before_start : Place.Before .start := .inl rfl

theorem before_opened : Place.Before .opened := .inr (.inl rfl)

theorem before_called : Place.Before .called := .inr (.inr rfl)

theorem after_done : Place.After .done := .inl rfl

theorem scan_stars (n m : Nat) (ts : List Token) :
    scan n .cast (List.replicate m .mul ++ .rparen :: ts) = scan n .start ts ∧
    scan n .size (List.replicate m .mul ++ .rparen :: ts) = scan n .done ts := by
  induction m with
  | zero => exact ⟨rfl, rfl⟩
  | succ m ih =>
    rw [List.replicate_succ, List.cons_append, scan_step (r := .cast) rfl,
      scan_step (r := .size) rfl]
    exact ih

theorem scan_cast (hp : p.Before) (type m : Nat) (ts : List Token) :
    scan n p (typeToks type m ++ ts) = scan n .start ts := by
  rw [typeToks, List.cons_append, List.cons_append, List.append_assoc, List.singleton_append,
    scan_begins hp rfl, scan_begins (m := n) (r := .cast) before_opened rfl]
  exact (scan_stars n m ts).1

theorem scan_sizeof (hp : p.Before) (type m : Nat) (ts : List Token) :
    scan n p (.sizeof :: (typeToks type m ++ ts)) = scan n .done ts := by
  rw [typeToks, List.cons_append, List.cons_append, List.append_assoc, List.singleton_append,
    scan_begins hp rfl, scan_step (r := .size) rfl, scan_step (r := .size) rfl]
  exact (scan_stars n m ts).2

theorem scan_texts (n : Nat) (vs : List Long) (ts : List Token) :
    scan n .text (vs.map .str ++ ts) = scan n .text ts := by
  induction vs with
  | nil => rfl
  | cons v vs ih =>
    rw [List.map_cons, List.cons_append, scan_step (r := .text) rfl]
    exact ih

/-- The tokens lead from a place where an operand is due to one after it. -/
def Scans (toks : List Token) : Prop :=
  ∀ n p, p.Before → ∀ ts, ∃ q, q.After ∧ scan n p (toks ++ ts) = scan n q ts

theorem Scans.cons {toks : List Token} (h : Scans toks)
    (htk : ∀ n p, begins n p tk = some (n, .start)) : Scans (tk :: toks) := by
  intro n p hp ts
  obtain ⟨q, hq, hscan⟩ := h n .start before_start ts
  exact ⟨q, hq, by rw [List.cons_append, scan_begins hp (htk n p), hscan]⟩

theorem Scans.binary {ls rs : List Token} (hl : Scans ls) (hr : Scans rs)
    (htk : ∀ n p, goesOn n p tk = some (n, .start)) : Scans (ls ++ tk :: rs) := by
  intro n p hp ts
  obtain ⟨q, hq, hscan⟩ := hl n p hp (tk :: rs ++ ts)
  obtain ⟨q', hq', hscan'⟩ := hr n .start before_start ts
  refine ⟨q', hq', ?_⟩
  rw [List.append_assoc, hscan, List.cons_append, scan_goesOn hq (htk n q), hscan']

/-- An operand in brackets, or between `?` and its colon. -/
theorem Scans.inside {toks : List Token} (h : Scans toks) (hp : p.Before) {m : Nat} {r : Place}
    (htk : ∀ q, goesOn (n + 1) q tk = some (m, r)) (ts : List Token) :
    scan (n + 1) p (toks ++ tk :: ts) = scan m r ts := by
  obtain ⟨q, hq, hscan⟩ := h (n + 1) p hp (tk :: ts)
  rw [hscan, scan_goesOn hq (htk q)]

theorem scans_one {r : Place} (hp' : r.After) (htk : ∀ n p, begins n p tk = some (n, r)) :
    Scans [tk] := by
  intro n p hp ts
  exact ⟨r, hp', scan_begins hp (htk n p) ts⟩

/-- The arguments up to the parenthesis after them, from its opening or from a comma on. -/
def ScansArgs (as : Args) : Prop :=
  ∀ n p, p = .called ∨ p = .start ∧ as.count ≠ 0 → ∀ ts,
    scan (n + 1) p (as.toks ++ .rparen :: ts) = scan n .done ts

theorem scansArgs_nil : ScansArgs .nil := by
  rintro n p (rfl | ⟨-, hcount⟩) ts
  · exact scan_begins (m := n) before_called rfl ts
  · exact absurd rfl hcount

theorem scansArgs_cons {e : Exp} {comma : Bool} {as : Args} (he : Scans e.toks)
    (has : ScansArgs as) (hcomma : comma = true ↔ as.count ≠ 0) :
    ScansArgs (.cons e comma as) := by
  intro n p hp ts
  have hbefore : p.Before := by
    obtain rfl | ⟨rfl, -⟩ := hp
    · exact before_called
    · exact before_start
  rw [Args.toks, List.append_assoc, List.append_assoc]
  cases comma with
  | true =>
    rw [if_pos rfl, List.singleton_append, he.inside hbefore fun _ => rfl]
    exact has n .start (.inr ⟨rfl, hcomma.mp rfl⟩) ts
  | false =>
    cases as with
    | nil => exact he.inside hbefore (fun _ => rfl) ts
    | cons e' comma' rest => cases hcomma.mpr (Nat.succ_ne_zero _)

theorem Scans.call {as : Args} (h : ScansArgs as) (s : Symbol) : Scans (Exp.call s as).toks := by
  intro n p hp ts
  refine ⟨.done, after_done, ?_⟩
  rw [Exp.toks, List.cons_append, List.cons_append, List.append_assoc, List.singleton_append,
    scan_begins hp rfl, scan_step (m := n + 1) (r := .called) rfl]
  exact h n .called (.inl rfl) ts

theorem Scans.paren {e : Exp} (h : Scans e.toks) : Scans (Exp.paren e).toks := by
  intro n p hp ts
  refine ⟨.done, after_done, ?_⟩
  rw [Exp.toks, List.cons_append, List.append_assoc, List.singleton_append, scan_begins hp rfl]
  exact h.inside before_opened (fun _ => rfl) ts

theorem Scans.index {e i : Exp} (he : Scans e.toks) (hi : Scans i.toks) :
    Scans (Exp.index e i).toks := by
  intro n p hp ts
  refine ⟨.done, after_done, ?_⟩
  obtain ⟨q, hq, hscan⟩ := he n p hp (.brak :: (i.toks ++ .rbrack :: ts))
  rw [Exp.toks, List.append_assoc, List.cons_append, List.append_assoc, List.singleton_append,
    hscan, scan_goesOn hq rfl]
  exact hi.inside before_start (fun _ => rfl) ts

theorem Scans.post {e : Exp} (h : Scans e.toks) (inc : Bool) : Scans (Exp.post inc e).toks := by
  intro n p hp ts
  obtain ⟨q, hq, hscan⟩ := h n p hp (incToken inc :: ts)
  refine ⟨.done, after_done, ?_⟩
  rw [Exp.toks, List.append_assoc, List.singleton_append, hscan]
  cases inc with
  | true => exact scan_goesOn hq rfl ts
  | false => exact scan_goesOn hq rfl ts

theorem Scans.cond {c t f : Exp} (hc : Scans c.toks) (ht : Scans t.toks) (hf : Scans f.toks) :
    Scans (Exp.cond c t f).toks := by
  intro n p hp ts
  obtain ⟨q, hq, hscan⟩ := hc n p hp (.cond :: (t.toks ++ .colon :: (f.toks ++ ts)))
  obtain ⟨q', hq', hscan'⟩ := hf n .start before_start ts
  refine ⟨q', hq', ?_⟩
  rw [Exp.toks, List.append_assoc, List.cons_append, List.append_assoc, List.cons_append, hscan,
    scan_goesOn hq rfl, ht.inside (m := n) (r := .start) before_start fun _ => rfl, hscan']

mutual

/-- The tokens of a tree with a comma between any two arguments are in order. -/
theorem scans_toks : ∀ e : Exp, e.Separated → Scans e.toks
  | .num v, _ => scans_one after_done fun _ _ => rfl
  | .negNum v, _ => (scans_one after_done fun _ _ => rfl).cons fun _ _ => rfl
  | .str v more, _ => fun n p hp ts =>
    ⟨.text, .inr (.inr rfl), (scan_begins hp rfl _).trans (scan_texts n more ts)⟩
  | .var s, _ => scans_one (.inr (.inl rfl)) fun _ _ => rfl
  | .sizeof type m, _ => fun n p hp ts => ⟨.done, after_done, scan_sizeof hp type m ts⟩
  | .call s as, h => Scans.call (scans_args as h) s
  | .paren e, h => (scans_toks e h).paren
  | .index e i, h => (scans_toks e h.1).index (scans_toks i h.2)
  | .post inc e, h => (scans_toks e h).post inc
  | .un op e, h => (scans_toks e h).cons fun _ _ => by cases op <;> rfl
  | .deref e, h | .addr e, h => (scans_toks e h).cons fun _ _ => rfl
  | .pre inc e, h => (scans_toks e h).cons fun _ _ => by cases inc <;> rfl
  | .cast type m e, h => fun n p hp ts => by
    obtain ⟨q, hq, hscan⟩ := scans_toks e h n .start before_start ts
    exact ⟨q, hq, by rw [Exp.toks, List.append_assoc, scan_cast hp, hscan]⟩
  | .bin op l r, h => (scans_toks l h.1).binary (scans_toks r h.2) fun _ _ => by cases op <;> rfl
  | .land l r, h | .lor l r, h | .assign l r, h =>
    (scans_toks l h.1).binary (scans_toks r h.2) fun _ _ => rfl
  | .cond c t f, h => (scans_toks c h.1).cond (scans_toks t h.2.1) (scans_toks f h.2.2)

theorem scans_args : ∀ as : Args, as.Separated → ScansArgs as
  | .nil, _ => scansArgs_nil
  | .cons e _ rest, h => scansArgs_cons (scans_toks e h.1) (scans_args rest h.2.2) h.2.1

end

theorem inOrder_commaToks (e : Exp) (es : List Exp) (h : ∀ x ∈ e :: es, x.Separated) :
    InOrder (commaToks e es) := by
  induction es generalizing e with
  | nil =>
    obtain ⟨q, hq, hscan⟩ := scans_toks e (List.forall_mem_singleton.mp h) 0 .start before_start []
    rw [List.append_nil] at hscan
    rw [InOrder, commaToks, hscan, scan, decide_eq_true hq]
    rfl
  | cons e' es ih =>
    rw [List.forall_mem_cons] at h
    obtain ⟨q, hq, hscan⟩ :=
      scans_toks e h.1 0 .start before_start (.comma :: commaToks e' es)
    rw [InOrder, commaToks, hscan, scan_goesOn (m := 0) (r := .start) hq rfl]
    exact ih e' h.2

/-- The tokens of a sentence are in order. -/
theorem Sentence.inOrder {tab : Symtab} {strBase : Long} {text : List Char}
    (h : Sentence tab strBase text) : InOrder (textToks tab strBase text) := by
  obtain ⟨-, e, es, htoks, hdoc⟩ := h
  rw [htoks, ← commaToks_congr Exp.asRead asRead_toks]
  refine inOrder_commaToks e.asRead (es.map Exp.asRead) fun x hx => ?_
  rw [← List.map_cons, List.mem_map] at hx
  obtain ⟨y, hy, rfl⟩ := hx
  exact asRead_separated y (hdoc y hy)

end Order

section Alternates
variable {fuel n : Nat} {p q : Place} {ts rest : List Token} {tk : Token} {e l : Exp}

/-- The tokens after an operand are in order, and none of them goes on with it. -/
def Rest (n : Nat) (ts : List Token) : Prop :=
  ∃ q, q.After ∧ (q = .name → ts.headD .eof ≠ .lparen) ∧
    (q = .text → ∀ v, ts.headD .eof ≠ .str v) ∧ scan n q ts = true

theorem rest_done (h : scan n .done ts = true) : Rest n ts :=
  ⟨.done, after_done, (fun hq => by cases hq), (fun hq => by cases hq), h⟩

theorem Rest.goesOn {m : Nat} {r : Place} (h : Rest n ts) (htk : ts.headD .eof = tk)
    (hne : tk ≠ .eof) (hstep : ∀ q, goesOn n q tk = some (m, r)) : scan m r ts.tail = true := by
  obtain ⟨q, hq, -, -, hscan⟩ := h
  rw [head_cons htk hne, scan_goesOn hq (hstep q)] at hscan
  exact hscan

/-- After a whole operand comes the end, or a closing bracket or a colon where one is open. -/
theorem Rest.closes (h : Rest n ts) (hrank : (ts.headD .eof).rank < 1)
    (hcomma : ts.headD .eof ≠ .comma) : n = 0 ∧ ts = [] ∨ n ≠ 0 ∧
      (ts.headD .eof = .rparen ∨ ts.headD .eof = .rbrack ∨ ts.headD .eof = .colon) := by
  obtain ⟨q, hq, hname, htext, hscan⟩ := h
  cases ts with
  | nil =>
    rw [scan, Bool.and_eq_true, beq_iff_eq] at hscan
    exact .inl ⟨hscan.1, rfl⟩
  | cons tk ts =>
    obtain ⟨n', p', hstep, -⟩ := scan_cons hscan
    rw [follow_after hq] at hstep
    have hopen : ∀ r : Option (Nat × Place),
        (if n = 0 then none else r) = some (n', p') → n ≠ 0 := by
      rintro r h rfl
      cases h
    cases tk with
    | rparen => exact .inr ⟨hopen _ hstep, .inl rfl⟩
    | rbrack => exact .inr ⟨hopen _ hstep, .inr (.inl rfl)⟩
    | colon => exact .inr ⟨hopen _ hstep, .inr (.inr rfl)⟩
    | comma => exact absurd rfl hcomma
    | lparen =>
      have hne : q ≠ .name := fun h => hname h rfl
      cases (if_neg hne).symm.trans hstep
    | str v =>
      have hne : q ≠ .text := fun h => htext h v rfl
      cases (if_neg hne).symm.trans hstep
    | eof | num v | id s | int t | sizeof | bang | tilde | semi | lbrace | rbrace => cases hstep
    | _ => simp [Token.rank] at hrank

theorem toks_not_closing : ∀ e : Exp, e.toks.headD .eof ≠ .rbrack ∧ e.toks.headD .eof ≠ .colon
  | .num _ | .negNum _ | .str .. | .var _ | .sizeof .. | .call .. | .paren _ | .deref _ | .addr _
  | .cast .. => by constructor <;> intro h <;> cases h
  | .un op _ => by cases op <;> constructor <;> intro h <;> cases h
  | .pre inc _ => by cases inc <;> constructor <;> intro h <;> cases h
  | .index e _ | .post _ e | .bin _ e _ | .land e _ | .lor e _ | .cond e _ _ | .assign e _ => by
    rw [Exp.toks, toks_append]
    exact toks_not_closing e

theorem head_ne_of_parse {k : Nat} (hk : 2 ≤ k) (hk' : k ≤ 14)
    (h : parse fuel (levOf k) ts = some (e, rest)) :
    ts.headD .eof ≠ .rbrack ∧ ts.headD .eof ≠ .colon := by
  have hread := (sound fuel).parse k ts rest e hk hk' h
  rw [hread.toks, toks_append]
  exact toks_not_closing e

theorem dropWhile_isStr (ts : List Token) (v : Long) :
    (ts.dropWhile St.isStr).headD .eof ≠ .str v := by
  induction ts with
  | nil =>
    intro h
    cases h
  | cons t ts ih =>
    cases t with
    | str w => exact ih
    | _ =>
      intro h
      cases h

/-- The trees that the first pass reads from tokens in order have a comma between any two
arguments, up to a depth. -/
structure Alternates (fuel : Nat) : Prop where
  parse : ∀ lev n p ts rest e, p.Before → scan n p ts = true →
    parse fuel lev ts = some (e, rest) → e.Separated ∧ Rest n rest
  primary : ∀ n p ts rest e, p.Before → scan n p ts = true →
    parsePrimary fuel ts = some (e, rest) → e.Separated ∧ Rest n rest
  args : ∀ n p ts rest as, p.Before → scan (n + 1) p ts = true →
    parseArgs fuel ts = some (as, rest) →
      as.Separated ∧ (p = .start → as.count ≠ 0) ∧ scan n .done rest = true
  climb : ∀ lev l n ts rest e, l.Separated → Rest n ts →
    parseClimb fuel lev l ts = some (e, rest) → e.Separated ∧ Rest n rest
  operator : ∀ l n ts rest e, l.Separated → Rest n ts →
    parseOperator fuel l ts = some (e, rest) → e.Separated ∧ Rest n rest

theorem Alternates.parse_succ (h : Alternates fuel) (lev : Token) (n : Nat) (p : Place)
    (ts rest : List Token) (e : Exp) (hp : p.Before) (hscan : scan n p ts = true)
    (hparse : PerfProf.Expr.parse (fuel + 1) lev ts = some (e, rest)) :
    e.Separated ∧ Rest n rest := by
  simp only [PerfProf.Expr.parse, Option.bind_eq_bind, Option.bind_eq_some_iff,
    Prod.exists] at hparse
  obtain ⟨l, ts₁, hprimary, hclimb⟩ := hparse
  obtain ⟨hsep, hrest⟩ := h.primary n p ts ts₁ l hp hscan hprimary
  exact h.climb lev l n ts₁ rest e hsep hrest hclimb

theorem Alternates.climb_succ (h : Alternates fuel) (lev : Token) (l : Exp) (n : Nat)
    (ts rest : List Token) (e : Exp) (hl : l.Separated) (hrest : Rest n ts)
    (hparse : parseClimb (fuel + 1) lev l ts = some (e, rest)) : e.Separated ∧ Rest n rest := by
  rw [parseClimb] at hparse
  split at hparse
  · simp only [Option.bind_eq_bind, Option.bind_eq_some_iff, Prod.exists] at hparse
    obtain ⟨e₁, ts₁, hop, hclimb⟩ := hparse
    obtain ⟨hsep, hrest₁⟩ := h.operator l n ts ts₁ e₁ hl hrest hop
    exact h.climb lev e₁ n ts₁ rest e hsep hrest₁ hclimb
  · cases hparse
    exact ⟨hl, hrest⟩

/-- A prefix operator that is a single token. -/
theorem Alternates.prefixed (h : Alternates fuel) (hp : p.Before) (hscan : scan n p ts = true)
    (htk : ts.headD .eof = tk) (hne : tk ≠ .eof)
    (hstep : ∀ n p, begins n p tk = some (n, .start)) {f : Exp → Exp}
    (hf : ∀ x : Exp, x.Separated → (f x).Separated)
    (hparse : ((PerfProf.Expr.parse fuel .inc ts.tail) >>= fun r => some (f r.1, r.2)) =
      some (e, rest)) : e.Separated ∧ Rest n rest := by
  simp only [Option.bind_eq_bind, Option.bind_eq_some_iff, Prod.exists] at hparse
  obtain ⟨e₁, ts₁, hexpr, hpair⟩ := hparse
  cases hpair
  rw [head_cons htk hne, scan_begins hp (hstep n p)] at hscan
  obtain ⟨hsep, hrest⟩ := h.parse .inc n .start _ rest e₁ before_start hscan hexpr
  exact ⟨hf e₁ hsep, hrest⟩

/-- The right operand of an operator. -/
theorem Alternates.right (h : Alternates fuel) (hrest : Rest n ts) (htk : ts.headD .eof = tk)
    (hne : tk ≠ .eof) (hstep : ∀ q, goesOn n q tk = some (n, .start)) {lev : Token} {r : Exp}
    (hparse : PerfProf.Expr.parse fuel lev ts.tail = some (r, rest)) :
    r.Separated ∧ Rest n rest :=
  h.parse lev n .start _ rest r before_start (hrest.goesOn htk hne hstep) hparse

/-- An operand up to the token that closes it. -/
theorem Alternates.closed (h : Alternates fuel) (hp : p.Before) (hscan : scan (n + 1) p ts = true)
    {lev : Token} {ts₁ ts₂ : List Token} (hparse : PerfProf.Expr.parse fuel lev ts = some (e, ts₁))
    (hclose : PerfProf.Expr.closed tk ts₁ = some ts₂) (hne : tk ≠ .eof) {r : Place}
    (hstep : ∀ q, goesOn (n + 1) q tk = some (n, r)) :
    e.Separated ∧ scan n r ts₂ = true := by
  obtain ⟨hsep, hrest⟩ := h.parse lev (n + 1) p ts ts₁ e hp hscan hparse
  have hts := closed_some hclose hne
  have htail := hrest.goesOn (by rw [hts]; rfl) hne hstep
  rw [hts] at htail
  exact ⟨hsep, htail⟩

theorem parseOperand_alternates (hp : p.Before) (hscan : scan n p ts = true)
    (hparse : parseOperand ts = some (e, rest)) : e.Separated ∧ Rest n rest := by
  obtain ⟨tk, htk⟩ : ∃ tk, ts.headD .eof = tk := ⟨_, rfl⟩
  rw [parseOperand, htk] at hparse
  cases tk with
  | num v =>
    cases hparse
    rw [head_cons htk (by simp), scan_begins hp rfl] at hscan
    exact ⟨trivial, rest_done hscan⟩
  | str v =>
    obtain ⟨ts', rfl⟩ : ∃ ts', ts = .str v :: ts' := ⟨_, head_cons htk (by simp)⟩
    cases hparse
    rw [scan_begins hp rfl, strVals_split ts', scan_texts] at hscan
    exact ⟨trivial, .text, .inr (.inr rfl), (fun hq => by cases hq), fun _ => dropWhile_isStr ts', hscan⟩
  | sizeof =>
    simp only [Option.bind_eq_bind, Option.bind_eq_some_iff, Prod.exists] at hparse
    obtain ⟨ts₁, hopen, type, htype, m, ts₂, hstars, hpair⟩ := hparse
    cases hpair
    have hts := head_cons htk (by simp)
    have hts₁ := head_cons (intType_some htype) (by simp)
    rw [parseType_some hstars] at hts₁
    have htoks : ts = .sizeof :: (typeToks type m ++ rest) := by
      rw [hts, closed_some hopen (by simp), hts₁]
      simp [typeToks]
    rw [htoks, scan_sizeof hp] at hscan
    exact ⟨trivial, rest_done hscan⟩
  | _ => cases hparse

theorem Alternates.primary_succ (h : Alternates fuel) (n : Nat) (p : Place) (ts rest : List Token)
    (e : Exp) (hp : p.Before) (hscan : scan n p ts = true)
    (hparse : parsePrimary (fuel + 1) ts = some (e, rest)) : e.Separated ∧ Rest n rest := by
  rw [parsePrimary.eq_def] at hparse
  dsimp only at hparse
  split at hparse
  · rename_i s htk
    rw [head_cons htk (by simp), scan_begins hp rfl] at hscan
    split at hparse
    · rename_i hopen
      simp only [Option.bind_eq_bind, Option.bind_eq_some_iff, Prod.exists] at hparse
      obtain ⟨as, ts₁, hargs, hpair⟩ := hparse
      cases hpair
      rw [head_cons hopen (by simp), scan_step (m := n + 1) (r := .called) rfl] at hscan
      obtain ⟨hsep, -, hrest⟩ := h.args n .called _ rest as before_called hscan hargs
      exact ⟨hsep, rest_done hrest⟩
    · cases hparse
      exact ⟨trivial, .name, .inr (.inl rfl), fun _ => ‹_›, (fun hq => by cases hq), hscan⟩
  · rename_i htk
    have hts := head_cons htk (by simp)
    split at hparse
    · rename_i type htype
      simp only [Option.bind_eq_bind, Option.bind_eq_some_iff, Prod.exists] at hparse
      obtain ⟨m, ts₁, hstars, e₁, ts₂, hexpr, hpair⟩ := hparse
      cases hpair
      have htoks : ts = typeToks type m ++ ts₁ := by
        rw [hts, head_cons (intType_some htype) (by simp), parseType_some hstars]
        simp [typeToks]
      rw [htoks, scan_cast hp] at hscan
      exact h.parse .inc n .start ts₁ rest e₁ before_start hscan hexpr
    · simp only [Option.bind_eq_bind, Option.bind_eq_some_iff, Prod.exists] at hparse
      obtain ⟨e₁, ts₁, hexpr, ts₂, hclose, hpair⟩ := hparse
      cases hpair
      rw [hts, scan_begins hp rfl] at hscan
      obtain ⟨hsep, hrest⟩ :=
        h.closed before_opened hscan hexpr hclose (by simp) fun _ => rfl
      exact ⟨hsep, rest_done hrest⟩
  · rename_i htk
    exact h.prefixed (f := .deref) hp hscan htk (by simp) (fun _ _ => rfl) (fun _ => id) hparse
  · rename_i htk
    exact h.prefixed (f := .addr) hp hscan htk (by simp) (fun _ _ => rfl) (fun _ => id) hparse
  · rename_i htk
    exact h.prefixed (f := .un .not) hp hscan htk (by simp) (fun _ _ => rfl) (fun _ => id) hparse
  · rename_i htk
    exact h.prefixed (f := .un .compl) hp hscan htk (by simp) (fun _ _ => rfl) (fun _ => id) hparse
  · rename_i htk
    exact h.prefixed (f := .un .plus) hp hscan htk (by simp) (fun _ _ => rfl) (fun _ => id) hparse
  · rename_i htk
    split at hparse
    · rename_i v hnum
      cases hparse
      rw [head_cons htk (by simp), head_cons (numVal_some hnum) (by simp), scan_begins hp rfl,
        scan_begins before_start rfl] at hscan
      exact ⟨trivial, rest_done hscan⟩
    · exact h.prefixed (f := .un .minus) hp hscan htk (by simp) (fun _ _ => rfl) (fun _ => id)
        hparse
  · rename_i htk
    exact h.prefixed (f := .pre true) hp hscan htk (by simp) (fun _ _ => rfl) (fun _ => id) hparse
  · rename_i htk
    exact h.prefixed (f := .pre false) hp hscan htk (by simp) (fun _ _ => rfl) (fun _ => id) hparse
  · exact parseOperand_alternates hp hscan hparse

theorem Alternates.operator_succ (h : Alternates fuel) (l : Exp) (n : Nat) (ts rest : List Token)
    (e : Exp) (hl : l.Separated) (hrest : Rest n ts)
    (hparse : parseOperator (fuel + 1) l ts = some (e, rest)) : e.Separated ∧ Rest n rest := by
  rw [parseOperator.eq_def] at hparse
  dsimp only at hparse
  split at hparse
  · rename_i htk
    simp only [Option.bind_eq_bind, Option.bind_eq_some_iff, Prod.exists] at hparse
    obtain ⟨r, ts₁, hr, hpair⟩ := hparse
    cases hpair
    obtain ⟨hsep, hrest₁⟩ := h.right hrest htk (by simp) (fun _ => rfl) hr
    exact ⟨⟨hl, hsep⟩, hrest₁⟩
  · rename_i htk
    simp only [Option.bind_eq_bind, Option.bind_eq_some_iff, Prod.exists] at hparse
    obtain ⟨t, ts₁, ht, ts₂, hcolon, f, ts₃, hf, hpair⟩ := hparse
    cases hpair
    have hscan := hrest.goesOn (m := n + 1) (r := .start) htk (by simp) fun _ => rfl
    obtain ⟨hsep, hscan₁⟩ :=
      h.closed (r := .start) before_start hscan ht hcolon (by simp) fun _ => rfl
    obtain ⟨hsep₁, hrest₁⟩ := h.parse .cond n .start ts₂ rest f before_start hscan₁ hf
    exact ⟨⟨hl, hsep, hsep₁⟩, hrest₁⟩
  · rename_i htk
    simp only [Option.bind_eq_bind, Option.bind_eq_some_iff, Prod.exists] at hparse
    obtain ⟨r, ts₁, hr, hpair⟩ := hparse
    cases hpair
    obtain ⟨hsep, hrest₁⟩ := h.right hrest htk (by simp) (fun _ => rfl) hr
    exact ⟨⟨hl, hsep⟩, hrest₁⟩
  · rename_i htk
    simp only [Option.bind_eq_bind, Option.bind_eq_some_iff, Prod.exists] at hparse
    obtain ⟨r, ts₁, hr, hpair⟩ := hparse
    cases hpair
    obtain ⟨hsep, hrest₁⟩ := h.right hrest htk (by simp) (fun _ => rfl) hr
    exact ⟨⟨hl, hsep⟩, hrest₁⟩
  · rename_i htk
    simp only [Option.bind_eq_bind, Option.bind_eq_some_iff, Prod.exists] at hparse
    obtain ⟨i, ts₁, hi, ts₂, hclose, hpair⟩ := hparse
    cases hpair
    have hscan := hrest.goesOn (m := n + 1) (r := .start) htk (by simp) fun _ => rfl
    obtain ⟨hsep, hscan₁⟩ := h.closed before_start hscan hi hclose (by simp) fun _ => rfl
    exact ⟨⟨hl, hsep⟩, rest_done hscan₁⟩
  · rename_i htk
    cases hparse
    exact ⟨hl, rest_done (hrest.goesOn htk (by simp) fun _ => rfl)⟩
  · rename_i htk
    cases hparse
    exact ⟨hl, rest_done (hrest.goesOn htk (by simp) fun _ => rfl)⟩
  · simp only [Option.bind_eq_bind, Option.bind_eq_some_iff, Prod.exists] at hparse
    obtain ⟨op, hop, r, ts₁, hr, hpair⟩ := hparse
    cases hpair
    have hne : op.token ≠ .eof := by cases op <;> simp [BinOp.token]
    obtain ⟨hsep, hrest₁⟩ :=
      h.right hrest (binOf_some hop) hne (fun _ => by cases op <;> rfl) hr
    exact ⟨⟨hl, hsep⟩, hrest₁⟩

/-- What `parseArgs` finds where an argument ends without a comma. -/
theorem args_close {as : Args} (hrest : Rest (n + 1) ts) (hrank : (ts.headD .eof).rank < 1)
    (hcomma : ts.headD .eof ≠ .comma) (hparse : parseArgs fuel ts = some (as, rest)) :
    as = .nil ∧ scan n .done rest = true := by
  cases fuel with
  | zero => cases hparse
  | succ fuel =>
    rw [parseArgs] at hparse
    obtain ⟨hzero, -⟩ | ⟨-, hclose | hother⟩ := hrest.closes hrank hcomma
    · cases hzero
    · rw [if_pos hclose] at hparse
      cases hparse
      exact ⟨rfl, hrest.goesOn hclose (by simp) fun _ => rfl⟩
    · have hne : ts.headD .eof ≠ .rparen := by
        intro hclose
        obtain h | h := hother
        · cases hclose.symm.trans h
        · cases hclose.symm.trans h
      rw [if_neg hne] at hparse
      simp only [Option.bind_eq_bind, Option.bind_eq_some_iff, Prod.exists] at hparse
      obtain ⟨e, ts₁, hexpr, -⟩ := hparse
      obtain ⟨hbrack, hcolon⟩ := head_ne_of_parse (k := 14) (by decide) (by decide) hexpr
      exact absurd hother (not_or.mpr ⟨hbrack, hcolon⟩)

theorem Alternates.args_succ (h : Alternates fuel) (n : Nat) (p : Place) (ts rest : List Token)
    (as : Args) (hp : p.Before) (hscan : scan (n + 1) p ts = true)
    (hparse : parseArgs (fuel + 1) ts = some (as, rest)) :
    as.Separated ∧ (p = .start → as.count ≠ 0) ∧ scan n .done rest = true := by
  rw [parseArgs] at hparse
  by_cases hclose : ts.headD .eof = .rparen
  · rw [if_pos hclose] at hparse
    cases hparse
    rw [head_cons hclose (by simp)] at hscan
    obtain ⟨n', p', hstep, hdone⟩ := scan_cons hscan
    rw [follow_before hp] at hstep
    by_cases hcalled : p = .called
    · cases (if_pos hcalled).symm.trans hstep
      exact ⟨trivial, (fun hstart => by cases hcalled.symm.trans hstart), hdone⟩
    · cases (if_neg hcalled).symm.trans hstep
  · rw [if_neg hclose] at hparse
    simp only [Option.bind_eq_bind, Option.bind_eq_some_iff, Prod.exists] at hparse
    obtain ⟨e, ts₁, hexpr, as', ts₂, hmore, hpair⟩ := hparse
    cases hpair
    obtain ⟨hsep, hrest⟩ := h.parse .assign (n + 1) p ts ts₁ e hp hscan hexpr
    refine ⟨?_, fun _ => Nat.succ_ne_zero _, ?_⟩
    · by_cases hcomma : ts₁.headD .eof = .comma
      · rw [decide_eq_true hcomma, if_pos rfl] at hmore
        obtain ⟨hsep', hcount, -⟩ := h.args n .start _ rest as' before_start
          (hrest.goesOn hcomma (by simp) fun _ => rfl) hmore
        exact ⟨hsep, iff_of_true (decide_eq_true hcomma) (hcount rfl), hsep'⟩
      · rw [decide_eq_false hcomma, if_neg Bool.false_ne_true] at hmore
        have hnext := ((sound fuel).parse 14 ts ts₁ e (by decide) (by decide) hexpr).next
        obtain ⟨rfl, -⟩ := args_close hrest hnext hcomma hmore
        exact ⟨hsep, iff_of_false (ne_true_of_eq_false (decide_eq_false hcomma)) (fun h => h rfl), trivial⟩
    · by_cases hcomma : ts₁.headD .eof = .comma
      · rw [decide_eq_true hcomma, if_pos rfl] at hmore
        exact (h.args n .start _ rest as' before_start
          (hrest.goesOn hcomma (by simp) fun _ => rfl) hmore).2.2
      · rw [decide_eq_false hcomma, if_neg Bool.false_ne_true] at hmore
        have hnext := ((sound fuel).parse 14 ts ts₁ e (by decide) (by decide) hexpr).next
        exact (args_close hrest hnext hcomma hmore).2

theorem alternates (fuel : Nat) : Alternates fuel := by
  induction fuel with
  | zero =>
    refine ⟨?_, ?_, ?_, ?_, ?_⟩
    · intro lev n p ts rest e _ _ hparse
      cases hparse
    · intro n p ts rest e _ _ hparse
      cases hparse
    · intro n p ts rest as _ _ hparse
      cases hparse
    · intro lev l n ts rest e _ _ hparse
      cases hparse
    · intro l n ts rest e _ _ hparse
      cases hparse
  | succ fuel ih =>
    exact ⟨ih.parse_succ, ih.primary_succ, ih.args_succ, ih.climb_succ, ih.operator_succ⟩

/-- Tokens in order are read to the end. -/
theorem readAll_inOrder {es : List Exp} (h : InOrder ts)
    (hread : readAll fuel ts = some (e, es, rest)) :
    rest = [] ∧ ∀ x ∈ e :: es, x.Separated := by
  induction fuel generalizing ts e es with
  | zero => cases hread
  | succ fuel ih =>
    simp only [readAll, Option.bind_eq_bind, Option.bind_eq_some_iff, Prod.exists] at hread
    obtain ⟨e₁, ts₁, hparse, hread⟩ := hread
    obtain ⟨hsep, hrest⟩ := (alternates _).parse .assign 0 .start ts ts₁ e₁ before_start h hparse
    split at hread
    · rename_i hcomma
      simp only [Option.bind_eq_some_iff, Prod.exists] at hread
      obtain ⟨e', es', rest', hmore, hpair⟩ := hread
      cases hpair
      obtain ⟨hend, hall⟩ :=
        ih (hrest.goesOn (m := 0) (r := .start) hcomma (by simp) fun _ => rfl) hmore
      exact ⟨hend, List.forall_mem_cons.mpr ⟨hsep, hall⟩⟩
    · rename_i hcomma
      cases hread
      have hnext := ((sound _).parse 14 ts rest e (by decide) (by decide) hparse).next
      refine ⟨?_, List.forall_mem_singleton.mpr hsep⟩
      obtain ⟨-, hend⟩ | ⟨hne, -⟩ := hrest.closes hnext hcomma
      · exact hend
      · exact absurd rfl hne

end Alternates

section Accepted

/-- A text that `expr_compile` accepts is a sentence if and only if it has outside of constants only
tokens, white space and comments, with every constant closed, and its tokens are in order. -/
theorem sentence_iff (held : List (List Char × Symbol)) (data str : Long) (text : List Char)
    (declare : List GlobalVarDeclare) (prog : Prog)
    (h : exprCompile held data str text declare = .ok prog) :
    (∃ tab, symtab held data declare = some tab ∧ Sentence tab str text) ↔
      clean text = true ∧
        ∀ tab, symtab held data declare = some tab → InOrder (textToks tab str text) := by
  obtain ⟨tab, e, es, rest, code, htab, hread, hgen⟩ :=
    (accepted_iff held data str text declare).mp ⟨prog, h⟩
  constructor
  · rintro ⟨tab', htab', hsentence⟩
    refine ⟨(written_iff text).mp hsentence.written, fun tab₁ htab₁ => ?_⟩
    cases htab'.symm.trans htab₁
    exact hsentence.inOrder
  · rintro ⟨hclean, horder⟩
    obtain ⟨rfl, hsep⟩ := readAll_inOrder (horder tab htab) hread
    obtain ⟨htoks, hlev⟩ := readAll_sound hread
    rw [List.append_nil] at htoks
    exact ⟨tab, htab, (written_iff text).mpr hclean, e, es, htoks,
      documented_of_genAll hgen hlev hsep⟩

theorem sentence_iff_call : ∃ tab, symtab [] 0 [] = some tab ∧
    Sentence tab 0 "ntohl(1 + 2), 3 ? 4 : 5".toList :=
  (sentence_iff [] 0 0 "ntohl(1 + 2), 3 ? 4 : 5".toList []
    ⟨[0, Op.imm.word, 1, Op.psh.word, Op.imm.word, 2, Op.add.word, Op.psh.word, Op.nthl.word,
      Op.adj.word, 1, Op.imm.word, 3, Op.bz.word, codePtr 19, Op.imm.word, 4, Op.jmp.word,
      codePtr 21, Op.imm.word, 5, Op.exit.word], 0⟩ (by decide +kernel)).mpr
    ⟨rfl, fun tab htab => by
      cases htab
      rfl⟩

/-- Two numbers without an operator. -/
theorem trailing_number_accepted : ¬ ∀ (held : List (List Char × Symbol)) (data str : Long)
    (text : List Char) (declare : List GlobalVarDeclare) (prog : Prog),
    exprCompile held data str text declare = .ok prog →
      ∃ tab, symtab held data declare = some tab ∧ Sentence tab str text := by
  intro h
  obtain ⟨tab, htab, hsentence⟩ := h [] 0 0 "1 2".toList [] ⟨[0, Op.imm.word, 1, Op.exit.word], 0⟩
    (by decide +kernel)
  cases htab
  have hends : scan 0 .start (textToks builtins 0 "1 2".toList) = false := by
    rfl
  cases hends.symm.trans hsentence.inOrder

end Accepted

end PerfProf.Expr
