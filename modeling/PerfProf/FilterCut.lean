import PerfProf.FilterScan
import Mathlib.Data.List.Infix

/-! Where a text of joined terms may be cut off such that what is left is still a filter. -/
namespace PerfProf.FilterLang

section Complete
variable {ts us out : List Token} {e : Expr} {t r text w : List Char}

/-- The tokens end like an expression. -/
def complete (ts : List Token) : Bool := match ts.reverse with
  | .rparen :: _ => true
  | .word _ :: .op _ :: _ => true
  | .str _ :: .op _ :: _ => true
  | _ => false

theorem complete_append (ts : List Token) (h : complete us = true) : complete (ts ++ us) = true := by
  unfold complete at h ⊢
  rw [List.reverse_append]
  generalize us.reverse = l at h ⊢
  split at h <;> first | rfl | cases h

theorem Derives.complete (h : Derives ts e) : complete ts = true := by
  induction h with
  | num => rfl
  | str => rfl
  | paren => exact complete_append _ rfl
  | and _ _ _ ih' => exact complete_append _ (complete_append [_] ih')
  | or _ _ _ ih' => exact complete_append _ (complete_append [_] ih')

theorem read_none (h : complete (tokens text) = false) : read text = none := by
  cases hread : read text with
  | none => rfl
  | some e =>
    rw [(read_derives hread).complete] at h
    cases h

/-- Nothing or an operator is in front. -/
def Opens (out : List Token) : Prop := out = [] ∨ ∃ ts, out = ts ++ [.or]

theorem complete_bad (ts : List Token) : complete (ts ++ [.bad]) = false := by
  rw [complete, List.reverse_concat]

theorem complete_op (ts : List Token) (o : Op) : complete (ts ++ [.op o]) = false := by
  rw [complete, List.reverse_concat]

theorem complete_or (ts : List Token) : complete (ts ++ [.or]) = false := by
  rw [complete, List.reverse_concat]

theorem Opens.complete (h : Opens out) : complete out = false := by
  obtain rfl | ⟨ts, rfl⟩ := h
  · rfl
  · exact complete_or ts

theorem Opens.complete_word (h : Opens out) (w : List Char) : FilterLang.complete (out ++ [.word w]) = false := by
  obtain rfl | ⟨ts, rfl⟩ := h
  · rfl
  · rw [FilterLang.complete, List.reverse_concat, List.reverse_concat]

theorem TextOr.read_blank (h : TextOr t e) : FilterLang.read (t ++ [' ']) = some e := by
  obtain ⟨ts, -, hlex, hparse⟩ := h
  have htokens := (hlex.split splits_space).tokens
  rw [List.append_nil] at htokens
  exact ParsesOr.read (htokens.symm ▸ hparse)

/-- A text with a beginning of the next separator behind it. -/
theorem TextOr.read_sep (h : TextOr t e) (hr : r <+: " || ".toList) (hne : r ≠ " || ".toList) :
    (r = [] ∨ r = [' ']) ∧ FilterLang.read (t ++ r) = some e ∨ FilterLang.read (t ++ r) = none := by
  have hinits : r ∈ [[], [' '], [' ', '|'], [' ', '|', '|'], [' ', '|', '|', ' ']] := (List.mem_inits _ _).mpr hr
  obtain ⟨ts, -, hlex, -⟩ := id h
  obtain ⟨hclosed, hflush⟩ := hlex []
  have hblank : lex [' '] (lex t ⟨[], .none⟩) = ⟨ts, .none⟩ := by
    rw [splits_space _ hclosed, hflush, List.nil_append, List.append_nil]
  simp only [List.mem_cons, List.not_mem_nil, or_false] at hinits
  obtain rfl | rfl | rfl | rfl | rfl := hinits
  · rw [List.append_nil]
    exact Or.inl ⟨Or.inl rfl, h.read⟩
  · exact Or.inl ⟨Or.inr rfl, h.read_blank⟩
  · refine Or.inr (read_none ?_)
    have hlast : lex [' ', '|'] (lex t ⟨[], .none⟩) = lex ['|'] (lex [' '] (lex t ⟨[], .none⟩)) := rfl
    rw [tokens, lex_append, hlast, hblank]
    exact complete_bad ts
  · refine Or.inr (read_none ?_)
    have hlast : lex [' ', '|', '|'] (lex t ⟨[], .none⟩) = lex ['|', '|'] (lex [' '] (lex t ⟨[], .none⟩)) := rfl
    rw [tokens, lex_append, hlast, hblank]
    exact complete_or ts
  · exact absurd rfl hne

end Complete

section Joined
variable {texts pre : List (List Char)} {t p : List Char}

/-- Terms with a separator behind each. -/
def front (texts : List (List Char)) : List Char := (texts.map (· ++ " || ".toList)).flatten

theorem front_cons (t : List Char) (texts : List (List Char)) :
    front (t :: texts) = t ++ " || ".toList ++ front texts := by
  rw [front, List.map_cons, List.flatten_cons]
  rfl

theorem intercalate_front (pre : List (List Char)) (t : List Char) (post : List (List Char)) :
    " || ".toList.intercalate (pre ++ t :: post) = front pre ++ " || ".toList.intercalate (t :: post) := by
  induction pre with
  | nil => rfl
  | cons t' pre ih =>
    rw [front_cons, List.append_assoc, ← ih, List.cons_append]
    cases pre <;> exact List.intercalate_cons_cons

theorem front_eq (h : pre ≠ []) : front pre = " || ".toList.intercalate pre ++ " || ".toList := by
  induction pre with
  | nil => exact absurd rfl h
  | cons t pre ih =>
    rw [front_cons]
    cases pre with
    | nil => rw [List.intercalate_singleton]; exact List.append_nil _
    | cons t' pre => rw [ih (List.cons_ne_nil _ _), List.intercalate_cons_cons, List.append_assoc _ _ (" || ".toList)]

/-- Where the joined terms can be cut off: in a term, or in the separator behind some. -/
theorem cut_cases (hne : ∀ t ∈ texts, t ≠ []) (hp : p <+: " || ".toList.intercalate texts)
    (hcut : p ≠ " || ".toList.intercalate texts) : ∃ pre t post, texts = pre ++ t :: post ∧
      ((∃ u, u <+: t ∧ u ≠ t ∧ p = front pre ++ u) ∨
        pre ≠ [] ∧ ∃ r, r <+: " || ".toList ∧ r ≠ " || ".toList ∧ p = " || ".toList.intercalate pre ++ r) := by
  induction texts generalizing p with
  | nil => exact absurd (List.prefix_nil.mp hp) hcut
  | cons t texts ih =>
    cases texts with
    | nil =>
      rw [List.intercalate_singleton] at hp hcut
      exact ⟨[], t, [], rfl, Or.inl ⟨p, hp, hcut, rfl⟩⟩
    | cons t' texts =>
      rw [List.intercalate_cons_cons] at hp hcut
      rcases prefix_append_cases hp with hp | ⟨p', rfl, hp'⟩
      · rcases prefix_append_cases hp with hp | ⟨r, rfl, hr⟩
        · by_cases heq : p = t
          · subst heq
            refine ⟨[p], t', texts, rfl, Or.inr ⟨List.cons_ne_nil _ _, [], List.nil_prefix, by decide, ?_⟩⟩
            rw [List.intercalate_singleton, List.append_nil]
          · exact ⟨[], t, t' :: texts, rfl, Or.inl ⟨p, hp, heq, rfl⟩⟩
        · by_cases heq : r = " || ".toList
          · subst heq
            have hne' := hne t' (List.mem_cons_of_mem _ List.mem_cons_self)
            refine ⟨[t], t', texts, rfl, Or.inl ⟨[], List.nil_prefix, hne'.symm, ?_⟩⟩
            rw [front_cons, List.append_nil]
            exact (List.append_nil _).symm
          · refine ⟨[t], t', texts, rfl, Or.inr ⟨List.cons_ne_nil _ _, r, hr, heq, ?_⟩⟩
            rw [List.intercalate_singleton]
      · have hcut' : p' ≠ " || ".toList.intercalate (t' :: texts) := fun heq => hcut (heq ▸ rfl)
        obtain ⟨pre, t₂, post, htexts, hcase⟩ := ih (fun t ht => hne t (List.mem_cons_of_mem _ ht)) hp' hcut'
        refine ⟨t :: pre, t₂, post, congrArg (t :: ·) htexts, ?_⟩
        rcases hcase with ⟨u, hu, hune, rfl⟩ | ⟨hpre, r, hr, hrne, rfl⟩
        · refine Or.inl ⟨u, hu, hune, ?_⟩
          rw [front_cons, List.append_assoc _ _ u]
        · refine Or.inr ⟨List.cons_ne_nil _ _, r, hr, hrne, ?_⟩
          obtain ⟨t₁, pre, rfl⟩ := List.exists_cons_of_ne_nil hpre
          rw [List.intercalate_cons_cons]
          simp only [List.append_assoc]

theorem nested_front (h : ∀ t ∈ pre, Nested t) : Nested (front pre) := by
  induction pre with
  | nil => exact nested_nil
  | cons t pre ih =>
    obtain ⟨ht, hpre⟩ := List.forall_mem_cons.mp h
    rw [front_cons]
    exact (ht.append (nested_plain (by decide))).append (ih hpre)

/-- Behind the separator something new begins. -/
theorem lex_front (h : ∀ t ∈ pre, ∃ e, TextAnd t e) :
    ∃ out, Opens out ∧ lex (front pre) ⟨[], .none⟩ = ⟨out, .none⟩ := by
  have hlex (pre : List (List Char)) (h : ∀ t ∈ pre, ∃ e, TextAnd t e) (out : List Token) (hout : Opens out) :
      ∃ out', Opens out' ∧ lex (front pre) ⟨out, .none⟩ = ⟨out', .none⟩ := by
    induction pre generalizing out with
    | nil => exact ⟨out, hout, rfl⟩
    | cons t pre ih =>
      obtain ⟨ht, hpre⟩ := List.forall_mem_cons.mp h
      obtain ⟨e, ts, -, hts, -⟩ := ht
      obtain ⟨hclosed, hflush⟩ := hts out
      rw [front_cons, lex_append, lex_append, splits_or _ hclosed]
      exact ih hpre _ (Or.inr ⟨_, rfl⟩)
  exact hlex pre h [] (Or.inl rfl)

end Joined

section Cut
variable {field opText u v w : List Char} {pre : List (List Char)} {e : Expr}

/-- An operator behind a word, or a beginning of it, is no expression. -/
def Dangles (opText : List Char) : Prop :=
  ∀ x, x <+: opText → ∀ out, Opens out → ∀ w, complete (lex x ⟨out, .word w⟩).flush = false

theorem dangles_eq : Dangles "==".toList := by
  intro x hx out hout w
  have hinits : x ∈ [[], ['='], ['=', '=']] := (List.mem_inits _ _).mpr hx
  simp only [List.mem_cons, List.not_mem_nil, or_false] at hinits
  obtain rfl | rfl | rfl := hinits
  · exact hout.complete_word w
  · exact complete_bad _
  · exact complete_op _ _

theorem dangles_eq_spaced : Dangles " == ".toList := by
  intro x hx out hout w
  have hinits : x ∈ [[], [' '], [' ', '='], [' ', '=', '='], [' ', '=', '=', ' ']] := (List.mem_inits _ _).mpr hx
  simp only [List.mem_cons, List.not_mem_nil, or_false] at hinits
  obtain rfl | rfl | rfl | rfl | rfl := hinits
  · exact hout.complete_word w
  · exact hout.complete_word w
  · exact complete_bad _
  · exact complete_op _ _
  · exact complete_op _ _

theorem dangles_glob_spaced : Dangles " ~ ".toList := by
  intro x hx out hout w
  have hinits : x ∈ [[], [' '], [' ', '~'], [' ', '~', ' ']] := (List.mem_inits _ _).mpr hx
  simp only [List.mem_cons, List.not_mem_nil, or_false] at hinits
  obtain rfl | rfl | rfl | rfl := hinits
  · exact hout.complete_word w
  · exact hout.complete_word w
  · exact complete_op _ _
  · exact complete_op _ _

/-- A condition that is cut off before its value. -/
theorem read_cut_op (hpre : ∀ t ∈ pre, ∃ e, TextAnd t e) (hf : IsField field) (hop : Dangles opText)
    (hu : u <+: field ++ opText) : read (front pre ++ u) = none := by
  obtain ⟨out, hout, hfront⟩ := lex_front hpre
  refine read_none ?_
  rw [tokens, lex_append, hfront]
  rcases prefix_append_cases hu with hu | ⟨x, rfl, hx⟩
  · by_cases hnil : u = []
    · subst hnil
      exact hout.complete
    · rw [lex_word_alone hnil fun c hc => hf.2 c (hu.subset hc)]
      exact hout.complete_word u
  · rw [lex_append, lex_word_alone hf.1 hf.2]
    exact hop x hx out hout field

/-- A condition on a string that is cut off. -/
theorem read_cut_str (hpre : ∀ t ∈ pre, ∃ e, TextAnd t e) (hf : IsField field) (hop : Dangles opText)
    (hsplits : Splits opText [.op o]) (hv : '"' ∉ v) (hu : u <+: field ++ opText ++ ('"' :: v ++ ['"']))
    (hne : u ≠ field ++ opText ++ ('"' :: v ++ ['"'])) : read (front pre ++ u) = none := by
  rcases prefix_append_cases hu with hu | ⟨x, rfl, hx⟩
  · exact read_cut_op hpre hf hop hu
  · rcases List.prefix_cons_iff.mp hx with rfl | ⟨v', rfl, hv'⟩
    · rw [List.append_nil]
      exact read_cut_op hpre hf hop (List.prefix_refl _)
    · rcases List.prefix_concat_iff.mp hv' with rfl | hv'
      · exact absurd rfl hne
      · obtain ⟨out, -, hfront⟩ := lex_front hpre
        refine read_none ?_
        have hstr : lex ('"' :: v') ⟨out ++ [.word field] ++ [.op o], .none⟩ =
            ⟨out ++ [.word field] ++ [.op o], .str v'⟩ := lex_str (fun hin => hv (hv'.subset hin)) _ []
        rw [tokens, lex_append, lex_append, lex_append, hfront, lex_word_alone hf.1 hf.2,
          hsplits _ (Or.inr ⟨_, rfl⟩)]
        exact (congrArg (fun s => complete (LexState.flush s)) hstr).trans (complete_bad _)

/-- A text of terms that is cut off and still read: it ends in a term, or has the first terms. -/
theorem read_cut_terms {α : Type} {l : List α} {term : α → List Char} {expr : α → Expr} {p : List Char}
    (hterm : ∀ a ∈ l, TextAnd (term a) (expr a)) (hp : p <+: " || ".toList.intercalate (l.map term))
    (hcut : p ≠ " || ".toList.intercalate (l.map term)) (hread : read p = some e) : ∃ pre a post,
      l = pre ++ a :: post ∧ ((∃ u, u <+: term a ∧ u ≠ term a ∧ p = front (pre.map term) ++ u) ∨
        (∃ r, (r = [] ∨ r = [' ']) ∧ p = " || ".toList.intercalate (pre.map term) ++ r) ∧
          ∀ glob ev, e.eval glob ev = true ↔ ∃ b ∈ pre, (expr b).eval glob ev = true) := by
  have hne : ∀ t ∈ l.map term, t ≠ [] := List.forall_mem_map.mpr fun a ha => (hterm a ha).ne_nil
  obtain ⟨preTexts, t, postTexts, htexts, hcase⟩ := cut_cases hne hp hcut
  obtain ⟨pre, rest, rfl, rfl, hrest⟩ := List.map_eq_append_iff.mp htexts
  obtain ⟨a, post, rfl, rfl, rfl⟩ := List.map_eq_cons_iff.mp hrest
  refine ⟨pre, a, post, rfl, ?_⟩
  rcases hcase with hu | ⟨hpre, r, hr, hrne, rfl⟩
  · exact Or.inl hu
  · have hpreTerm : ∀ b ∈ pre, TextAnd (term b) (expr b) := fun b hb => hterm b (List.mem_append_left _ hb)
    have hpreNe : pre ≠ [] := mt List.map_eq_nil_iff.mpr hpre
    obtain ⟨e', htext, heval⟩ := textOr_terms hpreNe hpreTerm
    rcases htext.read_sep hr hrne with ⟨hblank, hread'⟩ | hnone
    · have heq : e = e' := Option.some.inj (hread.symm.trans hread')
      exact Or.inr ⟨⟨r, hblank, rfl⟩, heq ▸ heval⟩
    · rw [hread] at hnone
      cases hnone

/-- A beginning of a number is a number. -/
theorem decimal_prefix {n : Nat} (hw : w <+: decimal n) (hne : w ≠ []) : ∃ q, w = decimal q := by
  induction n using Nat.strongRecOn with
  | ind n ih =>
    rw [decimal] at hw
    rcases Nat.lt_or_ge n 10 with hlt | hge
    · refine ⟨n, ?_⟩
      rw [Nat.toDigits_of_lt_base hlt] at hw
      rw [decimal, Nat.toDigits_of_lt_base hlt]
      rcases List.prefix_cons_iff.mp hw with rfl | ⟨w', rfl, hw'⟩
      · exact absurd rfl hne
      · rw [List.prefix_nil.mp hw']
    · rw [Nat.toDigits_of_base_le (by decide) hge] at hw
      rcases List.prefix_concat_iff.mp hw with rfl | hw
      · exact ⟨n, (Nat.toDigits_of_base_le (by decide) hge).symm⟩
      · exact ih (n / 10) (Nat.div_lt_self (by omega) (by decide)) hw

/-- A condition on a number that is cut off has another number, if any. -/
theorem read_cut_num (hpre : ∀ t ∈ pre, ∃ e, TextAnd t e) (hf : IsField field) (hop : Dangles opText) {n : Nat}
    (hu : u <+: field ++ opText ++ decimal n) :
    read (front pre ++ u) = none ∨ ∃ q, decimal q <+: decimal n ∧ u = field ++ opText ++ decimal q := by
  rcases prefix_append_cases hu with hu | ⟨w, rfl, hw⟩
  · exact Or.inl (read_cut_op hpre hf hop hu)
  · by_cases hnil : w = []
    · rw [hnil, List.append_nil]
      exact Or.inl (read_cut_op hpre hf hop (List.prefix_refl _))
    · obtain ⟨q, rfl⟩ := decimal_prefix hw hnil
      exact Or.inr ⟨q, hw, rfl⟩

end Cut

end PerfProf.FilterLang
