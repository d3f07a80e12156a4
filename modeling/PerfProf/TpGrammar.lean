import PerfProf.TpList
import Mathlib.Data.List.Induction

/-! The event strings of the documentation, and what the pieces of `tp_list_new` do with them. -/
namespace PerfProf.TpList
open PerfProf.CString

section Grammar

/-- None of the separators stands outside quotes, and every quote is closed. -/
def shieldedIn (seps : List Char) : Option Char → List Char → Bool
  | none, [] => true
  | some _, [] => false
  | some quote, x :: s => shieldedIn seps (if x = quote then none else some quote) s
  | none, x :: s => !seps.contains x && shieldedIn seps (if isQuote x then some x else none) s

def Shielded (seps : List Char) (s : List Char) : Prop := shieldedIn seps none s = true

/-- Without the quotes around it. -/
def unquote (s : List Char) : List Char :=
  match s.head?, s.getLast? with
  | some first, some last => if isQuote first && last == first then s.tail.dropLast else s
  | _, _ => s

/-- `ATTR` or `ATTR=value` -/
structure Attr where
  name : List Char
  value : Option (List Char)

def Attr.text (a : Attr) : List Char :=
  match a.value with
  | none => a.name
  | some value => a.name ++ '=' :: value

/-- `/filter/ATTR/ATTR/.../` and text behind the last slash. -/
structure Part where
  filter : List Char
  attrs : List Attr
  rest : List Char

def attrsText (attrs : List Attr) : List Char := attrs.flatMap fun a => a.text ++ ['/']

def Part.text (part : Part) : List Char :=
  '/' :: part.filter ++ '/' :: (attrsText part.attrs ++ part.rest)

/-- `sys:name[/filter/ATTR/ATTR/.../]` -/
structure Event where
  sys : List Char
  name : List Char
  part : Option Part

def Event.text (e : Event) : List Char :=
  e.sys ++ ':' :: (e.name ++ (e.part.map Part.text).getD [])

def Event.attrs (e : Event) : List Attr := (e.part.map Part.attrs).getD []

def Event.rest (e : Event) : List Char := (e.part.map Part.rest).getD []

/-- `EVENT,EVENT,...` -/
def eventString : List Event → List Char
  | [] => []
  | [e] => e.text
  | e :: es => e.text ++ ',' :: eventString es

/-- The separators are protected by quotes where they do not separate. -/
structure Attr.WellFormed (a : Attr) : Prop where
  name : Shielded [',', '/', '='] a.name
  value : ∀ value ∈ a.value, Shielded [',', '/'] value

structure Part.WellFormed (part : Part) : Prop where
  filter : Shielded [',', '/'] part.filter
  attrs : ∀ a ∈ part.attrs, a.WellFormed
  rest : Shielded [',', '/'] part.rest

structure Event.WellFormed (e : Event) : Prop where
  sys : Shielded [',', '/'] e.sys
  colon : ':' ∉ e.sys
  name : Shielded [',', '/'] e.name
  part : ∀ part ∈ e.part, part.WellFormed
  noNul : nul ∉ e.text

end Grammar

section Meaning

variable (env : Env)

/-- The function and the path of `uprobe:func@path`. -/
def findUprobe (id : Int) (sys name : List Char) : Option (Found (List Char)) :=
  match name.idxOf? '@' with
  | none => none
  | some i =>
    let path := unquote (name.drop (i + 1))
    match if env.uprobeType then env.fileOffset path (name.take i) else none with
    | some (offset + 1) => some ⟨id, some sys, name.take i, false, none, some path, offset + 1⟩
    | _ => none

def findProbe (sys name : List Char) : Option (Found (List Char)) :=
  if sys = "kprobe".toList then foundKprobe kprobe env.kprobeType sys name
  else if sys = "kretprobe".toList then foundKprobe kretprobe env.kprobeType sys name
  else if sys = "uprobe".toList then findUprobe env uprobe sys name
  else if sys = "uretprobe".toList then findUprobe env uretprobe sys name
  else none

def findEvent (sys name : List Char) : Option (Found (List Char)) :=
  if env.eventId sys name < 0 then findProbe env sys name
  else if env.hasEvent sys name then
    some ⟨env.eventId sys name, some sys, name, true, none, none, 0⟩
  else none

/-- The entry for an event of this `sys`: its strings are the components without quotes. -/
def entry (sys : List Char) (e : Event) : Option (Tp (List Char)) := do
  let found ← findEvent env sys (unquote e.name)
  let tp ← e.attrs.foldlM (fun tp a => setAttr env id found.id a.name (a.value.map unquote) tp)
    (startTp found)
  finishTp env id id found (e.part.map fun part => unquote part.filter) tp

end Meaning

section Scan

variable {seps s t a b : List Char} {c : Char} {quote : Option Char}

/-- A protected component is passed over. -/
theorem nextSepIn_append (hc : c ∈ seps) (h : shieldedIn seps quote s = true) :
    nextSepIn c quote (s ++ t) = (nextSepIn c none t).map (s.length + ·) := by
  induction s generalizing quote with
  | nil =>
    cases quote with
    | none => simp
    | some q => cases h
  | cons x s ih =>
    have hlen (o : Option Nat) : (o.map (s.length + ·)).map (· + 1) = o.map ((x :: s).length + ·) := by
      cases o with
      | none => rfl
      | some k =>
        simp only [Option.map_some, List.length_cons]
        congr 1
        omega
    cases quote with
    | none =>
      rw [shieldedIn, Bool.and_eq_true] at h
      have hne : x ≠ c := by
        rintro rfl
        simp [hc] at h
      rw [List.cons_append, nextSepIn, if_neg hne, ih h.2, hlen]
    | some q =>
      rw [shieldedIn] at h
      rw [List.cons_append, nextSepIn, ih h, hlen]

theorem nextSepIn_found (hc : c ∈ seps) (h : Shielded seps s) :
    nextSepIn c none (s ++ c :: t) = some s.length := by
  rw [nextSepIn_append hc h, nextSepIn, if_pos rfl]
  rfl

theorem nextSepIn_none (hc : c ∈ seps) (h : Shielded seps s) : nextSepIn c none s = none := by
  have := nextSepIn_append (t := []) hc h
  rwa [List.append_nil] at this

theorem shieldedIn_append (h : shieldedIn seps quote s = true) (ht : Shielded seps t) :
    shieldedIn seps quote (s ++ t) = true := by
  induction s generalizing quote with
  | nil =>
    cases quote with
    | none => exact ht
    | some q => cases h
  | cons x s ih =>
    cases quote with
    | none =>
      rw [shieldedIn, Bool.and_eq_true] at h
      rw [List.cons_append, shieldedIn, Bool.and_eq_true]
      exact ⟨h.1, ih h.2⟩
    | some q =>
      rw [shieldedIn] at h
      rw [List.cons_append, shieldedIn]
      exact ih h

theorem Shielded.cons (hc : c ∉ seps) (hquote : isQuote c = false) (h : Shielded seps s) :
    Shielded seps (c :: s) := by
  rw [Shielded, shieldedIn, hquote, Bool.and_eq_true]
  exact ⟨by simpa using hc, h⟩

/-- Fewer separators are protected too. -/
theorem Shielded.mono {seps' : List Char} (h : Shielded seps s) (hseps : ∀ c ∈ seps', c ∈ seps) :
    Shielded seps' s := by
  have hmono (quote : Option Char) (s : List Char) (h : shieldedIn seps quote s = true) :
      shieldedIn seps' quote s = true := by
    induction s generalizing quote with
    | nil => cases quote <;> exact h
    | cons x s ih =>
      cases quote with
      | none =>
        rw [shieldedIn, Bool.and_eq_true] at h ⊢
        refine ⟨?_, ih _ h.2⟩
        have hx : x ∉ seps := by simpa using h.1
        simpa using mt (hseps x) hx
      | some q => exact ih _ h
  exact hmono none s h

/-- The place that is found holds the separator. -/
theorem nextSepIn_some {k : Nat} (h : nextSepIn c quote s = some k) :
    ∃ a b, s = a ++ c :: b ∧ a.length = k := by
  induction s generalizing quote k with
  | nil => cases quote <;> cases h
  | cons x s ih =>
    have hrest (q : Option Char) (hq : (nextSepIn c q s).map (· + 1) = some k) :
        ∃ a b, x :: s = a ++ c :: b ∧ a.length = k := by
      obtain ⟨j, hj, rfl⟩ := Option.map_eq_some_iff.mp hq
      obtain ⟨a, b, rfl, rfl⟩ := ih hj
      exact ⟨x :: a, b, rfl, rfl⟩
    cases quote with
    | none =>
      rw [nextSepIn] at h
      by_cases hx : x = c
      · rw [if_pos hx] at h
        cases h
        exact ⟨[], s, by rw [hx]; rfl, rfl⟩
      · rw [if_neg hx] at h
        exact hrest _ h
    | some q =>
      rw [nextSepIn] at h
      exact hrest _ h

end Scan

section Quotes

variable {buf s : List Char} {p : Nat}

/-- What `rm_quotes` does with a string. -/
structure Unquoted (buf : List Char) (p : Nat) (s : List Char) (out : List Char × Option Nat) (p' : Nat) :
    Prop where
  ptr : out.2 = some p'
  strAt : StrAt out.1 p' (unquote s)
  same : SameOutside p (p + s.length) buf out.1
  start : p ≤ p'
  stop : p' + (unquote s).length ≤ p + s.length

theorem unquoted_plain (h : StrAt buf p s) (hs : unquote s = s) :
    Unquoted buf p s (buf, some p) p := by
  refine ⟨rfl, ?_, SameOutside.refl, Nat.le_refl _, ?_⟩
  · rw [hs]
    exact h
  · rw [hs]

/-- Quotes around a string are cut off in place. -/
theorem rmQuotes_strAt (h : StrAt buf p s) : ∃ p', Unquoted buf p s (rmQuotes buf (some p) nul) p' := by
  cases s with
  | nil =>
    refine ⟨p, ?_⟩
    have hout : rmQuotes buf (some p) nul = (buf, some p) := by simp [rmQuotes, h.text]
    rw [hout]
    exact unquoted_plain h rfl
  | cons x m =>
    cases m using List.reverseRecOn with
    | nil =>
      cases hq : isQuote x with
      | false =>
        refine ⟨p, ?_⟩
        have hout : rmQuotes buf (some p) nul = (buf, some p) := by simp [rmQuotes, h.text, hq]
        rw [hout]
        exact unquoted_plain h (by simp [unquote, hq])
      | true =>
        refine ⟨p + 1, ?_⟩
        have hout : rmQuotes buf (some p) nul = (buf.set p nul, some (p + 1)) := by
          simp [rmQuotes, h.text, hq]
        have hun : unquote [x] = [] := by simp [unquote, hq]
        have hsame : SameOutside p (p + 1) buf (buf.set p nul) :=
          sameOutside_set (Nat.le_refl _) (Nat.lt_succ_self _)
        rw [hout]
        have hend : StrAt buf (p + [x].length) [] := StrAt.drop (a := [x]) h
        refine ⟨rfl, ?_, hsame, Nat.le_succ _, by rw [hun]; simp⟩
        rw [hun]
        exact hend.frame hsame (.inr (Nat.le_refl _))
    | append_singleton m y =>
      have hlast : (x :: (m ++ [y])).getLast? = some y := by
        rw [← List.cons_append, List.getLast?_concat]
      by_cases hq : (isQuote x && y == x) = true
      · refine ⟨p + 1, ?_⟩
        have hend : p + (x :: (m ++ [y])).length - 1 = p + (x :: m).length := by
          simp
        have hout : rmQuotes buf (some p) nul =
            ((buf.set (p + (x :: m).length) nul).set p nul, some (p + 1)) := by
          simp only [rmQuotes, h.text, List.head?_cons, hlast, if_pos hq, hend]
        have hun : unquote (x :: (m ++ [y])) = m := by
          simp only [unquote, List.head?_cons, hlast, if_pos hq, List.tail_cons, List.dropLast_concat]
        have hinner : StrAt (buf.set (p + (x :: m).length) nul) (p + 1) m := by
          have hcut : StrAt (buf.set (p + (x :: m).length) nul) p (x :: m) := StrAt.cut_left (b := []) h
          exact StrAt.drop (a := [x]) hcut
        have hfirst : SameOutside p (p + 1) (buf.set (p + (x :: m).length) nul)
            ((buf.set (p + (x :: m).length) nul).set p nul) :=
          sameOutside_set (Nat.le_refl _) (Nat.lt_succ_self _)
        rw [hout]
        refine ⟨rfl, ?_, ?_, Nat.le_succ _, ?_⟩
        · rw [hun]
          exact hinner.frame hfirst (.inr (Nat.le_refl _))
        · have hlen : (x :: (m ++ [y])).length = (x :: m).length + 1 := by simp
          rw [hlen]
          have hsecond : SameOutside p (p + ((x :: m).length + 1)) buf (buf.set (p + (x :: m).length) nul) :=
            sameOutside_set (Nat.le_add_right _ _) (by omega)
          exact hsecond.trans (hfirst.mono (Nat.le_refl _) (by omega))
        · rw [hun]
          simp
          omega
      · refine ⟨p, ?_⟩
        have hout : rmQuotes buf (some p) nul = (buf, some p) := by
          simp only [rmQuotes, h.text, List.head?_cons, hlast, if_neg hq]
        rw [hout]
        exact unquoted_plain h (by simp only [unquote, List.head?_cons, hlast, if_neg hq])

end Quotes

end PerfProf.TpList
