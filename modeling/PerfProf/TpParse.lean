import PerfProf.TpGrammar

/-! `tp_list_new` gives the entries of the event string: each piece cuts its own part of the buffer,
and the strings it has found stay as they are. -/
namespace PerfProf.TpList
open PerfProf.CString

section Map

variable {α β : Type}

def TopAdd.map (g : α → β) (x : TopAdd α) : TopAdd β := ⟨x.field.map g, x.event, x.topBy⟩

/-- The strings of an entry. -/
def Tp.map (g : α → β) (tp : Tp α) : Tp β where
  id := tp.id
  sys := tp.sys.map g
  name := g tp.name
  filter := tp.filter
  stack := tp.stack
  maxStack := tp.maxStack
  aliasName := tp.aliasName.map g
  topAdd := tp.topAdd.map (TopAdd.map g)
  comm := tp.comm.map g
  memPtr := tp.memPtr.map g
  memSize := tp.memSize.map g
  num := tp.num.map g
  key := tp.key.map g
  role := tp.role.map g
  exec := tp.exec.map g
  vm := tp.vm.map g
  cpus := tp.cpus.map g
  untraced := tp.untraced
  trigger := tp.trigger
  broadcast := tp.broadcast
  receive := tp.receive
  kprobeFunc := tp.kprobeFunc.map g
  uprobePath := tp.uprobePath.map g
  uprobeOffset := tp.uprobeOffset

def Found.map (g : α → β) (found : Found α) : Found β where
  id := found.id
  sys := found.sys.map g
  name := g found.name
  event := found.event
  kprobeFunc := found.kprobeFunc.map g
  uprobePath := found.uprobePath.map g
  uprobeOffset := found.uprobeOffset

theorem Tp.map_map {γ : Type} (g : α → β) (f : β → γ) (tp : Tp α) :
    (tp.map g).map f = tp.map (f ∘ g) := by
  have htop : TopAdd.map f ∘ TopAdd.map g = TopAdd.map (f ∘ g) := by
    funext x
    simp [TopAdd.map]
  simp [Tp.map, htop]

theorem Found.map_map {γ : Type} (g : α → β) (f : β → γ) (found : Found α) :
    (found.map g).map f = found.map (f ∘ g) := by
  simp [Found.map]

variable {env : Env} (g : α → β) (str : β → List Char)

theorem exprAttr_map (id : Int) (value : Option α) (tp : Tp α) :
    (exprAttr env (str ∘ g) id value tp).map (Tp.map g) =
      exprAttr env str id (value.map g) (tp.map g) := by
  unfold exprAttr
  rw [Option.map_map]
  split
  · rfl
  · rfl

/-- An attribute does the same whatever stands for the strings. -/
theorem setAttr_map (id : Int) (attr : List Char) (value : Option α) (tp : Tp α) :
    (setAttr env (str ∘ g) id attr value tp).map (Tp.map g) =
      setAttr env str id attr (value.map g) (tp.map g) := by
  have hcomp (o : Option α) : (o.map g).map str = o.map (str ∘ g) := Option.map_map ..
  simp only [setAttr, apply_ite (Option.map (Tp.map g)), exprAttr_map, Option.map_some, Option.map_none,
    apply_ite (Tp.map g), hcomp]
  simp only [Tp.map, List.map_append, List.map_cons, List.map_nil, TopAdd.map, Option.map_map,
    apply_ite (Option.map g), Option.map_none]
  rfl

theorem fieldAttr_map (lit : List Char → α) (found : Found α) (attr : Option α) (field : List Char) :
    (fieldAttr env (str ∘ g) lit found attr field).map (Option.map g) =
      fieldAttr env str (g ∘ lit) (found.map g) (attr.map g) field := by
  have hcomp (o : Option α) : (o.map g).map str = o.map (str ∘ g) := Option.map_map ..
  simp only [fieldAttr, Found.map, hcomp, Option.isNone_map, apply_ite (Option.map (Option.map g)),
    Option.map_some, Option.map_none]
  rfl

/-- So does what comes after the attributes. -/
theorem finishTp_map (lit : List Char → α) (found : Found α) (filter : Option α) (tp : Tp α) :
    (finishTp env (str ∘ g) lit found filter tp).map (Tp.map g) =
      finishTp env str (g ∘ lit) (found.map g) (filter.map g) (tp.map g) := by
  have hptr := @fieldAttr_map α β env g str lit found tp.memPtr "ptr".toList
  have hsize := @fieldAttr_map α β env g str lit found tp.memSize "bytes_alloc".toList
  have halias : (tp.aliasName.map g).getD (g found.name) = g (tp.aliasName.getD found.name) :=
    Option.getD_map g found.name tp.aliasName
  have hcomp (o : Option α) : (o.map g).map str = o.map (str ∘ g) := Option.map_map ..
  simp only [finishTp, Tp.map] at hptr hsize ⊢
  rw [← hptr, ← hsize]
  cases fieldAttr env (str ∘ g) lit found tp.memPtr "ptr".toList with
  | none => rfl
  | some memPtr =>
    cases fieldAttr env (str ∘ g) lit found tp.memSize "bytes_alloc".toList with
    | none => rfl
    | some memSize =>
      simp only [Option.map_some, Option.bind_eq_bind, Option.bind_some, List.isEmpty_map, hcomp,
        Found.map, halias]
      simp only [Tp.map, apply_ite (List.map (TopAdd.map g)), List.map_cons, List.map_nil, TopAdd.map,
        Option.map_some]

/-- Every string of an entry. -/
def Tp.All (P : α → Prop) (tp : Tp α) : Prop := ∃ tp' : Tp { x // P x }, tp'.map Subtype.val = tp

def Found.All (P : α → Prop) (found : Found α) : Prop :=
  ∃ found' : Found { x // P x }, found'.map Subtype.val = found

variable {P Q : α → Prop}

theorem Tp.All.map_congr {f h : α → β} {tp : Tp α} (hall : tp.All P) (heq : ∀ x, P x → f x = h x) :
    tp.map f = tp.map h := by
  obtain ⟨tp', rfl⟩ := hall
  have hfun : f ∘ Subtype.val = h ∘ (Subtype.val : { x // P x } → α) := funext fun x => heq x x.2
  rw [Tp.map_map, Tp.map_map, hfun]

theorem Found.All.map_congr {f h : α → β} {found : Found α} (hall : found.All P)
    (heq : ∀ x, P x → f x = h x) : found.map f = found.map h := by
  obtain ⟨found', rfl⟩ := hall
  have hfun : f ∘ Subtype.val = h ∘ (Subtype.val : { x // P x } → α) := funext fun x => heq x x.2
  rw [Found.map_map, Found.map_map, hfun]

theorem Tp.All.mono {tp : Tp α} (hall : tp.All P) (hPQ : ∀ x, P x → Q x) : tp.All Q := by
  obtain ⟨tp', rfl⟩ := hall
  exact ⟨tp'.map fun x => ⟨x.1, hPQ x.1 x.2⟩, Tp.map_map _ _ _⟩

theorem Found.All.mono {found : Found α} (hall : found.All P) (hPQ : ∀ x, P x → Q x) : found.All Q := by
  obtain ⟨found', rfl⟩ := hall
  exact ⟨found'.map fun x => ⟨x.1, hPQ x.1 x.2⟩, Found.map_map _ _ _⟩

theorem exists_val {o : Option α} (h : ∀ x ∈ o, P x) : ∃ o' : Option { x // P x }, o'.map Subtype.val = o := by
  cases o with
  | none => exact ⟨none, rfl⟩
  | some x => exact ⟨some ⟨x, h x rfl⟩, rfl⟩

/-- An attribute brings no string but its value. -/
theorem setAttr_all {str : α → List Char} {id : Int} {attr : List Char} {value : Option α} {tp tp' : Tp α}
    (hall : tp.All P) (hvalue : ∀ v ∈ value, P v) (h : setAttr env str id attr value tp = some tp') :
    tp'.All P := by
  obtain ⟨tp₀, rfl⟩ := hall
  obtain ⟨value₀, rfl⟩ := exists_val hvalue
  rw [← setAttr_map] at h
  obtain ⟨tp₁, -, rfl⟩ := Option.map_eq_some_iff.mp h
  exact ⟨tp₁, rfl⟩

theorem startTp_all {found : Found α} (hall : found.All P) : (startTp found).All P := by
  obtain ⟨found₀, rfl⟩ := hall
  exact ⟨startTp found₀, rfl⟩

/-- Nor does what comes after the attributes, the filter and the names of the fields apart. -/
theorem finishTp_all {str : α → List Char} {lit : List Char → α} {found : Found α} {filter : Option α}
    {tp tp' : Tp α} (hall : tp.All P) (hfound : found.All P) (hfilter : ∀ f ∈ filter, P f)
    (hlit : ∀ s, P (lit s)) (h : finishTp env str lit found filter tp = some tp') : tp'.All P := by
  obtain ⟨tp₀, rfl⟩ := hall
  obtain ⟨found₀, rfl⟩ := hfound
  obtain ⟨filter₀, rfl⟩ := exists_val hfilter
  have hval : lit = Subtype.val ∘ fun s => (⟨lit s, hlit s⟩ : { x // P x }) := rfl
  rw [hval, ← finishTp_map] at h
  obtain ⟨tp₁, -, rfl⟩ := Option.map_eq_some_iff.mp h
  exact ⟨tp₁, rfl⟩

end Map

section Parse

variable {env : Env} {buf buf' : List Char} {lo hi k s fuel : Nat}

/-- The string starts at `k` at the latest. -/
def Ptr.Below (k : Nat) : Ptr → Prop
  | .place p => p ≤ k
  | .lit _ => True

theorem Ptr.Below.mono {ptr : Ptr} {k' : Nat} (h : ptr.Below k) (hk : k ≤ k') : ptr.Below k' := by
  cases ptr with
  | place p => exact Nat.le_trans h hk
  | lit s => trivial

theorem Ptr.text_frame {ptr : Ptr} (h : ptr.Below k) (hnul : buf[k]? = some nul)
    (hsame : SameOutside lo hi buf buf') (hlo : k < lo) : ptr.text buf' = ptr.text buf := by
  cases ptr with
  | place p => exact CString.text_frame hnul h hsame hlo
  | lit s => rfl

theorem nextSep_found {a b : List Char} {c : Char} {seps : List Char} (h : StrAt buf s (a ++ c :: b))
    (hc : c ∈ seps) (ha : Shielded seps a) : nextSep buf s c = some (s + a.length) := by
  rw [nextSep, h.text, nextSepIn_found hc ha, Option.map_some]

theorem nextSep_none {a : List Char} {c : Char} {seps : List Char} (h : StrAt buf s a)
    (hc : c ∈ seps) (ha : Shielded seps a) : nextSep buf s c = none := by
  rw [nextSep, h.text, nextSepIn_none hc ha, Option.map_none]

/-- The name of an attribute and its value, cut out of the buffer. -/
structure CutAttr (buf : List Char) (s : Nat) (a : Attr) (out : List Char × Option Nat) : Prop where
  name : CString.text out.1 s = a.name
  value : out.2.map (CString.text out.1) = a.value.map unquote
  below : ∀ p ∈ out.2, p ≤ s + a.text.length
  same : SameOutside s (s + a.text.length) buf out.1

theorem cutAttr {a : Attr} (hwf : a.WellFormed) (h : StrAt buf s a.text) :
    CutAttr buf s a (cutValue buf s) := by
  unfold cutValue
  obtain ⟨name, value⟩ := a
  have hname : Shielded [',', '/', '='] name := hwf.name
  cases value with
  | none =>
    rw [nextSep_none h (by simp) hname]
    exact ⟨h.text, rfl, nofun, SameOutside.refl⟩
  | some value =>
    have h : StrAt buf s (name ++ '=' :: value) := h
    rw [nextSep_found h (by simp) hname]
    obtain ⟨p', hp⟩ := rmQuotes_strAt (StrAt.cut_right h)
    have hcut : StrAt (buf.set (s + name.length) nul) s name := StrAt.cut_left h
    have htext : Attr.text ⟨name, some value⟩ = name ++ '=' :: value := rfl
    have hlen : (name ++ '=' :: value).length = name.length + 1 + value.length := by
      simp
      omega
    refine ⟨?_, ?_, ?_, ?_⟩
    · exact (hcut.frame hp.same (.inl (Nat.lt_succ_self _))).text
    · dsimp only
      rw [hp.ptr, Option.map_some, hp.strAt.text]
      rfl
    · dsimp only
      rw [hp.ptr]
      intro p hmem
      cases hmem
      have hstop := hp.stop
      rw [htext, hlen]
      omega
    · rw [htext, hlen]
      have hset : SameOutside s (s + (name.length + 1 + value.length)) buf
          (buf.set (s + name.length) nul) := sameOutside_set (by omega) (by omega)
      exact hset.trans (hp.same.mono (by omega) (by omega))

theorem Attr.WellFormed.text {a : Attr} (h : a.WellFormed) : Shielded [',', '/'] a.text := by
  obtain ⟨name, value⟩ := a
  have hname : Shielded [',', '/'] name := h.name.mono (by simp)
  cases value with
  | none => exact hname
  | some value =>
    have hvalue : Shielded [',', '/'] value := h.value value rfl
    exact shieldedIn_append hname (hvalue.cons (by decide) (by decide))

/-- The attributes one after the other; what has been found before them stays. -/
theorem parseAttrs_entry {id : Int} {attrs : List Attr} {rest : List Char} {tp : Tp Ptr} {t : Tp (List Char)}
    (hwf : ∀ a ∈ attrs, a.WellFormed) (hrest : Shielded [',', '/'] rest)
    (h : StrAt buf s (attrsText attrs ++ rest)) (hk : buf[k]? = some nul) (hks : k < s)
    (hall : tp.All (Ptr.Below k)) (hfuel : attrs.length < fuel)
    (hspec : attrs.foldlM (fun tp a => setAttr env (fun s => s) id a.name (a.value.map unquote) tp)
      (tp.map (Ptr.text buf)) = some t) :
    ∃ buf' tp', parseAttrs env id fuel buf s tp = some (buf', tp') ∧ tp'.map (Ptr.text buf') = t ∧
      SameOutside s (s + (attrsText attrs ++ rest).length) buf buf' ∧
      tp'.All (Ptr.Below (s + (attrsText attrs ++ rest).length)) := by
  induction attrs generalizing buf s k tp fuel with
  | nil =>
    obtain ⟨fuel, rfl⟩ : ∃ n, fuel = n + 1 := ⟨fuel - 1, by omega⟩
    have hnone : nextSep buf s '/' = none := nextSep_none h (by simp) hrest
    refine ⟨buf, tp, by rw [parseAttrs, hnone], ?_, SameOutside.refl, hall.mono fun x hx => hx.mono (by omega)⟩
    exact Option.some.inj hspec
  | cons a attrs ih =>
    obtain ⟨fuel, rfl⟩ : ∃ n, fuel = n + 1 := ⟨fuel - 1, by omega⟩
    have hwfa : a.WellFormed := hwf a List.mem_cons_self
    have htext : attrsText (a :: attrs) ++ rest = a.text ++ '/' :: (attrsText attrs ++ rest) := by
      simp [attrsText]
    rw [htext] at h ⊢
    have hsep : nextSep buf s '/' = some (s + a.text.length) := nextSep_found h (by simp) hwfa.text
    have hcut := cutAttr hwfa h.cut_left
    have hmore := h.cut_right
    have hend : (buf.set (s + a.text.length) nul)[s + a.text.length]? = some nul := h.cut_left.ends
    have hset : SameOutside s (s + a.text.length + 1) buf (buf.set (s + a.text.length) nul) :=
      sameOutside_set (by omega) (by omega)
    rw [parseAttrs, hsep]
    dsimp only
    generalize cutValue (buf.set (s + a.text.length) nul) s = out at hcut ⊢
    obtain ⟨buf₂, value⟩ := out
    have hsame : SameOutside s (s + a.text.length + 1) buf buf₂ :=
      hset.trans (hcut.same.mono (Nat.le_refl _) (by omega))
    have hend₂ : buf₂[s + a.text.length]? = some nul := by rw [hcut.same _ (by omega), hend]
    have hkept : tp.map (Ptr.text buf₂) = tp.map (Ptr.text buf) :=
      hall.map_congr fun x hx => Ptr.text_frame hx hk hsame hks
    have hvalue : (value.map Ptr.place).map (Ptr.text buf₂) = a.value.map unquote := by
      rw [← hcut.value, Option.map_map]
      rfl
    -- the attribute itself
    rw [List.foldlM_cons, ← hkept, ← hvalue, ← setAttr_map] at hspec
    obtain ⟨t₁, hattr, hrest'⟩ := Option.bind_eq_some_iff.mp hspec
    obtain ⟨tp₁, htp₁, rfl⟩ := Option.map_eq_some_iff.mp hattr
    have hall₁ : tp₁.All (Ptr.Below (s + a.text.length)) := by
      refine setAttr_all (hall.mono fun x hx => hx.mono (by omega)) ?_ htp₁
      intro x hx
      obtain ⟨p, hp, rfl⟩ := Option.map_eq_some_iff.mp hx
      exact hcut.below p hp
    -- those behind it
    have hmore₂ := hmore.frame hcut.same (.inr (Nat.le_succ _))
    obtain ⟨buf₃, tp₃, hparse, hmap, hsame₃, hall₃⟩ := ih (fun x hx => hwf x (List.mem_cons_of_mem _ hx))
      hmore₂ hend₂ (Nat.lt_succ_self _) hall₁ (by simpa using hfuel) hrest'
    have hlen : (a.text ++ '/' :: (attrsText attrs ++ rest)).length =
        a.text.length + 1 + (attrsText attrs ++ rest).length := by
      simp
      omega
    rw [hlen]
    refine ⟨buf₃, tp₃, ?_, hmap, ?_, hall₃.mono fun x hx => hx.mono (by omega)⟩
    · rw [hcut.name]
      exact Option.bind_eq_some_iff.mpr ⟨tp₁, htp₁, hparse⟩
    · exact (hsame.mono (Nat.le_refl _) (by omega)).trans (hsame₃.mono (by omega) (by omega))

theorem idxOf_append {a b : List Char} {c : Char} (h : c ∉ a) : (a ++ c :: b).idxOf? c = some a.length := by
  induction a with
  | nil => simp [List.idxOf?_cons]
  | cons x a ih =>
    rw [List.mem_cons, not_or] at h
    rw [List.cons_append, List.idxOf?_cons, ih h.2, if_neg (by simpa using Ne.symm h.1)]
    rfl

theorem idxOf_split {l : List Char} {c : Char} {i : Nat} (h : l.idxOf? c = some i) :
    ∃ b, l = l.take i ++ c :: b ∧ (l.take i).length = i ∧ l.drop (i + 1) = b := by
  induction l generalizing i with
  | nil => cases h
  | cons x l ih =>
    rw [List.idxOf?_cons] at h
    by_cases hx : (x == c) = true
    · rw [if_pos hx] at h
      cases h
      exact ⟨l, by rw [beq_iff_eq.mp hx]; rfl, rfl, rfl⟩
    · rw [if_neg hx] at h
      obtain ⟨j, hj, rfl⟩ := Option.map_eq_some_iff.mp h
      obtain ⟨b, hl, hlen, hdrop⟩ := ih hj
      refine ⟨b, ?_, ?_, ?_⟩
      · rw [List.take_succ_cons, List.cons_append, ← hl]
      · rw [List.take_succ_cons, List.length_cons, hlen]
      · rw [List.drop_succ_cons, hdrop]

/-- The strings of an event that has been found. -/
structure FoundAt (buf : List Char) (lo hi : Nat) (F : Found (List Char)) (buf' : List Char)
    (found : Found Ptr) : Prop where
  map : found.map (Ptr.text buf') = F
  same : SameOutside lo hi buf buf'
  all : found.All (Ptr.Below hi)

theorem found_all {found : Found Ptr} (hsys : ∀ x ∈ found.sys, Ptr.Below k x) (hname : Ptr.Below k found.name)
    (hfunc : ∀ x ∈ found.kprobeFunc, Ptr.Below k x) (hpath : ∀ x ∈ found.uprobePath, Ptr.Below k x) :
    found.All (Ptr.Below k) := by
  obtain ⟨sys, hsys⟩ := exists_val hsys
  obtain ⟨func, hfunc⟩ := exists_val hfunc
  obtain ⟨path, hpath⟩ := exists_val hpath
  refine ⟨⟨found.id, sys, ⟨found.name, hname⟩, found.event, func, path, found.uprobeOffset⟩, ?_⟩
  simp only [Found.map, hsys, hfunc, hpath]

theorem foundKprobe_found {id : Int} {enabled : Bool} {sys name : Nat} {sysText nameText : List Char}
    {F : Found (List Char)} (hsys : StrAt buf sys sysText) (hname : StrAt buf name nameText)
    (hle : sys ≤ name) (hspec : foundKprobe id enabled sysText nameText = some F) :
    ∃ found, foundKprobe id enabled (Ptr.place sys) (Ptr.place name) = some found ∧
      FoundAt buf name (name + nameText.length) F buf found := by
  cases enabled with
  | false => cases hspec
  | true =>
    cases hspec
    refine ⟨_, rfl, ?_, SameOutside.refl, ?_⟩
    · simp [Found.map, Ptr.text, hsys.text, hname.text]
    · apply found_all
      · rintro x ⟨rfl⟩
        exact Nat.le_trans hle (Nat.le_add_right _ _)
      · exact Nat.le_add_right _ _
      · rintro x ⟨rfl⟩
        exact Nat.le_add_right _ _
      · nofun

/-- `uprobe:func@path` is cut at its `@`. -/
theorem tpUprobe_found {id : Int} {sys name : Nat} {sysText nameText : List Char} {F : Found (List Char)}
    (hsys : StrAt buf sys sysText) (hname : StrAt buf name nameText) (hlt : sys + sysText.length < name)
    (hspec : findUprobe env id sysText nameText = some F) :
    ∃ buf' found, tpUprobe env id buf sys name = (buf', some found) ∧
      FoundAt buf name (name + nameText.length) F buf' found := by
  unfold findUprobe at hspec
  unfold tpUprobe strchr
  rw [hname.text]
  cases hat : nameText.idxOf? '@' with
  | none =>
    rw [hat] at hspec
    cases hspec
  | some i =>
    rw [hat] at hspec
    obtain ⟨path, hsplit, hlen, hdrop⟩ := idxOf_split hat
    dsimp only at hspec
    rw [hdrop] at hspec
    generalize nameText.take i = func at *
    subst hlen
    rw [hsplit] at hname ⊢
    have hfunc := hname.cut_left
    obtain ⟨p', hp⟩ := rmQuotes_strAt hname.cut_right
    have hset : SameOutside name (name + (func ++ '@' :: path).length) buf
        (buf.set (name + func.length) nul) := sameOutside_set (by omega) (by simp)
    have hlen : (func ++ '@' :: path).length = func.length + 1 + path.length := by
      simp
      omega
    rw [hlen] at hset ⊢
    dsimp only [Option.map_some]
    generalize rmQuotes (buf.set (name + func.length) nul) (some (name + func.length + 1)) nul = out at hp ⊢
    obtain ⟨buf₂, o⟩ := out
    cases hp.ptr
    have hfunc₂ := hfunc.frame hp.same (.inl (Nat.lt_succ_self _))
    have hsame : SameOutside name (name + (func.length + 1 + path.length)) buf buf₂ :=
      hset.trans (hp.same.mono (by omega) (by omega))
    have hsys₂ := hsys.frame hsame (.inl hlt)
    have hpath := hp.strAt.text
    have hstop := hp.stop
    dsimp only at hpath
    dsimp only
    rw [hfunc₂.text, Option.map_some, Option.getD_some, hpath]
    cases hoff : (if env.uprobeType then env.fileOffset (unquote path) func else none) with
    | none =>
      rw [hoff] at hspec
      cases hspec
    | some offset =>
      rw [hoff] at hspec
      cases offset with
      | zero => cases hspec
      | succ offset =>
        cases hspec
        refine ⟨_, _, rfl, ?_, hsame, ?_⟩
        · simp [Found.map, Ptr.text, hsys₂.text, hfunc₂.text, hpath]
        · apply found_all
          · rintro x ⟨rfl⟩
            exact (by omega : sys ≤ name + (func.length + 1 + path.length))
          · exact Nat.le_add_right _ _
          · nofun
          · rintro x ⟨rfl⟩
            exact (by omega : p' ≤ name + (func.length + 1 + path.length))

theorem tpKprobeUprobe_found {sys name : Nat} {sysText nameText : List Char} {F : Found (List Char)}
    (hsys : StrAt buf sys sysText) (hname : StrAt buf name nameText) (hlt : sys + sysText.length < name)
    (hspec : findProbe env sysText nameText = some F) :
    ∃ buf' found, tpKprobeUprobe env buf sys name = (buf', some found) ∧
      FoundAt buf name (name + nameText.length) F buf' found := by
  have hkprobe {id : Int} (h : foundKprobe id env.kprobeType sysText nameText = some F) :
      ∃ buf' found, (buf, foundKprobe id env.kprobeType (Ptr.place sys) (Ptr.place name)) =
        (buf', some found) ∧ FoundAt buf name (name + nameText.length) F buf' found := by
    obtain ⟨found, hfound, hat⟩ := foundKprobe_found hsys hname (by omega) h
    exact ⟨buf, found, by rw [hfound], hat⟩
  unfold findProbe at hspec
  unfold tpKprobeUprobe
  rw [hsys.text]
  by_cases h1 : sysText = "kprobe".toList
  · rw [if_pos h1] at hspec ⊢
    exact hkprobe hspec
  · rw [if_neg h1] at hspec ⊢
    by_cases h2 : sysText = "kretprobe".toList
    · rw [if_pos h2] at hspec ⊢
      exact hkprobe hspec
    · rw [if_neg h2] at hspec ⊢
      by_cases h3 : sysText = "uprobe".toList
      · rw [if_pos h3] at hspec ⊢
        exact tpUprobe_found hsys hname hlt hspec
      · rw [if_neg h3] at hspec ⊢
        by_cases h4 : sysText = "uretprobe".toList
        · rw [if_pos h4] at hspec ⊢
          exact tpUprobe_found hsys hname hlt hspec
        · rw [if_neg h4] at hspec
          cases hspec

theorem parseSysName_found {sys : Nat} {sysText name : List Char} {F : Found (List Char)}
    (h : StrAt buf sys (sysText ++ ':' :: name)) (hspec : findEvent env sysText (unquote name) = some F) :
    ∃ buf' found, parseSysName env buf sys (sys + sysText.length) = some (buf', found) ∧
      FoundAt buf sys (sys + (sysText ++ ':' :: name).length) F buf' found := by
  have hsys := h.cut_left
  obtain ⟨p', hp⟩ := rmQuotes_strAt h.cut_right
  have hset : SameOutside sys (sys + (sysText ++ ':' :: name).length) buf
      (buf.set (sys + sysText.length) nul) := sameOutside_set (by omega) (by simp)
  have hlen : (sysText ++ ':' :: name).length = sysText.length + 1 + name.length := by
    simp
    omega
  rw [hlen] at hset ⊢
  unfold parseSysName
  generalize rmQuotes (buf.set (sys + sysText.length) nul) (some (sys + sysText.length + 1)) nul = out at hp ⊢
  obtain ⟨buf₂, o⟩ := out
  cases hp.ptr
  have hstart := hp.start
  have hstop := hp.stop
  have hsys₂ := hsys.frame hp.same (.inl (Nat.lt_succ_self _))
  have hname₂ : StrAt buf₂ p' (unquote name) := hp.strAt
  have hsame : SameOutside sys (sys + (sysText.length + 1 + name.length)) buf buf₂ :=
    hset.trans (hp.same.mono (by omega) (by omega))
  dsimp only [Option.bind_eq_bind, Option.bind_some]
  rw [hsys₂.text, hname₂.text]
  unfold findEvent at hspec
  by_cases hid : env.eventId sysText (unquote name) < 0
  · rw [if_pos hid] at hspec ⊢
    obtain ⟨buf₃, found, hprobe, hat⟩ := tpKprobeUprobe_found hsys₂ hname₂ (by omega) hspec
    rw [hprobe]
    refine ⟨buf₃, found, rfl, hat.map, ?_, hat.all.mono fun x hx => hx.mono (by omega)⟩
    exact hsame.trans (hat.same.mono (by omega) (by omega))
  · rw [if_neg hid] at hspec ⊢
    by_cases hevent : env.hasEvent sysText (unquote name) = true
    · rw [if_pos hevent] at hspec ⊢
      cases hspec
      refine ⟨buf₂, _, rfl, ?_, hsame, ?_⟩
      · simp [Found.map, Ptr.text, hsys₂.text, hname₂.text]
      · apply found_all
        · rintro x ⟨rfl⟩
          exact Nat.le_add_right _ _
        · exact (by omega : p' ≤ sys + (sysText.length + 1 + name.length))
        · nofun
        · nofun
    · rw [if_neg hevent] at hspec
      cases hspec

theorem finishTp_entry {found : Found Ptr} {filter : Option Ptr} {tp : Tp Ptr} {t : Tp (List Char)}
    (hspec : finishTp env (fun s => s) (fun s => s) (found.map (Ptr.text buf)) (filter.map (Ptr.text buf))
      (tp.map (Ptr.text buf)) = some t) (hall : tp.All (Ptr.Below k)) (hfound : found.All (Ptr.Below k))
    (hfilter : ∀ f ∈ filter, Ptr.Below k f) :
    ∃ tp', finishTp env (Ptr.text buf) .lit found filter tp = some tp' ∧ tp'.map (Ptr.text buf) = t ∧
      tp'.All (Ptr.Below k) := by
  have hmap := @finishTp_map _ _ env (Ptr.text buf) (fun s => s) Ptr.lit found filter tp
  have hlit : Ptr.text buf ∘ Ptr.lit = fun s => s := rfl
  have hlits (s : List Char) : Ptr.Below k (.lit s) := trivial
  rw [hlit, hspec] at hmap
  obtain ⟨tp', htp', hmap'⟩ := Option.map_eq_some_iff.mp hmap
  exact ⟨tp', htp', hmap', finishTp_all hall hfound hfilter hlits htp'⟩

theorem Event.WellFormed.head {e : Event} (h : e.WellFormed) :
    Shielded [',', '/'] (e.sys ++ ':' :: e.name) :=
  shieldedIn_append h.sys (h.name.cons (by decide) (by decide))

theorem strchr_colon {e : Event} (hwf : e.WellFormed) (h : StrAt buf s (e.sys ++ ':' :: e.name)) :
    strchr buf s ':' = some (s + e.sys.length) := by
  rw [strchr, h.text, idxOf_append hwf.colon, Option.map_some]

/-- An entry of the list, its strings and where they are. -/
structure EntryAt (buf : List Char) (lo hi : Nat) (t : Tp (List Char)) (buf' : List Char) (tp : Tp Ptr) :
    Prop where
  map : tp.map (Ptr.text buf') = t
  same : SameOutside lo hi buf buf'
  all : tp.All (Ptr.Below hi)

theorem parseTp_plain {sys name : List Char} {t : Tp (List Char)} (hwf : (Event.mk sys name none).WellFormed)
    (h : StrAt buf s (sys ++ ':' :: name)) (hspec : entry env sys ⟨sys, name, none⟩ = some t) :
    ∃ buf' tp, parseTp env buf s = some (buf', tp) ∧
      EntryAt buf s (s + (sys ++ ':' :: name).length) t buf' tp := by
  obtain ⟨F, hfind, hspec⟩ := Option.bind_eq_some_iff.mp hspec
  obtain ⟨T, hattrs, hspec⟩ := Option.bind_eq_some_iff.mp hspec
  cases hattrs
  have hslash : nextSep buf s '/' = none := nextSep_none h (by simp) hwf.head
  obtain ⟨buf₂, found, hparse, hfound⟩ := parseSysName_found h hfind
  have hmap := hfound.map
  subst hmap
  have hfinish : finishTp env (fun s => s) (fun s => s) (found.map (Ptr.text buf₂))
      ((none : Option Ptr).map (Ptr.text buf₂)) ((startTp found).map (Ptr.text buf₂)) = some t := hspec
  obtain ⟨tp, htp, hmap, hall⟩ := finishTp_entry hfinish (startTp_all hfound.all) hfound.all nofun
  refine ⟨buf₂, tp, ?_, hmap, hfound.same, hall⟩
  simp only [parseTp, cutFilter, hslash, strchr_colon hwf h, hparse, Option.bind_eq_bind, Option.bind_some,
    Option.map_none, rmQuotes, htp]

theorem set_nul {i : Nat} (h : buf[i]? = some nul) : buf.set i nul = buf := by
  obtain ⟨hi, hval⟩ := List.getElem?_eq_some_iff.mp h
  rw [← hval, List.set_getElem_self]

theorem length_attrsText (attrs : List Attr) : attrs.length ≤ (attrsText attrs).length := by
  induction attrs with
  | nil => simp
  | cons a attrs ih =>
    simp only [attrsText, List.flatMap_cons, List.length_append, List.length_cons, List.length_nil] at ih ⊢
    omega

theorem Found.map_frame {found : Found Ptr} (h : found.All (Ptr.Below k)) (hnul : buf[k]? = some nul)
    (hsame : SameOutside lo hi buf buf') (hlo : k < lo) :
    found.map (Ptr.text buf') = found.map (Ptr.text buf) :=
  h.map_congr fun _ hx => Ptr.text_frame hx hnul hsame hlo

/-- The event, its filter and the attributes, cut apart. -/
structure Cut (buf : List Char) (s : Nat) (head filter more : List Char) (buf' : List Char) : Prop where
  headAt : StrAt buf' s head
  filterAt : StrAt buf' (s + head.length + 1) filter
  moreAt : StrAt buf' (s + head.length + 1 + filter.length + 1) more
  same : SameOutside s (s + head.length + 1 + filter.length + 1) buf buf'

theorem cutFilter_found {head filter more : List Char} (h : StrAt buf s (head ++ '/' :: (filter ++ '/' :: more)))
    (hhead : Shielded [',', '/'] head) (hfilter : Shielded [',', '/'] filter) :
    ∃ buf', cutFilter buf s =
        some (buf', some (s + head.length + 1, s + head.length + 1 + filter.length)) ∧
      Cut buf s head filter more buf' := by
  have hset : SameOutside s (s + head.length + 1) buf (buf.set (s + head.length) nul) :=
    sameOutside_set (by omega) (by omega)
  have hmore := h.cut_right
  have hset₂ : SameOutside (s + head.length + 1) (s + head.length + 1 + filter.length + 1)
      (buf.set (s + head.length) nul)
      ((buf.set (s + head.length) nul).set (s + head.length + 1 + filter.length) nul) :=
    sameOutside_set (by omega) (by omega)
  refine ⟨_, ?_, h.cut_left.frame hset₂ (.inl (by omega)), hmore.cut_left, hmore.cut_right, ?_⟩
  · simp only [cutFilter, nextSep_found h (by simp) hhead, nextSep_found hmore (by simp) hfilter]
  · exact (hset.mono (Nat.le_refl _) (by omega)).trans (hset₂.mono (by omega) (by omega))

/-- The attributes and what comes after them, behind the zero at the end of the filter. -/
theorem parseAttrs_finishTp {found : Found Ptr} {F : Found (List Char)} {part : Part} {f : Nat}
    {T t : Tp (List Char)} (hwf : part.WellFormed) (hend : buf[k]? = some nul)
    (hmore : StrAt buf (k + 1) (attrsText part.attrs ++ part.rest)) (hmap : found.map (Ptr.text buf) = F)
    (hall : found.All (Ptr.Below k)) (hfilter : StrAt buf f (unquote part.filter))
    (hf : f + (unquote part.filter).length ≤ k)
    (hattrs : part.attrs.foldlM (fun tp a => setAttr env (fun s => s) F.id a.name (a.value.map unquote) tp)
      (startTp F) = some T)
    (hspec : finishTp env (fun s => s) (fun s => s) F (some (unquote part.filter)) T = some t) :
    ∃ buf' tp' tp, parseAttrs env found.id buf.length buf (k + 1) (startTp found) = some (buf', tp') ∧
      finishTp env (Ptr.text buf') .lit found (some (.place f)) tp' = some tp ∧
      EntryAt buf (k + 1) (k + 1 + (attrsText part.attrs ++ part.rest).length) t buf' tp := by
  have hfuel : part.attrs.length < buf.length := by
    have hlt := (List.getElem?_eq_some_iff.mp hmore.ends).1
    have hlen := length_attrsText part.attrs
    rw [List.length_append] at hlt
    omega
  subst hmap
  obtain ⟨buf', tp', hparse, hmap', hsame, hall'⟩ := parseAttrs_entry hwf.attrs hwf.rest hmore hend
    (Nat.lt_succ_self _) (startTp_all hall) hfuel hattrs
  have hkept : found.map (Ptr.text buf') = found.map (Ptr.text buf) :=
    Found.map_frame hall hend hsame (Nat.lt_succ_self _)
  have hfilter' : StrAt buf' f (unquote part.filter) := hfilter.frame hsame (.inl (Nat.lt_succ_of_le hf))
  have htext : (some (Ptr.place f)).map (Ptr.text buf') = some (unquote part.filter) :=
    congrArg some hfilter'.text
  have hfinish : finishTp env (fun s => s) (fun s => s) (found.map (Ptr.text buf'))
      ((some (Ptr.place f)).map (Ptr.text buf')) (tp'.map (Ptr.text buf')) = some t := by
    rw [hkept, hmap', htext]
    exact hspec
  have hbelow : ∀ x ∈ some (Ptr.place f),
      Ptr.Below (k + 1 + (attrsText part.attrs ++ part.rest).length) x := by
    intro x hx
    cases hx
    exact Nat.le_trans (Nat.le_trans (Nat.le_add_right _ _) hf) (by omega)
  obtain ⟨tp, htp, hmap, hall⟩ :=
    finishTp_entry hfinish hall' (hall.mono fun x hx => hx.mono (by omega)) hbelow
  exact ⟨buf', tp', tp, hparse, htp, hmap, hsame, hall⟩

/-- An event with a filter: first the two slashes, then the name, the filter and the attributes. -/
theorem parseTp_part {sys name : List Char} {part : Part} {t : Tp (List Char)}
    (hwf : (Event.mk sys name (some part)).WellFormed)
    (h : StrAt buf s ((sys ++ ':' :: name) ++ part.text))
    (hspec : entry env sys ⟨sys, name, some part⟩ = some t) :
    ∃ buf' tp, parseTp env buf s = some (buf', tp) ∧
      EntryAt buf s (s + ((sys ++ ':' :: name) ++ part.text).length) t buf' tp := by
  obtain ⟨F, hfind, hspec⟩ := Option.bind_eq_some_iff.mp hspec
  obtain ⟨T, hattrs, hspec⟩ := Option.bind_eq_some_iff.mp hspec
  have hwfp : part.WellFormed := hwf.part part rfl
  have hlen : ((sys ++ ':' :: name) ++ part.text).length = (sys ++ ':' :: name).length + 1 +
      part.filter.length + 1 + (attrsText part.attrs ++ part.rest).length := by
    simp only [Part.text, List.cons_append, List.length_append, List.length_cons]
    omega
  rw [hlen]
  -- the slashes
  have h : StrAt buf s ((sys ++ ':' :: name) ++
    '/' :: (part.filter ++ '/' :: (attrsText part.attrs ++ part.rest))) := h
  obtain ⟨buf₂, hcut, hat⟩ := cutFilter_found h hwf.head hwfp.filter
  -- the event
  obtain ⟨buf₃, found, hparse, hfound⟩ := parseSysName_found hat.headAt hfind
  have hcolon : strchr buf₂ s ':' = some (s + sys.length) := strchr_colon hwf hat.headAt
  have hnul : buf₃[s + (sys ++ ':' :: name).length]? = some nul := by
    rw [hfound.same _ (by omega)]
    exact hat.headAt.ends
  have hfilter := hat.filterAt.frame hfound.same (.inr (Nat.le_succ _))
  have hmore := hat.moreAt.frame hfound.same (.inr (by omega))
  -- the filter
  obtain ⟨p', hp⟩ := rmQuotes_strAt hfilter
  generalize hout : rmQuotes buf₃ (some (s + (sys ++ ':' :: name).length + 1)) nul = out at hp
  obtain ⟨buf₄, o⟩ := out
  cases hp.ptr
  have hsame₄ : SameOutside (s + (sys ++ ':' :: name).length + 1)
      (s + (sys ++ ':' :: name).length + 1 + part.filter.length) buf₃ buf₄ := hp.same
  have hmore₄ := hmore.frame hsame₄ (.inr (Nat.le_succ _))
  have hend : buf₄[s + (sys ++ ':' :: name).length + 1 + part.filter.length]? = some nul := by
    rw [hsame₄ _ (by omega)]
    exact hfilter.ends
  have hmap : found.map (Ptr.text buf₄) = F := by
    rw [Found.map_frame hfound.all hnul hsame₄ (Nat.lt_succ_self _), hfound.map]
  have hall : found.All (Ptr.Below (s + (sys ++ ':' :: name).length + 1 + part.filter.length)) :=
    hfound.all.mono fun x hx => hx.mono (by omega)
  -- the attributes and what comes after them
  obtain ⟨buf₅, tp', tp, hattrs', htp, hentry⟩ :=
    parseAttrs_finishTp hwfp hend hmore₄ hmap hall hp.strAt hp.stop hattrs hspec
  refine ⟨buf₅, tp, ?_, hentry.map, ?_, hentry.all.mono fun x hx => hx.mono (by omega)⟩
  · simp only [parseTp, hcut, hcolon, hparse, hout, set_nul hend, hattrs', htp, Option.bind_eq_bind,
      Option.bind_some, Option.map_some]
  · have hsame₃ := hat.same.trans (hfound.same.mono (Nat.le_refl _) (by omega))
    have hsame := hsame₃.trans (hsame₄.mono (by omega) (by omega))
    exact (hsame.mono (Nat.le_refl _) (by omega)).trans (hentry.same.mono (by omega) (by omega))

/-- An event of the grammar becomes its entry, and nothing outside the event is written to. -/
theorem parseTp_entry {e : Event} {t : Tp (List Char)} (hwf : e.WellFormed) (h : StrAt buf s e.text)
    (hspec : entry env e.sys e = some t) :
    ∃ buf' tp, parseTp env buf s = some (buf', tp) ∧ EntryAt buf s (s + e.text.length) t buf' tp := by
  obtain ⟨sys, name, part⟩ := e
  cases part with
  | none =>
    have htext : Event.text ⟨sys, name, none⟩ = sys ++ ':' :: name := by simp [Event.text]
    rw [htext] at h ⊢
    exact parseTp_plain hwf h hspec
  | some part =>
    have htext : Event.text ⟨sys, name, some part⟩ = (sys ++ ':' :: name) ++ part.text := by
      simp [Event.text]
    rw [htext] at h ⊢
    exact parseTp_part hwf h hspec

end Parse

end PerfProf.TpList
