import PerfProf.FlameKey

/-! The stacks that are printed: a key tells everything of its stack, and its line is the names of
the stack with separators in between. -/
namespace PerfProf.FlameGraph
open Rblist UniqueStr Callchain
open PerfProf.Top (CStr)

section Spec

/-- The texts from the first one that is not empty on, with separators in between. -/
def fold (sep : Char) (texts : List (List Char)) : List Char := [sep].intercalate (texts.dropWhile List.isEmpty)

/-- The names of a stack, from the kernel up. -/
def Ident.shown (i : Ident) : List CStr := i.kernel.getD [] ++ i.names

/-- The names in the order of the output. -/
def Graph.order (fg : Graph) (names : List CStr) : List CStr := if fg.reverse then names.reverse else names

/-- The text of a stack. -/
def Graph.stackText (fg : Graph) (i : Ident) : List Char :=
  let text := fold fg.cc.seperate ((fg.order i.shown).map chars)
  text ++ if text = [] then [] else [fg.endChar]

/-- There is a section, names stand behind a user marker, and the time is no marker. -/
structure Ident.Proper (i : Ident) : Prop where
  marked : i.kernel = none → i.marks ≠ 0
  isolated : i.marks = 0 → i.names = []
  plain : isContext i.time = false

end Spec

section Words
variable {a : CStr → Nat} {i j : Ident} {xs ys r s : List Nat} {ss ts : List CStr}

/-- What stands in front of the first marker, and what from there on. -/
theorem append_marker_inj (hxs : ∀ ip ∈ xs, isContext ip = false) (hys : ∀ ip ∈ ys, isContext ip = false)
    (hr : ∀ ip ∈ r.head?, isContext ip = true) (hs : ∀ ip ∈ s.head?, isContext ip = true)
    (h : xs ++ r = ys ++ s) : xs = ys ∧ r = s := by
  induction xs generalizing ys with
  | nil =>
    cases ys with
    | nil => exact ⟨rfl, h⟩
    | cons y ys =>
      rw [List.nil_append] at h
      rw [h] at hr
      have hy := hys y List.mem_cons_self
      rw [hr y rfl] at hy
      cases hy
  | cons x xs ih =>
    obtain ⟨hx, hxs⟩ := List.forall_mem_cons.mp hxs
    cases ys with
    | nil =>
      rw [List.nil_append] at h
      rw [← h] at hs
      rw [hs x rfl] at hx
      cases hx
    | cons y ys =>
      obtain ⟨rfl, htail⟩ := List.cons.inj h
      obtain ⟨rfl, hrs⟩ := ih hxs (List.forall_mem_cons.mp hys).2 htail
      exact ⟨rfl, hrs⟩

theorem replicate_append_inj {m n : Nat} (hxs : ∀ ip ∈ xs, isContext ip = false)
    (hys : ∀ ip ∈ ys, isContext ip = false)
    (h : List.replicate m contextUser ++ xs = List.replicate n contextUser ++ ys) : m = n ∧ xs = ys := by
  have hfirst {k : Nat} {zs ws : List Nat} (hws : ∀ ip ∈ ws, isContext ip = false) :
      ws ≠ List.replicate (k + 1) contextUser ++ zs := by
    rintro rfl
    exact absurd (hws contextUser List.mem_cons_self) (by decide)
  induction m generalizing n with
  | zero =>
    cases n with
    | zero => exact ⟨rfl, h⟩
    | succ n => exact absurd h (hfirst hxs)
  | succ m ih =>
    cases n with
    | zero => exact absurd h.symm (hfirst hys)
    | succ n =>
      obtain ⟨hmn, hxy⟩ := ih (List.cons.inj h).2
      exact ⟨congrArg (· + 1) hmn, hxy⟩

/-- The addresses of strings are those of no other strings. -/
def Tells (a : CStr → Nat) (ss : List CStr) : Prop := ∀ s ∈ ss, ∀ t, a s = a t → s = t

theorem map_tells_inj (ha : Tells a ss) (h : ss.map a = ts.map a) : ss = ts := by
  induction ss generalizing ts with
  | nil => exact (List.map_eq_nil_iff.mp h.symm).symm
  | cons s ss ih =>
    cases ts with
    | nil => cases h
    | cons t ts =>
      obtain ⟨hs, hss⟩ := List.forall_mem_cons.mp ha
      obtain ⟨heq, htail⟩ := List.cons.inj h
      rw [hs t heq, ih hss htail]

theorem map_plain (hplain : ∀ s, isContext (a s) = false) (ss : List CStr) :
    ∀ ip ∈ ss.map a, isContext ip = false := by
  intro ip hip
  obtain ⟨s, -, rfl⟩ := List.mem_map.mp hip
  exact hplain s

/-- The words behind the time. -/
def Ident.body (a : CStr → Nat) (i : Ident) : List Nat :=
  i.kernel.elim [] (fun ks => contextKernel :: ks.map a) ++
    (List.replicate i.marks contextUser ++ i.names.map a)

theorem user_head (hi : i.Proper) (a : CStr → Nat) :
    ∀ ip ∈ (List.replicate i.marks contextUser ++ i.names.map a).head?, ip = contextUser := by
  cases hm : i.marks with
  | zero =>
    rw [hi.isolated hm]
    exact nofun
  | succ k =>
    rintro ip hip
    exact (Option.some.inj hip).symm

theorem body_cons (hi : i.Proper) (a : CStr → Nat) :
    ∃ mark rest, i.body a = mark :: rest ∧ isContext mark = true ∧ (mark = contextKernel ↔ i.kernel.isSome) := by
  unfold Ident.body
  cases hk : i.kernel with
  | some ks => exact ⟨contextKernel, _, rfl, rfl, iff_of_true rfl rfl⟩
  | none =>
    obtain ⟨n, hn⟩ := Nat.exists_eq_succ_of_ne_zero (hi.marked hk)
    rw [hn]
    exact ⟨contextUser, _, rfl, rfl, iff_of_false user_ne_kernel Bool.false_ne_true⟩

theorem body_inj (hi : i.Proper) (hj : j.Proper) (hplain : ∀ s, isContext (a s) = false) (ha : Tells a i.shown)
    (h : i.body a = j.body a) : i.kernel = j.kernel ∧ i.marks = j.marks ∧ i.names = j.names := by
  obtain ⟨mark, rest, hbody, -, hmark⟩ := body_cons hi a
  obtain ⟨mark', rest', hbody', -, hmark'⟩ := body_cons hj a
  have hsome : i.kernel.isSome ↔ j.kernel.isSome := by
    rw [← hmark, ← hmark', (List.cons.inj (hbody.symm.trans (h.trans hbody'))).1]
  have hnames : Tells a i.names := fun s hs => ha s (List.mem_append_right _ hs)
  have huser {i j : Ident} (hnames : Tells a i.names) (h : List.replicate i.marks contextUser ++ i.names.map a =
      List.replicate j.marks contextUser ++ j.names.map a) : i.marks = j.marks ∧ i.names = j.names := by
    obtain ⟨hm, hn⟩ := replicate_append_inj (map_plain hplain _) (map_plain hplain _) h
    exact ⟨hm, map_tells_inj hnames hn⟩
  unfold Ident.body at h
  cases hk : i.kernel with
  | none =>
    cases hk' : j.kernel with
    | none =>
      rw [hk, hk'] at h
      exact ⟨rfl, huser hnames h⟩
    | some ks' =>
      rw [hk, hk'] at hsome
      exact absurd (hsome.mpr rfl) Bool.false_ne_true
  | some ks =>
    cases hk' : j.kernel with
    | none =>
      rw [hk, hk'] at hsome
      exact absurd (hsome.mp rfl) Bool.false_ne_true
    | some ks' =>
      rw [hk, hk'] at h
      have hhead {i : Ident} (hi : i.Proper) (ip : Nat)
          (hip : ip ∈ (List.replicate i.marks contextUser ++ i.names.map a).head?) : isContext ip = true := by
        rw [user_head hi a ip hip]
        rfl
      obtain ⟨hks, hrest⟩ := append_marker_inj (map_plain hplain ks) (map_plain hplain ks') (hhead hi) (hhead hj)
        (List.cons.inj h).2
      have htells : Tells a ks := by
        intro s hs
        apply ha
        rw [Ident.shown, hk]
        exact List.mem_append_left _ hs
      exact ⟨congrArg some (map_tells_inj htells hks), huser hnames hrest⟩

theorem time_plain {t : Nat} (ht : isContext t = false) :
    ∀ ip ∈ (if t = 0 then [] else [contextFlameGraph, t]), isContext ip = false := by
  split_ifs
  · exact nofun
  · intro ip hip
    rcases List.mem_cons.mp hip with rfl | hip
    · decide
    · rw [List.mem_singleton.mp hip]
      exact ht

/-- A key tells everything of its stack. -/
theorem words_inj (hi : i.Proper) (hj : j.Proper) (hplain : ∀ s, isContext (a s) = false) (ha : Tells a i.shown)
    (h : i.words a = j.words a) : i = j := by
  obtain ⟨mark, rest, hbody, hmark, -⟩ := body_cons hi a
  obtain ⟨mark', rest', hbody', hmark', -⟩ := body_cons hj a
  have hhead {i : Ident} {mark : Nat} {rest : List Nat} (hbody : i.body a = mark :: rest)
      (hmark : isContext mark = true)
      (ip : Nat) (hip : ip ∈ (i.body a).head?) : isContext ip = true := by
    rw [hbody] at hip
    rw [← Option.some.inj hip]
    exact hmark
  obtain ⟨htimes, hbodies⟩ := append_marker_inj (time_plain hi.plain) (time_plain hj.plain) (hhead hbody hmark)
    (hhead hbody' hmark') h
  obtain ⟨hk, hm, hn⟩ := body_inj hi hj hplain ha hbodies
  have ht : i.time = j.time := by
    by_cases hti : i.time = 0
    · by_cases htj : j.time = 0
      · rw [hti, htj]
      · rw [if_pos hti, if_neg htj] at htimes
        cases htimes
    · by_cases htj : j.time = 0
      · rw [if_neg hti, if_pos htj] at htimes
        cases htimes
      · rw [if_neg hti, if_neg htj] at htimes
        exact (List.cons.inj (List.cons.inj htimes).2).1
  cases i
  cases j
  simp only [Ident.mk.injEq]
  exact ⟨ht, hk, hm, hn⟩

end Words

section Text
variable {cc : CallchainCtx} {text : Frame → List Char} {out out' : Out} {frames : List Frame} {ips : List Nat}

/-- The output is what its frames make, printed one behind the other. -/
def Made (cc : CallchainCtx) (text : Frame → List Char) (out : Out) : Prop :=
  out = out.frames.foldl (fun out f => printFrame cc text f out) {}

theorem made_init (cc : CallchainCtx) (text : Frame → List Char) : Made cc text {} := rfl

theorem Made.printFrame (h : Made cc text out) (f : Frame) : Made cc text (printFrame cc text f out) := by
  have hframes : (Callchain.printFrame cc text f out).frames = out.frames ++ [f] := rfl
  unfold Made
  rw [hframes, List.foldl_concat, ← h]

theorem printFrames_made (h : Made cc text out) (ips : List Nat) (kernel user : Bool) :
    Made cc text (printFrames cc text ips kernel user out) := by
  induction ips generalizing kernel user out with
  | nil => exact h
  | cons ip ips ih =>
    unfold printFrames
    split_ifs
    · exact ih h _ _
    · exact ih h _ _
    · exact ih (h.printFrame _) _ _
    · exact ih (h.printFrame _) _ _
    · exact ih h _ _

theorem printDown_made {print : Nat → Out → Out} (hprint : ∀ ip out, Made cc text out → Made cc text (print ip out))
    (h : Made cc text out) {start e : Nat} (heq : printDown print ips start e out = some out') : Made cc text out' := by
  induction e generalizing out with
  | zero =>
    unfold printDown at heq
    split_ifs at heq
    cases heq
    exact h
  | succ e ih =>
    unfold printDown at heq
    split_ifs at heq
    · cases heq
      exact h
    · cases hip : ips[e + 1]? with
      | none =>
        rw [hip] at heq
        cases heq
      | some ip =>
        rw [hip] at heq
        refine ih ?_ heq
        split_ifs
        · exact h
        · exact hprint ip out h

theorem printCallchainReverse_made {chain : Chain} (h : printCallchainReverse cc text chain = some out) :
    Made cc text out := by
  obtain ⟨out₁, huser, hkernel⟩ := Option.bind_eq_some_iff.mp h
  have hmade : Made cc text out₁ := by
    split_ifs at huser
    · exact printDown_made (fun ip out hout => hout.printFrame _) (made_init _ _) huser
    · cases huser
      exact made_init _ _
  split_ifs at hkernel
  · exact printDown_made (fun ip out hout => hout.printFrame _) hmade hkernel
  · cases hkernel
    exact hmade

theorem intercalate_cons (sep : Char) (t : List Char) (ts : List (List Char)) :
    [sep].intercalate (t :: ts) = t ++ ts.flatMap (sep :: ·) := by
  induction ts generalizing t with
  | nil => rw [List.intercalate_singleton, List.flatMap_nil, List.append_nil]
  | cons u ts ih =>
    rw [List.intercalate_cons_cons, ih, List.flatMap_cons]
    simp

/-- After the first text every other one has a separator in front of it. -/
theorem foldl_printed (cc : CallchainCtx) (text : Frame → List Char) (h : out.printed = true) (frames : List Frame) :
    (frames.foldl (fun out f => printFrame cc text f out) out).text =
        out.text ++ (frames.map text).flatMap (cc.seperate :: ·) ∧
      (frames.foldl (fun out f => printFrame cc text f out) out).printed = true := by
  induction frames generalizing out with
  | nil => exact ⟨(List.append_nil _).symm, h⟩
  | cons f frames ih =>
    have hf : (printFrame cc text f out).printed = true := by simp [printFrame, h]
    obtain ⟨htext, hprinted⟩ := ih hf
    refine ⟨?_, hprinted⟩
    rw [List.foldl_cons, htext]
    simp [printFrame, h]

theorem foldl_text (cc : CallchainCtx) (text : Frame → List Char) (h : out.printed = false) (hnil : out.text = [])
    (frames : List Frame) :
    (frames.foldl (fun out f => printFrame cc text f out) out).text = fold cc.seperate (frames.map text) ∧
      ((frames.foldl (fun out f => printFrame cc text f out) out).printed = false ↔
        fold cc.seperate (frames.map text) = []) := by
  induction frames generalizing out with
  | nil => exact ⟨hnil, iff_of_true h rfl⟩
  | cons f frames ih =>
    by_cases hf : text f = []
    · have hprinted : (printFrame cc text f out).printed = false := by simp [printFrame, h, hf]
      have htext : (printFrame cc text f out).text = [] := by simp [printFrame, h, hf, hnil]
      have hfold : fold cc.seperate ((f :: frames).map text) = fold cc.seperate (frames.map text) := by
        simp [fold, hf]
      rw [List.foldl_cons, hfold]
      exact ih hprinted htext
    · have hlen : (text f).length ≠ 0 := fun h => hf (List.length_eq_zero_iff.mp h)
      have hprinted : (printFrame cc text f out).printed = true := by simp [printFrame, h, hf]
      have htext : (printFrame cc text f out).text = text f := by simp [printFrame, h, hnil]
      have hfold : fold cc.seperate ((f :: frames).map text) =
          text f ++ (frames.map text).flatMap (cc.seperate :: ·) := by
        rw [← intercalate_cons, fold, List.map_cons, List.dropWhile_cons_of_neg (by simp [hf])]
      obtain ⟨heq, hdone⟩ := foldl_printed cc text hprinted frames
      rw [List.foldl_cons, hfold, heq, htext, hdone]
      exact ⟨rfl, iff_of_false (by decide) fun h => hf (List.append_eq_nil_iff.mp h).1⟩

theorem Made.text_eq (h : Made cc text out) : out.text = fold cc.seperate (out.frames.map text) ∧
    (out.printed = false ↔ fold cc.seperate (out.frames.map text) = []) := by
  have hfold := @foldl_text {} cc text rfl rfl out.frames
  rw [← h] at hfold
  exact hfold

end Text

section Stack
variable {fg : Graph} {st : Strings} {key : Key} {a : CStr → Nat} {i : Ident}

@[simp] theorem Key.chain_ips : key.chain.ips = key.ips := rfl

theorem framesOf_plain {ips : List Nat} (h : ∀ ip ∈ ips, isContext ip = false) : framesOf ips = ips.map .string := by
  unfold framesOf
  rw [List.filter_eq_self.mpr fun ip hip => by simp [h ip hip]]

theorem framesOf_body (hplain : ∀ s, isContext (a s) = false) (i : Ident) :
    framesOf (i.body a) = i.shown.map fun s => .string (a s) := by
  have hmarks : framesOf (List.replicate i.marks contextUser) = [] := by
    rw [framesOf_eq_nil]
    intro ip hip
    rw [List.eq_of_mem_replicate hip]
    rfl
  have hnames (ss : List CStr) : framesOf (ss.map a) = ss.map fun s => .string (a s) := by
    rw [framesOf_plain (map_plain hplain ss), List.map_map]
    rfl
  unfold Ident.body Ident.shown
  rw [framesOf_append, framesOf_append, hmarks, List.nil_append, hnames, List.map_append]
  cases i.kernel with
  | none => rfl
  | some ks => exact congrArg (· ++ _) ((framesOf_cons_context rfl).trans (hnames ks))

/-- With one kernel marker, in front of everything else, there is one kernel part. -/
theorem oneKernelPart_of_notMem {f rest : List Nat} {mark : Nat} (hf : ∀ ip ∈ f, isContext ip = false)
    (hrest : contextKernel ∉ rest) : OneKernelPart (f ++ mark :: rest) := by
  intro i j k hij hjk hi hk _
  have hge : f.length ≤ i := by
    by_contra hlt
    push Not at hlt
    rw [List.getElem?_append_left hlt] at hi
    have hno := hf _ (List.mem_of_getElem? hi)
    cases hno
  rw [List.getElem?_append_right (by omega), List.getElem?_cons] at hk
  rw [if_neg (by omega)] at hk
  exact absurd (List.mem_of_getElem? hk) hrest

theorem kernel_notMem (hplain : ∀ s, isContext (a s) = false) {mark : Nat} {rest : List Nat}
    (h : i.body a = mark :: rest) : contextKernel ∉ rest := by
  have hnames (ss : List CStr) : contextKernel ∉ ss.map a := by
    intro hmem
    have hno := map_plain hplain ss _ hmem
    cases hno
  have huser : contextKernel ∉ List.replicate i.marks contextUser ++ i.names.map a := by
    intro hmem
    rcases List.mem_append.mp hmem with hmem | hmem
    · exact user_ne_kernel (List.eq_of_mem_replicate hmem).symm
    · exact hnames _ hmem
  unfold Ident.body at h
  cases hk : i.kernel with
  | none =>
    rw [hk] at h
    intro hmem
    have h : List.replicate i.marks contextUser ++ i.names.map a = mark :: rest := h
    rw [h] at huser
    exact huser (List.mem_cons_of_mem _ hmem)
  | some ks =>
    rw [hk] at h
    rw [← (List.cons.inj h).2]
    intro hmem
    rcases List.mem_append.mp hmem with hmem | hmem
    · exact hnames _ hmem
    · exact huser hmem

/-- A stack is printed as its names. -/
theorem printStack_eq (hi : i.Proper) (hplain : ∀ s, isContext (a s) = false)
    (hstr : ∀ s ∈ i.shown, st.strAt (a s) = s) (hkey : key.ips = i.words a) :
    printStack fg st key = some (fg.stackText i) := by
  obtain ⟨mark, rest, hbody, hmark, -⟩ := body_cons hi a
  have hwords : key.ips = (if i.time = 0 then [] else [contextFlameGraph, i.time]) ++ mark :: rest := by
    rw [hkey, ← hbody]
    rfl
  have hne : key.ips ≠ [] := by
    rw [hwords]
    exact List.append_ne_nil_of_right_ne_nil _ (List.cons_ne_nil mark rest)
  have htime := time_plain hi.plain
  have hforward : (printCallchain fg.cc (textOf st) key.chain).frames = i.shown.map fun s => .string (a s) := by
    rw [printCallchain, Key.chain_ips, hwords, printFrames_frames rfl rfl htime hmark, ← framesOf_body hplain i, hbody,
      framesOf_cons_context hmark]
    rfl
  have htext : (i.shown.map fun s => Frame.string (a s)).map (textOf st) = i.shown.map chars := by
    rw [List.map_map]
    exact List.map_congr_left fun s hs => congrArg chars (hstr s hs)
  have hprint : ∃ out, (if fg.reverse then printCallchainReverse fg.cc (textOf st) key.chain
        else some (printCallchain fg.cc (textOf st) key.chain)) = some out ∧ Made fg.cc (textOf st) out ∧
      out.frames.map (textOf st) = (fg.order i.shown).map chars := by
    unfold Graph.order
    cases fg.reverse with
    | false => exact ⟨_, rfl, printFrames_made (made_init _ _) _ _ _, (congrArg _ hforward).trans htext⟩
    | true =>
      have hone : OneKernelPart key.chain.ips := by
        rw [Key.chain_ips, hwords]
        exact oneKernelPart_of_notMem htime (kernel_notMem hplain hbody)
      have hreverse : PrintsReverse fg.cc (textOf st) key.chain :=
        printsReverse_of_oneKernelPart rfl rfl fun _ => hone
      obtain ⟨out, hout, hframes⟩ := hreverse
      refine ⟨out, hout, printCallchainReverse_made hout, ?_⟩
      rw [hframes, hforward, List.map_reverse, htext]
      exact List.map_reverse.symm
  obtain ⟨out, hout, hmade, hframes⟩ := hprint
  obtain ⟨heq, hprinted⟩ := hmade.text_eq
  rw [hframes] at heq hprinted
  unfold printStack
  rw [if_neg hne, hout, Option.map_some, heq]
  unfold Graph.stackText
  dsimp only
  by_cases hnil : fold fg.cc.seperate ((fg.order i.shown).map chars) = []
  · rw [if_pos hnil, hprinted.mpr hnil]
    rfl
  · rw [if_neg hnil, if_pos (Bool.of_not_eq_false fun h => hnil (hprinted.mp h))]

end Stack

end PerfProf.FlameGraph
