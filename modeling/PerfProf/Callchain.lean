import Mathlib.Data.List.Basic
import Mathlib.Tactic.IntervalCases

/-! The two orders in which stack_helpers.c prints a call chain on one line: from the top down with
a state machine over the markers, and in reverse from two segments of the chain. -/
namespace PerfProf.Callchain

section Model

/-- `PERF_CONTEXT_KERNEL` and `PERF_CONTEXT_USER`. -/
def contextKernel : Nat := 2 ^ 64 - 128
def contextUser : Nat := 2 ^ 64 - 512

/-- `struct callchain`. -/
structure Chain where
  ips : List Nat
  nr_lt : ips.length < 2 ^ 64

/-- What the functions read of a `struct callchain_ctx`. -/
structure CallchainCtx where
  user : Bool
  print2stringKernel : Bool
  print2stringUser : Bool
  seperate : Char

/-- A frame is printed as the string that is its ip, or by what is known of the address. -/
inductive Frame where
  | string (ip : Nat)
  | kernel (ip : Nat)
  | user (ip : Nat)
deriving DecidableEq

def Frame.isString : Frame → Bool
  | .string _ => true
  | _ => false

/-- The text printed and the frames it is made of. -/
structure Out where
  text : List Char := []
  printed : Bool := false
  frames : List Frame := []

variable (cc : CallchainCtx) (text : Frame → List Char)

/-- The length of an address starts anew after the separator, that of a string does not. -/
def printFrame (f : Frame) (out : Out) : Out :=
  let sep := if out.printed then [cc.seperate] else []
  let len := if f.isString then sep.length + (text f).length else (text f).length
  { text := out.text ++ sep ++ text f
    printed := out.printed || len != 0
    frames := out.frames ++ [f] }

def printCallchainKernel (ip : Nat) : Out → Out :=
  printFrame cc text (if cc.print2stringKernel then .string ip else .kernel ip)

def printCallchainUser (ip : Nat) : Out → Out :=
  printFrame cc text (if cc.print2stringUser then .string ip else .user ip)

/-- The loop of `__print_callchain`. -/
def printFrames : List Nat → Bool → Bool → Out → Out
  | [], _, _, out => out
  | ip :: ips, kernel, user, out =>
    if ip = contextKernel then printFrames ips true false out
    else if ip = contextUser then printFrames ips false true out
    else if kernel then printFrames ips kernel user (printCallchainKernel cc text ip out)
    else if user then printFrames ips kernel user (printCallchainUser cc text ip out)
    else printFrames ips kernel user out

/-- `__print_callchain`. -/
def printCallchain (chain : Chain) : Out := printFrames cc text chain.ips false false {}

structure Segments where
  kstart : Nat := 0
  kend : Nat := 0
  ustart : Nat := 0
  uend : Nat := 0

/-- The first loop of `__print_callchain_reverse`, at index `i` of `nr`. -/
def findSegments (nr : Nat) : List Nat → Nat → Segments → Segments
  | [], _, s => s
  | ip :: ips, i, s =>
    if ip = contextKernel then
      let s := { s with kstart := i + 1, kend := nr - 1 }
      if cc.user then findSegments nr ips (i + 1) s else s
    else if ip = contextUser then
      { s with kend := (i + (2 ^ 64 - 1)) % 2 ^ 64, ustart := i + 1, uend := nr - 1 }
    else findSegments nr ips (i + 1) s

/-- `for (; end >= start; end--)`; none for an index outside the chain. -/
def printDown (print : Nat → Out → Out) (ips : List Nat) (start : Nat) : Nat → Out → Option Out
  | 0, out => if 0 < start then some out else none
  | e+1, out =>
    if e + 1 < start then some out
    else match ips[e + 1]? with
      | none => none
      | some ip =>
        printDown print ips start e
          (if ip = contextKernel ∨ ip = contextUser then out else print ip out)

/-- `__print_callchain_reverse`. -/
def printCallchainReverse (chain : Chain) : Option Out :=
  let s := findSegments cc chain.ips.length chain.ips 0 {}
  let user := if s.ustart ≠ 0 then
      printDown (printCallchainUser cc text) chain.ips s.ustart s.uend {}
    else some {}
  user.bind fun out =>
    if s.kstart ≠ 0 then
      printDown (printCallchainKernel cc text) chain.ips s.kstart s.kend out
    else some out

end Model

section Spec

/-- The reverse list is printed, with no index outside the chain. -/
def PrintsReverse (cc : CallchainCtx) (text : Frame → List Char) (chain : Chain) : Prop :=
  ∃ out, printCallchainReverse cc text chain = some out ∧
    out.frames = (printCallchain cc text chain).frames.reverse

/-- No frame stands between two kernel markers that come before every user marker. -/
def OneKernelPart (ips : List Nat) : Prop :=
  ∀ i j k : Nat, i < j → j < k → ips[i]? = some contextKernel → ips[k]? = some contextKernel →
    (∀ l < k, ips[l]? ≠ some contextUser) → ips[j]? = some contextKernel

end Spec

section Frames
variable {cc : CallchainCtx} {text : Frame → List Char} {ips xs ys : List Nat} {out : Out}

def isContext (ip : Nat) : Bool := ip == contextKernel || ip == contextUser

def framesOf (ips : List Nat) : List Frame := (ips.filter fun ip => !isContext ip).map .string

theorem framesOf_append : framesOf (xs ++ ys) = framesOf xs ++ framesOf ys := by
  rw [framesOf, List.filter_append, List.map_append, framesOf, framesOf]

theorem framesOf_cons_context {ip : Nat} (h : isContext ip = true) :
    framesOf (ip :: ips) = framesOf ips := by
  rw [framesOf, List.filter_cons_of_neg (by simp [h]), framesOf]

theorem framesOf_eq_nil : framesOf ips = [] ↔ ∀ ip ∈ ips, isContext ip = true := by
  simp [framesOf]

theorem isContext_iff {ip : Nat} : isContext ip = true ↔ ip = contextKernel ∨ ip = contextUser := by
  simp [isContext]

theorem user_ne_kernel : contextUser ≠ contextKernel := by decide

theorem printFrames_outside (h : ∀ ip ∈ xs, isContext ip = false) :
    printFrames cc text (xs ++ ips) false false out = printFrames cc text ips false false out := by
  induction xs with
  | nil => rfl
  | cons ip xs ih =>
    have hip := h ip List.mem_cons_self
    simp only [isContext, Bool.or_eq_false_iff, beq_eq_false_iff_ne] at hip
    rw [List.cons_append, printFrames, if_neg hip.1, if_neg hip.2]
    exact ih fun ip hmem => h ip (List.mem_cons_of_mem _ hmem)

section Strings
variable (hk : cc.print2stringKernel = true) (hu : cc.print2stringUser = true)
include hk hu

/-- Behind the first marker every frame is printed. -/
theorem printFrames_inside {kernel user : Bool} (h : kernel || user) :
    (printFrames cc text ips kernel user out).frames = out.frames ++ framesOf ips := by
  induction ips generalizing kernel user out with
  | nil => simp [printFrames, framesOf]
  | cons ip ips ih =>
    rw [printFrames]
    split_ifs with h₁ h₂ h₃ h₄
    · rw [ih rfl, framesOf_cons_context (isContext_iff.mpr (.inl h₁))]
    · rw [ih rfl, framesOf_cons_context (isContext_iff.mpr (.inr h₂))]
    · rw [ih h]
      simp [printCallchainKernel, printFrame, hk, framesOf, isContext, h₁, h₂]
    · rw [ih h]
      simp [printCallchainUser, printFrame, hu, framesOf, isContext, h₁, h₂]
    · simp_all

/-- What is printed of a chain: the frames behind its first marker. -/
theorem printFrames_frames {m : Nat} (h : ∀ ip ∈ xs, isContext ip = false)
    (hm : isContext m = true) :
    (printFrames cc text (xs ++ m :: ips) false false out).frames = out.frames ++ framesOf ips := by
  rw [printFrames_outside h, printFrames]
  by_cases h₁ : m = contextKernel
  · rw [if_pos h₁]
    exact printFrames_inside hk hu rfl
  · rw [if_neg h₁, if_pos ((isContext_iff.mp hm).resolve_left h₁)]
    exact printFrames_inside hk hu rfl

end Strings

/-- The loops of the reverse order print a segment of the chain backwards. -/
theorem printDown_frames {print : Nat → Out → Out}
    (hprint : ∀ ip out, (print ip out).frames = out.frames ++ [.string ip]) (ips : List Nat)
    (out : Out) {start e : Nat} (hstart : 0 < start) (he : e < ips.length) :
    ∃ out', printDown print ips start e out = some out' ∧
      out'.frames = out.frames ++ (framesOf ((ips.take (e + 1)).drop start)).reverse := by
  induction e generalizing out with
  | zero =>
    refine ⟨out, if_pos hstart, ?_⟩
    rw [List.drop_eq_nil_of_le (by rw [List.length_take]; omega)]
    simp [framesOf]
  | succ e ih =>
    rw [printDown]
    by_cases hlt : e + 1 < start
    · refine ⟨out, if_pos hlt, ?_⟩
      rw [List.drop_eq_nil_of_le (by rw [List.length_take]; omega)]
      simp [framesOf]
    · rw [if_neg hlt, List.getElem?_eq_getElem he]
      dsimp only
      obtain ⟨out', hout', hframes⟩ := ih (if ips[e + 1] = contextKernel ∨
        ips[e + 1] = contextUser then out else print ips[e + 1] out) (by omega)
      refine ⟨out', hout', hframes.trans ?_⟩
      have hseg : (ips.take (e + 1 + 1)).drop start =
          (ips.take (e + 1)).drop start ++ [ips[e + 1]] := by
        rw [List.take_succ_eq_append_getElem he,
          List.drop_append_of_le_length (by rw [List.length_take]; omega)]
      rw [hseg, framesOf_append, List.reverse_append]
      by_cases hc : ips[e + 1] = contextKernel ∨ ips[e + 1] = contextUser
      · rw [if_pos hc, framesOf_cons_context (isContext_iff.mpr hc)]
        simp [framesOf]
      · rw [if_neg hc, hprint]
        have hnot : isContext ips[e + 1] = false := by
          rw [← Bool.not_eq_true, isContext_iff]
          exact hc
        simp [framesOf, hnot]

end Frames

section Segments
variable {cc : CallchainCtx} {text : Frame → List Char} {chain : Chain} {nr i : Nat} {s : Segments}
  {xs ys f pre mid tail : List Nat}

theorem findSegments_outside (h : ∀ ip ∈ xs, isContext ip = false) :
    findSegments cc nr (xs ++ ys) i s = findSegments cc nr ys (i + xs.length) s := by
  induction xs generalizing i with
  | nil => rfl
  | cons ip xs ih =>
    have hip := h ip List.mem_cons_self
    simp only [isContext, Bool.or_eq_false_iff, beq_eq_false_iff_ne] at hip
    rw [List.cons_append, findSegments, if_neg hip.1, if_neg hip.2,
      ih fun ip hmem => h ip (List.mem_cons_of_mem _ hmem), List.length_cons]
    congr 1
    omega

/-- Before the first user marker only the kernel segment is looked for. -/
theorem findSegments_kernel (hcc : cc.user = true) (h : contextUser ∉ xs) :
    ∃ a b, findSegments cc nr (xs ++ ys) i s =
      findSegments cc nr ys (i + xs.length) { s with kstart := a, kend := b } := by
  induction xs generalizing i s with
  | nil => exact ⟨s.kstart, s.kend, rfl⟩
  | cons ip xs ih =>
    rw [List.mem_cons, not_or] at h
    rw [List.cons_append, findSegments, if_neg (Ne.symm h.1), List.length_cons,
      show i + (xs.length + 1) = i + 1 + xs.length by omega]
    by_cases hip : ip = contextKernel
    · rw [if_pos hip]
      dsimp only
      rw [if_pos hcc]
      exact ih h.2
    · rw [if_neg hip]
      exact ih h.2

theorem drop_behind {m : Nat} : (f ++ m :: xs).drop (f.length + 1) = xs := by
  rw [List.drop_append, List.drop_eq_nil_of_le (Nat.le_succ _), Nat.add_sub_cancel_left]
  rfl

/-- The chain has no marker. -/
theorem reverse_outside (h : ∀ ip ∈ chain.ips, isContext ip = false) :
    printCallchainReverse cc text chain = some {} := by
  have hs : findSegments cc chain.ips.length chain.ips 0 {} = {} := by
    have hnone := @findSegments_outside cc chain.ips.length 0 {} chain.ips [] h
    rwa [List.append_nil] at hnone
  rw [printCallchainReverse, hs]
  rfl

theorem printCallchainKernel_frames (hk : cc.print2stringKernel = true) (ip : Nat) (out : Out) :
    (printCallchainKernel cc text ip out).frames = out.frames ++ [.string ip] := by
  simp [printCallchainKernel, printFrame, hk]

theorem printCallchainUser_frames (hu : cc.print2stringUser = true) (ip : Nat) (out : Out) :
    (printCallchainUser cc text ip out).frames = out.frames ++ [.string ip] := by
  simp [printCallchainUser, printFrame, hu]

section Strings
variable (hk : cc.print2stringKernel = true) (hu : cc.print2stringUser = true)

include hu in
/-- The user marker comes first: everything behind it is one segment. -/
theorem reverse_user (hips : chain.ips = f ++ contextUser :: xs)
    (hf : ∀ ip ∈ f, isContext ip = false) :
    ∃ out, printCallchainReverse cc text chain = some out ∧
      out.frames = (framesOf xs).reverse := by
  have hlen : chain.ips.length = f.length + 1 + xs.length := by
    rw [hips, List.length_append, List.length_cons]
    omega
  have hs : ∀ n, findSegments cc n chain.ips 0 {} =
      { kend := (0 + f.length + (2 ^ 64 - 1)) % 2 ^ 64, ustart := 0 + f.length + 1
        uend := n - 1 } := by
    intro n
    rw [hips, findSegments_outside hf, findSegments, if_neg user_ne_kernel, if_pos rfl]
  obtain ⟨out, hout, hframes⟩ := printDown_frames
    (@printCallchainUser_frames cc text hu) chain.ips {} (Nat.succ_pos f.length)
    (show chain.ips.length - 1 < chain.ips.length by omega)
  refine ⟨out, ?_, ?_⟩
  · rw [printCallchainReverse, hs]
    dsimp only
    rw [if_pos (Nat.succ_ne_zero _), Nat.zero_add, hout]
    rfl
  · rw [hframes, List.take_of_length_le (by omega), hips, drop_behind]
    rfl

include hk in
/-- The kernel marker comes first and the user part of the chain is not looked for. -/
theorem reverse_kernel (hcc : cc.user = false) (hips : chain.ips = f ++ contextKernel :: xs)
    (hf : ∀ ip ∈ f, isContext ip = false) :
    ∃ out, printCallchainReverse cc text chain = some out ∧
      out.frames = (framesOf xs).reverse := by
  have hlen : chain.ips.length = f.length + 1 + xs.length := by
    rw [hips, List.length_append, List.length_cons]
    omega
  have hs : ∀ n, findSegments cc n chain.ips 0 {} =
      { kstart := 0 + f.length + 1, kend := n - 1 } := by
    intro n
    rw [hips, findSegments_outside hf, findSegments, if_pos rfl]
    dsimp only
    rw [if_neg (by rw [hcc]; decide)]
  obtain ⟨out, hout, hframes⟩ := printDown_frames
    (@printCallchainKernel_frames cc text hk) chain.ips {} (Nat.succ_pos f.length)
    (show chain.ips.length - 1 < chain.ips.length by omega)
  refine ⟨out, ?_, ?_⟩
  · rw [printCallchainReverse, hs]
    dsimp only
    rw [if_neg (not_not.mpr rfl), Option.bind_some, if_pos (Nat.succ_ne_zero _), Nat.zero_add, hout]
  · rw [hframes, List.take_of_length_le (by omega), hips, drop_behind]
    rfl

include hk hu in
/-- The last kernel marker before the first user marker starts the kernel segment. -/
theorem reverse_two (hcc : cc.user = true) (hips : chain.ips = pre ++ contextKernel :: (mid ++ tail))
    (hpre : contextUser ∉ pre) (hmid : ∀ ip ∈ mid, isContext ip = false)
    (htail : tail = [] ∨ ∃ post, tail = contextUser :: post) :
    ∃ out, printCallchainReverse cc text chain = some out ∧
      out.frames = (framesOf mid ++ framesOf tail).reverse := by
  have hlen : chain.ips.length = pre.length + 1 + mid.length + tail.length := by
    rw [hips, List.length_append, List.length_cons, List.length_append]
    omega
  have hlt := chain.nr_lt
  have hscan : ∀ n, findSegments cc n chain.ips 0 {} =
      findSegments cc n tail (pre.length + 1 + mid.length)
        { kstart := pre.length + 1, kend := n - 1 } := by
    intro n
    obtain ⟨a, b, hab⟩ := @findSegments_kernel cc n 0 {} pre (contextKernel :: (mid ++ tail))
      hcc hpre
    rw [hips, hab, findSegments, if_pos rfl]
    dsimp only
    rw [if_pos hcc, findSegments_outside hmid, Nat.zero_add]
  obtain rfl | ⟨post, rfl⟩ := htail
  · obtain ⟨out, hout, hframes⟩ := printDown_frames
      (@printCallchainKernel_frames cc text hk) chain.ips {} (Nat.succ_pos pre.length)
      (show chain.ips.length - 1 < chain.ips.length by omega)
    refine ⟨out, ?_, ?_⟩
    · rw [printCallchainReverse, hscan, findSegments]
      dsimp only
      rw [if_neg (not_not.mpr rfl), Option.bind_some, if_pos (Nat.succ_ne_zero _), hout]
    · rw [hframes, List.take_of_length_le (by omega), hips, drop_behind, framesOf_append]
      rfl
  · have hlen' : chain.ips.length = pre.length + 1 + mid.length + 1 + post.length := by
      rw [hlen, List.length_cons]
      omega
    have hwrap : (pre.length + 1 + mid.length + (2 ^ 64 - 1)) % 2 ^ 64 = pre.length + mid.length := by
      omega
    obtain ⟨out, hout, hframes⟩ := printDown_frames
      (@printCallchainUser_frames cc text hu) chain.ips {} (Nat.succ_pos (pre.length + 1 + mid.length))
      (show chain.ips.length - 1 < chain.ips.length by omega)
    obtain ⟨out', hout', hframes'⟩ := printDown_frames
      (@printCallchainKernel_frames cc text hk) chain.ips out (Nat.succ_pos pre.length)
      (show pre.length + mid.length < chain.ips.length by omega)
    have huser : (chain.ips.take (chain.ips.length - 1 + 1)).drop (pre.length + 1 + mid.length + 1) =
        post := by
      rw [List.take_of_length_le (by omega), hips, ← List.cons_append, ← List.append_assoc,
        show pre.length + 1 + mid.length = (pre ++ contextKernel :: mid).length by
          rw [List.length_append, List.length_cons]; omega, drop_behind]
    have hkernel : (chain.ips.take (pre.length + mid.length + 1)).drop (pre.length + 1) = mid := by
      rw [hips, ← List.cons_append, ← List.append_assoc, List.take_left' (by
        rw [List.length_append, List.length_cons]; omega), drop_behind]
    refine ⟨out', ?_, ?_⟩
    · rw [printCallchainReverse, hscan, findSegments, if_neg user_ne_kernel, if_pos rfl]
      dsimp only
      rw [if_pos (Nat.succ_ne_zero _), hout, Option.bind_some, if_pos (Nat.succ_ne_zero _), hwrap,
        hout']
    · rw [hframes', hframes, huser, hkernel, framesOf_cons_context (isContext_iff.mpr (.inr rfl)),
        List.reverse_append]
      rfl

end Strings

end Segments

section Parts
variable {cc : CallchainCtx} {text : Frame → List Char} {chain : Chain}
  {ips rest f pre mid tail : List Nat}

/-- A chain up to its first marker. -/
theorem context_split (ips : List Nat) : (∀ ip ∈ ips, isContext ip = false) ∨
    ∃ f m rest, ips = f ++ m :: rest ∧ (∀ ip ∈ f, isContext ip = false) ∧ isContext m = true := by
  induction ips with
  | nil => exact .inl nofun
  | cons ip ips ih =>
    by_cases hip : isContext ip = true
    · exact .inr ⟨[], ip, ips, rfl, nofun, hip⟩
    · have hout := Bool.not_eq_true _ ▸ hip
      cases ih with
      | inl hall => exact .inl (List.forall_mem_cons.mpr ⟨hout, hall⟩)
      | inr hsplit =>
        obtain ⟨f, m, rest, rfl, hf, hm⟩ := hsplit
        exact .inr ⟨ip :: f, m, rest, rfl, List.forall_mem_cons.mpr ⟨hout, hf⟩, hm⟩

/-- From a kernel marker on: the last one before the user part, and what stands around it. -/
theorem kernel_split (rest : List Nat) : ∃ pre mid tail,
    contextKernel :: rest = pre ++ contextKernel :: (mid ++ tail) ∧ contextUser ∉ pre ∧
      (∀ ip ∈ mid, isContext ip = false) ∧ (tail = [] ∨ ∃ post, tail = contextUser :: post) ∧
      (pre = [] ∨ ∃ more, pre = contextKernel :: more) := by
  induction rest with
  | nil => exact ⟨[], [], [], rfl, List.not_mem_nil, nofun, .inl rfl, .inl rfl⟩
  | cons ip rest ih =>
    obtain ⟨pre, mid, tail, hrest, hpre, hmid, htail, hhead⟩ := ih
    by_cases hu : ip = contextUser
    · exact ⟨[], [], ip :: rest, rfl, List.not_mem_nil, nofun, .inr ⟨rest, by rw [hu]⟩, .inl rfl⟩
    by_cases hk : ip = contextKernel
    · refine ⟨contextKernel :: pre, mid, tail, by rw [hk, hrest]; rfl, ?_, hmid, htail,
        .inr ⟨pre, rfl⟩⟩
      rw [List.mem_cons, not_or]
      exact ⟨user_ne_kernel, hpre⟩
    obtain rfl | ⟨more, rfl⟩ := hhead
    · refine ⟨[], ip :: mid, tail, ?_, List.not_mem_nil, ?_, htail, .inl rfl⟩
      · rw [(List.cons.inj hrest).2]
        rfl
      · refine List.forall_mem_cons.mpr ⟨?_, hmid⟩
        rw [← Bool.not_eq_true, isContext_iff]
        exact not_or.mpr ⟨hk, hu⟩
    · refine ⟨contextKernel :: ip :: more, mid, tail, ?_, ?_, hmid, htail, .inr ⟨ip :: more, rfl⟩⟩
      · rw [(List.cons.inj hrest).2]
        rfl
      · simp only [List.mem_cons, not_or] at hpre ⊢
        exact ⟨hpre.1, Ne.symm hu, hpre.2⟩

theorem getElem?_outside {k : Nat} (hf : ∀ ip ∈ f, isContext ip = false)
    (h : f[k]? = some contextKernel ∨ f[k]? = some contextUser) : False := by
  cases h with
  | inl h => exact absurd (hf _ (List.mem_of_getElem? h)) (by decide)
  | inr h => exact absurd (hf _ (List.mem_of_getElem? h)) (by decide)

theorem oneKernelPart_outside (h : ∀ ip ∈ ips, isContext ip = false) : OneKernelPart ips := by
  intro i j k _ _ hi
  exact (getElem?_outside h (.inl hi)).elim

theorem oneKernelPart_user (hf : ∀ ip ∈ f, isContext ip = false) :
    OneKernelPart (f ++ contextUser :: rest) := by
  intro i j k hij hjk hi _ hno
  have hlt : f.length < i := by
    by_contra hle
    rcases Nat.lt_or_eq_of_le (Nat.le_of_not_lt hle) with hlt | rfl
    · rw [List.getElem?_append_left hlt] at hi
      exact getElem?_outside hf (.inl hi)
    · rw [List.getElem?_append_right (Nat.le_refl _), Nat.sub_self] at hi
      exact absurd (Option.some.inj hi) user_ne_kernel
  refine absurd ?_ (hno f.length (by omega))
  rw [List.getElem?_append_right (Nat.le_refl _), Nat.sub_self]
  rfl

/-- Only markers stand between the first kernel marker and the last one. -/
theorem oneKernelPart_iff (hf : ∀ ip ∈ f, isContext ip = false) (hpre : contextUser ∉ pre)
    (hmid : ∀ ip ∈ mid, isContext ip = false)
    (htail : tail = [] ∨ ∃ post, tail = contextUser :: post)
    (hhead : pre = [] ∨ ∃ more, pre = contextKernel :: more) :
    OneKernelPart (f ++ (pre ++ contextKernel :: (mid ++ tail))) ↔
      ∀ ip ∈ pre, isContext ip = true := by
  have hat (k : Nat) : (f ++ (pre ++ contextKernel :: (mid ++ tail)))[f.length + k]? =
      (pre ++ contextKernel :: (mid ++ tail))[k]? := by
    rw [List.getElem?_append_right (Nat.le_add_right _ _), Nat.add_sub_cancel_left]
  constructor
  · intro h ip hip
    obtain ⟨j, hj, rfl⟩ := List.getElem_of_mem hip
    obtain rfl | ⟨more, rfl⟩ := hhead
    · exact absurd hip List.not_mem_nil
    cases j with
    | zero => exact isContext_iff.mpr (.inl rfl)
    | succ j =>
      have hlast := h (f.length + 0) (f.length + (j + 1))
        (f.length + (contextKernel :: more).length) (by omega) (by omega)
        (by rw [hat]; rfl) (by rw [hat, List.getElem?_append_right (Nat.le_refl _), Nat.sub_self]; rfl)
        (fun l hl hu => by
          by_cases hlf : l < f.length
          · rw [List.getElem?_append_left hlf] at hu
            exact getElem?_outside hf (.inr hu)
          · obtain ⟨d, rfl⟩ := Nat.exists_eq_add_of_le (Nat.le_of_not_lt hlf)
            rw [hat, List.getElem?_append_left (by omega)] at hu
            exact hpre (List.mem_of_getElem? hu))
      rw [hat, List.getElem?_append_left hj, List.getElem?_eq_getElem hj] at hlast
      exact isContext_iff.mpr (.inl (Option.some.inj hlast))
  · intro h i j k hij hjk hi hk hno
    have hfi : f.length ≤ i := by
      by_contra hlt
      rw [List.getElem?_append_left (Nat.lt_of_not_le hlt)] at hi
      exact getElem?_outside hf (.inl hi)
    obtain ⟨d, rfl⟩ := Nat.exists_eq_add_of_le (show f.length ≤ j by omega)
    obtain ⟨e, rfl⟩ := Nat.exists_eq_add_of_le (show f.length ≤ k by omega)
    have he : e ≤ pre.length := by
      by_contra hlt
      obtain ⟨t, ht⟩ := Nat.exists_eq_add_of_lt (Nat.lt_of_not_le hlt)
      rw [hat, List.getElem?_append_right (by omega), show e - pre.length = t + 1 by omega,
        List.getElem?_cons_succ] at hk
      by_cases htm : t < mid.length
      · rw [List.getElem?_append_left htm] at hk
        exact getElem?_outside hmid (.inl hk)
      rw [List.getElem?_append_right (Nat.le_of_not_lt htm)] at hk
      obtain rfl | ⟨post, rfl⟩ := htail
      · cases hk
      rcases Nat.eq_zero_or_pos (t - mid.length) with hz | hpos
      · rw [hz] at hk
        exact absurd (Option.some.inj hk) user_ne_kernel
      · refine hno (f.length + (pre.length + (mid.length + 1))) (by omega) ?_
        rw [hat, List.getElem?_append_right (Nat.le_add_right _ _), Nat.add_sub_cancel_left,
          List.getElem?_cons_succ, List.getElem?_append_right (Nat.le_refl _), Nat.sub_self]
        rfl
    have hd : d < pre.length := by omega
    have hj := hno (f.length + d) hjk
    rw [hat, List.getElem?_append_left hd, List.getElem?_eq_getElem hd] at hj ⊢
    have hctx := isContext_iff.mp (h _ (List.getElem_mem hd))
    exact congrArg some (hctx.resolve_right fun hu => hj (congrArg some hu))

theorem printCallchain_frames {cc : CallchainCtx} {text : Frame → List Char} {chain : Chain} {f rest : List Nat}
    {m : Nat} (hk : cc.print2stringKernel = true) (hu : cc.print2stringUser = true)
    (hips : chain.ips = f ++ m :: rest) (hf : ∀ ip ∈ f, isContext ip = false) (hm : isContext m = true) :
    (printCallchain cc text chain).frames = framesOf rest := by
  rw [printCallchain, hips]
  exact printFrames_frames hk hu hf hm

/-- A kernel part comes first, and the user part is looked for. -/
theorem printsReverse_kernel {cc : CallchainCtx} {text : Frame → List Char} {chain : Chain} {f rest : List Nat}
    (hk : cc.print2stringKernel = true) (hu : cc.print2stringUser = true) (hcc : cc.user = true)
    (hips : chain.ips = f ++ contextKernel :: rest) (hf : ∀ ip ∈ f, isContext ip = false) :
    PrintsReverse cc text chain ↔ OneKernelPart chain.ips := by
  rw [PrintsReverse, printCallchain_frames hk hu hips hf (isContext_iff.mpr (.inl rfl))]
  obtain ⟨pre, mid, tail, hrest, hpre, hmid, htail, hhead⟩ := kernel_split rest
  rw [hrest] at hips
  have hno : contextUser ∉ f ++ pre := by
    rw [List.mem_append, not_or]
    exact ⟨fun hmem => absurd (hf _ hmem) (by decide), hpre⟩
  obtain ⟨out, hout, hframes⟩ := @reverse_two cc text chain _ _ _ hk hu hcc
    (hips.trans (List.append_assoc _ _ _).symm) hno hmid htail
  have hsum : framesOf rest = framesOf pre ++ (framesOf mid ++ framesOf tail) := by
    rw [← framesOf_cons_context (isContext_iff.mpr (.inl rfl)), hrest, framesOf_append,
      framesOf_cons_context (isContext_iff.mpr (.inl rfl)), framesOf_append]
  rw [hips, hsum]
  simp only [hout, Option.some.injEq, exists_eq_left', hframes]
  rw [oneKernelPart_iff hf hpre hmid htail hhead, List.reverse_inj, List.self_eq_append_left,
    framesOf_eq_nil]

theorem printsReverse_of_oneKernelPart {cc : CallchainCtx} {text : Frame → List Char} {chain : Chain}
    (hk : cc.print2stringKernel = true) (hu : cc.print2stringUser = true)
    (h : cc.user = true → OneKernelPart chain.ips) : PrintsReverse cc text chain := by
  rcases context_split chain.ips with hnone | ⟨f, m, rest, hips, hf, hm⟩
  · refine ⟨{}, reverse_outside hnone, ?_⟩
    have hfwd := @printFrames_outside cc text [] chain.ips {} hnone
    rw [List.append_nil] at hfwd
    rw [printCallchain, hfwd]
    rfl
  have hfwd : (printCallchain cc text chain).frames = framesOf rest := printCallchain_frames hk hu hips hf hm
  rcases isContext_iff.mp hm with rfl | rfl
  · cases hcc : cc.user with
    | false =>
      rw [PrintsReverse, hfwd]
      exact reverse_kernel hk hcc hips hf
    | true => exact (printsReverse_kernel hk hu hcc hips hf).mpr (h hcc)
  · rw [PrintsReverse, hfwd]
    exact reverse_user hu hips hf

/-- The order is reversed if and only if the frames in front of the user part, where that is looked
for, stand behind one kernel marker. -/
theorem prints_reverse_iff (cc : CallchainCtx) (text : Frame → List Char) (chain : Chain)
    (hk : cc.print2stringKernel = true) (hu : cc.print2stringUser = true) :
    PrintsReverse cc text chain ↔ (cc.user = true → OneKernelPart chain.ips) := by
  refine ⟨fun h hcc => ?_, printsReverse_of_oneKernelPart hk hu⟩
  rcases context_split chain.ips with hnone | ⟨f, m, rest, hips, hf, hm⟩
  · exact oneKernelPart_outside hnone
  rcases isContext_iff.mp hm with rfl | rfl
  · exact (printsReverse_kernel hk hu hcc hips hf).mp h
  · rw [hips]
    exact oneKernelPart_user hf

/-- The context of a flame graph, folded on one line. -/
def flameCtx : CallchainCtx := ⟨true, true, true, ';'⟩

/-- The ip in hexadecimal. -/
def hexText : Frame → List Char
  | .string ip => Nat.toDigits 16 ip
  | .kernel ip => Nat.toDigits 16 ip
  | .user ip => Nat.toDigits 16 ip

/-- Behind the time of a flame graph come a kernel and a user part. -/
theorem prints_reverse_iff_flame :
    PrintsReverse flameCtx hexText
      ⟨[contextKernel - 1, 5, contextKernel, 1, 2, contextUser, 3], by decide⟩ := by
  refine (prints_reverse_iff flameCtx _ _ rfl rfl).mpr fun _ i j k hij hjk hi hk hno => ?_
  have hi' : i ≤ 6 := Nat.le_of_lt_succ (List.getElem?_eq_some_iff.mp hi).1
  have hk' : k ≤ 6 := Nat.le_of_lt_succ (List.getElem?_eq_some_iff.mp hk).1
  have hi₂ : i = 2 := by
    revert hi
    interval_cases i
    all_goals decide
  have hk₂ : k = 2 := by
    revert hk
    interval_cases k
    all_goals decide
  omega

/-- Of two kernel parts the first is lost. -/
theorem kernel_part_lost : ¬ PrintsReverse flameCtx (fun _ => [])
    ⟨[contextKernel, 1, contextKernel, 2, contextUser, 3], by decide⟩ := by
  rintro ⟨out, hout, hframes⟩
  have hback := congrArg (Option.map Out.frames) hout
  rw [Option.map_some, hframes] at hback
  exact absurd hback (by decide)

end Parts

end PerfProf.Callchain
