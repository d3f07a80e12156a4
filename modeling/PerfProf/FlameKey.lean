import PerfProf.FlameGraph

/-! The key of a stack: what a call tells of it, the words that this makes with the addresses of
the strings, and that the key stays within its array. -/
namespace PerfProf.FlameGraph
open Rblist UniqueStr Callchain
open PerfProf.Top (CStr)

section Spec

/-- What the key tells of a stack. -/
structure Ident where
  time : Nat
  kernel : Option (List CStr)
  marks : Nat
  names : List CStr
deriving DecidableEq

def Call.kernelNames (c : Call) : Option (List CStr) := c.chain.kernel.map fun ips => ips.map c.kernelText

def Call.userNames (c : Call) : List CStr := (c.chain.user.getD []).map c.userText

/-- The comm or the pid, and the time. -/
def Call.added (fg : Graph) (c : Call) : List CStr :=
  (if fg.user then [c.commOrPid] else []) ++ if c.time = 0 then [] else c.timeStr.toList

/-- How many user markers the key gets: that of the callchain and, if no frame stands behind it, one more in
front of what is added. -/
def Call.marks (fg : Graph) (c : Call) : Nat :=
  (if c.chain.user.isSome then 1 else 0) + if c.userNames = [] ∧ c.added fg ≠ [] then 1 else 0

def Call.ident (fg : Graph) (c : Call) : Ident :=
  ⟨c.time, c.kernelNames, c.marks fg, c.userNames ++ c.added fg⟩

/-- The key, if `a` has the addresses of the strings. -/
def Ident.words (a : CStr → Nat) (i : Ident) : List Nat :=
  (if i.time = 0 then [] else [contextFlameGraph, i.time]) ++
    (i.kernel.elim [] (fun ks => contextKernel :: ks.map a) ++
      (List.replicate i.marks contextUser ++ i.names.map a))

/-- The strings that a call makes unique. -/
def Call.requests (fg : Graph) (c : Call) : List CStr :=
  if c.chain.ips = [] then [] else c.kernelNames.getD [] ++ (c.userNames ++ c.added fg)

end Spec

section Convert
variable {bal : Rebalance UniqueString} {m : Malloc} {cc : CallchainCtx} {c : Call} {ss : List CStr} {s : Conv}
  {kernel user : Bool} {text : Nat → CStr} {xs : List Nat}

/-- The flags say that a frame is replaced by the string that `text` makes of it. -/
def Replaces (bal : Rebalance UniqueString) (m : Malloc) (cc : CallchainCtx) (c : Call) (kernel user : Bool)
    (text : Nat → CStr) : Prop :=
  ∀ ip ips s, isContext ip = false →
    print2string bal m cc c (ip :: ips) kernel user s =
      let str := uniqueString bal m (text ip) s.strings
      let r := print2string bal m cc c ips kernel user { s with strings := str.2 }
      (str.1 :: r.1, r.2)

theorem not_context {ip : Nat} (h : isContext ip = false) : ip ≠ contextKernel ∧ ip ≠ contextUser := by
  constructor
  · rintro rfl
    cases h
  · rintro rfl
    cases h

theorem replaces_kernel (hcc : cc.print2stringKernel = true) : Replaces bal m cc c true false c.kernelText := by
  intro ip ips s hip
  obtain ⟨hk, hu⟩ := not_context hip
  rw [print2string, if_neg hk, if_neg hu, hcc, if_pos (by rfl)]

theorem replaces_user (hcc : cc.print2stringUser = true) : Replaces bal m cc c false true c.userText := by
  intro ip ips s hip
  obtain ⟨hk, hu⟩ := not_context hip
  rw [print2string, if_neg hk, if_neg hu, if_neg (by simp), hcc, if_pos (by rfl)]

/-- The frames of a section are replaced by their strings. -/
theorem Replaces.frames (hrep : Replaces bal m cc c kernel user text) (hs : Stores m s.strings ss)
    (hxs : ∀ ip ∈ xs, isContext ip = false) (rest : List Nat) :
    ∃ strings, Stores m strings (ss ++ xs.map text) ∧
      print2string bal m cc c (xs ++ rest) kernel user s =
        let r := print2string bal m cc c rest kernel user { s with strings := strings }
        ((xs.map text).map (addrOf m (ss ++ xs.map text)) ++ r.1, r.2) := by
  induction xs generalizing ss s with
  | nil => exact ⟨s.strings, by rwa [List.map_nil, List.append_nil], rfl⟩
  | cons ip xs ih =>
    obtain ⟨hip, hxs⟩ := List.forall_mem_cons.mp hxs
    have haddr := hs.uniqueString_addr bal (text ip)
    obtain ⟨strings, hstrings, hrun⟩ := ih (s := { s with strings := (uniqueString bal m (text ip) s.strings).2 })
      (hs.uniqueString bal (text ip)) hxs
    rw [List.append_assoc] at hstrings hrun
    refine ⟨strings, hstrings, ?_⟩
    rw [List.cons_append, hrep ip _ s hip]
    dsimp only
    rw [hrun, haddr]
    have hmem : text ip ∈ ss ++ [text ip] := List.mem_append_right _ (List.mem_singleton.mpr rfl)
    have hsame := addrOf_append (m := m) hmem (xs.map text)
    rw [List.append_assoc] at hsame
    rw [← hsame]
    rfl

/-- The words in front of every section marker stay. -/
theorem print2string_outside (hxs : ∀ ip ∈ xs, isContext ip = false) (rest : List Nat) :
    print2string bal m cc c (xs ++ rest) false false s =
      let r := print2string bal m cc c rest false false s
      (xs ++ r.1, r.2) := by
  induction xs with
  | nil => rfl
  | cons ip xs ih =>
    obtain ⟨hip, hxs⟩ := List.forall_mem_cons.mp hxs
    obtain ⟨hk, hu⟩ := not_context hip
    rw [List.cons_append, print2string, if_neg hk, if_neg hu, if_neg (by simp), if_neg (by simp), ih hxs]
    rfl

/-- The user section. -/
theorem print2string_user (bal : Rebalance UniqueString) (hcc : cc.print2stringUser = true)
    (hs : Stores m s.strings ss) {us : Option (List Nat)} (hus : ∀ ip ∈ us.getD [], isContext ip = false)
    (kernel user : Bool) :
    ∃ strings, Stores m strings (ss ++ (us.getD []).map c.userText) ∧
      print2string bal m cc c (us.elim [] (contextUser :: ·)) kernel user s =
        (us.elim [] fun us => contextUser :: (us.map c.userText).map (addrOf m (ss ++ us.map c.userText)),
          { s with strings := strings, userNum := s.userNum + if us.getD [] = [] then 0 else 1 }) := by
  cases us with
  | none => exact ⟨s.strings, by rwa [Option.getD_none, List.map_nil, List.append_nil], rfl⟩
  | some us =>
    have hnum : (if us = [] then s.userNum else s.userNum + 1) = s.userNum + if us = [] then 0 else 1 := by
      split_ifs <;> rfl
    have hreplaces : Replaces bal m cc c false true c.userText := replaces_user hcc
    obtain ⟨strings, hstrings, hrun⟩ := hreplaces.frames
      (s := { s with userNum := s.userNum + if us = [] then 0 else 1 }) hs hus []
    refine ⟨strings, hstrings, ?_⟩
    rw [List.append_nil] at hrun
    dsimp only [Option.getD_some, print2string] at hrun
    dsimp only [Option.elim_some, Option.getD_some]
    rw [print2string, if_neg (by decide), if_pos rfl, hnum]
    dsimp only
    rw [hrun, List.append_nil]

/-- The kernel section and what is behind it. -/
theorem print2string_kernel (bal : Rebalance UniqueString) (hcc : cc.print2stringKernel = true)
    (hs : Stores m s.strings ss) {ks : Option (List Nat)} (hks : ∀ ip ∈ ks.getD [], isContext ip = false)
    (rest : List Nat) :
    ∃ strings flag, Stores m strings (ss ++ (ks.getD []).map c.kernelText) ∧
      print2string bal m cc c (ks.elim [] (contextKernel :: ·) ++ rest) false false s =
        let num := if ks.isSome ∧ ks.getD [] ++ rest ≠ [] then 1 else 0
        let r := print2string bal m cc c rest flag false
          { s with strings := strings, kernelNum := s.kernelNum + num }
        (ks.elim [] (fun ks => contextKernel :: (ks.map c.kernelText).map (addrOf m (ss ++ ks.map c.kernelText))) ++
          r.1, r.2) := by
  cases ks with
  | none => exact ⟨s.strings, false, by rwa [Option.getD_none, List.map_nil, List.append_nil], rfl⟩
  | some ks =>
    have hnum : (if ks ++ rest = [] then s.kernelNum else s.kernelNum + 1) =
        s.kernelNum + if (some ks).isSome ∧ ks ++ rest ≠ [] then 1 else 0 := by
      by_cases h : ks ++ rest = []
      · rw [if_pos h, if_neg (by simp [h])]
        rfl
      · rw [if_neg h, if_pos ⟨rfl, h⟩]
    have hreplaces : Replaces bal m cc c true false c.kernelText := replaces_kernel hcc
    obtain ⟨strings, hstrings, hrun⟩ := hreplaces.frames
      (s := { s with kernelNum := s.kernelNum + if (some ks).isSome ∧ ks ++ rest ≠ [] then 1 else 0 }) hs hks rest
    refine ⟨strings, true, hstrings, ?_⟩
    dsimp only [Option.getD_some] at hrun
    dsimp only [Option.elim_some, Option.getD_some]
    rw [List.cons_append, print2string, if_pos rfl, hnum]
    dsimp only
    rw [hrun]
    rfl

/-- The strings of the frames. -/
def Call.frameNames (c : Call) : List CStr := c.kernelNames.getD [] ++ c.userNames

/-- The words of both sections. -/
def Call.sectionWords (a : CStr → Nat) (c : Call) : List Nat :=
  c.kernelNames.elim [] (fun ks => contextKernel :: ks.map a) ++
    (List.replicate (if c.chain.user.isSome then 1 else 0) contextUser ++ c.userNames.map a)

theorem map_addrOf_append {ss' : List CStr} (h : ss' ⊆ ss) (ts : List CStr) :
    ss'.map (addrOf m (ss ++ ts)) = ss'.map (addrOf m ss) :=
  List.map_congr_left fun _ hs => addrOf_append (h hs) ts

theorem getD_map (f : List Nat → List CStr) (hf : f [] = []) (o : Option (List Nat)) :
    (o.map f).getD [] = f (o.getD []) := by
  cases o with
  | none => exact hf.symm
  | some l => rfl

/-- A whole callchain, behind words that are no markers. -/
theorem print2string_sections (bal : Rebalance UniqueString) (cc : CallchainCtx)
    (hk : cc.print2stringKernel = true) (hu : cc.print2stringUser = true)
    {strings : Strings} (hs : Stores m strings ss) (hxs : ∀ ip ∈ xs, isContext ip = false) :
    ∃ conv : Conv, Stores m conv.strings (ss ++ c.frameNames) ∧
      print2string bal m cc c (xs ++ c.chain.ips) false false ⟨strings, 0, 0⟩ =
        (xs ++ c.sectionWords (addrOf m (ss ++ c.frameNames)), conv) ∧
      conv.kernelNum = (if c.chain.kernel.isSome ∧
        c.chain.kernel.getD [] ++ c.chain.user.elim [] (contextUser :: ·) ≠ [] then 1 else 0) ∧
      conv.userNum = if c.chain.user.getD [] = [] then 0 else 1 := by
  obtain ⟨hks, hus⟩ := List.forall_mem_append.mp c.chain.plain
  have hkn : c.kernelNames.getD [] = (c.chain.kernel.getD []).map c.kernelText := getD_map _ rfl _
  obtain ⟨strings₁, flag, hs₁, hrun₁⟩ := print2string_kernel bal (c := c) (s := ⟨strings, 0, 0⟩) hk hs hks
    (c.chain.user.elim [] (contextUser :: ·))
  rw [← hkn] at hs₁
  dsimp only at hrun₁
  obtain ⟨strings₂, hs₂, hrun₂⟩ := print2string_user bal (c := c) (s := ⟨strings₁, 0 + if c.chain.kernel.isSome ∧
      c.chain.kernel.getD [] ++ c.chain.user.elim [] (contextUser :: ·) ≠ [] then 1 else 0, 0⟩) hu hs₁ hus flag false
  rw [hrun₂] at hrun₁
  refine ⟨⟨strings₂, _, _⟩, ?_, ?_, Nat.zero_add _, Nat.zero_add _⟩
  · rw [Call.frameNames, ← List.append_assoc]
    exact hs₂
  · rw [print2string_outside hxs, Sections.ips, hrun₁]
    dsimp only
    congr 2
    unfold Call.sectionWords Call.frameNames Call.kernelNames Call.userNames
    cases c.chain.kernel with
    | none =>
      cases c.chain.user with
      | none => rfl
      | some us => simp
    | some ks =>
      have hsame (ts : List CStr) := map_addrOf_append (m := m) (List.subset_append_right ss (ks.map c.kernelText)) ts
      simp only [List.append_assoc] at hsame
      dsimp only [Option.elim_some, Option.map_some, Option.getD_some]
      cases c.chain.user with
      | none => simp
      | some us => simp [← hsame (us.map c.userText)]

/-- The counters of markers add up to the length of the callchain only if it is empty. -/
theorem nums_eq_length (c : Call) :
    ((if c.chain.kernel.isSome ∧
        c.chain.kernel.getD [] ++ c.chain.user.elim [] (contextUser :: ·) ≠ [] then 1 else 0) +
      if c.chain.user.getD [] = [] then 0 else 1) = c.chain.ips.length ↔ c.chain.ips = [] := by
  unfold Sections.ips
  cases c.chain.kernel with
  | none =>
    cases c.chain.user with
    | none => simp
    | some us => cases us <;> simp
  | some ks =>
    cases c.chain.user with
    | none => cases ks <;> simp
    | some us =>
      cases us
      · cases ks <;> simp
      · cases ks <;> simp

end Convert

section Put
variable {bal : Rebalance UniqueString} {m : Malloc} {ss : List CStr} {mk : Making}

/-- A string behind the user marker. -/
def Making.put (bal : Rebalance UniqueString) (m : Malloc) (str : CStr) (mk : Making) : Option Making :=
  mk.isolate.bind (Making.name bal m str)

/-- The markers that are put in front of `names`. -/
def Making.isolation (mk : Making) (names : List CStr) : Nat := if mk.userNum = 0 ∧ names ≠ [] then 1 else 0

theorem Key.append_eq {key : Key} {ws : List Nat} (h : (key.ips ++ ws).length ≤ keySize) :
    key.append ws = some ⟨key.ips ++ ws, h⟩ := dif_pos h

theorem Making.isolate_eq (h : mk.key.ips.length < keySize) :
    ∃ mk' : Making, mk.isolate = some mk' ∧ mk'.strings = mk.strings ∧ mk'.userNum ≠ 0 ∧
      mk'.key.ips = mk.key.ips ++ List.replicate (if mk.userNum = 0 then 1 else 0) contextUser := by
  unfold isolate
  by_cases hnum : mk.userNum = 0
  · have hfits : (mk.key.ips ++ [contextUser]).length ≤ keySize := by
      rw [List.length_append]
      exact h
    rw [if_pos hnum, Key.append_eq hfits]
    exact ⟨_, rfl, rfl, Nat.succ_ne_zero _, by rw [if_pos hnum]; rfl⟩
  · rw [if_neg hnum]
    exact ⟨mk, rfl, rfl, hnum, by rw [if_neg hnum]; exact (List.append_nil _).symm⟩

theorem Making.name_eq (bal : Rebalance UniqueString) (hs : Stores m mk.strings ss)
    (h : mk.key.ips.length < keySize) (str : CStr) :
    ∃ mk' : Making, mk.name bal m str = some mk' ∧ Stores m mk'.strings (ss ++ [str]) ∧ mk'.userNum = mk.userNum ∧
      mk'.key.ips = mk.key.ips ++ [addrOf m (ss ++ [str]) str] := by
  have hfits : (mk.key.ips ++ [(uniqueString bal m str mk.strings).1]).length ≤ keySize := by
    rw [List.length_append]
    exact h
  unfold name
  dsimp only
  rw [Key.append_eq hfits]
  refine ⟨_, rfl, hs.uniqueString bal str, rfl, ?_⟩
  exact congrArg (fun addr => mk.key.ips ++ [addr]) (hs.uniqueString_addr bal str)

theorem Making.put_eq (bal : Rebalance UniqueString) (hs : Stores m mk.strings ss) (str : CStr)
    (h : mk.key.ips.length + (mk.isolation [str] + 1) ≤ keySize) :
    ∃ mk' : Making, mk.put bal m str = some mk' ∧ Stores m mk'.strings (ss ++ [str]) ∧ mk'.userNum ≠ 0 ∧
      mk'.key.ips = mk.key.ips ++
        (List.replicate (mk.isolation [str]) contextUser ++ [addrOf m (ss ++ [str]) str]) := by
  have hiso : mk.isolation [str] = if mk.userNum = 0 then 1 else 0 := by simp [isolation]
  obtain ⟨mk₁, heq₁, hstrings, hnum, hips₁⟩ := @isolate_eq mk (by omega)
  rw [← hiso] at hips₁
  have hlen : mk₁.key.ips.length < keySize := by
    rw [hips₁, List.length_append, List.length_replicate]
    omega
  rw [← hstrings] at hs
  obtain ⟨mk₂, heq₂, hs₂, hnum₂, hips₂⟩ := name_eq bal hs hlen str
  refine ⟨mk₂, ?_, hs₂, hnum₂ ▸ hnum, ?_⟩
  · rw [put, heq₁]
    exact heq₂
  · rw [hips₂, hips₁, List.append_assoc]

theorem Making.isolation_zero {names : List CStr} (h : mk.userNum ≠ 0) : mk.isolation names = 0 :=
  if_neg fun hboth => h hboth.1

/-- Strings put one behind the other, and the marker in front of the first. -/
theorem Making.puts_eq (bal : Rebalance UniqueString) (mk : Making) (hs : Stores m mk.strings ss) (names : List CStr)
    (h : mk.key.ips.length + (mk.isolation names + names.length) ≤ keySize) :
    ∃ mk' : Making, names.foldlM (fun mk str => mk.put bal m str) mk = some mk' ∧
      Stores m mk'.strings (ss ++ names) ∧
      mk'.key.ips = mk.key.ips ++
        (List.replicate (mk.isolation names) contextUser ++ names.map (addrOf m (ss ++ names))) := by
  induction names generalizing mk ss with
  | nil => exact ⟨mk, rfl, by rwa [List.append_nil], by simp [isolation]⟩
  | cons str names ih =>
    have hiso : mk.isolation (str :: names) = mk.isolation [str] := by simp [isolation]
    rw [hiso, List.length_cons] at h
    obtain ⟨mk₁, heq₁, hs₁, hnum₁, hips₁⟩ := put_eq bal hs str (by omega)
    have hfits : mk₁.key.ips.length + (mk₁.isolation names + names.length) ≤ keySize := by
      rw [isolation_zero hnum₁, hips₁, List.length_append, List.length_append, List.length_replicate,
        List.length_singleton]
      omega
    obtain ⟨mk₂, heq₂, hs₂, hips₂⟩ := ih mk₁ hs₁ hfits
    rw [List.append_assoc] at hs₂ hips₂
    refine ⟨mk₂, ?_, hs₂, ?_⟩
    · rw [List.foldlM_cons, heq₁]
      exact heq₂
    · have hmem : str ∈ ss ++ [str] := List.mem_append_right _ (List.mem_singleton.mpr rfl)
      have hsame := addrOf_append (m := m) hmem names
      rw [List.append_assoc] at hsame
      rw [hips₂, hips₁, isolation_zero hnum₁, hiso, ← hsame]
      simp

end Put

section Add
variable {bal : Balance} {m : Memory} {fg : Graph} {st : State} {c : Call} {ss : List CStr}

theorem adds_eq (bal : Rebalance UniqueString) (m : Malloc) (fg : Graph) (c : Call) (mk : Making) :
    (addComm bal m fg c mk).bind (addTimeStr bal m c) = (c.added fg).foldlM (fun mk str => mk.put bal m str) mk := by
  have htime (mk : Making) : addTimeStr bal m c mk =
      (if c.time = 0 then [] else c.timeStr.toList).foldlM (fun mk str => mk.put bal m str) mk := by
    unfold addTimeStr
    cases c.timeStr with
    | none => split_ifs <;> rfl
    | some str =>
      split_ifs
      · rfl
      · exact (Option.bind_fun_some _).symm
  have hcc : (fg.cc.user && fg.cc.print2stringUser) = fg.user := Bool.and_true fg.user
  unfold Call.added addComm
  rw [List.foldlM_append, hcc, funext htime]
  cases fg.user with
  | false => rfl
  | true =>
    change _ = ((mk.put bal m c.commOrPid).bind some).bind _
    rw [Option.bind_fun_some]
    rfl

theorem startKey_eq (c : Call) : ∃ start : Key, startKey c = some start ∧ start.ips.length ≤ 2 ∧
    start.ips = (if c.time = 0 then [] else [contextFlameGraph, c.time]) ∧
    ∀ ip ∈ start.ips, isContext ip = false := by
  unfold startKey
  split_ifs with htime
  · exact ⟨Key.empty, rfl, Nat.zero_le _, rfl, nofun⟩
  · have hfits : [contextFlameGraph, c.time].length ≤ keySize := Nat.le_add_left 2 138
    refine ⟨⟨[contextFlameGraph, c.time], hfits⟩, rfl, Nat.le_refl _, rfl, ?_⟩
    intro ip hip
    rcases List.mem_cons.mp hip with rfl | hip
    · decide
    · rw [List.mem_singleton.mp hip]
      exact c.time_plain

theorem userNames_nil (c : Call) : c.userNames = [] ↔ c.chain.user.getD [] = [] := List.map_eq_nil_iff

theorem added_length (fg : Graph) (c : Call) : (c.added fg).length ≤ 2 := by
  unfold Call.added
  rw [List.length_append]
  have hcomm : (if fg.user then [c.commOrPid] else []).length ≤ 1 := by split_ifs <;> simp
  have htime : (if c.time = 0 then [] else c.timeStr.toList).length ≤ 1 := by
    split_ifs
    · exact Nat.zero_le _
    · cases c.timeStr <;> simp
  omega

theorem length_sectionWords (a : CStr → Nat) (c : Call) : (c.sectionWords a).length = c.chain.ips.length := by
  unfold Call.sectionWords Call.kernelNames Call.userNames Sections.ips
  cases c.chain.kernel with
  | none => cases c.chain.user <;> simp
  | some ks => cases c.chain.user <;> simp

/-- The frames and what is added, with the markers in between. -/
theorem words_eq (fg : Graph) (c : Call) (ss : List CStr) :
    (c.ident fg).words (addrOf m.toMalloc (ss ++ (c.frameNames ++ c.added fg))) =
      (if c.time = 0 then [] else [contextFlameGraph, c.time]) ++
        c.sectionWords (addrOf m.toMalloc (ss ++ c.frameNames)) ++
        (List.replicate (if c.userNames = [] ∧ c.added fg ≠ [] then 1 else 0) contextUser ++
          (c.added fg).map (addrOf m.toMalloc (ss ++ (c.frameNames ++ c.added fg)))) := by
  have hframes : ∀ names, names ⊆ c.frameNames → names.map (addrOf m.toMalloc (ss ++ (c.frameNames ++ c.added fg))) =
      names.map (addrOf m.toMalloc (ss ++ c.frameNames)) := by
    intro names hnames
    rw [← List.append_assoc]
    exact map_addrOf_append (List.Subset.trans hnames (List.subset_append_right _ _)) _
  have huser := hframes c.userNames (List.subset_append_right _ _)
  have hkernel : c.kernelNames.elim [] (fun ks => contextKernel ::
        ks.map (addrOf m.toMalloc (ss ++ (c.frameNames ++ c.added fg)))) =
      c.kernelNames.elim [] (fun ks => contextKernel :: ks.map (addrOf m.toMalloc (ss ++ c.frameNames))) := by
    cases hk : c.kernelNames with
    | none => rfl
    | some ks =>
      have hks : ks ⊆ c.frameNames := by
        rw [Call.frameNames, hk]
        exact List.subset_append_left _ _
      exact congrArg (contextKernel :: ·) (hframes ks hks)
  unfold Ident.words Call.ident Call.sectionWords
  dsimp only
  rw [hkernel, List.map_append, huser, Call.marks, List.replicate_add]
  by_cases hnil : c.userNames = []
  · simp only [hnil, List.map_nil, List.nil_append, List.append_nil, List.append_assoc]
  · have hno : ¬ (c.userNames = [] ∧ c.added fg ≠ []) := fun h => hnil h.1
    rw [if_neg hno]
    simp only [List.replicate_zero, List.nil_append, List.append_nil, List.append_assoc]

theorem frameNames_nil (h : c.chain.ips = []) : c.frameNames = [] ∧ ∀ a, c.sectionWords a = [] := by
  have hlen (a : CStr → Nat) : c.sectionWords a = [] := by
    rw [← List.length_eq_zero_iff, length_sectionWords, h]
    rfl
  refine ⟨?_, hlen⟩
  have hwords := hlen fun _ => 0
  unfold Call.sectionWords at hwords
  obtain ⟨hkernel, huser⟩ := List.append_eq_nil_iff.mp hwords
  have huser := List.map_eq_nil_iff.mp (List.append_eq_nil_iff.mp huser).2
  unfold Call.frameNames
  rw [huser, List.append_nil]
  cases hk : c.kernelNames with
  | none => rfl
  | some ks =>
    rw [hk] at hkernel
    cases hkernel

/-- What a call does: with no words in the callchain nothing, else its key is counted. -/
theorem add_spec (hs : Stores m.toMalloc st.strings ss) (bal : Balance) (fg : Graph) (c : Call) :
    ∃ strings, Stores m.toMalloc strings (ss ++ c.requests fg) ∧
      (c.chain.ips = [] → flameGraphAddCallchainAtTime bal m.toMalloc fg st c = some ⟨strings, st.pairs⟩) ∧
      (c.chain.ips ≠ [] → ∃ key : Key, key.ips = (c.ident fg).words (addrOf m.toMalloc (ss ++ c.requests fg)) ∧
        flameGraphAddCallchainAtTime bal m.toMalloc fg st c = some ⟨strings, addKey bal.pairs key st.pairs⟩) := by
  obtain ⟨start, hstart, hlen, hips, hplain⟩ := startKey_eq c
  have hshort := c.short
  have hfits : (start.ips ++ c.chain.ips).length ≤ keySize := by
    rw [List.length_append]
    unfold keySize
    omega
  obtain ⟨conv, hconv, hrun, hkn, hun⟩ := print2string_sections bal.strings fg.cc (c := c) rfl rfl hs hplain
  have hnums := nums_eq_length c
  rw [← hkn, ← hun] at hnums
  have hadd : ∃ key : Key, key.ips = start.ips ++ c.sectionWords (addrOf m.toMalloc (ss ++ c.frameNames)) ∧
      flameGraphAddCallchainAtTime bal m.toMalloc fg st c = addConverted bal m.toMalloc fg st c key conv := by
    refine ⟨(print2stringCallchain bal.strings m.toMalloc fg.cc c st.strings ⟨_, hfits⟩).1, congrArg Prod.fst hrun, ?_⟩
    unfold flameGraphAddCallchainAtTime
    rw [hstart, Option.bind_some, Key.append_eq hfits, Option.bind_some]
    exact congrArg (addConverted bal m.toMalloc fg st c _) (congrArg Prod.snd hrun)
  obtain ⟨key, hkey, hadd⟩ := hadd
  rw [hadd, addConverted]
  by_cases hnil : c.chain.ips = []
  · refine ⟨conv.strings, ?_, fun _ => if_pos (hnums.mpr hnil), fun h => absurd hnil h⟩
    rw [Call.requests, if_pos hnil, ← (frameNames_nil hnil).1]
    exact hconv
  · have hiso : Making.isolation ⟨key, conv.userNum, conv.strings⟩ (c.added fg) =
        if c.userNames = [] ∧ c.added fg ≠ [] then 1 else 0 := by
      unfold Making.isolation
      dsimp only
      rw [hun]
      by_cases huser : c.chain.user.getD [] = []
      · simp [huser, userNames_nil]
      · simp [huser, userNames_nil]
    have hroom : key.ips.length + (Making.isolation ⟨key, conv.userNum, conv.strings⟩ (c.added fg) +
        (c.added fg).length) ≤ keySize := by
      have hadded := added_length fg c
      have hone : Making.isolation ⟨key, conv.userNum, conv.strings⟩ (c.added fg) ≤ 1 := by
        unfold Making.isolation
        split_ifs <;> decide
      rw [hkey, List.length_append, length_sectionWords]
      unfold keySize
      omega
    obtain ⟨mk, hputs, hstrings, hmk⟩ := Making.puts_eq bal.strings ⟨key, conv.userNum, conv.strings⟩ hconv
      (c.added fg) hroom
    have hreq : c.requests fg = c.frameNames ++ c.added fg := by
      rw [Call.requests, if_neg hnil, Call.frameNames, List.append_assoc]
    rw [List.append_assoc] at hstrings hmk
    refine ⟨mk.strings, hreq ▸ hstrings, fun h => absurd h hnil, fun _ => ⟨mk.key, ?_, ?_⟩⟩
    · rw [hmk, hiso, hreq, words_eq, hkey, hips]
    · have hmap := Option.map_bind (x := addComm bal.strings m.toMalloc fg c ⟨key, conv.userNum, conv.strings⟩)
        (f := addTimeStr bal.strings m.toMalloc c)
        (g := fun mk => State.mk mk.strings (addKey bal.pairs mk.key st.pairs))
      rw [adds_eq, hputs] at hmap
      rw [if_neg fun h => hnil (hnums.mp h)]
      exact hmap.symm

end Add

end PerfProf.FlameGraph
