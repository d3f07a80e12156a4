import PerfProf.TpParse

/-! The two passes over an event string, and `tp_list_new` on the strings of the documentation. -/
namespace PerfProf.TpList
open PerfProf.CString

section Passes

variable {buf buf' : List Char} {s lo hi fuel : Nat} {events : List Event}

/-- Where the events start. -/
def starts (s : Nat) : List Event → List Nat
  | [] => []
  | e :: es => s :: starts (s + e.text.length + 1) es

/-- Each event is a string of its own. -/
def EventsAt (buf : List Char) (s : Nat) : List Event → Prop
  | [] => True
  | e :: es => StrAt buf s e.text ∧ EventsAt buf (s + e.text.length + 1) es

theorem length_starts : (starts s events).length = events.length := by
  induction events generalizing s with
  | nil => rfl
  | cons e es ih => rw [starts, List.length_cons, ih, List.length_cons]

theorem EventsAt.frame (h : EventsAt buf s events) (hsame : SameOutside lo hi buf buf') (hs : hi ≤ s) :
    EventsAt buf' s events := by
  induction events generalizing s with
  | nil => trivial
  | cons e es ih => exact ⟨h.1.frame hsame (.inr hs), ih h.2 (by omega)⟩

/-- Both passes meet the same events, in every string. -/
theorem fillNames_length {str : List Char} (h : StrAt buf s str) :
    (fillNames fuel buf s).1.length = countTp fuel str := by
  induction fuel generalizing buf s str with
  | zero => rfl
  | succ fuel ih =>
    rw [fillNames, countTp, nextSep, h.text]
    cases hsep : nextSepIn ',' none str with
    | none => cases str <;> rfl
    | some k =>
      obtain ⟨a, b, rfl, rfl⟩ := nextSepIn_some hsep
      have hrest := ih h.cut_right
      have hdrop : (a ++ ',' :: b).drop (a.length + 1) = b := by simp
      dsimp only [Option.map_some]
      rw [hdrop, ← hrest]
      rfl

theorem attrsText_shielded {attrs : List Attr} {rest : List Char} (hwf : ∀ a ∈ attrs, a.WellFormed)
    (hrest : Shielded [','] rest) : Shielded [','] (attrsText attrs ++ rest) := by
  induction attrs with
  | nil => exact hrest
  | cons a attrs ih =>
    have htext : attrsText (a :: attrs) ++ rest = a.text ++ '/' :: (attrsText attrs ++ rest) := by
      simp [attrsText]
    have ha : Shielded [','] a.text := (hwf a List.mem_cons_self).text.mono (by simp)
    have hattrs := ih fun x hx => hwf x (List.mem_cons_of_mem _ hx)
    rw [htext]
    exact shieldedIn_append ha (hattrs.cons (by decide) (by decide))

/-- No comma of an event separates events. -/
theorem Event.WellFormed.text {e : Event} (h : e.WellFormed) : Shielded [','] e.text := by
  have hhead : Shielded [','] (e.sys ++ ':' :: e.name) := h.head.mono (by simp)
  have hpart : Shielded [','] ((e.part.map Part.text).getD []) := by
    cases he : e.part with
    | none => rfl
    | some part =>
      have hwf := h.part part he
      have hfilter : Shielded [','] part.filter := hwf.filter.mono (by simp)
      have hattrs := attrsText_shielded hwf.attrs (hwf.rest.mono (by simp))
      have htail := shieldedIn_append hfilter (hattrs.cons (c := '/') (by decide) (by decide))
      exact Shielded.cons (c := '/') (by decide) (by decide) htail
  have htext : e.text = (e.sys ++ ':' :: e.name) ++ (e.part.map Part.text).getD [] := by
    simp [Event.text]
  rw [htext]
  exact shieldedIn_append hhead hpart

theorem Event.text_pos (e : Event) : 0 < e.text.length := by
  simp only [Event.text, List.length_append, List.length_cons]
  omega

theorem eventString_cons (e e' : Event) (es : List Event) :
    eventString (e :: e' :: es) = e.text ++ ',' :: eventString (e' :: es) := rfl

theorem length_eventString : events.length ≤ (eventString events).length := by
  induction events with
  | nil => exact Nat.le_refl _
  | cons e es ih =>
    have hpos := e.text_pos
    cases es with
    | nil => exact hpos
    | cons e' es =>
      rw [List.length_cons] at ih
      simp only [eventString_cons, List.length_append, List.length_cons]
      omega

theorem eventString_noNul (hwf : ∀ e ∈ events, e.WellFormed) : nul ∉ eventString events := by
  induction events with
  | nil => exact List.not_mem_nil
  | cons e es ih =>
    have he := (hwf e List.mem_cons_self).noNul
    have hes := ih fun x hx => hwf x (List.mem_cons_of_mem _ hx)
    cases es with
    | nil => exact he
    | cons e' es =>
      rw [eventString_cons, List.mem_append, List.mem_cons]
      rintro (hmem | hmem | hmem)
      · exact he hmem
      · exact absurd hmem (by decide)
      · exact hes hmem

/-- The second pass makes every event a string. -/
theorem fillNames_events (hwf : ∀ e ∈ events, e.WellFormed) (h : StrAt buf s (eventString events))
    (hfuel : events.length < fuel) :
    ∃ buf', fillNames fuel buf s = (starts s events, buf') ∧ EventsAt buf' s events ∧
      SameOutside s (s + (eventString events).length) buf buf' := by
  induction events generalizing buf s fuel with
  | nil =>
    obtain ⟨fuel, rfl⟩ : ∃ n, fuel = n + 1 := ⟨fuel - 1, by omega⟩
    refine ⟨buf, ?_, trivial, SameOutside.refl⟩
    rw [fillNames, nextSep, h.text]
    rfl
  | cons e es ih =>
    obtain ⟨fuel, rfl⟩ : ∃ n, fuel = n + 1 := ⟨fuel - 1, by omega⟩
    have he : Shielded [','] e.text := (hwf e List.mem_cons_self).text
    cases es with
    | nil =>
      have h : StrAt buf s e.text := h
      have hne : e.text.isEmpty = false := by
        rw [List.isEmpty_eq_false_iff, ← List.length_pos_iff]
        exact e.text_pos
      refine ⟨buf, ?_, ⟨h, trivial⟩, SameOutside.refl⟩
      rw [fillNames, nextSep_none h (by simp) he]
      dsimp only
      rw [h.text, hne]
      rfl
    | cons e' es =>
      have h : StrAt buf s (e.text ++ ',' :: eventString (e' :: es)) := h
      have hsep := nextSep_found h (by simp) he
      have hset : SameOutside s (s + e.text.length + 1) buf (buf.set (s + e.text.length) nul) :=
        sameOutside_set (by omega) (by omega)
      obtain ⟨buf', hfill, hat, hsame⟩ := ih (fun x hx => hwf x (List.mem_cons_of_mem _ hx)) h.cut_right
        (by simpa using hfuel)
      have hfirst := h.cut_left.frame hsame (.inl (Nat.lt_succ_self _))
      refine ⟨buf', ?_, ⟨hfirst, hat⟩, ?_⟩
      · rw [fillNames, hsep]
        dsimp only
        rw [hfill]
        rfl
      · rw [eventString_cons, List.length_append, List.length_cons]
        exact (hset.mono (Nat.le_refl _) (by omega)).trans (hsame.mono (by omega) (by omega))

end Passes

section Events

variable {env : Env} {buf : List Char} {s : Nat} {events : List Event} {ts : List (Tp (List Char))}

/-- The entries one after the other; those found before stay. -/
theorem parseTps_entries (hwf : ∀ e ∈ events, e.WellFormed) (h : EventsAt buf s events)
    (hspec : events.map (fun e => entry env e.sys e) = ts.map some) :
    ∃ buf' tps, parseTps env buf (starts s events) = some (buf', tps) ∧
      tps.map (Tp.map (Ptr.text buf')) = ts ∧ ∃ hi, SameOutside s hi buf buf' := by
  induction events generalizing buf s ts with
  | nil =>
    cases ts with
    | nil => exact ⟨buf, [], rfl, rfl, s, SameOutside.refl⟩
    | cons t ts => cases hspec
  | cons e es ih =>
    cases ts with
    | nil => cases hspec
    | cons t ts =>
      rw [List.map_cons, List.map_cons, List.cons.injEq] at hspec
      obtain ⟨buf₁, tp, hparse, hat⟩ := parseTp_entry (hwf e List.mem_cons_self) h.1 hspec.1
      have hrest := h.2.frame hat.same (Nat.le_succ _)
      obtain ⟨buf₂, tps, hparses, hmaps, hi, hsame⟩ :=
        ih (fun x hx => hwf x (List.mem_cons_of_mem _ hx)) hrest hspec.2
      have hnul : buf₁[s + e.text.length]? = some nul := by
        rw [hat.same _ (.inr (Nat.le_refl _)), h.1.ends]
      have hkept : tp.map (Ptr.text buf₂) = tp.map (Ptr.text buf₁) :=
        hat.all.map_congr fun x hx => Ptr.text_frame hx hnul hsame (Nat.lt_succ_self _)
      refine ⟨buf₂, tp :: tps, ?_, ?_, max (s + e.text.length) hi, ?_⟩
      · simp only [starts, parseTps, hparse, hparses, Option.bind_eq_bind, Option.bind_some]
      · rw [List.map_cons, hkept, hat.map, hmaps]
      · exact (hat.same.mono (Nat.le_refl _) (Nat.le_max_left _ _)).trans
          (hsame.mono (by omega) (Nat.le_max_right _ _))

/-- The strings of the list. -/
def Parsed.strings (parsed : Parsed) : List (Tp (List Char)) :=
  parsed.tp.map (Tp.map (Ptr.text parsed.eventStr))

theorem strAt_append {str : List Char} (h : nul ∉ str) : StrAt (str ++ [nul]) 0 str where
  noNul := h
  chars i hi := by rw [Nat.zero_add, List.getElem?_append_left hi]
  ends := by simp

/-- Whatever stands behind the last slash of an event, the list has the entries of the events. -/
theorem tpListNew_entries (hwf : ∀ e ∈ events, e.WellFormed) (hne : events ≠ [])
    (hspec : events.map (fun e => entry env e.sys e) = ts.map some) :
    (tpListNew env (eventString events)).map (fun parsed => (parsed.nrTp, parsed.strings)) =
      some (events.length, ts) := by
  have hstr := strAt_append (eventString_noNul hwf)
  have hcount := @fillNames_length _ _ ((eventString events).length + 1) _ hstr
  obtain ⟨buf, hfill, hat, -⟩ := fillNames_events hwf hstr (Nat.lt_succ_of_le length_eventString)
  obtain ⟨buf', tps, hparse, hmap, -⟩ := parseTps_entries hwf hat hspec
  rw [hfill, length_starts] at hcount
  have hpos : events.length ≠ 0 := by simpa using hne
  have htake : (starts 0 events).take events.length = starts 0 events := by
    rw [List.take_of_length_le (Nat.le_of_eq length_starts)]
  unfold tpListNew
  rw [hfill, ← hcount]
  dsimp only
  rw [if_neg hpos, length_starts, if_neg (Nat.lt_irrefl _), htake, hparse]
  simp only [Option.bind_eq_bind, Option.bind_some, Option.map_some, Parsed.strings, hmap]

end Events

section Documented

/-- Parsed as documented: both passes count the same, there is one entry for each event, with its
components without quotes, and what stands behind a last slash is an error. -/
structure ParsedAs (env : Env) (events : List Event) (ts : List (Tp (List Char))) : Prop where
  counted : ∀ fuel, (fillNames fuel (eventString events ++ [nul]) 0).1.length =
    countTp fuel (eventString events)
  parsed : (tpListNew env (eventString events)).map (fun parsed => (parsed.nrTp, parsed.strings)) =
    if ∀ e ∈ events, e.rest = [] then some (events.length, ts) else none

/-- For all that tracefs, the symbols, `expr_compile` and the rest may answer, as long as the events
are there. -/
def Documented (events : List Event) : Prop :=
  ∀ env ts, events.map (fun e => entry env (unquote e.sys) e) = ts.map some → ParsedAs env events ts

/-- Every event is there, and every attribute is right. -/
def accepting : Env where
  eventId _ _ := 1
  hasEvent _ _ := true
  hasField _ _ _ := false
  kprobeType := true
  uprobeType := true
  fileOffset _ _ := none
  compiles _ _ := true
  blockList _ _ := true
  vcpuInfo _ := true
  cpus _ := true
  monitorFind _ := false
  openSource _ := false

theorem setAttr_accepting {str : List Char → List Char} (n : Int) (attr : List Char)
    (value : Option (List Char)) (tp : Tp (List Char)) :
    (setAttr accepting str n attr value tp).map Tp.sys = some tp.sys := by
  simp only [setAttr, exprAttr, accepting, if_true, apply_ite (Option.map Tp.sys),
    Option.map_some, ite_self]

theorem foldlM_accepting {n : Int} {attrs : List Attr} {tp : Tp (List Char)} :
    (attrs.foldlM (fun tp a => setAttr accepting id n a.name (a.value.map unquote) tp) tp).map Tp.sys =
      some tp.sys := by
  induction attrs generalizing tp with
  | nil => rfl
  | cons a attrs ih =>
    obtain ⟨tp', htp', hsys⟩ := Option.map_eq_some_iff.mp (setAttr_accepting n a.name (a.value.map unquote) tp)
    rw [List.foldlM_cons, htp', ← hsys]
    exact ih

theorem entry_accepting (sys : List Char) (e : Event) :
    (entry accepting sys e).map Tp.sys = some (some sys) := by
  obtain ⟨tp, htp, hsys⟩ := Option.map_eq_some_iff.mp
    (@foldlM_accepting 1 e.attrs (startTp ⟨1, some sys, unquote e.name, true, none, none, 0⟩))
  have hfound : findEvent accepting sys (unquote e.name) =
      some ⟨1, some sys, unquote e.name, true, none, none, 0⟩ := rfl
  have hfield (found : Found (List Char)) (attr : Option (List Char)) (field : List Char) :
      fieldAttr accepting id id found attr field = some attr := by
    simp [fieldAttr, accepting]
  rw [entry, hfound, Option.bind_eq_bind, Option.bind_some, htp]
  simp only [finishTp, hfield, Option.bind_eq_bind, Option.bind_some, Option.map_some, hsys]
  rfl

theorem exists_entries (sys : Event → List Char) (events : List Event) :
    ∃ ts : List (Tp (List Char)), events.map (fun e => entry accepting (sys e) e) = ts.map some := by
  induction events with
  | nil => exact ⟨[], rfl⟩
  | cons e es ih =>
    obtain ⟨ts, hts⟩ := ih
    obtain ⟨t, ht, -⟩ := Option.map_eq_some_iff.mp (entry_accepting (sys e) e)
    exact ⟨t :: ts, by rw [List.map_cons, List.map_cons, ht, hts]⟩

/-- Event strings are parsed as documented exactly when there is an event, every event ends with the
last slash of its attributes and the quotes are not around its `sys`. -/
theorem documented_iff {events : List Event} (hwf : ∀ e ∈ events, e.WellFormed) :
    Documented events ↔ events ≠ [] ∧ ∀ e ∈ events, e.rest = [] ∧ unquote e.sys = e.sys := by
  constructor
  · intro h
    have hne : events ≠ [] := by
      rintro rfl
      have hparsed := (h accepting [] rfl).parsed
      cases hparsed
    obtain ⟨ts, hts⟩ := exists_entries (fun e => unquote e.sys) events
    obtain ⟨ts', hts'⟩ := exists_entries Event.sys events
    have hparsed := (h accepting ts hts).parsed
    rw [tpListNew_entries hwf hne hts'] at hparsed
    by_cases hrest : ∀ e ∈ events, e.rest = []
    · rw [if_pos hrest, Option.some.injEq, Prod.mk.injEq] at hparsed
      refine ⟨hne, fun e he => ⟨hrest e he, ?_⟩⟩
      rw [hparsed.2, ← hts, List.map_inj_left] at hts'
      have hsys := congrArg (Option.map Tp.sys) (hts' e he)
      rw [entry_accepting, entry_accepting, Option.some.injEq, Option.some.injEq] at hsys
      exact hsys.symm
    · rw [if_neg hrest] at hparsed
      cases hparsed
  · rintro ⟨hne, hevents⟩ env ts hts
    have hsys : events.map (fun e => entry env (unquote e.sys) e) =
        events.map (fun e => entry env e.sys e) :=
      List.map_congr_left fun e he => by rw [(hevents e he).2]
    refine ⟨fun fuel => fillNames_length (strAt_append (eventString_noNul hwf)), ?_⟩
    rw [if_pos fun e he => (hevents e he).1]
    exact tpListNew_entries hwf hne (hsys ▸ hts)

/-- A filter and a value with separators in their quotes. -/
def switchStack : Event :=
  ⟨"sched".toList, "sched_switch".toList,
    some ⟨"\"comm=='a/b,c'\"".toList, [⟨"stack".toList, none⟩, ⟨"key".toList, some "'x/y'".toList⟩], []⟩⟩

/-- The role of the multi-trace test, without a slash behind it. -/
def switchRole : Event :=
  ⟨"sched".toList, "sched_switch".toList,
    some ⟨[], [], "role=\"(next_pid?1:0)|(prev_pid?2:0)\"".toList⟩⟩

theorem documented_iff_switchStack : Documented [switchStack, ⟨"sched".toList, "sched_wakeup".toList, none⟩] := by
  refine (documented_iff ?_).mpr (by decide)
  intro e he
  rw [List.mem_cons, List.mem_singleton] at he
  rcases he with rfl | rfl
  · refine ⟨rfl, by decide, rfl, ?_, by decide⟩
    rintro part ⟨rfl⟩
    refine ⟨rfl, ?_, rfl⟩
    intro a ha
    rw [List.mem_cons, List.mem_singleton] at ha
    rcases ha with rfl | rfl
    · exact ⟨rfl, nofun⟩
    · refine ⟨rfl, ?_⟩
      rintro value ⟨rfl⟩
      rfl
  · exact ⟨rfl, by decide, rfl, nofun, by decide⟩

/-- The list has the event, and nothing of the role. -/
theorem role_ignored : ¬ Documented [switchRole] ∧
    (tpListNew accepting "sched:sched_switch//role=\"(next_pid?1:0)|(prev_pid?2:0)\"".toList).map
      (fun parsed => parsed.strings.map Tp.role) = some [none] := by
  constructor
  · intro h
    obtain ⟨ts, hts⟩ := exists_entries (fun e => unquote e.sys) [switchRole]
    have hparsed := (h accepting ts hts).parsed
    have hsome : (tpListNew accepting (eventString [switchRole])).isSome = true := by decide +kernel
    have hrest : ¬ ∀ e ∈ [switchRole], e.rest = [] := by decide
    rw [if_neg hrest, Option.map_eq_none_iff] at hparsed
    rw [hparsed] at hsome
    cases hsome
  · decide +kernel

end Documented

end PerfProf.TpList
