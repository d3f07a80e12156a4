import PerfProf.BlktraceFollow

/-! blktrace.c: which delays the rows of the report are made of. A delay is added up under the stage that
it leads to, whatever the stage before was. -/
namespace PerfProf.Blktrace
open PerfProf.Rblist

section Spec

/-- A row reports these delays. -/
structure Row.Reports (greaterThan : UInt64) (row : Row) (delays : List UInt64) : Prop where
  reqs : row.reqs = delays.length
  total : row.total.toNat = (delays.map UInt64.toNat).sum
  min : row.min = delays.min?.getD 0
  max : row.max = delays.max?.getD 0
  than : row.than.map Prod.fst = if greaterThan ≠ 0 then some (delays.countP fun d => d > greaterThan) else none

/-- All delays to a stage are from the one before it, and their sum is a number of 64 bits. -/
def Direct (type : BlockTp → Nat) (hs : List Happening) (first second : BlockTp) : Prop :=
  (∀ p ∈ pairsOf type (windowsOf hs) hs, p.2.tp = second → p.1.tp = first) ∧
    ((delaysOf type hs first second).map UInt64.toNat).sum < 2 ^ 64

end Spec

section Add
variable {greaterThan : UInt64} {iostat : BlockIostat}

/-- Some delays are added up. -/
theorem foldl_add (greaterThan : UInt64) (delays : List UInt64) (iostat : BlockIostat) :
    let added := delays.foldl (fun iostat delta => iostat.add greaterThan delta) iostat
    added.n = iostat.n + delays.length ∧
      added.sum.toNat = (iostat.sum.toNat + (delays.map UInt64.toNat).sum) % 2 ^ 64 ∧
      added.min = delays.foldl min iostat.min ∧ added.max = delays.foldl max iostat.max ∧
      added.than = iostat.than + if greaterThan ≠ 0 then delays.countP fun d => d > greaterThan else 0 := by
  induction delays generalizing iostat with
  | nil => exact ⟨rfl, (Nat.mod_eq_of_lt iostat.sum.toNat_lt).symm, rfl, rfl, by split_ifs <;> rfl⟩
  | cons delta delays ih =>
    obtain ⟨hn, hsum, hmin, hmax, hthan⟩ := ih (iostat.add greaterThan delta)
    have hsmaller : (iostat.add greaterThan delta).min = min iostat.min delta := by
      have hle : min iostat.min delta = if iostat.min ≤ delta then iostat.min else delta := rfl
      rw [hle]
      unfold BlockIostat.add
      dsimp only
      by_cases hlt : delta < iostat.min
      · rw [if_pos hlt, if_neg (UInt64.not_le.mpr hlt)]
      · rw [if_neg hlt, if_pos (UInt64.not_lt.mp hlt)]
    have hlarger : (iostat.add greaterThan delta).max = max iostat.max delta := by
      have hle : max iostat.max delta = if iostat.max ≤ delta then delta else iostat.max := rfl
      rw [hle]
      unfold BlockIostat.add
      dsimp only
      by_cases hlt : delta > iostat.max
      · rw [if_pos hlt, if_pos (UInt64.le_of_lt hlt)]
      · rw [if_neg hlt]
        split_ifs with hle'
        · exact UInt64.le_antisymm hle' (UInt64.not_lt.mp hlt)
        · rfl
    have hcount : (iostat.add greaterThan delta).than =
        if greaterThan ≠ 0 ∧ delta > greaterThan then iostat.than + 1 else iostat.than := rfl
    refine ⟨?_, ?_, ?_, ?_, ?_⟩
    · rw [List.foldl_cons, hn, List.length_cons]
      exact Nat.add_right_comm iostat.n 1 delays.length
    · rw [List.foldl_cons, hsum, List.map_cons, List.sum_cons, ← Nat.add_assoc]
      have hadd : (iostat.add greaterThan delta).sum.toNat = (iostat.sum.toNat + delta.toNat) % 2 ^ 64 :=
        UInt64.toNat_add iostat.sum delta
      rw [hadd, Nat.mod_add_mod]
    · rw [List.foldl_cons, hmin, hsmaller, List.foldl_cons]
    · rw [List.foldl_cons, hmax, hlarger, List.foldl_cons]
    · rw [List.foldl_cons, hthan, hcount]
      by_cases hzero : greaterThan = 0
      · simp only [hzero, ne_eq, not_true_eq_false, false_and, if_false]
      · simp only [ne_eq, hzero, not_false_eq_true, true_and, if_true, List.countP_cons, decide_eq_true_eq]
        split_ifs <;> omega

/-- No delay is above the largest number. -/
theorem foldl_min_top (delays : List UInt64) (hne : delays ≠ []) :
    delays.foldl min (UInt64.ofNat (2 ^ 64 - 1)) = delays.min?.getD 0 := by
  cases delays with
  | nil => exact absurd rfl hne
  | cons delta delays =>
    have hmin : min (UInt64.ofNat (2 ^ 64 - 1)) delta = delta := by
      have hle : min (UInt64.ofNat (2 ^ 64 - 1)) delta =
          if UInt64.ofNat (2 ^ 64 - 1) ≤ delta then UInt64.ofNat (2 ^ 64 - 1) else delta := rfl
      rw [hle]
      split_ifs with htop
      · have hlt := delta.toNat_lt
        refine UInt64.le_antisymm htop (UInt64.le_iff_toNat_le.mpr ?_)
        have htopNat : (UInt64.ofNat (2 ^ 64 - 1)).toNat = 2 ^ 64 - 1 := by decide
        omega
      · rfl
    rw [List.foldl_cons, hmin, List.min?_cons', Option.getD_some]

theorem foldl_max_zero (delays : List UInt64) : delays.foldl max 0 = delays.max?.getD 0 := by
  cases delays with
  | nil => rfl
  | cons delta delays =>
    have hmax : max 0 delta = delta := if_pos UInt64.zero_le
    rw [List.foldl_cons, hmax, List.max?_cons', Option.getD_some]

end Add

section Rows
variable {greaterThan : UInt64} {type : BlockTp → Nat} {hs : List Happening} {first second : BlockTp}

/-- The delays to a stage since the last report, from whatever stage. -/
def delaysTo (type : BlockTp → Nat) (hs : List Happening) (second : BlockTp) : List UInt64 :=
  ((pairsOf type (windowsOf hs) hs).filter fun p => p.2.tp = second).map delayOf

/-- A row reports all delays to its second stage, but their sum overflows. -/
theorem Stream.row (hstream : Stream type hs) (bal : Rebalance RequestTrack) (greaterThan : UInt64)
    (first second : BlockTp) :
    let row := rowOf greaterThan (run bal greaterThan type (inputsOf hs)).stats first second
    row.reqs = (delaysTo type hs second).length ∧
      row.total.toNat = ((delaysTo type hs second).map UInt64.toNat).sum % 2 ^ 64 ∧
      row.min = (delaysTo type hs second).min?.getD 0 ∧ row.max = (delaysTo type hs second).max?.getD 0 ∧
      row.than.map Prod.fst =
        if greaterThan ≠ 0 then some ((delaysTo type hs second).countP fun d => d > greaterThan) else none := by
  have hstats := (hstream.follows bal greaterThan (List.prefix_refl hs)).stats second
  have hfold : (run bal greaterThan type (inputsOf hs)).stats second = (delaysTo type hs second).foldl
      (fun iostat delta => iostat.add greaterThan delta) ((blktraceInit type).stats second) := by
    rw [hstats, delaysTo, List.foldl_map]
  obtain ⟨hn, hsum, hmin, hmax, hthan⟩ :=
    foldl_add greaterThan (delaysTo type hs second) ((blktraceInit type).stats second)
  rw [← hfold] at hn hsum hmin hmax hthan
  have hn' : ((run bal greaterThan type (inputsOf hs)).stats second).n = (delaysTo type hs second).length :=
    hn.trans (Nat.zero_add _)
  dsimp only [rowOf]
  refine ⟨hn', ?_, ?_, hmax.trans (foldl_max_zero _), ?_⟩
  · rw [hsum]
    exact congrArg (· % 2 ^ 64) (Nat.zero_add _)
  · rw [hn']
    by_cases hnil : delaysTo type hs second = []
    · rw [hnil]
      rfl
    · rw [if_pos (mt List.length_eq_zero_iff.mp hnil), hmin]
      exact foldl_min_top _ hnil
  · by_cases hzero : greaterThan = 0
    · rw [if_neg (not_not.mpr hzero), if_neg (not_not.mpr hzero)]
      rfl
    · rw [if_pos hzero, if_pos hzero, Option.map_some, hthan, if_pos hzero]
      exact congrArg some (Nat.zero_add _)

theorem delaysOf_length (type : BlockTp → Nat) (hs : List Happening) (first second : BlockTp) :
    (delaysOf type hs first second).length = (delaysTo type hs second).length ↔
      ∀ p ∈ pairsOf type (windowsOf hs) hs, p.2.tp = second → p.1.tp = first := by
  unfold delaysOf delaysTo
  rw [List.length_map, List.length_map, ← List.filter_filter, List.length_filter_eq_length_iff]
  simp only [List.mem_filter, decide_eq_true_eq, and_imp]

theorem delaysOf_direct (h : ∀ p ∈ pairsOf type (windowsOf hs) hs, p.2.tp = second → p.1.tp = first) :
    delaysOf type hs first second = delaysTo type hs second := by
  unfold delaysOf delaysTo
  rw [← List.filter_filter, List.filter_eq_self.mpr]
  simpa only [List.mem_filter, decide_eq_true_eq, and_imp] using h

/-- A row reports the delays from its first to its second stage if no other stage is followed by the second,
and their sum does not overflow. -/
theorem rows_iff (hstream : Stream type hs) (bal : Rebalance RequestTrack) (greaterThan : UInt64) :
    ∀ row ∈ (blktraceInterval greaterThan (run bal greaterThan type (inputsOf hs))).2,
      row.Reports greaterThan (delaysOf type hs row.first row.second) ↔ Direct type hs row.first row.second := by
  intro row hrow
  obtain ⟨⟨first, second⟩, -, rfl⟩ := List.mem_map.mp hrow
  obtain ⟨hreqs, htotal, hmin, hmax, hthan⟩ := hstream.row bal greaterThan first second
  constructor
  · intro hreports
    have hlength : (delaysOf type hs first second).length = (delaysTo type hs second).length :=
      hreports.reqs.symm.trans hreqs
    refine ⟨(delaysOf_length type hs first second).mp hlength, ?_⟩
    have htotal' := hreports.total
    rw [← htotal']
    exact UInt64.toNat_lt _
  · intro ⟨hfirst, hsum⟩
    have hsame : delaysOf type hs first second = delaysTo type hs second := delaysOf_direct hfirst
    have hsum' : ((delaysTo type hs second).map UInt64.toNat).sum < 2 ^ 64 := hsame ▸ hsum
    have hreports : (rowOf greaterThan (run bal greaterThan type (inputsOf hs)).stats first second).Reports greaterThan
        (delaysTo type hs second) :=
      ⟨hreqs, htotal.trans (Nat.mod_eq_of_lt hsum'), hmin, hmax, hthan⟩
    exact hsame.symm ▸ hreports

end Rows

section Inputs
variable {type : BlockTp → Nat} {samples : List Sample} {r₀ : RequestTrack}

/-- The samples of one request, with nothing lost, are a stream. -/
theorem stream_of_one (hordered : samples.Pairwise (·.time ≤ ·.time)) (hnonempty : r₀.sector < r₀.stop)
    (hone : ∀ s ∈ samples, s.dev = r₀.dev ∧ s.sector = r₀.sector ∧ s.nrSector = r₀.nrSector) :
    Stream type (samples.map fun s => .seen (.sample s)) := by
  have hrange (h : Happening) (hh : h ∈ samples.map fun s => Happening.seen (.sample s)) (r : RequestTrack)
      (hrequest : requestAt type h = some r) : sameRange r r₀ = true := by
    obtain ⟨s, hs, rfl⟩ := List.mem_map.mp hh
    obtain ⟨hdev, hsector, hnr⟩ := hone s hs
    have hr : requestOf (blktraceInit type).stats s = some r := hrequest
    unfold requestOf at hr
    cases htp : tpOf (blktraceInit type).stats s.commonType with
    | none => rw [htp] at hr; cases hr
    | some tp =>
      rw [htp] at hr
      dsimp only at hr
      split_ifs at hr
      cases hr
      exact sameRange_iff.mpr ⟨hdev, hsector, hnr⟩
  refine ⟨?_, fun h hh r hr => ?_, fun pre h hpre r hr a _ hlast => ?_, fun pre ins lostStart lostEnd hpre => ?_,
    fun s hs => ?_⟩
  · rw [List.filterMap_map]
    have htimes : List.filterMap ((fun h => h.sample?.map Sample.time) ∘ fun s => Happening.seen (.sample s)) samples =
        samples.map Sample.time := congrFun List.filterMap_eq_map samples
    rw [htimes]
    exact List.pairwise_map.mpr hordered
  · obtain ⟨-, hsector, hnr⟩ := sameRange_iff.mp (hrange h hh r hr)
    unfold RequestTrack.stop
    rw [hsector, hnr]
    exact hnonempty
  · obtain ⟨-, x, hx, hxa⟩ := lastOf_some hlast
    have ha := hrange x (hpre.subset (List.mem_append_left _ hx)) a hxa
    have hr := hrange h (hpre.subset (List.mem_append_right _ List.mem_cons_self)) r hr
    obtain ⟨hd, hs, hn⟩ := sameRange_iff.mp ha
    obtain ⟨hd', hs', hn'⟩ := sameRange_iff.mp hr
    exact Or.inl (sameRange_iff.mpr ⟨hd.trans hd'.symm, hs.trans hs'.symm, hn.trans hn'.symm⟩)
  · obtain ⟨s, -, heq⟩ := List.mem_map.mp (hpre.subset (List.mem_append_right _ List.mem_cons_self))
    cases heq
  · obtain ⟨s', -, heq⟩ := List.mem_map.mp hs
    cases heq

/-- A request that goes through all stages. -/
def passing : List Sample := [⟨1, 10, 0, 64, 8⟩, ⟨2, 15, 0, 64, 8⟩, ⟨3, 25, 0, 64, 8⟩, ⟨4, 45, 0, 64, 8⟩]

/-- A request that bypasses the insertion. -/
def bypassing : List Sample := [⟨1, 10, 0, 64, 8⟩, ⟨3, 25, 0, 64, 8⟩, ⟨4, 45, 0, 64, 8⟩]

def seenAll (samples : List Sample) : List Happening := samples.map fun s => .seen (.sample s)

theorem passing_stream : Stream ids (seenAll passing) :=
  @stream_of_one ids passing ⟨.getrq, 0, 64, 8, 10⟩ (by decide) (by decide) (by decide)

theorem bypassing_stream : Stream ids (seenAll bypassing) :=
  @stream_of_one ids bypassing ⟨.getrq, 0, 64, 8, 10⟩ (by decide) (by decide) (by decide)

theorem rows_iff_passing : Stream ids (seenAll passing) ∧
    ∀ row ∈ (blktraceInterval 12 (run .none 12 ids (inputsOf (seenAll passing)))).2,
      row.Reports 12 (delaysOf ids (seenAll passing) row.first row.second) ↔
        Direct ids (seenAll passing) row.first row.second :=
  ⟨passing_stream, rows_iff passing_stream .none 12⟩

/-- The delay from the first stage to the third is in the row from the second to the third. -/
theorem bypassing_counted : Stream ids (seenAll bypassing) ∧
    ¬ ∀ row ∈ (blktraceInterval 0 (run .none 0 ids (inputsOf (seenAll bypassing)))).2,
      row.Reports 0 (delaysOf ids (seenAll bypassing) row.first row.second) := by
  refine ⟨bypassing_stream, fun h => ?_⟩
  have hreqs := (h _ (List.mem_cons_of_mem _ List.mem_cons_self)).reqs
  revert hreqs
  decide

end Inputs

end PerfProf.Blktrace
