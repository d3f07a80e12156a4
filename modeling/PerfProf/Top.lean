import Mathlib.Data.List.Nodup
import Mathlib.Order.Fin.Basic
import PerfProf.RbTree

/-! top.c: counters by key and comm, and the rows of an interval in the order of the counters. The
comparison of the sorted rows hands its own argument, a `struct tmp_entry`, on as a
`struct top_info`: the key and the comm that it compares with are whatever lies behind it. -/
namespace PerfProf.Top
open Rblist

section Model

/-- A C string as the list of its bytes. -/
abbrev CStr := List (Fin 256)

instance neZero_byte : NeZero 256 := ⟨by decide⟩

structure TopInfo where
  key : Nat
  pcomm : Option CStr
  counter : List Nat
deriving DecidableEq

variable {δ : Type}

/-- An entry of `tp->top_add`; `field` is the value of its program on the data of a sample. -/
structure TopAdd (δ : Type) where
  event : Bool
  topBy : Bool
  field : δ → Nat

structure Tp (δ : Type) where
  keyProg : Option (δ → Nat)
  commProg : Option (δ → CStr)
  topAdd : List (TopAdd δ)

/-- A sample of the event `tp`; `pidComm` is what `tep__pid_to_comm` gives for its key. -/
structure Sample (δ : Type) where
  tp : Nat
  tid : Nat
  data : δ
  pidComm : CStr

/-- `struct top_ctx`; `ttyRow` is `dev->tty.row`. -/
structure TopCtx (δ : Type) where
  tps : List (Tp δ)
  showComm : Bool
  onlyComm : Bool
  altwin : Bool
  ttyRow : Nat

/-- `strcmp`. -/
def strcmp : CStr → CStr → Ordering
  | [], [] => .eq
  | [], _ :: _ => .lt
  | _ :: _, [] => .gt
  | a :: s, b :: t => (compare a b).then (strcmp s t)

/-- `top_info_node_cmp`; the comm of the node is there whenever that of the entry is. -/
def topInfoNodeCmp (key : Nat) (pcomm : Option CStr) (t : TopInfo) : Ordering :=
  if key < t.key then .gt
  else if t.key < key then .lt
  else match pcomm with
    | some comm => strcmp (t.pcomm.getD []) comm
    | none => .eq

/-- A loop of `top_info_sorted_node_cmp` over the fields that `sel` selects. -/
def counterCmp (sel : Bool → Bool) : List Bool → List Nat → List Nat → Ordering
  | topBy :: fields, t :: ts, e :: es =>
    if sel topBy then
      if e < t then .lt else if t < e then .gt else counterCmp sel fields ts es
    else counterCmp sel fields ts es
  | _, _, _ => .eq

/-- The key of a sample; the tid may be -1 when the process exits. -/
def Tp.sampleKey (tp : Tp δ) (s : Sample δ) : Option Nat :=
  match tp.keyProg with
  | some prog => some (prog s.data)
  | none => if s.tid = 2 ^ 32 - 1 then none else some s.tid

def Tp.sampleComm (tp : Tp δ) (s : Sample δ) : CStr :=
  match tp.commProg with
  | some prog => prog s.data
  | none => s.pidComm

namespace TopCtx
variable (ctx : TopCtx δ)

/-- The `top_by` of `ctx->fields`. -/
def fields : List Bool := ctx.tps.flatMap fun tp => tp.topAdd.map TopAdd.topBy

def nrFields : Nat := ctx.fields.length

def nrTopBy : Nat := ctx.fields.count true

/-- `top_info_sorted_node_cmp`; `key` and `pcomm` are read behind the `struct tmp_entry`. -/
def topInfoSortedNodeCmp (behind : Nat × Option CStr) (e t : TopInfo) : Ordering :=
  ((if ctx.nrTopBy ≠ 0 then counterCmp id ctx.fields t.counter e.counter else .eq).then
    (counterCmp not ctx.fields t.counter e.counter)).then (topInfoNodeCmp behind.1 behind.2 t)

/-- The first field of an event. -/
def fieldOf (tp : Nat) : Nat := ((ctx.tps.take tp).map fun tp => tp.topAdd.length).sum

/-- `info` of `top_sample`, as `top_info_node_new` takes it over; none for a sample that is left
out. -/
def info (s : Sample δ) : Option TopInfo := do
  let tp ← ctx.tps[s.tp]?
  let key ← tp.sampleKey s
  let pcomm := if ctx.showComm then some (tp.sampleComm s) else none
  some ⟨if ctx.onlyComm then 0 else key, pcomm, List.replicate ctx.nrFields 0⟩

/-- What a sample adds to the counters of its event. -/
def values (s : Sample δ) : List Nat :=
  match ctx.tps[s.tp]? with
  | some tp => tp.topAdd.map fun add => if add.event then 1 else add.field s.data
  | none => []

/-- The loop over `tp->top_add`. -/
def addValues : Nat → List Nat → List Nat → List Nat
  | _, [], counter => counter
  | field, v :: vs, counter =>
    addValues (field + 1) vs (counter.modify field fun c => (c + v) % 2 ^ 64)

def count (s : Sample δ) (t : TopInfo) : TopInfo :=
  { t with counter := addValues (ctx.fieldOf s.tp) (ctx.values s) t.counter }

/-- `top_sample`. -/
def topSample (bal : Rebalance TopInfo) (list : RbList TopInfo) (s : Sample δ) : RbList TopInfo :=
  match ctx.info s with
  | some info => list.findnew bal (topInfoNodeCmp info.key info.pcomm) info (ctx.count s)
  | none => list

def topSamples (bal : Rebalance TopInfo) (samples : List (Sample δ)) : RbList TopInfo :=
  samples.foldl (ctx.topSample bal) (.init TopInfo)

/-- A node that has been removed is added to the second rblist; `behind` is what the comparison of
a node with it reads behind the `struct tmp_entry`. -/
def moveSorted (bal : Rebalance TopInfo) (behind : TopInfo → TopInfo → Nat × Option CStr)
    (sorted : RbList TopInfo) (e : TopInfo) : RbList TopInfo :=
  sorted.addNode bal (fun t => ctx.topInfoSortedNodeCmp (behind t e) e t) e

/-- One turn of the printing loop: `row` and the rows so far. -/
def printRow : Nat × List TopInfo → TopInfo → Nat × List TopInfo
  | (row, out), t =>
    if ctx.altwin = false ∨ ctx.ttyRow = 0 then (row, out ++ [t])
    else if row + 1 < ctx.ttyRow then (row + 1, out ++ [t])
    else (row + 1, out)

/-- `top_interval`: what is left of the list, and the rows that are printed. -/
def topInterval (bal : Rebalance TopInfo) (behind : TopInfo → TopInfo → Nat × Option CStr)
    (list : RbList TopInfo) : RbList TopInfo × List TopInfo :=
  if list.isEmpty then (list, [])
  else
    let moving := { list with frees := false }
    let (left, sorted) := moving.drainAll bal (ctx.moveSorted bal behind) (.init TopInfo)
    let (_, _, out) := sorted.drainAll bal ctx.printRow (3, [])
    ({ left with frees := true }, out)

end TopCtx

end Model

section Order
variable {δ : Type} {ctx : TopCtx δ}

/-- The order of `top_info_node_cmp`. -/
def rowKey (t : TopInfo) : Nat ×ₗ CStr := toLex (t.key, t.pcomm.getD [])

/-- The selected counters, in descending order. -/
def selected (sel : Bool → Bool) (fields : List Bool) (counter : List Nat) : List Natᵒᵈ :=
  ((fields.zip counter).filter fun p => sel p.1).map fun p => OrderDual.toDual p.2

/-- The order of the rows: the top-by counters, then the others. -/
def counterKey (ctx : TopCtx δ) (t : TopInfo) : List Natᵒᵈ ×ₗ List Natᵒᵈ :=
  toLex (selected id ctx.fields t.counter, selected not ctx.fields t.counter)

theorem orders_strcmp (s t : CStr) : Orders (strcmp s t) s t := by
  induction s generalizing t with
  | nil =>
    cases t with
    | nil => exact orders_of_eq rfl
    | cons b t => exact orders_of_lt (List.nil_lt_cons b t)
  | cons a s ih =>
    cases t with
    | nil => exact orders_of_gt (List.nil_lt_cons a s)
    | cons b t => exact (orders_compare a b).cons (ih t)

theorem orders_topInfoNodeCmp {e t : TopInfo} (h : e.pcomm = none → t.pcomm = none) :
    Orders (topInfoNodeCmp e.key e.pcomm t) (rowKey t) (rowKey e) := by
  have hcomm : Orders (match e.pcomm with
      | some comm => strcmp (t.pcomm.getD []) comm
      | none => .eq) (t.pcomm.getD []) (e.pcomm.getD []) := by
    cases hcomm : e.pcomm with
    | some comm => exact orders_strcmp _ _
    | none =>
      rw [h hcomm]
      exact orders_of_eq rfl
  unfold topInfoNodeCmp
  split_ifs with hgt hlt
  · exact (orders_of_gt hgt).lex hcomm
  · exact (orders_of_lt hlt).lex hcomm
  · exact (orders_of_eq (le_antisymm (not_lt.mp hgt) (not_lt.mp hlt))).lex hcomm

theorem orders_counterCmp (sel : Bool → Bool) (fields : List Bool) (t e : List Nat)
    (ht : t.length = fields.length) (he : e.length = fields.length) :
    Orders (counterCmp sel fields t e) (selected sel fields t) (selected sel fields e) := by
  induction fields generalizing t e with
  | nil => exact orders_of_eq rfl
  | cons b fields ih =>
    cases t with
    | nil => cases ht
    | cons x t =>
      cases e with
      | nil => cases he
      | cons y e =>
        have hrest := ih t e (Nat.succ_inj.mp ht) (Nat.succ_inj.mp he)
        rw [counterCmp]
        by_cases hb : sel b = true
        · have hcons : ∀ (z : Nat) (l : List Nat), selected sel (b :: fields) (z :: l) =
              OrderDual.toDual z :: selected sel fields l := by
            intro z l
            simp [selected, hb]
          rw [if_pos hb, hcons, hcons]
          split_ifs with hlt hgt
          · exact (orders_of_lt hlt).dual.cons hrest
          · exact (orders_of_gt hgt).dual.cons hrest
          · exact (orders_of_eq (le_antisymm (not_lt.mp hgt) (not_lt.mp hlt))).dual.cons hrest
        · have hcons : ∀ (z : Nat) (l : List Nat), selected sel (b :: fields) (z :: l) =
              selected sel fields l := by
            intro z l
            simp [selected, hb]
          rw [if_neg hb, hcons, hcons]
          exact hrest

/-- Without a top-by field nothing is selected. -/
theorem selected_none {fields : List Bool} (h : fields.count true = 0) (counter : List Nat) :
    selected id fields counter = [] := by
  have hfalse : ∀ p ∈ fields.zip counter, ¬ id p.1 = true := by
    rintro ⟨b, c⟩ hp hb
    have hmem : true ∈ fields := hb ▸ (List.of_mem_zip hp).1
    exact List.count_eq_zero.mp h hmem
  rw [selected, List.filter_eq_nil_iff.mpr hfalse]
  rfl

/-- As far as the counters go the comparison of the sorted rows is right. -/
theorem respects_sortedNodeCmp (behind : TopInfo → Nat × Option CStr) {e : TopInfo}
    {rows : List TopInfo} (hrows : ∀ t ∈ rows, t.counter.length = ctx.nrFields)
    (he : e.counter.length = ctx.nrFields) :
    Respects (counterKey ctx) (fun t => ctx.topInfoSortedNodeCmp (behind t) e t) e rows := by
  intro t ht
  have hby : Orders (if ctx.nrTopBy ≠ 0 then counterCmp id ctx.fields t.counter e.counter else .eq)
      (selected id ctx.fields t.counter) (selected id ctx.fields e.counter) := by
    split_ifs with hby
    · exact orders_counterCmp _ _ _ _ (hrows t ht) he
    · rw [selected_none (not_not.mp hby), selected_none (not_not.mp hby)]
      exact orders_of_eq rfl
  have horders := hby.lex (orders_counterCmp not ctx.fields _ _ (hrows t ht) he)
  constructor
  · intro hlt
    simp only [TopCtx.topInfoSortedNodeCmp]
    rw [horders.1.mpr hlt]
    rfl
  · intro hgt
    simp only [TopCtx.topInfoSortedNodeCmp]
    rw [horders.2.mpr hgt]
    rfl

/-- Rows with the same order have the same counters. -/
theorem counter_eq_of_selected (fields : List Bool) (t e : List Nat)
    (ht : t.length = fields.length) (he : e.length = fields.length)
    (hid : selected id fields t = selected id fields e)
    (hnot : selected not fields t = selected not fields e) : t = e := by
  induction fields generalizing t e with
  | nil =>
    rw [List.length_eq_zero_iff.mp ht, List.length_eq_zero_iff.mp he]
  | cons b fields ih =>
    cases t with
    | nil => cases ht
    | cons x t =>
      cases e with
      | nil => cases he
      | cons y e =>
        have hrest := ih t e (Nat.succ_inj.mp ht) (Nat.succ_inj.mp he)
        cases b with
        | true =>
          simp only [selected, List.zip_cons_cons, List.filter_cons, id_eq, if_true, List.map_cons,
            List.cons.injEq, Bool.not_true, Bool.false_eq_true, if_false] at hid hnot
          rw [OrderDual.toDual_inj.mp hid.1, hrest hid.2 hnot]
        | false =>
          simp only [selected, List.zip_cons_cons, List.filter_cons, id_eq, if_true, List.map_cons,
            List.cons.injEq, Bool.not_false, Bool.false_eq_true, if_false] at hid hnot
          rw [OrderDual.toDual_inj.mp hnot.1, hrest hid hnot.2]

/-- Rows that are equal for the order have the same counters. -/
theorem counter_eq_of_counterKey {t e : TopInfo} (ht : t.counter.length = ctx.nrFields)
    (he : e.counter.length = ctx.nrFields) (h : counterKey ctx t = counterKey ctx e) :
    t.counter = e.counter := by
  obtain ⟨hid, hnot⟩ := Prod.mk.inj (toLex_inj.mp h)
  exact counter_eq_of_selected ctx.fields _ _ ht he hid hnot

end Order

section Samples
variable {δ : Type} {ctx : TopCtx δ} {samples : List (Sample δ)} {s : Sample δ} {t info : TopInfo}

/-- What a sample adds to the counter of field `j`. -/
def contribution (ctx : TopCtx δ) (j : Nat) (s : Sample δ) : Nat :=
  if ctx.fieldOf s.tp ≤ j then (ctx.values s).getD (j - ctx.fieldOf s.tp) 0 else 0

theorem getElem_addValues (field j : Nat) (vs counter : List Nat) (h : ∀ c ∈ counter, c < 2 ^ 64) :
    (TopCtx.addValues field vs counter)[j]? =
      counter[j]?.map fun c => (c + if field ≤ j then vs.getD (j - field) 0 else 0) % 2 ^ 64 := by
  induction vs generalizing field counter with
  | nil =>
    rw [TopCtx.addValues]
    cases hc : counter[j]? with
    | none => rfl
    | some c =>
      have hlt := h c (List.mem_of_getElem? hc)
      rw [Option.map_some, List.getD_nil, ite_self, Nat.add_zero, Nat.mod_eq_of_lt hlt]
  | cons v vs ih =>
    have hmod : ∀ c ∈ counter.modify field fun c => (c + v) % 2 ^ 64, c < 2 ^ 64 := by
      intro c hc
      obtain ⟨i, hi, rfl⟩ := List.getElem_of_mem hc
      rw [List.getElem_modify]
      split_ifs
      · exact Nat.mod_lt _ (by decide)
      · exact h _ (List.getElem_mem _)
    rw [TopCtx.addValues, ih _ _ hmod, List.getElem?_modify]
    cases hc : counter[j]? with
    | none => rfl
    | some c =>
      simp only [Option.map_eq_map, Option.map_some, Option.some.injEq]
      by_cases hj : field = j
      · subst hj
        have hnot : ¬ field + 1 ≤ field := Nat.not_succ_le_self field
        simp [hnot]
      · rw [if_neg hj]
        congr 2
        by_cases hle : field ≤ j
        · have hsucc : j - field = j - (field + 1) + 1 := by omega
          rw [if_pos hle, if_pos (by omega), hsucc]
          rfl
        · rw [if_neg hle, if_neg (by omega)]

/-- The counters of a row are the sums over the samples. -/
def Counts (ctx : TopCtx δ) (t : TopInfo) (samples : List (Sample δ)) : Prop :=
  t.counter = (List.range ctx.nrFields).map fun j =>
    (samples.map (contribution ctx j)).sum % 2 ^ 64

theorem Counts.length (h : Counts ctx t samples) : t.counter.length = ctx.nrFields := by
  rw [h, List.length_map, List.length_range]

theorem Counts.count (h : Counts ctx t samples) (s : Sample δ) :
    Counts ctx (ctx.count s t) (samples ++ [s]) := by
  have hlt : ∀ c ∈ t.counter, c < 2 ^ 64 := by
    rw [h]
    intro c hc
    obtain ⟨j, -, rfl⟩ := List.mem_map.mp hc
    exact Nat.mod_lt _ (by decide)
  refine List.ext_getElem? fun j => ?_
  rw [TopCtx.count, getElem_addValues _ _ _ _ hlt, h, List.getElem?_map, List.getElem?_map]
  by_cases hj : j < ctx.nrFields
  · rw [List.getElem?_range hj, Option.map_some, Option.map_some, Option.map_some,
      List.map_append, List.sum_append, Nat.mod_add_mod]
    rfl
  · have hnone : (List.range ctx.nrFields)[j]? = none :=
      List.getElem?_eq_none (by rw [List.length_range]; exact Nat.le_of_not_lt hj)
    rw [hnone]
    rfl

/-- The samples that are counted, with their `info`. -/
def taken (ctx : TopCtx δ) (samples : List (Sample δ)) : List (TopInfo × Sample δ) :=
  samples.filterMap fun s => (ctx.info s).map fun info => (info, s)

/-- The samples of a row. -/
def samplesOf (ctx : TopCtx δ) (k : Nat ×ₗ CStr) (samples : List (Sample δ)) : List (Sample δ) :=
  samples.filter fun s => (ctx.info s).map rowKey = some k

def gathered (ctx : TopCtx δ) (samples : List (Sample δ)) : List TopInfo :=
  gather rowKey Prod.fst (fun p => ctx.count p.2) (taken ctx samples)

theorem taken_concat (samples : List (Sample δ)) (s : Sample δ) :
    taken ctx (samples ++ [s]) = taken ctx samples ++ ((ctx.info s).map fun info => (info, s)).toList := by
  rw [taken, List.filterMap_append]
  cases hinfo : ctx.info s with
  | none => simp [taken, hinfo]
  | some info => simp [taken, hinfo]

theorem inputsOf_taken (k : Nat ×ₗ CStr) (samples : List (Sample δ)) :
    (inputsOf rowKey Prod.fst k (taken ctx samples)).map Prod.snd = samplesOf ctx k samples := by
  induction samples using List.reverseRecOn with
  | nil => rfl
  | append_singleton samples s ih =>
    rw [taken_concat, samplesOf, List.filter_append]
    cases hinfo : ctx.info s with
    | none =>
      rw [Option.map_none, Option.toList_none, List.append_nil, ih]
      simp [samplesOf, hinfo]
    | some info =>
      rw [Option.map_some, Option.toList_some, inputsOf_concat]
      split_ifs with hk
      · rw [List.map_append, ih]
        simp [samplesOf, hinfo, hk]
      · rw [ih]
        simp [samplesOf, hinfo, hk]

theorem info_some (h : ctx.info s = some info) :
    info.counter = List.replicate ctx.nrFields 0 ∧ info.pcomm.isSome = ctx.showComm := by
  unfold TopCtx.info at h
  simp only [Option.bind_eq_bind, Option.bind_eq_some_iff, Option.some.injEq] at h
  obtain ⟨tp, -, key, -, rfl⟩ := h
  refine ⟨rfl, ?_⟩
  dsimp only
  cases ctx.showComm with
  | true => rfl
  | false => rfl

theorem topSamples_toList (bal : Rebalance TopInfo) (ctx : TopCtx δ) (samples : List (Sample δ)) :
    (ctx.topSamples bal samples).entries.toList = gathered ctx samples ∧
      (ctx.topSamples bal samples).frees = true ∧
      ∀ t ∈ (ctx.topSamples bal samples).entries.toList, t.pcomm.isSome = ctx.showComm := by
  induction samples using List.reverseRecOn with
  | nil => exact ⟨rfl, rfl, nofun⟩
  | append_singleton samples s ih =>
    obtain ⟨hlist, hfrees, hcomm⟩ := ih
    have hstep : ctx.topSamples bal (samples ++ [s]) =
        ctx.topSample bal (ctx.topSamples bal samples) s := by
      rw [TopCtx.topSamples, List.foldl_concat]
      rfl
    have hsorted : Sorted rowKey (ctx.topSamples bal samples).entries.toList := by
      rw [hlist]
      exact (@gather_spec _ _ _ _ rowKey Prod.fst (fun p => ctx.count p.2) (fun _ _ => rfl) _).1
    rw [hstep, TopCtx.topSample, gathered, taken_concat]
    cases hinfo : ctx.info s with
    | none =>
      rw [Option.map_none, Option.toList_none, List.append_nil]
      exact ⟨hlist, hfrees, hcomm⟩
    | some info =>
      have hagrees : Agrees rowKey (topInfoNodeCmp info.key info.pcomm) (rowKey info)
          (ctx.topSamples bal samples).entries.toList := by
        intro t ht
        refine orders_topInfoNodeCmp fun hnone => ?_
        have hsame := (hcomm t ht).trans (info_some hinfo).2.symm
        rw [hnone] at hsame
        exact Option.not_isSome_iff_eq_none.mp (by rw [hsame]; decide)
      have hnew := RbList.findnew_toList (f := ctx.count s) bal hsorted hagrees
      dsimp only
      rw [Option.map_some, Option.toList_some, gather, List.foldl_concat]
      refine ⟨?_, ?_, ?_⟩
      · rw [hnew, hlist]
        rfl
      · exact (RbList.findnew_frees bal _ _ _ _).1.trans hfrees
      · intro t ht
        rw [hnew] at ht
        rcases @mem_upsert _ _ _ _ rowKey Prod.fst (fun p => ctx.count p.2) (info, s) _ _ ht with
          ht | rfl | ⟨u, hu, rfl⟩
        · exact hcomm t ht
        · exact (info_some hinfo).2
        · exact hcomm u hu

/-- A row has the sums over its samples. -/
theorem counts_entry {ps : List (TopInfo × Sample δ)}
    (hps : ∀ p ∈ ps, ctx.info p.2 = some p.1)
    (h : entryOf Prod.fst (fun p => ctx.count p.2) ps = some t) :
    Counts ctx t (ps.map Prod.snd) := by
  induction ps using List.reverseRecOn generalizing t with
  | nil => cases h
  | append_singleton ps p ih =>
    rw [entryOf_concat] at h
    cases h
    rw [List.map_append]
    cases hrest : entryOf Prod.fst (fun p => ctx.count p.2) ps with
    | some u =>
      exact (ih (fun q hq => hps q (List.mem_append_left _ hq)) hrest).count p.2
    | none =>
      have hnil : ps = [] := by
        cases ps with
        | nil => rfl
        | cons q qs => cases hrest
      subst hnil
      have hzero : Counts ctx p.1 [] := by
        rw [Counts, (info_some (hps p (List.mem_append_right _ (List.mem_singleton.mpr rfl)))).1]
        simp [List.map_const']
      exact hzero.count p.2

/-- One row for each key and comm of the samples, with the sums over its samples. -/
structure Totals (ctx : TopCtx δ) (samples : List (Sample δ)) (rows : List TopInfo) : Prop where
  distinct : Sorted rowKey rows
  complete : ∀ s ∈ samples, ∀ info, ctx.info s = some info → ∃ t ∈ rows, rowKey t = rowKey info
  sampled : ∀ t ∈ rows, samplesOf ctx (rowKey t) samples ≠ []
  sums : ∀ t ∈ rows, Counts ctx t (samplesOf ctx (rowKey t) samples)

theorem totals_topSamples (bal : Rebalance TopInfo) (ctx : TopCtx δ) (samples : List (Sample δ)) :
    Totals ctx samples (ctx.topSamples bal samples).entries.toList := by
  obtain ⟨hsorted, hentry⟩ := @gather_spec _ _ _ _ rowKey Prod.fst
    (fun p : TopInfo × Sample δ => ctx.count p.2) (fun _ _ => rfl) (taken ctx samples)
  rw [(topSamples_toList bal ctx samples).1, gathered]
  have hrow : ∀ t ∈ gather rowKey Prod.fst (fun p => ctx.count p.2) (taken ctx samples),
      entryOf Prod.fst (fun p => ctx.count p.2)
        (inputsOf rowKey Prod.fst (rowKey t) (taken ctx samples)) = some t := fun t ht =>
    (hentry (rowKey t)).symm.trans (hsorted.entryAt_eq.mpr ⟨ht, rfl⟩)
  refine ⟨hsorted, fun s hs info hinfo => ?_, fun t ht => ?_, fun t ht => ?_⟩
  · have hmem : (info, s) ∈ inputsOf rowKey Prod.fst (rowKey info) (taken ctx samples) := by
      refine List.mem_filter.mpr ⟨List.mem_filterMap.mpr ⟨s, hs, ?_⟩, by simp⟩
      rw [hinfo]
      rfl
    have hat := hentry (rowKey info)
    cases hlist : inputsOf rowKey Prod.fst (rowKey info) (taken ctx samples) with
    | nil =>
      rw [hlist] at hmem
      cases hmem
    | cons p ps =>
      rw [hlist] at hat
      obtain ⟨ht, hkey⟩ := hsorted.entryAt_eq.mp hat
      exact ⟨_, ht, hkey⟩
  · have hat := hrow t ht
    intro hnil
    rw [← inputsOf_taken] at hnil
    rw [List.map_eq_nil_iff.mp hnil] at hat
    cases hat
  · rw [← inputsOf_taken]
    refine counts_entry (fun p hp => ?_) (hrow t ht)
    obtain ⟨s, -, hs⟩ := List.mem_filterMap.mp (List.mem_of_mem_filter hp)
    obtain ⟨info, hinfo, rfl⟩ := Option.map_eq_some_iff.mp hs
    exact hinfo

end Samples

section Interval
variable {δ : Type} {ctx : TopCtx δ} {samples : List (Sample δ)}

/-- The rows that are printed: in the alternate window only as many as the terminal holds. -/
def onScreen (ctx : TopCtx δ) (rows : List TopInfo) : List TopInfo :=
  if ctx.altwin = false ∨ ctx.ttyRow = 0 then rows else rows.take (ctx.ttyRow - 4)

theorem printRow_foldl (ctx : TopCtx δ) (rows : List TopInfo) (row : Nat) (out : List TopInfo) :
    (rows.foldl ctx.printRow (row, out)).2 =
      out ++ if ctx.altwin = false ∨ ctx.ttyRow = 0 then rows
        else rows.take (ctx.ttyRow - (row + 1)) := by
  induction rows generalizing row out with
  | nil => simp
  | cons t rows ih =>
    rw [List.foldl_cons, TopCtx.printRow]
    by_cases hall : ctx.altwin = false ∨ ctx.ttyRow = 0
    · rw [if_pos hall, if_pos hall, ih, if_pos hall, List.append_assoc]
      rfl
    · rw [if_neg hall, if_neg hall]
      by_cases hrow : row + 1 < ctx.ttyRow
      · have hleft : ctx.ttyRow - (row + 1) = ctx.ttyRow - (row + 1 + 1) + 1 := by omega
        rw [if_pos hrow, ih, if_neg hall, hleft, List.take_succ_cons, List.append_assoc]
        rfl
      · have hnone : ctx.ttyRow - (row + 1) = 0 := by omega
        have hnone' : ctx.ttyRow - (row + 1 + 1) = 0 := by omega
        rw [if_neg hrow, ih, if_neg hall, hnone, hnone', List.take_zero, List.take_zero]

/-- The rows are printed in the order of the counters, each at most once; one that has the counters
of no other row is there. -/
structure InOrder (ctx : TopCtx δ) (rows sorted : List TopInfo) : Prop where
  once : sorted.Subperm rows
  ordered : sorted.Pairwise fun t u => counterKey ctx t ≤ counterKey ctx u
  untied : ∀ t ∈ rows, (∀ u ∈ rows, u.counter = t.counter → u = t) → t ∈ sorted
  all : (rows.map TopInfo.counter).Nodup → sorted.Perm rows

theorem inOrder_of_collected {rows sorted : List TopInfo}
    (hlen : ∀ t ∈ rows, t.counter.length = ctx.nrFields) (hnodup : rows.Nodup)
    (h : Collected (counterKey ctx) rows sorted) : InOrder ctx rows sorted := by
  have huntied : ∀ t ∈ rows, (∀ u ∈ rows, u.counter = t.counter → u = t) → t ∈ sorted := by
    intro t ht hother
    refine h.mem_of_untied ht fun u hu hkey => ?_
    exact hother u hu (counter_eq_of_counterKey (hlen u hu) (hlen t ht) hkey)
  refine ⟨h.once, h.ordered, huntied, fun hdistinct => ?_⟩
  have hsub : rows ⊆ sorted := by
    intro t ht
    refine huntied t ht fun u hu hcounter => ?_
    exact List.inj_on_of_nodup_map hdistinct hu ht hcounter
  exact (List.subperm_of_subset hnodup hsub).antisymm h.once |>.symm

/-- The totals of the samples, and what an interval prints of them. -/
theorem top_interval_rows (bal : Rebalance TopInfo)
    (behind : TopInfo → TopInfo → Nat × Option CStr) (ctx : TopCtx δ) (samples : List (Sample δ)) :
    let list := ctx.topSamples bal samples
    let (left, out) := ctx.topInterval bal behind list
    Totals ctx samples list.entries.toList ∧
      (∃ sorted, out = onScreen ctx sorted ∧ InOrder ctx list.entries.toList sorted) ∧
      left.entries.toList = [] ∧ left.frees = true := by
  intro list
  dsimp only
  have htotals := totals_topSamples bal ctx samples
  have hfrees := (topSamples_toList bal ctx samples).2.1
  have hlen : ∀ t ∈ list.entries.toList, t.counter.length = ctx.nrFields :=
    fun t ht => (htotals.sums t ht).length
  unfold TopCtx.topInterval
  split
  · rename_i hempty
    have hnil : list.entries.toList = [] := List.isEmpty_iff.mp hempty
    refine ⟨htotals, ⟨[], ?_, ?_⟩, hnil, hfrees⟩
    · unfold onScreen
      rw [List.take_nil, ite_self]
    · rw [hnil]
      exact ⟨List.Subperm.refl _, List.Pairwise.nil, nofun, fun _ => List.Perm.nil⟩
  · obtain ⟨hmoved, hnil, -, -⟩ := RbList.drainAll_eq bal (ctx.moveSorted bal behind)
      { list with frees := false } (.init TopInfo)
    have hcollected := collected_foldl bal
      (fun e t => ctx.topInfoSortedNodeCmp (behind t e) e t) list.entries.toList
      fun e he => respects_sortedNodeCmp (fun t => behind t e) hlen (hlen e he)
    dsimp only at hmoved hnil ⊢
    have hstep : (fun s e => RbList.addNode bal
        (fun t => ctx.topInfoSortedNodeCmp (behind t e) e t) e s) = ctx.moveSorted bal behind := rfl
    rw [hstep, ← hmoved] at hcollected
    generalize (RbList.drainAll bal (ctx.moveSorted bal behind) { list with frees := false }
      (.init TopInfo)) = moved at hcollected hnil ⊢
    obtain ⟨left, sorted⟩ := moved
    have hout := (RbList.drainAll_eq bal ctx.printRow sorted (3, [])).1
    refine ⟨htotals, ⟨sorted.entries.toList, ?_, ?_⟩, hnil, rfl⟩
    · dsimp only
      have hrows := printRow_foldl ctx sorted.entries.toList 3 []
      rw [← hout] at hrows
      exact hrows
    · exact inOrder_of_collected hlen htotals.distinct.nodup hcollected

/-- One event, counted by its number. -/
def eventTop (altwin : Bool) (ttyRow : Nat) : TopCtx Nat where
  tps := [⟨some id, none, [⟨true, false, id⟩]⟩]
  showComm := false
  onlyComm := false
  altwin := altwin
  ttyRow := ttyRow

def eventSample (key : Nat) : Sample Nat := ⟨0, 0, key, []⟩

/-- Two rows with equal counters, of which one is lost where 1 lies behind the entry, and a window
of five lines with two rows. -/
theorem row_lost_and_cut :
    ((eventTop false 0).topInterval .none (fun _ _ => (1, none))
      ((eventTop false 0).topSamples .none [eventSample 1, eventSample 2])).2 =
        [⟨1, none, [1]⟩] ∧
    ((eventTop true 5).topInterval .none (fun _ _ => (0, none))
      ((eventTop true 5).topSamples .none [eventSample 1, eventSample 2, eventSample 2])).2 =
        [⟨2, none, [2]⟩] := by
  decide

end Interval

end PerfProf.Top
