import PerfProf.EventConvert

/-! What the conversion of a guest's sample makes of the record. The positions a block keeps are
those of the event whatever has been received before, so every sample is treated alike; the raw
record is left out for an event whose id is the same on both machines. -/
namespace PerfProf.EventSpread
open PerfProf.Framing

section Fields

/-- An optional field and its value. -/
def field (present : Bool) (off n : Nat) (value : Int) : List (Patch UInt8) :=
  if present then [{ off := off, cells := leBytes n value }] else []

theorem forall_field_append {P : Patch UInt8 → Prop} (b : Bool) (off n : Nat) (value : Int)
    (ps : List (Patch UInt8)) :
    (∀ p ∈ field b off n value ++ ps, P p) ↔
      (b = true → P { off := off, cells := leBytes n value }) ∧ ∀ p ∈ ps, P p := by
  cases b <;> simp [field]

theorem pairwise_field_append (b : Bool) (off n : Nat) (value : Int) (ps : List (Patch UInt8)) :
    (field b off n value ++ ps).Pairwise Patch.Apart ↔
      (b = true → ∀ p ∈ ps, Patch.Apart { off := off, cells := leBytes n value } p) ∧
        ps.Pairwise Patch.Apart := by
  cases b <;> simp [field]

theorem writeAt_field (b : Bool) (off n : Nat) (value : Int) (data : List UInt8) :
    writeAt (if b = true then some off else none) n value data =
      patch (field b off n value) data := by
  cases b <;> rfl

end Fields

section Spec

/-- The number of the cpu a sample was taken on, -1 where the sample does not say. -/
def Evsel.vcpuNumber (evsel : Evsel) (data : List UInt8) : Int :=
  if evsel.has perfSampleCpu then readInt data evsel.cpuAt else -1

def VcpuInfo.IsVcpu (v : VcpuInfo) (cpu : Int) : Prop := 0 ≤ cpu ∧ cpu < v.nrVcpu

instance (v : VcpuInfo) (cpu : Int) : Decidable (v.IsVcpu cpu) :=
  inferInstanceAs (Decidable (_ ∧ _))

/-- The id of the instance that stands for a vcpu on the host. -/
def Tp.localId (tp : Tp) (evsel : Evsel) (d : VcpuData) : Nat :=
  if tp.oncpu then
    perfEvselGetId evsel (perfCpuMapIdx tp.cpus d.hostCpu 0 tp.cpus.length).toNat 0
  else perfEvselGetId evsel 0 (perfThreadMapIdx tp.threads d.threadId).toNat

/-- The fields in front of the raw record. -/
def Tp.hostFields (tp : Tp) (evsel : Evsel) (d : VcpuData) : List (Patch UInt8) :=
  field (evsel.has perfSampleCpu) evsel.cpuAt 4 d.cpuField ++
    (field (evsel.has perfSampleTid) evsel.pidAt 4 d.threadId ++
      (field (evsel.has perfSampleTid) (evsel.pidAt + 4) 4 d.threadId ++
        (field (evsel.has perfSampleId) evsel.idAt 8 (tp.localId evsel d) ++
          field (evsel.has perfSampleStreamId) evsel.streamIdAt 8 (tp.localId evsel d))))

/-- `common_type` and `common_pid`. -/
def Tp.rawFields (tp : Tp) (evsel : Evsel) (d : VcpuData) (data : List UInt8) :
    List (Patch UInt8) :=
  field (evsel.has perfSampleRaw) (evsel.rawAt evsel.commonTypeAt data + 4) 2 tp.id ++
    field (evsel.has perfSampleRaw) (evsel.rawAt evsel.commonTypeAt data + 8) 4 d.threadId

/-- The record has the fields its sample type says. -/
structure Evsel.Fits (evsel : Evsel) (data : List UInt8) : Prop where
  fixed : evsel.commonTypeAt ≤ data.length
  raw : evsel.has perfSampleRaw → evsel.rawAt evsel.commonTypeAt data + 12 ≤ data.length

/-- A sample of a vcpu gets the host's fields and keeps every other byte, one of no vcpu is
rejected, and the tables of the vcpus are not read for it. -/
structure Uniform (tp : Tp) (evsel : Evsel) (v : VcpuInfo) (data : List UInt8)
    (converted : Converted) : Prop where
  converts : v.IsVcpu (evsel.vcpuNumber data) →
    Patched (tp.hostFields evsel (v.entry (evsel.vcpuNumber data)) ++
      tp.rawFields evsel (v.entry (evsel.vcpuNumber data)) data) data converted.data
  rejects : ¬ v.IsVcpu (evsel.vcpuNumber data) → converted.ret < 0 ∧ converted.touched = []

end Spec

section Order
variable (evsel : Evsel) (data : List UInt8)

theorem Evsel.room_of_has {bit n : Nat} (h : evsel.has bit = true) : evsel.room bit n = n :=
  if_pos h

theorem Evsel.pid_before : (evsel.has perfSampleTid = true → evsel.pidAt + 8 ≤ evsel.idAt) ∧
    evsel.pidAt ≤ evsel.idAt := by
  refine ⟨fun h => ?_, ?_⟩
  · rw [Evsel.idAt, evsel.room_of_has h]
    omega
  · rw [Evsel.idAt]
    omega

theorem Evsel.id_before : (evsel.has perfSampleId = true → evsel.idAt + 8 ≤ evsel.streamIdAt) ∧
    evsel.idAt ≤ evsel.streamIdAt := by
  refine ⟨fun h => ?_, Nat.le_add_right _ _⟩
  exact Nat.le_of_eq (by rw [Evsel.streamIdAt, evsel.room_of_has h])

theorem Evsel.streamId_before :
    (evsel.has perfSampleStreamId = true → evsel.streamIdAt + 8 ≤ evsel.cpuAt) ∧
      evsel.streamIdAt ≤ evsel.cpuAt := by
  refine ⟨fun h => ?_, Nat.le_add_right _ _⟩
  exact Nat.le_of_eq (by rw [Evsel.cpuAt, evsel.room_of_has h])

theorem Evsel.cpu_before :
    (evsel.has perfSampleCpu = true → evsel.cpuAt + 8 ≤ evsel.commonTypeAt) ∧
      evsel.cpuAt ≤ evsel.commonTypeAt := by
  refine ⟨fun h => ?_, ?_⟩
  · rw [Evsel.commonTypeAt, evsel.room_of_has h]
    omega
  · rw [Evsel.commonTypeAt]
    omega

theorem Evsel.commonType_before (off : Nat) : off ≤ evsel.rawAt off data := by
  rw [Evsel.rawAt]
  split_ifs
  · exact Nat.le_add_right _ _
  · exact Nat.le_refl _

/-- No two of the fields share a byte. -/
theorem fields_apart (tp : Tp) (d : VcpuData) :
    (tp.hostFields evsel d ++ tp.rawFields evsel d data).Pairwise Patch.Apart := by
  have h1 := evsel.pid_before
  have h2 := evsel.id_before
  have h3 := evsel.streamId_before
  have h4 := evsel.cpu_before
  have h5 := evsel.commonType_before data evsel.commonTypeAt
  rw [← List.append_nil (tp.hostFields evsel d ++ tp.rawFields evsel d data)]
  simp only [Tp.hostFields, Tp.rawFields, List.append_assoc, pairwise_field_append,
    forall_field_append, Patch.Apart, Patch.stop, leBytes_length, List.Pairwise.nil,
    List.not_mem_nil, false_imp_iff, implies_true, and_true]
  refine ⟨fun hcpu => ?_, fun htid => ?_, fun htid => ?_, fun hid => ?_, fun hstream => ?_,
    fun hraw => ?_⟩
  · have := h4.1 hcpu
    refine ⟨?_, ?_, ?_, ?_, ?_, ?_⟩ <;> grind
  · have := h1.1 htid
    refine ⟨?_, ?_, ?_, ?_, ?_⟩ <;> grind
  · have := h1.1 htid
    refine ⟨?_, ?_, ?_, ?_⟩ <;> grind
  · have := h2.1 hid
    refine ⟨?_, ?_, ?_⟩ <;> grind
  · have := h3.1 hstream
    refine ⟨?_, ?_⟩ <;> grind
  · grind

theorem hostFields_stop (tp : Tp) (d : VcpuData) :
    ∀ p ∈ tp.hostFields evsel d, p.stop ≤ evsel.commonTypeAt := by
  have h1 := evsel.pid_before
  have h2 := evsel.id_before
  have h3 := evsel.streamId_before
  have h4 := evsel.cpu_before
  rw [← List.append_nil (tp.hostFields evsel d)]
  simp only [Tp.hostFields, List.append_assoc, forall_field_append, Patch.stop, leBytes_length,
    List.not_mem_nil, false_imp_iff, implies_true, and_true]
  grind

theorem rawFields_stop (tp : Tp) (d : VcpuData) (h : evsel.Fits data) :
    ∀ p ∈ tp.rawFields evsel d data, p.stop ≤ data.length := by
  have hraw := h.raw
  rw [← List.append_nil (tp.rawFields evsel d data)]
  simp only [Tp.rawFields, List.append_assoc, forall_field_append, Patch.stop, leBytes_length,
    List.not_mem_nil, false_imp_iff, implies_true, and_true]
  grind

end Order

section Cached
variable {tp : Tp} {evsel : Evsel} {block block' : EventBlock}

/-- A block knows the positions of its own event, or none yet. -/
def EventBlock.Placed (block : EventBlock) (evsel : Evsel) : Prop :=
  block.pos = {} ∨ block.pos = evsel.positions

theorem EventBlock.place_pos (h : block.Placed evsel) :
    (block.place evsel).pos = evsel.positions := by
  rw [EventBlock.place]
  split_ifs with hpos
  · rfl
  · exact h.resolve_left hpos

theorem EventBlock.place_remoteId (block : EventBlock) (evsel : Evsel) :
    (block.place evsel).remoteId = block.remoteId := by
  rw [EventBlock.place]
  split_ifs <;> rfl

/-- What a call does, with the positions of the block filled in. -/
theorem convert_eq (hevsel : tp.evsel = some evsel) (hsampled : evsel.samplePeriod ≠ 0)
    (block : EventBlock) (data : List UInt8) :
    blockEventConvert tp block data =
      { block := block.place evsel
        data := tp.convertRaw evsel (block.place evsel) ((block.place evsel).cpu data)
          (evsel.convertIds (block.place evsel)
            (tp.cpuidx (block.place evsel) ((block.place evsel).cpu data))
            (tp.threadidx (block.place evsel) ((block.place evsel).cpu data) data)
            (tp.convertVcpu (block.place evsel) ((block.place evsel).cpu data) data))
        ret := if tp.oncpu then tp.cpuidx (block.place evsel) ((block.place evsel).cpu data)
          else tp.threadidx (block.place evsel) ((block.place evsel).cpu data) data
        touched := tp.touched evsel (block.place evsel) ((block.place evsel).cpu data) } := by
  rw [blockEventConvert, hevsel]
  dsimp only
  rw [if_neg hsampled]

theorem convert_placed (hevsel : tp.evsel = some evsel) (h : block.Placed evsel)
    (data : List UInt8) : (blockEventConvert tp block data).block.Placed evsel := by
  by_cases hsampled : evsel.samplePeriod = 0
  · simp only [blockEventConvert, hevsel, if_pos hsampled]
    exact h
  · rw [convert_eq hevsel hsampled]
    exact .inr (EventBlock.place_pos h)

theorem process_placed {r : Record} {out : List Processed} (hevsel : tp.evsel = some evsel)
    (h : block.Placed evsel) (hp : blockProcessEvent tp block r = some (block', out)) :
    block'.Placed evsel := by
  cases r with
  | tp sys name samplePeriod sampleType eventSize id =>
    simp only [blockProcessEvent, hevsel] at hp
    split_ifs at hp
    cases hp
    exact h
  | sample enabled data =>
    simp only [blockProcessEvent] at hp
    split_ifs at hp
    · cases hp
      exact h
    · cases hp
      exact convert_placed hevsel h data
    · cases hp
      exact convert_placed hevsel h data
  | other enabled =>
    cases hp
    exact h

theorem Receives.placed (hevsel : tp.evsel = some evsel) (h : Receives tp block) :
    block.Placed evsel := by
  induction h with
  | fresh => exact .inl rfl
  | record _ hp ih => exact process_placed hevsel ih hp

end Cached

section Rewriting
variable {tp : Tp} {evsel : Evsel} {v : VcpuInfo} {block : EventBlock} {data : List UInt8}

theorem cpu_eq (hpos : block.pos = evsel.positions) :
    block.cpu data = evsel.vcpuNumber data := by
  rw [EventBlock.cpu, hpos, Evsel.vcpuNumber, Evsel.positions]
  cases evsel.has perfSampleCpu <;> rfl

theorem convertVcpu_eq (hpos : block.pos = evsel.positions) (hvcpu : tp.vcpu = some v)
    (hcpu : evsel.has perfSampleCpu = true) (cpu : Int) (data : List UInt8) :
    tp.convertVcpu block cpu data =
      patch (field (evsel.has perfSampleCpu) evsel.cpuAt 4 (v.entry cpu).cpuField ++
        (field (evsel.has perfSampleTid) evsel.pidAt 4 (v.entry cpu).threadId ++
          field (evsel.has perfSampleTid) (evsel.pidAt + 4) 4 (v.entry cpu).threadId)) data := by
  have hsome : block.pos.cpu.isSome = true := by
    rw [hpos, Evsel.positions, hcpu]
    rfl
  have hnext : block.pos.pid.map (· + 4) =
      if evsel.has perfSampleTid = true then some (evsel.pidAt + 4) else none := by
    rw [hpos, Evsel.positions]
    cases evsel.has perfSampleTid <;> rfl
  simp only [Tp.convertVcpu, hvcpu, hsome, if_true, hnext]
  simp only [hpos, Evsel.positions, writeAt_field, patch_append]

theorem convertIds_eq (hpos : block.pos = evsel.positions) (hvcpu : tp.vcpu = some v)
    (hcpu : evsel.has perfSampleCpu = true) (cpu : Int) (data bytes : List UInt8) :
    evsel.convertIds block (tp.cpuidx block cpu) (tp.threadidx block cpu data) bytes =
      patch (field (evsel.has perfSampleId) evsel.idAt 8 (tp.localId evsel (v.entry cpu)) ++
        field (evsel.has perfSampleStreamId) evsel.streamIdAt 8
          (tp.localId evsel (v.entry cpu))) bytes := by
  have hsome : block.pos.cpu.isSome = true := by
    rw [hpos, Evsel.positions, hcpu]
    rfl
  have hid : perfEvselGetId evsel (tp.cpuidx block cpu).toNat
      (tp.threadidx block cpu data).toNat = tp.localId evsel (v.entry cpu) := by
    cases honcpu : tp.oncpu <;>
      simp [Tp.cpuidx, Tp.threadidx, Tp.localId, hvcpu, hsome, honcpu]
  simp only [Evsel.convertIds, hid, hpos, Evsel.positions]
  rw [patch_append, ← writeAt_field, ← writeAt_field]
  cases evsel.has perfSampleId <;> cases evsel.has perfSampleStreamId <;> rfl

/-- The fields in front are written, whatever is done about the raw record. -/
theorem front_eq (hpos : block.pos = evsel.positions) (hvcpu : tp.vcpu = some v)
    (hcpu : evsel.has perfSampleCpu = true) (cpu : Int) (data : List UInt8) :
    evsel.convertIds block (tp.cpuidx block cpu) (tp.threadidx block cpu data)
      (tp.convertVcpu block cpu data) = patch (tp.hostFields evsel (v.entry cpu)) data := by
  rw [convertIds_eq hpos hvcpu hcpu, convertVcpu_eq hpos hvcpu hcpu, ← patch_append]
  simp only [Tp.hostFields, List.append_assoc]

/-- The callchain lies behind the fields in front, its length is read after they are written. -/
theorem rawAt_front (hfits : evsel.Fits data) (d : VcpuData) :
    evsel.rawAt evsel.commonTypeAt (patch (tp.hostFields evsel d) data) =
      evsel.rawAt evsel.commonTypeAt data := by
  have hstop := hostFields_stop evsel tp d
  have hfront : Patched (tp.hostFields evsel d) data (patch (tp.hostFields evsel d) data) :=
    patched_patch (fun p hp => Nat.le_trans (hstop p hp) hfits.fixed)
      (List.pairwise_append.mp (fields_apart evsel data tp d)).1
  have hcount : slice (patch (tp.hostFields evsel d) data) evsel.commonTypeAt 8 =
      slice data evsel.commonTypeAt 8 :=
    hfront.slice_apart fun p hp => .inr (hstop p hp)
  rw [Evsel.rawAt, hcount, ← Evsel.rawAt]

theorem convertRaw_eq (hpos : block.pos = evsel.positions) (hvcpu : tp.vcpu = some v)
    (hid : tp.id ≠ block.remoteId) {cpu : Int} (hcpu : 0 ≤ cpu) {bytes : List UInt8}
    (hraw : evsel.rawAt evsel.commonTypeAt bytes = evsel.rawAt evsel.commonTypeAt data) :
    tp.convertRaw evsel block cpu bytes =
      patch (tp.rawFields evsel (v.entry cpu) data) bytes := by
  have hat : block.pos.commonType.getD 0 = evsel.commonTypeAt := by
    rw [hpos]
    rfl
  simp only [Tp.convertRaw, if_neg hid, hat, hraw, hvcpu, if_pos hcpu, Tp.rawFields]
  cases evsel.has perfSampleRaw <;> rfl

end Rewriting

section Conversion
variable {tp : Tp} {evsel : Evsel} {v : VcpuInfo} {block : EventBlock} {data : List UInt8}

theorem isVcpu_has (h : v.IsVcpu (evsel.vcpuNumber data)) :
    evsel.has perfSampleCpu = true := by
  by_contra hnone
  have hneg := h.1
  rw [Evsel.vcpuNumber, if_neg hnone] at hneg
  omega

/-- The bytes of a sample of a vcpu. -/
theorem converted_data (hevsel : tp.evsel = some evsel) (hsampled : evsel.samplePeriod ≠ 0)
    (hvcpu : tp.vcpu = some v) (hblock : Receives tp block) (hfits : evsel.Fits data)
    (hcpu : v.IsVcpu (evsel.vcpuNumber data)) :
    (blockEventConvert tp block data).data =
      patch (tp.hostFields evsel (v.entry (evsel.vcpuNumber data)) ++
        if tp.id = block.remoteId then []
        else tp.rawFields evsel (v.entry (evsel.vcpuNumber data)) data) data := by
  have hpos := EventBlock.place_pos (hblock.placed hevsel)
  have hremote := block.place_remoteId evsel
  rw [convert_eq hevsel hsampled, cpu_eq hpos]
  dsimp only
  rw [front_eq hpos hvcpu (isVcpu_has hcpu), patch_append]
  split_ifs with hid
  · rw [Tp.convertRaw, hremote, if_pos hid]
    rfl
  · rw [← hremote] at hid
    exact convertRaw_eq hpos hvcpu hid hcpu.1 (rawAt_front hfits _)

/-- A sample of no vcpu is never rejected without a look at the tables: either its cpu number is
used all the same, or there is none and the first instance gets it. -/
theorem no_vcpu_accepted (hevsel : tp.evsel = some evsel) (hsampled : evsel.samplePeriod ≠ 0)
    (hvcpu : tp.vcpu = some v) (hblock : Receives tp block) (data : List UInt8) :
    ¬((blockEventConvert tp block data).ret < 0 ∧
      (blockEventConvert tp block data).touched = []) := by
  have hpos := EventBlock.place_pos (hblock.placed hevsel)
  rw [convert_eq hevsel hsampled, cpu_eq hpos]
  dsimp only
  rintro ⟨hret, htouched⟩
  cases hcpu : evsel.has perfSampleCpu with
  | true => simp [Tp.touched, hvcpu, hpos, Evsel.positions, hcpu] at htouched
  | false =>
    have hnone : (block.place evsel).pos.cpu.isSome = false := by
      rw [hpos, Evsel.positions, hcpu]
      rfl
    simp [Tp.cpuidx, Tp.threadidx, hvcpu, hnone] at hret

/-- A sample is treated the way all are if and only if it is one of a vcpu and, where the event
has the same id on both machines, its raw record holds the local values already. -/
theorem conversion_uniform_iff (tp : Tp) (evsel : Evsel) (v : VcpuInfo) (block : EventBlock)
    (data : List UInt8) (hevsel : tp.evsel = some evsel) (hsampled : evsel.samplePeriod ≠ 0)
    (hvcpu : tp.vcpu = some v) (hblock : Receives tp block) (hfits : evsel.Fits data) :
    Uniform tp evsel v data (blockEventConvert tp block data) ↔
      v.IsVcpu (evsel.vcpuNumber data) ∧
        (tp.id = block.remoteId →
          ∀ p ∈ tp.rawFields evsel (v.entry (evsel.vcpuNumber data)) data, p.Holds data) := by
  have hapart := fields_apart evsel data tp (v.entry (evsel.vcpuNumber data))
  have hin : ∀ p ∈ tp.hostFields evsel (v.entry (evsel.vcpuNumber data)),
      p.stop ≤ data.length :=
    fun p hp => Nat.le_trans (hostFields_stop evsel tp _ p hp) hfits.fixed
  have hraw := rawFields_stop evsel data tp (v.entry (evsel.vcpuNumber data)) hfits
  constructor
  · intro huniform
    have hcpu : v.IsVcpu (evsel.vcpuNumber data) := by
      by_contra hno
      exact no_vcpu_accepted hevsel hsampled hvcpu hblock data (huniform.rejects hno)
    refine ⟨hcpu, fun hid => ?_⟩
    have hpatched := huniform.converts hcpu
    rw [converted_data hevsel hsampled hvcpu hblock hfits hcpu, if_pos hid,
      List.append_nil] at hpatched
    exact (patched_prefix_iff hin hapart).mp hpatched
  · rintro ⟨hcpu, hsame⟩
    refine ⟨fun _ => ?_, fun hno => absurd hcpu hno⟩
    rw [converted_data hevsel hsampled hvcpu hblock hfits hcpu]
    split_ifs with hid
    · rw [List.append_nil]
      exact (patched_prefix_iff hin hapart).mpr (hsame hid)
    · refine patched_patch (fun p hp => ?_) hapart
      obtain hp | hp := List.mem_append.mp hp
      · exact hin p hp
      · exact hraw p hp

/-- Two vcpus, the second of which may run on two host cpus. -/
def twoVcpus : VcpuInfo where
  vcpu := [{ hostCpu := 3, threadId := 1001, hostCpusNr := 1 },
    { hostCpu := 4, threadId := 1002, hostCpusNr := 2 }]
  beyond := fun _ => { hostCpu := 0, threadId := 0, hostCpusNr := 1 }

def switchEvsel : Evsel where
  sampleType := perfSampleTid ||| perfSampleId ||| perfSampleCpu ||| perfSampleRaw
  samplePeriod := 1
  readFormat := 0
  nrMembers := 1
  systemWide := false
  sampleId := fun _ thread => some (50 + thread)

def switchTp : Tp where
  id := 300
  sys := "sched"
  name := "sched_switch"
  eventSize := 8
  evsel := some switchEvsel
  vcpu := some twoVcpus
  oncpu := false
  cpus := []
  threads := [1001, 1002]

/-- A sample the guest took on `cpu` in its thread 7, of an event whose id there is 300, too. -/
def guestSample (cpu : UInt8) : List UInt8 :=
  [7, 0, 0, 0, 7, 0, 0, 0, 1, 0, 0, 0, 0, 0, 0, 0, cpu, 0, 0, 0, 0, 0, 0, 0,
    8, 0, 0, 0, 44, 1, 0, 0, 7, 0, 0, 0]

def sameIdBlock : EventBlock := { remoteId := 300 }

theorem sameIdBlock_receives : Receives switchTp sameIdBlock :=
  @Receives.record _ _ _ (.tp "sched" "sched_switch" 1 switchEvsel.sampleType 8 300) []
    .fresh rfl

theorem guestSample_fits (cpu : UInt8) : switchEvsel.Fits (guestSample cpu) :=
  ⟨Nat.le_of_ble_eq_true rfl, fun _ => Nat.le_of_ble_eq_true rfl⟩

theorem conversion_uniform_iff_guest :
    Uniform switchTp switchEvsel twoVcpus (guestSample 1)
        (blockEventConvert switchTp sameIdBlock (guestSample 1)) ↔
      twoVcpus.IsVcpu (switchEvsel.vcpuNumber (guestSample 1)) ∧
        (switchTp.id = sameIdBlock.remoteId →
          ∀ p ∈ switchTp.rawFields switchEvsel
            (twoVcpus.entry (switchEvsel.vcpuNumber (guestSample 1))) (guestSample 1),
            p.Holds (guestSample 1)) :=
  conversion_uniform_iff switchTp switchEvsel twoVcpus sameIdBlock (guestSample 1) rfl (by decide)
    rfl sameIdBlock_receives (guestSample_fits 1)

/-- A sample of the second vcpu keeps the guest's `common_pid`, and for a sample of cpu 9 an entry
is read that the machine does not have. -/
theorem same_id_not_uniform :
    Receives switchTp sameIdBlock ∧
      ¬ Uniform switchTp switchEvsel twoVcpus (guestSample 1)
        (blockEventConvert switchTp sameIdBlock (guestSample 1)) ∧
      ¬ Uniform switchTp switchEvsel twoVcpus (guestSample 9)
        (blockEventConvert switchTp sameIdBlock (guestSample 9)) := by
  refine ⟨sameIdBlock_receives, fun h => ?_, fun h => ?_⟩
  · have hpid : slice (blockEventConvert switchTp sameIdBlock (guestSample 1)).data 32 4 =
        leBytes 4 1002 :=
      (h.converts (by decide)).holds { off := 32, cells := leBytes 4 1002 } (by decide)
    exact absurd hpid (by decide)
  · have htouched := (h.rejects (by decide)).2
    exact absurd htouched (by decide)

end Conversion

end PerfProf.EventSpread
