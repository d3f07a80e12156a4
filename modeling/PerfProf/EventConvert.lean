import PerfProf.EventSpread
import PerfProf.Patch

/-! Samples pulled from another machine. `block_event_convert` rewrites the fields of a record that
say where the event happened, for a guest with the data of its vcpu on the host. -/
namespace PerfProf.EventSpread
open PerfProf.Framing

section Machine

/-- What is known of a vcpu: `hostCpusNr` host cpus it may run on. -/
structure VcpuData where
  hostCpu : Int
  threadId : Int
  hostCpusNr : Nat

/-- The vcpus of a machine, and what stands in memory before and after their table. -/
structure VcpuInfo where
  vcpu : List VcpuData
  beyond : Int → VcpuData

def VcpuInfo.nrVcpu (v : VcpuInfo) : Nat := v.vcpu.length

def VcpuInfo.entry (v : VcpuInfo) (cpu : Int) : VcpuData :=
  if 0 ≤ cpu then v.vcpu.getD cpu.toNat (v.beyond cpu) else v.beyond cpu

def perfSampleIp : Nat := 1 <<< 0
def perfSampleTid : Nat := 1 <<< 1
def perfSampleTime : Nat := 1 <<< 2
def perfSampleAddr : Nat := 1 <<< 3
def perfSampleRead : Nat := 1 <<< 4
def perfSampleCallchain : Nat := 1 <<< 5
def perfSampleId : Nat := 1 <<< 6
def perfSampleCpu : Nat := 1 <<< 7
def perfSamplePeriod : Nat := 1 <<< 8
def perfSampleStreamId : Nat := 1 <<< 9
def perfSampleRaw : Nat := 1 <<< 10
def perfSampleIdentifier : Nat := 1 <<< 16

def perfFormatTotalTimeEnabled : Nat := 1 <<< 0
def perfFormatTotalTimeRunning : Nat := 1 <<< 1
def perfFormatId : Nat := 1 <<< 2
def perfFormatGroup : Nat := 1 <<< 3

def hasBit (bits bit : Nat) : Bool := bits &&& bit != 0

structure Evsel where
  sampleType : Nat
  samplePeriod : Nat
  readFormat : Nat
  nrMembers : Nat
  systemWide : Bool
  sampleId : Nat → Nat → Option Nat

def perfEvselReadSize (evsel : Evsel) : Nat :=
  let entry := if hasBit evsel.readFormat perfFormatId then 8 + 8 else 8
  let size := if hasBit evsel.readFormat perfFormatTotalTimeEnabled then 8 else 0
  let size := if hasBit evsel.readFormat perfFormatTotalTimeRunning then size + 8 else size
  if hasBit evsel.readFormat perfFormatGroup then size + 8 + entry * evsel.nrMembers
  else size + entry

def perfEvselGetId (evsel : Evsel) (cpu thread : Nat) : Nat :=
  (evsel.sampleId cpu (if evsel.systemWide then 0 else thread)).getD 0

def perfCpuMapIdx (map : List Int) (cpu : Int) (low high : Nat) : Int :=
  if low < high then
    let idx := (low + high) / 2
    let cpuAtIdx := map.getD idx 0
    if cpuAtIdx = cpu then idx
    else if cpuAtIdx > cpu then perfCpuMapIdx map cpu low idx
    else perfCpuMapIdx map cpu (idx + 1) high
  else -1
termination_by high - low

def perfThreadMapIdx (map : List Int) (pid : Int) : Int :=
  match map.findIdx? (· == pid) with
  | some i => i
  | none => -1

/-- The event that receives, and the `cpus` and `threads` of its device. -/
structure Tp where
  id : Int
  sys : String
  name : String
  eventSize : Nat
  evsel : Option Evsel
  vcpu : Option VcpuInfo
  oncpu : Bool
  cpus : List Int
  threads : List Int

end Machine

section Bytes

/-- The low `n` bytes of an integer, the lowest first. -/
def leBytes (n : Nat) (v : Int) : List UInt8 :=
  (List.range n).map fun i => UInt8.ofNat (v / 256 ^ i % 256).toNat

@[simp] theorem leBytes_length (n : Nat) (v : Int) : (leBytes n v).length = n := by
  simp [leBytes]

def ofBytes (bytes : List UInt8) : Nat := bytes.foldr (fun b v => b.toNat + 256 * v) 0

def readInt (data : List UInt8) (off : Nat) : Int :=
  let word := ofBytes (slice data off 4)
  if word < 2 ^ 31 then word else word - 2 ^ 32

end Bytes

section Layout

def Evsel.has (evsel : Evsel) (bit : Nat) : Bool := hasBit evsel.sampleType bit

/-- The bytes an optional field takes. -/
def Evsel.room (evsel : Evsel) (bit n : Nat) : Nat := if evsel.has bit then n else 0

def Evsel.pidAt (evsel : Evsel) : Nat :=
  evsel.room perfSampleIdentifier 8 + evsel.room perfSampleIp 8

def Evsel.idAt (evsel : Evsel) : Nat :=
  evsel.pidAt + evsel.room perfSampleTid 8 + evsel.room perfSampleTime 8 +
    evsel.room perfSampleAddr 8

def Evsel.streamIdAt (evsel : Evsel) : Nat := evsel.idAt + evsel.room perfSampleId 8

def Evsel.cpuAt (evsel : Evsel) : Nat := evsel.streamIdAt + evsel.room perfSampleStreamId 8

def Evsel.commonTypeAt (evsel : Evsel) : Nat :=
  evsel.cpuAt + evsel.room perfSampleCpu 8 + evsel.room perfSamplePeriod 8 +
    evsel.room perfSampleRead (perfEvselReadSize evsel)

/-- The positions a block keeps, `none` for -1. -/
structure Positions where
  pid : Option Nat := none
  cpu : Option Nat := none
  id : Option Nat := none
  streamId : Option Nat := none
  commonType : Option Nat := none
deriving DecidableEq

def Evsel.positions (evsel : Evsel) : Positions where
  pid := if evsel.has perfSampleTid then some evsel.pidAt else none
  cpu := if evsel.has perfSampleCpu then some evsel.cpuAt else none
  id := if evsel.has perfSampleId then some evsel.idAt else none
  streamId := if evsel.has perfSampleStreamId then some evsel.streamIdAt else none
  commonType := some evsel.commonTypeAt

structure EventBlock where
  remoteId : Int := 0
  pos : Positions := {}

/-- The positions are worked out when none of them is known. -/
def EventBlock.place (block : EventBlock) (evsel : Evsel) : EventBlock :=
  if block.pos = {} then { block with pos := evsel.positions } else block

end Layout

section Convert

def EventBlock.cpu (block : EventBlock) (data : List UInt8) : Int :=
  match block.pos.cpu with
  | some off => readInt data off
  | none => -1

def Tp.cpuidx (tp : Tp) (block : EventBlock) (cpu : Int) : Int :=
  if block.pos.cpu.isSome && tp.oncpu then
    match tp.vcpu with
    | none => perfCpuMapIdx tp.cpus cpu 0 tp.cpus.length
    | some v => perfCpuMapIdx tp.cpus (v.entry cpu).hostCpu 0 tp.cpus.length
  else 0

def Tp.threadidx (tp : Tp) (block : EventBlock) (cpu : Int) (data : List UInt8) : Int :=
  if tp.oncpu then 0
  else
    match tp.vcpu with
    | none =>
      match block.pos.pid with
      | some off => perfThreadMapIdx tp.threads (readInt data (off + 4))
      | none => 0
    | some v =>
      if block.pos.cpu.isSome then perfThreadMapIdx tp.threads (v.entry cpu).threadId else 0

/-- The cpu field of a vcpu: -1 where it may run on several host cpus. -/
def VcpuData.cpuField (d : VcpuData) : Int := if d.hostCpusNr > 1 then -1 else d.hostCpu

def writeAt (off : Option Nat) (n : Nat) (v : Int) (data : List UInt8) : List UInt8 :=
  match off with
  | some off => blit data off (leBytes n v)
  | none => data

/-- Guest vcpu to host cpu and host tid. -/
def Tp.convertVcpu (tp : Tp) (block : EventBlock) (cpu : Int) (data : List UInt8) : List UInt8 :=
  match tp.vcpu with
  | none => data
  | some v =>
    if block.pos.cpu.isSome then
      let data := writeAt block.pos.cpu 4 (v.entry cpu).cpuField data
      let data := writeAt block.pos.pid 4 (v.entry cpu).threadId data
      writeAt (block.pos.pid.map (· + 4)) 4 (v.entry cpu).threadId data
    else data

def Evsel.convertIds (evsel : Evsel) (block : EventBlock) (cpuidx threadidx : Int)
    (data : List UInt8) : List UInt8 :=
  let id : Int := perfEvselGetId evsel cpuidx.toNat threadidx.toNat
  let data := if evsel.has perfSampleId then writeAt block.pos.id 8 id data else data
  if evsel.has perfSampleStreamId then writeAt block.pos.streamId 8 id data else data

/-- Where the raw data starts: behind the callchain, which has a length of its own. -/
def Evsel.rawAt (evsel : Evsel) (off : Nat) (data : List UInt8) : Nat :=
  if evsel.has perfSampleCallchain then off + (ofBytes (slice data off 8) + 1) * 8 else off

def Tp.convertRaw (tp : Tp) (evsel : Evsel) (block : EventBlock) (cpu : Int)
    (data : List UInt8) : List UInt8 :=
  if tp.id = block.remoteId then data
  else
    let commonTypePos := evsel.rawAt (block.pos.commonType.getD 0) data
    if evsel.has perfSampleRaw then
      let commonTypePos := commonTypePos + 4
      let data := blit data commonTypePos (leBytes 2 tp.id)
      match tp.vcpu with
      | none => data
      | some v =>
        if 0 ≤ cpu then blit data (commonTypePos + 4) (leBytes 4 (v.entry cpu).threadId) else data
    else data

/-- The entries of the vcpu tables that are read. -/
def Tp.touched (tp : Tp) (evsel : Evsel) (block : EventBlock) (cpu : Int) : List Int :=
  if tp.vcpu.isSome then
    (if block.pos.cpu.isSome then [cpu] else []) ++
      if tp.id ≠ block.remoteId ∧ evsel.has perfSampleRaw ∧ 0 ≤ cpu then [cpu] else []
  else []

/-- The block, the bytes behind the header of the record, what is returned, and the entries of the
vcpu tables that were read. -/
structure Converted where
  block : EventBlock
  data : List UInt8
  ret : Int
  touched : List Int

def blockEventConvert (tp : Tp) (block : EventBlock) (data : List UInt8) : Converted :=
  match tp.evsel with
  | none => { block := block, data := data, ret := -1, touched := [] }
  | some evsel =>
    if evsel.samplePeriod = 0 then { block := block, data := data, ret := -1, touched := [] }
    else
      let block := block.place evsel
      let cpu := block.cpu data
      let cpuidx := tp.cpuidx block cpu
      let threadidx := tp.threadidx block cpu data
      { block := block
        data := tp.convertRaw evsel block cpu
          (evsel.convertIds block cpuidx threadidx (tp.convertVcpu block cpu data))
        ret := if tp.oncpu then cpuidx else threadidx
        touched := tp.touched evsel block cpu }

/-- The records that arrive; `enabled` says whether the device is on. -/
inductive Record where
  | tp (sys name : String) (samplePeriod sampleType eventSize : Nat) (id : Int)
  | sample (enabled : Bool) (data : List UInt8)
  | other (enabled : Bool)

/-- What is handed to the device, with the instance it belongs to. -/
inductive Processed where
  | sample (data : List UInt8) (ins : Int)
  | other

/-- `none` is a block that has been freed. -/
def blockProcessEvent (tp : Tp) (block : EventBlock) :
    Record → Option (EventBlock × List Processed)
  | .tp sys name samplePeriod sampleType eventSize id =>
    if sys ≠ tp.sys ∨ name ≠ tp.name then none
    else
      match tp.evsel with
      | none => none
      | some evsel =>
        if evsel.samplePeriod = 0 ∨ samplePeriod = 0 then none
        else if evsel.sampleType ≠ sampleType then none
        else if hasBit sampleType perfSampleCallchain then none
        else if tp.eventSize ≠ eventSize then none
        else some ({ block with remoteId := id }, [])
  | .sample enabled data =>
    if !enabled then some (block, [])
    else
      let converted := blockEventConvert tp block data
      if converted.ret < 0 then some (converted.block, [])
      else some (converted.block, [.sample converted.data converted.ret])
  | .other enabled => some (block, if enabled then [.other] else [])

/-- The blocks a run of records can lead to. -/
inductive Receives (tp : Tp) : EventBlock → Prop
  | fresh : Receives tp {}
  | record {block block' : EventBlock} {r : Record} {out : List Processed} :
      Receives tp block → blockProcessEvent tp block r = some (block', out) → Receives tp block'

end Convert

end PerfProf.EventSpread
