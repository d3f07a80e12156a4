import PerfProf.Callchain
import PerfProf.UniqueString

/-! stack_helpers.c: the folding of a flame graph. A callchain is made a key of section markers
and unique strings, the keys are counted in an rblist, and each is printed as one stack. -/
namespace PerfProf.FlameGraph
open Rblist UniqueStr Callchain
open PerfProf.Top (CStr)

section Model

/-- `PERF_CONTEXT_FLAME_GRAPH` -/
def contextFlameGraph : Nat := contextKernel - 1

/-- `PERF_MAX_STACK_DEPTH` -/
def maxStackDepth : Nat := 127

/-- `PERF_MAX_CONTEXTS_PER_STACK` -/
def maxContexts : Nat := 8

/-- The size of the array of the key. -/
def keySize : Nat := maxStackDepth + maxContexts + 5

/-- No block of memory has the number of a section marker as its address. -/
structure Memory extends Malloc where
  plain : ∀ k, isContext (addr k) = false

/-- What `struct flame_graph` is made with; the output is a special file or not. The symbols stay
loaded as long as there is a flame graph. -/
structure Graph where
  user : Bool
  special : Bool

/-- The context that `flame_graph_new` sets up. -/
def Graph.cc (fg : Graph) : CallchainCtx := ⟨fg.user, true, true, if fg.special then '\n' else ';'⟩

def Graph.reverse (fg : Graph) : Bool := !fg.special

/-- `cc->end` -/
def Graph.endChar (fg : Graph) : Char := if fg.special then '\n' else ' '

/-- A callchain of at most one kernel section and, behind it, at most one user section. -/
structure Sections where
  kernel : Option (List Nat)
  user : Option (List Nat)
  plain : ∀ ip ∈ kernel.getD [] ++ user.getD [], isContext ip = false

def Sections.ips (s : Sections) : List Nat :=
  s.kernel.elim [] (contextKernel :: ·) ++ s.user.elim [] (contextUser :: ·)

/-- The arguments of `flame_graph_add_callchain_at_time`, and what the symbol tables make of an
address at that time. -/
structure Call where
  chain : Sections
  short : chain.ips.length ≤ maxStackDepth + maxContexts
  pid : UInt32
  comm : Option CStr
  time : Nat
  time_plain : isContext time = false
  timeStr : Option CStr
  kernelText : Nat → CStr
  userText : Nat → CStr

/-- `struct_key`, within its array. -/
structure Key where
  ips : List Nat
  fits : ips.length ≤ keySize
deriving DecidableEq

def Key.empty : Key := ⟨[], Nat.zero_le _⟩

/-- Words written behind the key; none if that is outside its array. -/
def Key.append (key : Key) (ws : List Nat) : Option Key :=
  if h : (key.ips ++ ws).length ≤ keySize then some ⟨key.ips ++ ws, h⟩ else none

/-- The key as a callchain. -/
def Key.chain (key : Key) : Chain := ⟨key.ips, Nat.lt_of_le_of_lt key.fits (by decide)⟩

/-- `struct key_value` -/
structure KeyValue where
  n : UInt32
  key : Key
deriving DecidableEq

def KeyValue.count (kv : KeyValue) : KeyValue := { kv with n := kv.n + 1 }

/-- The loop of `key_value_node_cmp`, and the difference of the lengths. -/
def cmpIps : List Nat → List Nat → Ordering
  | a :: s, b :: t => if b < a then .gt else if a < b then .lt else cmpIps s t
  | s, t => compare s.length t.length

/-- `key_value_node_cmp` -/
def keyValueNodeCmp (key : Key) (kv : KeyValue) : Ordering := cmpIps kv.key.ips key.ips

/-- `key_value_node_new` -/
def keyValueNodeNew (key : Key) : KeyValue := ⟨0, key⟩

/-- The unique strings and `kv_pairs`. -/
structure State where
  strings : Strings
  pairs : RbList KeyValue

/-- What the rotations of the two lists do. -/
structure Balance where
  strings : Rebalance UniqueString
  pairs : Rebalance KeyValue

/-- The strings, `context_kernel_num` and `context_user_num`. -/
structure Conv where
  strings : Strings
  kernelNum : Nat
  userNum : Nat

/-- The loop of `print2string_callchain`: it replaces each frame by its unique string. -/
def print2string (bal : Rebalance UniqueString) (m : Malloc) (cc : CallchainCtx) (c : Call) :
    List Nat → Bool → Bool → Conv → List Nat × Conv
  | [], _, _, s => ([], s)
  | ip :: ips, kernel, user, s =>
    if ip = contextKernel then
      let num := if ips = [] then s.kernelNum else s.kernelNum + 1
      let r := print2string bal m cc c ips true false { s with kernelNum := num }
      (ip :: r.1, r.2)
    else if ip = contextUser then
      let num := if ips = [] then s.userNum else s.userNum + 1
      let r := print2string bal m cc c ips false true { s with userNum := num }
      (ip :: r.1, r.2)
    else if kernel && cc.print2stringKernel then
      let str := uniqueString bal m (c.kernelText ip) s.strings
      let r := print2string bal m cc c ips kernel user { s with strings := str.2 }
      (str.1 :: r.1, r.2)
    else if user && cc.print2stringUser then
      let str := uniqueString bal m (c.userText ip) s.strings
      let r := print2string bal m cc c ips kernel user { s with strings := str.2 }
      (str.1 :: r.1, r.2)
    else
      let r := print2string bal m cc c ips kernel user s
      (ip :: r.1, r.2)

theorem length_print2string (bal : Rebalance UniqueString) (m : Malloc) (cc : CallchainCtx) (c : Call)
    (ips : List Nat) (kernel user : Bool) (s : Conv) :
    (print2string bal m cc c ips kernel user s).1.length = ips.length := by
  induction ips generalizing kernel user s with
  | nil => rfl
  | cons ip ips ih =>
    unfold print2string
    split_ifs <;> exact congrArg (· + 1) (ih _ _ _)

def cstr (s : String) : CStr := s.toList.map fun c => Fin.ofNat 256 c.toNat

/-- `"%d"` of the pid. -/
def decimalPid (pid : UInt32) : CStr :=
  cstr (toString (if pid.toNat < 2 ^ 31 then (pid.toNat : Int) else (pid.toNat : Int) - 2 ^ 32))

/-- The comm or else the pid, in a buffer of 128 bytes. -/
def Call.commOrPid (c : Call) : CStr := (c.comm.getD (decimalPid c.pid)).take 127

/-- The key with `context_user_num` and the strings. -/
structure Making where
  key : Key
  userNum : Nat
  strings : Strings

/-- A user marker, if there was none. -/
def Making.isolate (mk : Making) : Option Making :=
  if mk.userNum = 0 then (mk.key.append [contextUser]).map fun key => ⟨key, mk.userNum + 1, mk.strings⟩
  else some mk

/-- A unique string behind the key. -/
def Making.name (bal : Rebalance UniqueString) (m : Malloc) (str : CStr) (mk : Making) : Option Making :=
  let a := uniqueString bal m str mk.strings
  (mk.key.append [a.1]).map fun key => ⟨key, mk.userNum, a.2⟩

/-- The time is put in front of the stack. -/
def startKey (c : Call) : Option Key :=
  if c.time = 0 then some Key.empty else Key.empty.append [contextFlameGraph, c.time]

/-- The comm or the pid is put behind a user stack. -/
def addComm (bal : Rebalance UniqueString) (m : Malloc) (fg : Graph) (c : Call) (mk : Making) : Option Making :=
  if fg.cc.user && fg.cc.print2stringUser then mk.isolate.bind (Making.name bal m c.commOrPid)
  else some mk

/-- The time as a string is put at the very end. -/
def addTimeStr (bal : Rebalance UniqueString) (m : Malloc) (c : Call) (mk : Making) : Option Making :=
  match c.timeStr with
  | some str => if c.time = 0 then some mk else mk.isolate.bind (Making.name bal m str)
  | none => some mk

/-- `keyvalue_pairs_add_key` -/
def addKey (bal : Rebalance KeyValue) (key : Key) (pairs : RbList KeyValue) : RbList KeyValue :=
  pairs.findnew bal (keyValueNodeCmp key) (keyValueNodeNew key) KeyValue.count

/-- `print2string_callchain` -/
def print2stringCallchain (bal : Rebalance UniqueString) (m : Malloc) (cc : CallchainCtx) (c : Call) (strings : Strings)
    (key : Key) : Key × Conv :=
  let r := print2string bal m cc c key.ips false false ⟨strings, 0, 0⟩
  (⟨r.1, (length_print2string ..).trans_le key.fits⟩, r.2)

/-- `flame_graph_add_callchain_at_time`, behind `print2string_callchain`. -/
def addConverted (bal : Balance) (m : Malloc) (fg : Graph) (st : State) (c : Call) (key : Key) (conv : Conv) :
    Option State :=
  -- callchain empty
  if conv.kernelNum + conv.userNum = c.chain.ips.length then some { st with strings := conv.strings }
  else
    (addComm bal.strings m fg c ⟨key, conv.userNum, conv.strings⟩).bind fun mk =>
    (addTimeStr bal.strings m c mk).map fun mk =>
    ⟨mk.strings, addKey bal.pairs mk.key st.pairs⟩

/-- `flame_graph_add_callchain_at_time`; none if the key is written outside its array. -/
def flameGraphAddCallchainAtTime (bal : Balance) (m : Malloc) (fg : Graph) (st : State) (c : Call) :
    Option State :=
  (startKey c).bind fun start =>
  (start.append c.chain.ips).bind fun key =>
  let r := print2stringCallchain bal.strings m fg.cc c st.strings key
  addConverted bal m fg st c r.1 r.2

/-- `flame_graph_reset` -/
def flameGraphReset (bal : Balance) (st : State) : State :=
  { st with pairs := (st.pairs.drainAll bal.pairs (fun u _ => u) ()).1 }

def chars (s : CStr) : List Char := s.map fun b => Char.ofNat b

/-- The text of a frame. A flame graph has strings alone. -/
def textOf (st : Strings) : Frame → List Char
  | .string ip => chars (st.strAt ip)
  | .kernel ip => Nat.toDigits 16 ip
  | .user ip => Nat.toDigits 16 ip

/-- `print_callchain`, for a key. -/
def printStack (fg : Graph) (st : Strings) (key : Key) : Option (List Char) :=
  if key.ips = [] then some [] else
  (if fg.reverse then printCallchainReverse fg.cc (textOf st) key.chain
    else some (printCallchain fg.cc (textOf st) key.chain)).map fun out =>
  out.text ++ if out.printed then [fg.endChar] else []

/-- What is printed for a key: the stack and its number. -/
structure Line where
  stack : List Char
  n : UInt32
deriving DecidableEq

/-- `flame_graph_output`; none if an ip outside a key is read. -/
def flameGraphOutput (fg : Graph) (st : State) : Option (List Line) :=
  st.pairs.entries.toList.mapM fun kv => (printStack fg st.strings kv.key).map fun s => ⟨s, kv.n⟩

inductive Input where
  | add (c : Call)
  | reset

def step (bal : Balance) (m : Malloc) (fg : Graph) (st : State) : Input → Option State
  | .add c => flameGraphAddCallchainAtTime bal m fg st c
  | .reset => some (flameGraphReset bal st)

def run (bal : Balance) (m : Malloc) (fg : Graph) (st : State) (inputs : List Input) : Option State :=
  inputs.foldlM (step bal m fg) st

def initState : State := ⟨UniqueStr.init, RbList.init KeyValue⟩

end Model

end PerfProf.FlameGraph
