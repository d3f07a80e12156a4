import PerfProf.RbWalk
import PerfProf.Top

/-! trace_helpers.c: the cache of symbol objects. An object is the file of a name in a mount
namespace; it is read inside that namespace, and it holds a reference to it. -/
namespace PerfProf.SymObject
open Rblist
open PerfProf.Top (CStr strcmp orders_strcmp)

section Model

/-- `struct mntns`; pointers are numbers, NULL is 0. -/
structure Mntns where
  addr : Nat
  mntnsIno : Nat
  mntnsFd : Nat
  refcnt : Int
deriving DecidableEq

/-- `enum elf_type` -/
inductive ElfType where
  | exec | dyn | perfMap | vdso | unknown
deriving DecidableEq

/-- `struct object`, without its symbols. -/
structure Obj where
  addr : Nat
  refcnt : Nat
  mnt : Nat
  name : CStr
  shAddr : Nat
  shOffset : Nat
  type : ElfType
deriving DecidableEq

/-- `struct tmp_object` -/
structure TmpObject where
  mnt : Nat
  name : CStr
deriving DecidableEq

/-- `mntns_ino_fds`, `objects`, and the mount namespace that the process is in; none is the default one. -/
structure State where
  mntns : List Mntns
  objects : RbList Obj
  ns : Option Nat
deriving DecidableEq

/-- A call of `obj__get`, with what the system answers: the link and the file of the namespace of the process,
the addresses that malloc returns, the type of the ELF file and its section `.text`. -/
structure Get where
  name : CStr
  tgid : Int
  ino : Option Nat
  fd : Option Nat
  mntAddr : Nat
  objAddr : Nat
  elfType : Option Nat
  text : Option (Nat × Nat)
deriving DecidableEq

/-- The entry of an inode is used once more. -/
def useMntns (ino : Nat) : List Mntns → Option (Nat × List Mntns)
  | [] => none
  | m :: ms =>
    if m.mntnsIno = ino then some (m.addr, { m with refcnt := m.refcnt + 1 } :: ms)
    else (useMntns ino ms).map fun p => (p.1, m :: p.2)

/-- `get_mntns`; `dflt` is `default_mntns_ino`. -/
def getMntns (dflt : Nat) (g : Get) (mntns : List Mntns) : Nat × List Mntns :=
  match g.ino with
  | none => (0, mntns)
  | some ino =>
    if ino = dflt then (0, mntns)
    else match useMntns ino mntns with
      | some p => p
      | none => match g.fd with
        | none => (0, mntns)
        | some fd => (g.mntAddr, ⟨g.mntAddr, ino, fd, 1⟩ :: mntns)

/-- `put_mntns` -/
def putMntns (mnt : Nat) : List Mntns → List Mntns
  | [] => []
  | m :: ms =>
    if m.addr = mnt then
      if m.refcnt - 1 = 0 then ms else { m with refcnt := m.refcnt - 1 } :: ms
    else m :: putMntns mnt ms

/-- `enter_mntns`: the namespace of the descriptor. -/
def enterMntns (mnt : Nat) (st : State) : Option Nat :=
  match st.mntns.find? fun m => m.addr = mnt with
  | some m => some m.mntnsIno
  | none => st.ns

/-- `exit_mntns` -/
def exitMntns (mnt : Nat) (ns : Option Nat) : Option Nat := if mnt = 0 then ns else none

def ET_EXEC : Nat := 2
def ET_DYN : Nat := 3

/-- `"[vdso]"` -/
def vdsoName : CStr := [91, 118, 100, 115, 111, 93]

/-- `is_perf_map`: no file is one. -/
def isPerfMap (_ : CStr) : Bool := false

/-- `get_elf_type` -/
def getElfType (g : Get) : Option Nat := if g.name = vdsoName then none else g.elfType

/-- The pointers are subtracted and the difference is cut to an int. -/
def mntDiff (a b : Nat) : Int := ((a : Int) - (b : Int)).bmod (2 ^ 32)

/-- `object_node_cmp` -/
def objectNodeCmp (tmp : TmpObject) (o : Obj) : Ordering :=
  if o.mnt = tmp.mnt then strcmp o.name tmp.name else compare (mntDiff o.mnt tmp.mnt) 0

/-- The type of a new object, and its section; none if that cannot be read. -/
def elfInfo (g : Get) : Option (ElfType × Nat × Nat) :=
  if getElfType g = some ET_EXEC then g.text.map fun text => (.exec, text)
  else if getElfType g = some ET_DYN then g.text.map fun text => (.dyn, text)
  else if isPerfMap g.name then some (.perfMap, 0, 0)
  else if g.name = vdsoName then some (.vdso, 0, 0)
  else some (.unknown, 0, 0)

/-- `object_node_new`: the namespace of the process and the object. -/
def objectNodeNew (g : Get) (mnt : Nat) (st : State) : Option Nat × Option Obj :=
  let ns := if mnt = 0 then st.ns else enterMntns mnt st
  match elfInfo g with
  | none => (ns, none)
  | some (type, shAddr, shOffset) => (exitMntns mnt ns, some ⟨g.objAddr, 0, mnt, g.name, shAddr, shOffset, type⟩)

/-- `rblist__findnew` on `objects`. -/
def findnew (bal : Rebalance Obj) (g : Get) (mnt : Nat) (st : State) : State × Option Obj :=
  match st.objects.entries.find (objectNodeCmp ⟨mnt, g.name⟩) with
  | some o => (st, some o)
  | none => match objectNodeNew g mnt st with
    | (ns, none) => ({ st with ns := ns }, none)
    | (ns, some o) =>
      ({ st with ns := ns, objects := st.objects.addNode bal (objectNodeCmp ⟨mnt, g.name⟩) o }, some o)

/-- The object at an address is changed. -/
def change (addr : Nat) (f : Obj → Obj) (objects : RbList Obj) : RbList Obj :=
  { objects with entries := objects.entries.map fun o => if o.addr = addr then f o else o }

/-- `refcount_inc`, which stops at the greatest number. -/
def refcountInc (n : Nat) : Nat := if n = 2 ^ 32 - 1 then n else n + 1

/-- `refcount_dec_and_test` -/
def refcountDecAndTest (n : Nat) : Nat × Bool := if n = 2 ^ 32 - 1 then (n, false) else (n - 1, n - 1 = 0)

/-- The namespace of a call, with a reference to it. -/
def mntOf (dflt : Nat) (st : State) (g : Get) : Nat × List Mntns :=
  if g.tgid = 0 then (0, st.mntns) else getMntns dflt g st.mntns

/-- `obj__get`, behind `rblist__findnew`. -/
def takeRef (mnt : Nat) (st : State) : Option Obj → State × Nat
  | none => (st, 0)
  | some o =>
    if o.refcnt = 0 then
      ({ st with objects := change o.addr (fun o => { o with refcnt := 1 }) st.objects }, o.addr)
    else
      ({ st with
          objects := change o.addr (fun o => { o with refcnt := refcountInc o.refcnt }) st.objects
          mntns := if mnt = 0 then st.mntns else putMntns mnt st.mntns }, o.addr)

/-- `obj__get`: the state and the object, 0 for NULL. -/
def objGet (bal : Rebalance Obj) (dflt : Nat) (g : Get) (st : State) : State × Nat :=
  let tmp := mntOf dflt st g
  let found := findnew bal g tmp.1 { st with mntns := tmp.2 }
  takeRef tmp.1 found.1 found.2

/-- The nodes of an address are taken out of the tree. -/
def erase (addr : Nat) : Rblist.Tree Obj → Rblist.Tree Obj
  | .leaf => .leaf
  | .node l o r => if o.addr = addr then (erase addr l).join (erase addr r) else .node (erase addr l) o (erase addr r)

/-- `rblist__remove_node` on `objects`. -/
def removeNode (bal : Rebalance Obj) (o : Obj) (st : State) : State :=
  { st with
    objects := { st.objects with
      entries := bal.erased (erase o.addr st.objects.entries)
      freed := st.objects.freed ++ [o] }
    mntns := if o.mnt = 0 then st.mntns else putMntns o.mnt st.mntns }

/-- `obj__put` of the object at an address. -/
def objPut (bal : Rebalance Obj) (addr : Nat) (st : State) : State :=
  match st.objects.entries.toList.find? fun o => o.addr = addr with
  | none => st
  | some o =>
    if (refcountDecAndTest o.refcnt).2 then removeNode bal o st
    else
      { st with objects := change addr (fun o => { o with refcnt := (refcountDecAndTest o.refcnt).1 }) st.objects }

def init : State := ⟨[], RbList.init Obj, none⟩

inductive Call where
  | get (g : Get)
  | put (addr : Nat)
deriving DecidableEq

def step (bal : Rebalance Obj) (dflt : Nat) (st : State) : Call → State × Nat
  | .get g => objGet bal dflt g st
  | .put addr => (objPut bal addr st, 0)

end Model

end PerfProf.SymObject
