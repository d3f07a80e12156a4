import PerfProf.CString

/-! Event strings in tep.c: `tp_list_new` cuts a copy of the string in place, at commas, slashes,
colons and equals signs that stand outside quotes. -/
namespace PerfProf.TpList
open PerfProf.CString

section Scan

def singleQuote : Char := Char.ofNat 39

def doubleQuote : Char := Char.ofNat 34

def isQuote (c : Char) : Bool := c == singleQuote || c == doubleQuote

/-- The loop of `next_sep`, with the quote that is open. -/
def nextSepIn (c : Char) : Option Char → List Char → Option Nat
  | _, [] => none
  | some quote, x :: s => (nextSepIn c (if x = quote then none else some quote) s).map (· + 1)
  | none, x :: s =>
    if x = c then some 0
    else (nextSepIn c (if isQuote x then some x else none) s).map (· + 1)

/-- `next_sep` -/
def nextSep (buf : List Char) (s : Nat) (c : Char) : Option Nat :=
  (nextSepIn c none (text buf s)).map (s + ·)

def strchr (buf : List Char) (s : Nat) (c : Char) : Option Nat :=
  ((text buf s).idxOf? c).map (s + ·)

/-- `rm_quotes`; no string is left as it is. -/
def rmQuotes (buf : List Char) (s : Option Nat) (fill : Char) : List Char × Option Nat :=
  match s with
  | none => (buf, none)
  | some s =>
    let str := text buf s
    match str.head?, str.getLast? with
    | some first, some last =>
      if isQuote first && last == first then
        ((buf.set (s + str.length - 1) fill).set s fill, some (s + 1))
      else (buf, some s)
    | _, _ => (buf, some s)

/-- The first pass: how many events there are. -/
def countTp : Nat → List Char → Nat
  | 0, _ => 0
  | fuel + 1, s =>
    match nextSepIn ',' none s with
    | some sep => countTp fuel (s.drop (sep + 1)) + 1
    | none => if s.isEmpty then 0 else 1

/-- The second pass: where the events start. -/
def fillNames : Nat → List Char → Nat → List Nat × List Char
  | 0, buf, _ => ([], buf)
  | fuel + 1, buf, s =>
    match nextSep buf s ',' with
    | some sep =>
      let (names, buf) := fillNames fuel (buf.set sep nul) (sep + 1)
      (s :: names, buf)
    | none => (if (text buf s).isEmpty then [] else [s], buf)

end Scan

section Model

def kprobe : Int := 65536
def kretprobe : Int := 65537
def uprobe : Int := 65538
def uretprobe : Int := 65539

/-- What is asked of other functions: the events of tracefs, the types of the dynamic ones,
`realpath`, `access` and `syms__file_offset`, `expr_compile` with the fields of an event, blocks of
`push` and `pull`, `vcpu_info_get`, the cpus of the device and, for a profiler, its option string. -/
structure Env where
  eventId : List Char → List Char → Int
  hasEvent : List Char → List Char → Bool
  hasField : List Char → List Char → List Char → Bool
  kprobeType : Bool
  uprobeType : Bool
  fileOffset : List Char → List Char → Option Nat
  compiles : Int → Option (List Char) → Bool
  blockList : Bool → Option (List Char) → Bool
  vcpuInfo : Option (List Char) → Bool
  cpus : Option (List Char) → Bool
  monitorFind : List Char → Bool
  openSource : List Char → Bool

structure TopAdd (α : Type) where
  field : Option α
  event : Bool
  topBy : Bool
deriving DecidableEq

/-- A `struct tp`; `α` is what stands for a string. -/
structure Tp (α : Type) where
  id : Int
  sys : Option α
  name : α
  filter : Option (List Char)
  stack : Bool
  maxStack : Int
  aliasName : Option α
  topAdd : List (TopAdd α)
  comm : Option α
  memPtr : Option α
  memSize : Option α
  num : Option α
  key : Option α
  role : Option α
  exec : Option α
  vm : Option α
  cpus : Option α
  untraced : Bool
  trigger : Bool
  broadcast : Bool
  receive : Bool
  kprobeFunc : Option α
  uprobePath : Option α
  uprobeOffset : Nat
deriving DecidableEq

/-- The event that `sys` and `name` stand for; `event` is one of tracefs. -/
structure Found (α : Type) where
  id : Int
  sys : Option α
  name : α
  event : Bool
  kprobeFunc : Option α
  uprobePath : Option α
  uprobeOffset : Nat

/-- A string of the buffer or a literal. -/
inductive Ptr where
  | place (p : Nat)
  | lit (s : List Char)
deriving DecidableEq

def Ptr.text (buf : List Char) : Ptr → List Char
  | .place p => CString.text buf p
  | .lit s => s

section Attr

variable {α : Type} (env : Env) (str : α → List Char)

/-- `atoi` -/
def atoi (s : List Char) : Int :=
  let digits (s : List Char) : Int :=
    (s.takeWhile Char.isDigit).foldl (fun n c => 10 * n + (c.toNat - 48 : Nat)) 0
  let value := match s.dropWhile Char.isWhitespace with
    | '-' :: s => -digits s
    | '+' :: s => digits s
    | s => digits s
  (max (-2 ^ 63) (min value (2 ^ 63 - 1))).bmod (2 ^ 32)

/-- The attribute is an expression over the fields of the event. -/
def exprAttr (id : Int) (value : Option α) (tp : Tp α) : Option (Tp α) :=
  if env.compiles id (value.map str) then some tp else none

/-- One `ATTR`. -/
def setAttr (id : Int) (attr : List Char) (value : Option α) (tp : Tp α) : Option (Tp α) :=
  if attr = "stack".toList then some { tp with stack := true }
  else if attr = "max-stack".toList then
    let maxStack := (value.map fun v => atoi (str v)).getD 0
    some { tp with stack := true, maxStack := if maxStack > 127 then 127 else maxStack }
  else if attr = "top-by".toList ∨ attr = "top_by".toList then
    exprAttr env str id value { tp with topAdd := tp.topAdd ++ [⟨value, false, true⟩] }
  else if attr = "top-add".toList ∨ attr = "top_add".toList then
    exprAttr env str id value { tp with topAdd := tp.topAdd ++ [⟨value, false, false⟩] }
  else if attr = "comm".toList then exprAttr env str id value { tp with comm := value }
  else if attr = "alias".toList then some { tp with aliasName := value }
  else if attr = "ptr".toList then exprAttr env str id value { tp with memPtr := value }
  else if attr = "size".toList then exprAttr env str id value { tp with memSize := value }
  else if attr = "num".toList then exprAttr env str id value { tp with num := value }
  else if attr = "key".toList then exprAttr env str id value { tp with key := value }
  else if attr = "role".toList then exprAttr env str id value { tp with role := value }
  else if attr = "untraced".toList then some { tp with untraced := true }
  else if attr = "trigger".toList then some { tp with trigger := true }
  else if attr = "push".toList then
    if 0 ≤ id then
      if env.blockList true (value.map str) then some { tp with broadcast := true } else none
    else some tp
  else if attr = "pull".toList then
    if 0 ≤ id then
      if env.blockList false (value.map str) then some { tp with receive := true } else none
    else some tp
  else if attr = "vm".toList then
    some (if env.vcpuInfo (value.map str) then { tp with vm := value } else tp)
  else if attr = "exec".toList then exprAttr env str id value { tp with exec := value }
  else if attr = "cpus".toList then
    some { tp with cpus := if env.cpus (value.map str) then value else none }
  else some tp

/-- The entry before its attributes. -/
def startTp (found : Found α) : Tp α where
  id := found.id
  sys := found.sys
  name := found.name
  filter := none
  stack := false
  maxStack := 0
  aliasName := none
  topAdd := []
  comm := none
  memPtr := none
  memSize := none
  num := none
  key := none
  role := none
  exec := none
  vm := none
  cpus := none
  untraced := false
  trigger := false
  broadcast := false
  receive := false
  kprobeFunc := found.kprobeFunc
  uprobePath := found.uprobePath
  uprobeOffset := found.uprobeOffset

/-- A field of the event stands for an attribute that is not given. -/
def fieldAttr (lit : List Char → α) (found : Found α) (attr : Option α) (field : List Char) :
    Option (Option α) :=
  if attr.isNone && found.event && env.hasField ((found.sys.map str).getD []) (str found.name) field then
    if env.compiles found.id (some field) then some (some (lit field)) else none
  else some attr

/-- The entry after its attributes. -/
def finishTp (lit : List Char → α) (found : Found α) (filter : Option α) (tp : Tp α) : Option (Tp α) := do
  let memPtr ← fieldAttr env str lit found tp.memPtr "ptr".toList
  let memSize ← fieldAttr env str lit found tp.memSize "bytes_alloc".toList
  some { tp with
    filter := (filter.map str).filter fun s => !s.isEmpty
    topAdd := if tp.topAdd.isEmpty then [⟨some (tp.aliasName.getD found.name), true, false⟩] else tp.topAdd
    memPtr := memPtr
    memSize := memSize }

end Attr

section Parse

variable (env : Env)

/-- `kprobe:func`, where the type is there. -/
def foundKprobe {α : Type} (id : Int) (enabled : Bool) (sys name : α) : Option (Found α) :=
  if enabled then some ⟨id, some sys, name, false, some name, none, 0⟩ else none

/-- The path of `uprobe:func@path` and the offset of the function in it. -/
def tpUprobe (id : Int) (buf : List Char) (sys name : Nat) : List Char × Option (Found Ptr) :=
  match strchr buf name '@' with
  | none => (buf, none)
  | some sep =>
    let (buf, path) := rmQuotes (buf.set sep nul) (some (sep + 1)) nul
    match if env.uprobeType then env.fileOffset ((path.map (text buf)).getD []) (text buf name) else none with
    | some (offset + 1) =>
      (buf, some ⟨id, some (.place sys), .place name, false, none, path.map .place, offset + 1⟩)
    | _ => (buf, none)

/-- `tp_kprobe_uprobe` -/
def tpKprobeUprobe (buf : List Char) (sys name : Nat) : List Char × Option (Found Ptr) :=
  if text buf sys = "kprobe".toList then
    (buf, foundKprobe kprobe env.kprobeType (.place sys) (.place name))
  else if text buf sys = "kretprobe".toList then
    (buf, foundKprobe kretprobe env.kprobeType (.place sys) (.place name))
  else if text buf sys = "uprobe".toList then tpUprobe env uprobe buf sys name
  else if text buf sys = "uretprobe".toList then tpUprobe env uretprobe buf sys name
  else (buf, none)

/-- The zeros that `strtok` puts behind the words of a string. -/
def strtok (buf : List Char) (s : Nat) : List Char :=
  (List.range (text buf s).length).foldl
    (fun out i => if i ≠ 0 ∧ buf[s + i]? = some ' ' ∧ buf[s + i - 1]? ≠ some ' ' then out.set (s + i) nul else out)
    buf

/-- `profiler/option/` -/
def parseProfiler (buf : List Char) (sys : Nat) (filter : Option Nat) :
    Option (List Char × Option Nat × Found Ptr) :=
  if env.monitorFind (text buf sys) then
    let buf := match filter with
      | some f => if (text buf f).isEmpty then buf else buf.set (f - 1) ' '
      | none => buf
    let (buf, _) := rmQuotes buf filter ' '
    if env.openSource (text buf sys) then
      some (strtok buf sys, filter, ⟨-1, none, .place sys, false, none, none, 0⟩)
    else none
  else none

/-- `sys:name`, where the colon is at `sep`. -/
def parseSysName (buf : List Char) (sys sep : Nat) : Option (List Char × Found Ptr) := do
  let (buf, name) := rmQuotes (buf.set sep nul) (some (sep + 1)) nul
  let name ← name
  let id := env.eventId (text buf sys) (text buf name)
  let (buf, found) :=
    if id < 0 then tpKprobeUprobe env buf sys name
    else (buf, if env.hasEvent (text buf sys) (text buf name) then
      some ⟨id, some (.place sys), .place name, true, none, none, 0⟩ else none)
  let found ← found
  some (buf, found)

/-- The value of an attribute, behind the equals sign. -/
def cutValue (buf : List Char) (attr : Nat) : List Char × Option Nat :=
  match nextSep buf attr '=' with
  | some eq => rmQuotes (buf.set eq nul) (some (eq + 1)) nul
  | none => (buf, none)

/-- The loop over the attributes. -/
def parseAttrs (id : Int) : Nat → List Char → Nat → Tp Ptr → Option (List Char × Tp Ptr)
  | 0, buf, _, tp => some (buf, tp)
  | fuel + 1, buf, s, tp =>
    match nextSep buf s '/' with
    | none => some (buf, tp)
    | some sep => do
      let attr := s
      let (buf, value) := cutValue (buf.set sep nul) attr
      let tp ← setAttr env (Ptr.text buf) id (text buf attr) (value.map .place) tp
      parseAttrs id fuel buf (sep + 1) tp

/-- The slashes around the filter: it, and the second of them. -/
def cutFilter (buf : List Char) (s : Nat) : Option (List Char × Option (Nat × Nat)) :=
  match nextSep buf s '/' with
  | none => some (buf, none)
  | some slash =>
    let buf := buf.set slash nul
    match nextSep buf (slash + 1) '/' with
    | none => none
    | some slash' => some (buf.set slash' nul, some (slash + 1, slash'))

/-- The body of the loop over the events. -/
def parseTp (buf : List Char) (s : Nat) : Option (List Char × Tp Ptr) := do
  let (buf, cut) ← cutFilter buf s
  let (buf, filter, found) ← match strchr buf s ':' with
    | none => parseProfiler env buf s (cut.map Prod.fst)
    | some sep => do
      let (buf, found) ← parseSysName env buf s sep
      let (buf, filter) := rmQuotes buf (cut.map Prod.fst) nul
      some (buf, filter, found)
  let (buf, tp) ← match cut with
    | some (_, slash) => parseAttrs env found.id buf.length (buf.set slash nul) (slash + 1) (startTp found)
    | none => some (buf, startTp found)
  let tp ← finishTp env (Ptr.text buf) .lit found (filter.map .place) tp
  some (buf, tp)

def parseTps : List Char → List Nat → Option (List Char × List (Tp Ptr))
  | buf, [] => some (buf, [])
  | buf, s :: names => do
    let (buf, tp) ← parseTp env buf s
    let (buf, tps) ← parseTps buf names
    some (buf, tp :: tps)

/-- `struct tp_list` -/
structure Parsed where
  eventStr : List Char
  nrTp : Nat
  tp : List (Tp Ptr)

/-- `tp_list_new`; every entry of the list has been filled. -/
def tpListNew (eventStr : List Char) : Option Parsed := do
  let nrTp := countTp (eventStr.length + 1) eventStr
  if nrTp = 0 then none
  let (names, buf) := fillNames (eventStr.length + 1) (eventStr ++ [nul]) 0
  if names.length < nrTp then none
  let (buf, tps) ← parseTps env buf (names.take nrTp)
  some ⟨buf, nrTp, tps⟩

end Parse

end Model

end PerfProf.TpList
