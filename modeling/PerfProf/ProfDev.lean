import Mathlib.Logic.Relation
import Mathlib.Logic.Function.Basic

/-! The life of a `struct prof_dev` in monitor.c, from open to free. What a profiler does in one of its
callbacks is open: at any of them it may open, enable, disable, flush, close, hold and release
any device that it can still get, so that every function below runs again inside itself. The calls
in progress are therefore kept as a stack. -/
namespace PerfProf.Device

abbrev DevId := Nat

/-- `enum prof_dev_type`. -/
inductive DevType where
  | normal | service
deriving DecidableEq

/-- `enum prof_dev_state`. -/
inductive DevState where
  | exit | off | inactive | active
deriving DecidableEq

def DevState.val : DevState → Int
  | .exit => -2
  | .off => -1
  | .inactive => 0
  | .active => 1

/-- `enum profdev_flush`. -/
inductive FlushHow where
  | normal | final
deriving DecidableEq

/-- `struct prof_dev`; of `ptrace_list` its length. -/
structure ProfDev where
  type : DevType
  state : DevState
  refcount : Int
  devUsers : Nat
  ptraceList : Nat
  inflush : Bool
  inclose : Bool
  pages : Bool
  clone : Bool
  parent : Option DevId
  childList : List DevId
  target : Option DevId
  sourceList : List DevId
deriving DecidableEq

/-- The loops over the children or the forwarding sources of a device, by what each of them calls. -/
inductive Walk where
  | enable | disableSources | disableChildren | flush (how : FlushHow)
  | closeSources | closeChildren | closeOpened | detach | interval
deriving DecidableEq

/-- What is still to be done of a call. -/
inductive Frame where
  | callback
  | main
  | listClose
  | enable (d : DevId)
  | disable (d : DevId)
  | flush (d : DevId) (how : FlushHow)
  | flushEnd (d : DevId)
  | close (d : DevId)
  | exit (d : DevId)
  | detach (d : DevId)
  | detachLoop (d : DevId)
  | unuse (d : DevId)
  | put (d : DevId)
  | interval (d : DevId)
  | openList (d : DevId)
  | cloned (d parent : DevId) (fails : Bool)
  | start (k : Walk) (o : DevId)
  | next (k : Walk) (o c : DevId)
  | free (d : DevId) (resume : Option (Walk × DevId × Option DevId))
  | outFree (d : DevId)
deriving DecidableEq

/-- The devices that are allocated, `prof_dev_list` and `running`; `events` are the references that
events in a buffer have, `leaked` those that no one has. -/
structure World where
  devs : DevId → Option ProfDev
  next : DevId
  list : List DevId
  running : Int
  events : DevId → Nat
  leaked : DevId → Nat

/-- `none`: a device was touched that is not allocated. -/
abbrev Outcome := Option (World × List Frame)

namespace World

def set (w : World) (d : DevId) (p : ProfDev) : World :=
  { w with devs := Function.update w.devs d (some p) }

def delete (w : World) (d : DevId) : World :=
  { w with devs := Function.update w.devs d none }

@[simp]
theorem set_devs (w : World) (d : DevId) (p : ProfDev) : (w.set d p).devs = Function.update w.devs d (some p) := rfl

@[simp]
theorem set_next (w : World) (d : DevId) (p : ProfDev) : (w.set d p).next = w.next := rfl

@[simp]
theorem set_list (w : World) (d : DevId) (p : ProfDev) : (w.set d p).list = w.list := rfl

@[simp]
theorem set_running (w : World) (d : DevId) (p : ProfDev) : (w.set d p).running = w.running := rfl

@[simp]
theorem set_events (w : World) (d : DevId) (p : ProfDev) : (w.set d p).events = w.events := rfl

@[simp]
theorem set_leaked (w : World) (d : DevId) (p : ProfDev) : (w.set d p).leaked = w.leaked := rfl

end World

/-- `prof_dev_get`; without a reference there is nothing to get. -/
def ProfDev.get (p : ProfDev) : ProfDev :=
  if 0 < p.refcount then { p with refcount := p.refcount + 1 } else p

/-- `prof_dev_put`, with `deinit` and the rest of `prof_dev_free` after the last one. -/
def put (w : World) (d : DevId) (resume : Option (Walk × DevId × Option DevId)) (go : World → Outcome) :
    Outcome := do
  let p ← w.devs d
  let w' := w.set d { p with refcount := p.refcount - 1 }
  if p.refcount - 1 = 0 then some (w', [.callback, .free d resume]) else go w'

/-- The list that a walk goes over. -/
def Walk.list : Walk → ProfDev → List DevId
  | .enable, p | .disableChildren, p | .closeChildren, p | .closeOpened, p | .detach, p => p.childList
  | .disableSources, p | .flush _, p | .closeSources, p | .interval, p => p.sourceList

/-- The device in whose list a device is. -/
def Walk.link : Walk → ProfDev → Option DevId
  | .enable, p | .disableChildren, p | .closeChildren, p | .closeOpened, p | .detach, p => p.parent
  | .disableSources, p | .flush _, p | .closeSources, p | .interval, p => p.target

/-- What a walk of `o` does with `c`. -/
def Walk.body (k : Walk) (o c : DevId) (p : ProfDev) : List Frame :=
  match k with
  | .enable => [.enable c]
  | .disableSources => [.disable c]
  | .disableChildren => if !p.clone && p.target != some o then [.disable c] else []
  | .flush how => [.flush c how]
  | .closeSources => [.close c]
  | .closeChildren => if !p.clone && p.target != some o then [.close c] else []
  | .closeOpened => [.close c]
  | .detach => if p.clone && p.ptraceList != 0 then [.detach c] else []
  | .interval => [.interval c]

/-- The head of the loop of `for_each_dev_get`, with `tmp`; it ends at a device that cannot be got. -/
def visit (w : World) (k : Walk) (o : DevId) : Option DevId → Outcome
  | none => some (w, [])
  | some t => do
    let p ← w.devs t
    if 0 < p.refcount then some (w.set t p.get, k.body o t p ++ [.next k o t]) else some (w, [])

/-- `list_next_entry`, `some none` at the head. -/
def nextEntry (c : DevId) : List DevId → Option (Option DevId)
  | [] => none
  | x :: l => if x = c then some l.head? else nextEntry c l

/-- `prof_dev_enable`, from where the events are polled. -/
def enablePolled (w : World) (d : DevId) (p : ProfDev) : World × List Frame :=
  let w' := w.set d { p.get with state := .active }
  ({ w' with running := if p.type = .normal ∧ 0 ≤ w.running then w.running + 1 else w.running },
    [.start .enable d, .callback, .put d])

/-- The loop of `prof_dev_free` over the children. -/
def adopt (p : ProfDev) : List DevId → World → Option World
  | [], w => some w
  | c :: cs, w => do
    let r ← w.devs c
    match p.parent with
    | some q =>
      let w' := w.set c { r with clone := p.clone, parent := some q }
      let s ← w'.devs q
      adopt p cs (w'.set q { s with childList := s.childList ++ [c] })
    | none => adopt p cs (w.set c { r with clone := false, parent := none })

/-- `list_del` of `link_to_parent`. -/
def unlinkParent (d : DevId) (p : ProfDev) (w : World) : Option World :=
  match p.parent with
  | some q => do
    let s ← w.devs q
    some (w.set q { s with childList := s.childList.erase d })
  | none => some w

/-- `list_del` of `link_to_target`. -/
def unlinkTarget (d : DevId) (p : ProfDev) (w : World) : Option World :=
  match p.target with
  | some t => do
    let s ← w.devs t
    some (w.set t { s with sourceList := s.sourceList.erase d })
  | none => some w

/-- `prof_dev_free`, after `deinit`. -/
def profDevFree (w : World) (d : DevId) : Option World := do
  let p ← w.devs d
  let w₁ ← adopt p p.childList w
  let w₂ ← unlinkParent d p w₁
  let w₃ ← unlinkTarget d p w₂
  some (w₃.delete d)

/-- `prof_dev_forward`. -/
def profDevForward (w : World) (d t : DevId) : Option World := do
  let p ← w.devs d
  let w' := w.set d { p with target := some t }
  let s ← w'.devs t
  some (w'.set t { s with sourceList := s.sourceList ++ [d] })

/-- What a call does until it calls another or returns. -/
def exec (w : World) : Frame → Outcome
  | .callback => some (w, [])
  | .main => if 0 < w.running then some (w, [.callback, .main]) else some (w, [.listClose])
  | .listClose =>
    match w.list with
    | d :: _ => some (w, [.close d, .listClose])
    | [] => some (w, if w.running < 0 then [.callback] else [])
  | .enable d => do
    let p ← w.devs d
    if p.state = .active ∨ p.state = .exit then some (w, []) else some (enablePolled w d p)
  | .disable d => do
    let p ← w.devs d
    if p.state.val < DevState.active.val then some (w, [])
    else
      let w' := w.set d { p.get with state := .inactive }
      some ({ w' with running := if p.type = .normal ∧ 0 < w.running then w.running - 1 else w.running },
        [.start .disableSources d, .start .disableChildren d] ++
          (if p.pages then [.flush d .final] else []) ++ [.put d])
  | .flush d how => do
    let p ← w.devs d
    if p.inflush then some (w, [])
    else some (w.set d { p.get with inflush := true },
      (if p.pages then [.callback] else []) ++ (if how = .final then [] else [.start (.flush how) d]) ++
        [.callback, .flushEnd d, .put d])
  | .flushEnd d => do
    let p ← w.devs d
    some (w.set d { p with inflush := false }, [])
  | .close d => do
    let p ← w.devs d
    if p.inclose then some (w, [])
    else some (w.set d { p with inclose := true },
      [.disable d, .exit d, .detach d, .start .closeSources d, .start .closeChildren d, .put d])
  | .exit d => do
    let p ← w.devs d
    some ({ w.set d { p with state := .exit } with list := w.list.erase d }, [])
  | .detach d => do
    let p ← w.devs d
    if p.ptraceList = 0 then some (w, [])
    else some (w.set d p.get, [.detachLoop d, .start .detach d, .put d])
  | .detachLoop d => do
    let p ← w.devs d
    if p.ptraceList = 0 then some (w, [])
    else some (w.set d { p with ptraceList := p.ptraceList - 1 }, [.unuse d, .detachLoop d])
  | .unuse d => do
    let p ← w.devs d
    if p.devUsers = 0 then some (w, [])
    else
      let w' := w.set d { p with devUsers := p.devUsers - 1 }
      if p.devUsers - 1 = 0 then put w' d none fun w => some (w, [.close d]) else some (w', [])
  | .put d => put w d none fun w => some (w, [])
  | .interval d => do
    let p ← w.devs d
    some (w.set d p.get, [.callback, .start .interval d, .callback, .put d])
  | .openList d => do
    let p ← w.devs d
    let list := if p.type = .service then w.list else if p.childList ≠ [] then d :: w.list else w.list ++ [d]
    let w' := { w with list := list }
    if p.state = .inactive then some (enablePolled w' d p) else some (w', [])
  | .cloned d parent fails => do
    let q ← w.devs parent
    match q.target with
    | none => some (w, [.put d])
    | some t =>
      if fails then some ({ w with leaked := Function.update w.leaked d (w.leaked d + 1) }, [.close d])
      else (profDevForward w d t).map (·, [.put d])
  | .start k o => do
    let p ← w.devs o
    visit w k o (k.list p).head?
  | .next k o c => do
    let p ← w.devs o
    let tmp ← nextEntry c (k.list p)
    put w c (some (k, o, tmp)) fun w => visit w k o tmp
  | .free d resume => do
    let w' ← profDevFree w d
    match resume with
    | none => some (w', [])
    | some (k, o, tmp) => visit w' k o tmp
  | .outFree d => do
    let p ← w.devs d
    let w' ← unlinkParent d p w
    some (w'.delete d, [])

/-- What a callback may do with devices. -/
inductive Op where
  | open (parent : Option DevId) (type : DevType) (off pages : Bool)
  | clone (parent : DevId) (type : DevType) (off pages fails : Bool)
  | forward (d t : DevId)
  | enable (d : DevId)
  | disable (d : DevId)
  | flush (d : DevId) (how : FlushHow)
  | close (d : DevId)
  | interval (d : DevId)
  | handle (d : DevId) (hup : Bool)
  | get (d : DevId)
  | put (d : DevId)
  | use (d : DevId)
  | unuse (d : DevId)
  | link (d : DevId)
  | unlink (d : DevId)
  | sigint
deriving DecidableEq

/-- A device as `prof_dev_open_internal` sets it up; `prof->init` may set its type and turn it off. -/
def newDev (parent : Option (DevId × ProfDev)) (clone : Bool) (type : DevType) (off pages : Bool) : ProfDev where
  type := type
  state :=
    if off then .off
    else match parent with
      | some (_, q) => if !clone && decide (q.state.val ≤ DevState.inactive.val) then .off else .inactive
      | none => .inactive
  refcount := 2
  devUsers := 0
  ptraceList := 0
  inflush := false
  inclose := false
  pages := pages
  clone := clone && parent.isSome
  parent := parent.map (·.1)
  childList := []
  target := none
  sourceList := []

/-- `prof_dev_open_internal`, up to `prof->init`. -/
def openInternal (w : World) (parent : Option (DevId × ProfDev)) (p : ProfDev) : World :=
  let w₁ := { w with next := w.next + 1 }
  let w₂ := match parent with
    | some (i, q) => w₁.set i { q with childList := q.childList ++ [w.next] }
    | none => w₁
  w₂.set w.next p

/-- `prof_dev_use`. -/
def ProfDev.use (p : ProfDev) : ProfDev :=
  if p.devUsers = 0 then
    if 0 < p.refcount then { p with refcount := p.refcount + 1, devUsers := 1 } else p
  else { p with devUsers := p.devUsers + 1 }

/-- `__ptrace_link`. -/
def ProfDev.ptraceLink (p : ProfDev) : ProfDev :=
  if p.devUsers = 0 ∧ ¬ 0 < p.refcount then p else { p.use with ptraceList := p.ptraceList + 1 }

def perform (w : World) : Op → Outcome
  | .open none type off pages =>
    some (openInternal w none (newDev none false type off pages), [.callback, .openList w.next, .put w.next])
  | .open (some i) type off pages => do
    let q ← w.devs i
    some (openInternal w (some (i, q)) (newDev (some (i, q)) false type off pages),
      [.callback, .openList w.next, .put w.next])
  | .clone i type off pages fails => do
    let q ← w.devs i
    let w' := w.set i q.get
    if q.state = .exit then some (w', [.put i])
    else some (openInternal w' (some (i, q.get)) (newDev (some (i, q.get)) true type off pages),
      [.callback, .openList w.next, .cloned w.next i fails, .put i])
  | .forward d t => (profDevForward w d t).map (·, [])
  | .enable d => some (w, [.enable d])
  | .disable d => some (w, [.disable d])
  | .flush d how => some (w, [.flush d how])
  | .close d => some (w, [.close d])
  | .interval d => some (w, [.interval d])
  | .handle d hup => do
    let p ← w.devs d
    some (w.set d p.get, .callback :: (if hup then [.callback, .close d] else []) ++ [.put d])
  | .get d => do
    let p ← w.devs d
    some ({ w.set d p.get with events := Function.update w.events d (w.events d + 1) }, [])
  | .put d => some ({ w with events := Function.update w.events d (w.events d - 1) }, [.put d])
  | .use d => do
    let p ← w.devs d
    some (w.set d p.use, [])
  | .unuse d => some (w, [.unuse d])
  | .link d => do
    let p ← w.devs d
    some (w.set d p.ptraceLink, [])
  | .unlink d => do
    let p ← w.devs d
    some (w.set d { p with ptraceList := p.ptraceList - 1 }, [.unuse d])
  | .sigint => some ({ w with running := -1 }, [])

/-- A device that `prof_dev_get` can get. -/
def Alive (w : World) (d : DevId) : Prop := ∃ p, w.devs d = some p ∧ 0 < p.refcount

/-- What a callback has to keep to: it names devices that are alive, gives back what it has taken,
and forwards a device once, to another. -/
def Op.Allowed (w : World) : Op → Prop
  | .open none _ _ _ | .sigint => True
  | .open (some d) _ _ _ | .clone d _ _ _ _ => Alive w d
  | .forward d t => d ≠ t ∧ Alive w t ∧ ∃ p, w.devs d = some p ∧ 0 < p.refcount ∧ p.target = none
  | .enable d | .disable d | .flush d _ | .close d | .interval d | .handle d _ | .get d | .use d | .link d => Alive w d
  | .put d => 0 < w.events d
  | .unuse d => Alive w d ∧ ∃ p, w.devs d = some p ∧ p.ptraceList < p.devUsers
  | .unlink d => Alive w d ∧ ∃ p, w.devs d = some p ∧ 0 < p.ptraceList

structure Config where
  world : World
  stack : List Frame

/-- What a call goes on with after `prof_dev_open_internal` has returned `d`; after a null pointer it
does not. -/
def Frame.Returns (d : DevId) : Frame → Prop
  | .put x | .cloned x _ _ => x = d
  | _ => False

/-- One step: of the call on top, of a callback, of `epoll`, which may fail, or of an open that fails:
in its init, after it, or because a thread is gone, when it starts again. -/
inductive Step : Config → Config → Prop where
  | run {w w' : World} {f : Frame} {fs k : List Frame} (h : exec w f = some (w', fs)) : Step ⟨w, f :: k⟩ ⟨w', fs ++ k⟩
  | perform {w w' : World} {op : Op} {fs k : List Frame} (ha : op.Allowed w) (h : perform w op = some (w', fs)) :
      Step ⟨w, .callback :: k⟩ ⟨w', fs ++ .callback :: k⟩
  | pollFails {w : World} {d : DevId} {k : List Frame} : Step ⟨w, .enable d :: k⟩ ⟨w, k⟩
  | noEntry {w : World} {k : List Frame} (h : 0 < w.running) :
      Step ⟨w, .main :: k⟩ ⟨{ w with running := 0 }, .main :: k⟩
  | initFails {w : World} {d : DevId} {f : Frame} {k : List Frame} (hf : f.Returns d) :
      Step ⟨w, .openList d :: f :: k⟩ ⟨w, .outFree d :: k⟩
  | openFails {w : World} {d : DevId} {f : Frame} {k : List Frame} (hf : f.Returns d) :
      Step ⟨w, .openList d :: f :: k⟩
        ⟨w, [.start .closeOpened d, .detach d, .callback, .outFree d] ++ k⟩
  | reinit {w : World} {d : DevId} {k : List Frame} :
      Step ⟨w, .openList d :: k⟩ ⟨w, [.start .closeOpened d, .callback, .callback, .openList d] ++ k⟩

/-- `main`, before the first device. -/
def init : Config := ⟨⟨fun _ => none, 0, [], 0, fun _ => 0, fun _ => 0⟩, [.callback, .main]⟩

end PerfProf.Device
