import PerfProf.RbWalk
import PerfProf.Top

/-! stack_helpers.c: the table that makes a string unique. A string is given the address of its
first request for good, so that equal addresses mean equal strings. -/
namespace PerfProf.UniqueStr
open Rblist
open PerfProf.Top (CStr strcmp orders_strcmp)

section Model

/-- The addresses that malloc returns; the strings are never freed. -/
structure Malloc where
  addr : Nat → Nat
  injective : Function.Injective addr

/-- `struct unique_string` -/
structure UniqueString where
  addr : Nat
  str : CStr
  n : UInt32
deriving DecidableEq

/-- `unique_strings`, and how many requests there were. -/
structure Strings where
  table : RbList UniqueString
  requests : Nat

def init : Strings := ⟨RbList.init UniqueString, 0⟩

/-- `unique_string_node_cmp` -/
def uniqueStringNodeCmp (str : CStr) (s : UniqueString) : Ordering := strcmp s.str str

/-- `unique_string_node_new` -/
def uniqueStringNodeNew (addr : Nat) (str : CStr) : UniqueString := ⟨addr, str, 0⟩

def UniqueString.use (s : UniqueString) : UniqueString := { s with n := s.n + 1 }

/-- `unique_string`: the address of the string and the table. -/
def uniqueString (bal : Rebalance UniqueString) (m : Malloc) (str : CStr) (st : Strings) : Nat × Strings :=
  let addr := match st.table.entries.find (uniqueStringNodeCmp str) with
    | some s => s.addr
    | none => m.addr st.requests
  let new := uniqueStringNodeNew (m.addr st.requests) str
  (addr, ⟨st.table.findnew bal (uniqueStringNodeCmp str) new UniqueString.use, st.requests + 1⟩)

/-- The string at an address. -/
def Strings.strAt (st : Strings) (addr : Nat) : CStr :=
  match st.table.entries.toList.find? fun s => s.addr = addr with
  | some s => s.str
  | none => []

end Model

section Spec

/-- The address of a string after the requests `ss`: it was made for the first of its requests. -/
def addrOf (m : Malloc) (ss : List CStr) (str : CStr) : Nat := m.addr (ss.idxOf str)

/-- The table has the strings that were requested, at their addresses. -/
structure Stores (m : Malloc) (st : Strings) (ss : List CStr) : Prop where
  requests : st.requests = ss.length
  sorted : Sorted UniqueString.str st.table.entries.toList
  addr : ∀ s ∈ st.table.entries.toList, s.str ∈ ss ∧ s.addr = addrOf m ss s.str
  all : ∀ str ∈ ss, ∃ s ∈ st.table.entries.toList, s.str = str

end Spec

section Table
variable {m : Malloc} {st : Strings} {ss : List CStr} {str str' : CStr} {bal : Rebalance UniqueString}

theorem stores_init (m : Malloc) : Stores m init [] := ⟨rfl, List.Pairwise.nil, nofun, nofun⟩

theorem addrOf_append (h : str ∈ ss) (ts : List CStr) : addrOf m (ss ++ ts) str = addrOf m ss str :=
  congrArg m.addr (List.idxOf_append_of_mem h)

theorem addrOf_new (h : str ∉ ss) (ts : List CStr) : addrOf m (ss ++ str :: ts) str = m.addr ss.length := by
  rw [addrOf, List.idxOf_append_of_notMem h, List.idxOf_cons_self]
  rfl

theorem addrOf_inj (h : str ∈ ss) (heq : addrOf m ss str = addrOf m ss str') : str = str' :=
  (List.idxOf_inj h).mp (m.injective heq)

theorem agrees_str (str : CStr) (l : List UniqueString) :
    Agrees UniqueString.str (uniqueStringNodeCmp str) str l := fun s _ => orders_strcmp s.str str

theorem Stores.strAt (h : Stores m st ss) (hstr : str ∈ ss) : st.strAt (addrOf m ss str) = str := by
  obtain ⟨s, hs, rfl⟩ := h.all str hstr
  unfold Strings.strAt
  cases hfind : st.table.entries.toList.find? fun t => t.addr = addrOf m ss s.str with
  | none =>
    have hnone := List.find?_eq_none.mp hfind s hs
    exact absurd (decide_eq_true (h.addr s hs).2) hnone
  | some t =>
    have ht := h.addr t (List.mem_of_find?_eq_some hfind)
    have haddr := List.find?_some (p := fun t : UniqueString => decide (t.addr = addrOf m ss s.str)) hfind
    exact addrOf_inj ht.1 (ht.2.symm.trans (of_decide_eq_true haddr))

/-- The address that is returned is the one that the string has from now on. -/
theorem Stores.uniqueString_addr (h : Stores m st ss) (bal : Rebalance UniqueString) (str : CStr) :
    (uniqueString bal m str st).1 = addrOf m (ss ++ [str]) str := by
  have hrises := h.sorted.rises (agrees_str str _)
  unfold uniqueString
  cases hfind : st.table.entries.find (uniqueStringNodeCmp str) with
  | some s =>
    obtain ⟨hs, heq⟩ := Tree.mem_find hfind
    have hstr : s.str = str := ((agrees_str str _).eq_iff hs).mp heq
    subst hstr
    rw [addrOf_append (h.addr s hs).1]
    exact (h.addr s hs).2
  | none =>
    have hnew : str ∉ ss := by
      intro hmem
      obtain ⟨s, hs, hstr⟩ := h.all str hmem
      exact (Tree.find_none hrises).mp hfind s hs (((agrees_str str _).eq_iff hs).mpr hstr)
    rw [addrOf_new hnew, ← h.requests]

theorem Stores.uniqueString (h : Stores m st ss) (bal : Rebalance UniqueString) (str : CStr) :
    Stores m (uniqueString bal m str st).2 (ss ++ [str]) := by
  have hlist : (UniqueStr.uniqueString bal m str st).2.table.entries.toList =
      upsert UniqueString.str (uniqueStringNodeNew (m.addr st.requests) str) UniqueString.use st.table.entries.toList :=
    RbList.findnew_toList bal h.sorted (agrees_str _ _)
  have huse : ∀ s : UniqueString, s.use.str = s.str := fun _ => rfl
  have hkeys (t : CStr) : (∃ s ∈ upsert UniqueString.str (uniqueStringNodeNew (m.addr st.requests) str)
      UniqueString.use st.table.entries.toList, s.str = t) ↔ str = t ∨ ∃ s ∈ st.table.entries.toList, s.str = t :=
    Sorted.key_upsert (f := fun _ => UniqueString.use) (x := str) huse h.sorted t
  refine ⟨?_, ?_, ?_, ?_⟩
  · rw [List.length_append, ← h.requests]
    rfl
  · rw [hlist]
    exact Sorted.upsert (f := fun _ => UniqueString.use) (x := str) huse h.sorted
  · intro s hs
    rw [hlist] at hs
    have hs := Sorted.mem_upsert_cases (f := fun _ => UniqueString.use) (x := str) huse h.sorted hs
    rcases hs with ⟨hs, -⟩ | ⟨t, rfl, ⟨ht, -⟩ | ⟨rfl, hnew⟩⟩
    · obtain ⟨hmem, haddr⟩ := h.addr s hs
      exact ⟨List.mem_append_left _ hmem, haddr.trans (addrOf_append hmem _).symm⟩
    · obtain ⟨hmem, haddr⟩ := h.addr t ht
      exact ⟨List.mem_append_left _ hmem, haddr.trans (addrOf_append hmem _).symm⟩
    · have hnotMem : str ∉ ss := by
        intro hmem
        obtain ⟨t, ht, hstr⟩ := h.all str hmem
        exact hnew t ht hstr
      refine ⟨List.mem_append_right _ (List.mem_singleton.mpr rfl), ?_⟩
      have haddr : addrOf m (ss ++ [str]) str = m.addr st.requests := by
        rw [addrOf_new hnotMem, ← h.requests]
      exact haddr.symm
  · intro str' hmem
    have hkey := (hkeys str').mpr
    rw [← hlist] at hkey
    apply hkey
    rcases List.mem_append.mp hmem with hmem | hmem
    · exact .inr (h.all str' hmem)
    · exact .inl (List.mem_singleton.mp hmem).symm

end Table

end PerfProf.UniqueStr
