import Mathlib.Logic.Relation
import PerfProf.ExprDepth
import PerfProf.ExprLvalue

/-! What `expr_run` can reach in an accepted program: only the starts of instructions, each at its
own depth of the stack. -/
namespace PerfProf.Expr
open Relation Loop

section Safety
variable (lib : Library) (insn : List Long)

/-- The words that a function of the library reads. -/
def Op.arity : Op → Nat
  | .prtf => 7
  | .strncmp => 3
  | _ => 1

/-- Where the instructions start, from the first on. -/
inductive Start (insn : List Long) : Nat → Prop where
  | first : Start insn 1
  | next {p : Nat} {op : Op} (h : Start insn p) (hop : insn[p]? = some op.word) (hne : op ≠ .exit) :
    Start insn (p + op.size)

/-- One turn of the loop, where an access outside the buffer, an operator without a result and a
call that reads other words than its arguments may give anything. -/
inductive Goes (m : Vm) : Vm → Prop where
  | step {m' : Vm} (h : step lib insn m = .again m') : Goes m m'
  | load {n : Long} (v : Long) (hop : insn[m.pc]? = some Op.li.word)
    (harg : insn[m.pc + 1]? = some n) (hn : isSize n = true) :
    Goes m { m with pc := m.pc + 2, a := v }
  | store {n p : Long} {S : List Long} (d : Data) (hop : insn[m.pc]? = some Op.si.word)
    (harg : insn[m.pc + 1]? = some n) (hn : isSize n = true) (hS : m.stack = p :: S) :
    Goes m { m with pc := m.pc + 2, stack := S, data := d }
  | operator {op : Op} {x : Long} {S : List Long} (v : Long) (hop : insn[m.pc]? = some op.word)
    (hbin : op.isBinary = true) (hS : m.stack = x :: S) :
    Goes m { m with pc := m.pc + 1, a := v, stack := S }
  | call {op : Op} (v : Long) (hop : insn[m.pc]? = some op.word) (hcall : op.isCall = true) :
    Goes m { m with pc := m.pc + 1, a := v }

/-- What can be reached from the start of `expr_run`. -/
def Reaches (data : Data) (m : Vm) : Prop :=
  ReflTransGen (Goes lib insn) ⟨1, 0, [], data⟩ m

/-- The instruction at `pc` is one that was emitted, and the stack has the words that it takes and
room for the one that it pushes. -/
structure Safe (m : Vm) (op : Op) : Prop where
  fetch : insn[m.pc]? = some op.word
  start : Start insn m.pc
  emitted : op ≠ .lea ∧ op ≠ .jsr ∧ op ≠ .ent ∧ op ≠ .lev
  sized : op = .li ∨ op = .si → ∃ n, insn[m.pc + 1]? = some n ∧ isSize n = true
  jump : op.isJump = true →
    ∃ t, insn[m.pc + 1]? = some t ∧ Start insn (codeIndex t) ∧ codeIndex t < insn.length
  above : op.pops (insn.getD (m.pc + 1) 0) ≤ m.stack.length
  below : m.stack.length + op.pushes ≤ 512
  exit : op = .exit → m.stack = []

/-- The words that a call at `pc` reads, from the stack pointer on: `printf` and `strncmp` count
down from the operand of the `ADJ` that should follow. -/
def reads (pc : Nat) (op : Op) : List Int :=
  match op with
  | .prtf | .strncmp =>
    (List.range op.arity).map fun k => (insn.getD (pc + 2) 0).toInt - (k + 1)
  | _ => [0]

/-- The arguments of a call are those that the `ADJ` after it takes from the stack. -/
def pushed (pc : Nat) : Nat :=
  if insn[pc + 1]? = some Op.adj.word then (insn.getD (pc + 2) 0).toNat else 0

/-- The call at `pc` reads only the arguments pushed for it. -/
def ReadsOwn (pc : Nat) (op : Op) : Prop := ∀ o ∈ reads insn pc op, 0 ≤ o ∧ o < pushed insn pc

end Safety

section Run
variable {lib : Library} {insn : List Long} {m m' : Vm} {op : Op}

/-- What one turn does to `pc` and to the depth of the stack. -/
structure Moved (insn : List Long) (op : Op) (m m' : Vm) : Prop where
  pc : m'.pc = m.pc + op.size ∨
    op.isJump = true ∧ ∃ t, insn[m.pc + 1]? = some t ∧ m'.pc = codeIndex t
  depth : m'.stack.length = m.stack.length + op.pushes - op.pops (insn.getD (m.pc + 1) 0)
  exit : op ≠ .exit

theorem orStuck_again {r : Option Vm} (h : (match r with
    | some m => Pass.again m
    | none => Pass.done m none : Pass Vm Exit) = .again m') : r = some m' := by
  cases r with
  | some m₁ =>
    cases h
    rfl
  | none => cases h

theorem orStuck_map {α : Type} {r : Option α} {f : α → Vm} (h : (match r.map f with
    | some m => Pass.again m
    | none => Pass.done m none : Pass Vm Exit) = .again m') : ∃ x, r = some x ∧ f x = m' :=
  Option.map_eq_some_iff.mp (orStuck_again h)

theorem moved_binary {v : Long} {x : Long} {S : List Long} (hbin : op.isBinary = true)
    (hS : m.stack = x :: S) : Moved insn op m { m with pc := m.pc + 1, a := v, stack := S } := by
  have hop : op.size = 1 ∧ op.pushes = 0 ∧ (∀ n, op.pops n = 1) ∧ op ≠ .exit := by
    cases op <;> first
      | cases hbin; done
      | exact ⟨rfl, rfl, fun _ => rfl, nofun⟩
  obtain ⟨hsize, hpush, hpop, hexit⟩ := hop
  refine ⟨Or.inl ?_, ?_, hexit⟩
  · rw [hsize]
  · rw [hpush, hpop, hS]
    rfl

theorem step_moved (hop : insn[m.pc]? = some op.word) (h : step lib insn m = .again m') :
    Moved insn op m m' := by
  cases op
  case imm =>
    simp only [step, hop, ofWord_word] at h
    obtain ⟨v, -, rfl⟩ := orStuck_map h
    exact ⟨.inl rfl, rfl, by simp⟩
  case jmp =>
    simp only [step, hop, ofWord_word] at h
    obtain ⟨t, ht, rfl⟩ := orStuck_map h
    exact ⟨.inr ⟨rfl, t, ht, rfl⟩, rfl, by simp⟩
  case bz =>
    simp only [step, hop, ofWord_word] at h
    obtain ⟨t, ht, rfl⟩ := orStuck_map h
    by_cases h0 : m.a = 0
    · exact ⟨.inr ⟨rfl, t, ht, if_pos h0⟩, rfl, by simp⟩
    · exact ⟨.inl (if_neg h0), rfl, by simp⟩
  case bnz =>
    simp only [step, hop, ofWord_word] at h
    obtain ⟨t, ht, rfl⟩ := orStuck_map h
    by_cases h0 : m.a = 0
    · exact ⟨.inl (if_pos h0), rfl, by simp⟩
    · exact ⟨.inr ⟨rfl, t, ht, if_neg h0⟩, rfl, by simp⟩
  case adj =>
    simp only [step, hop, ofWord_word] at h
    split at h
    · cases h
    · rename_i n hn
      split at h
      · cases h
        refine ⟨.inl rfl, ?_, by simp⟩
        simp [Op.pops, Op.pushes, hn]
      · cases h
  case li =>
    simp only [step, hop, ofWord_word] at h
    split at h
    · cases h
    · split at h
      · obtain ⟨v, -, rfl⟩ := orStuck_map h
        exact ⟨.inl rfl, rfl, by simp⟩
      · cases h
  case si =>
    simp only [step, hop, ofWord_word] at h
    split at h
    · rename_i n p S hn hS
      split at h
      · obtain ⟨v, -, rfl⟩ := orStuck_map h
        refine ⟨.inl rfl, ?_, by simp⟩
        rw [hS]
        rfl
      · cases h
    · cases h
  case psh =>
    simp only [step, hop, ofWord_word] at h
    split at h
    · cases h
      exact ⟨.inl rfl, rfl, by simp⟩
    · cases h
  case lea | jsr | ent | lev | exit =>
    simp only [step, hop, ofWord_word] at h
    cases h
  case nthl | nths | ksym | prtf | strncmp =>
    simp only [step, hop, ofWord_word] at h
    split at h
    · cases h
      exact ⟨.inl rfl, rfl, by simp⟩
    · cases h
  all_goals
    simp only [step, hop, ofWord_word] at h
    split at h
    · rename_i x S hS
      generalize Op.apply _ x m.a = r at h
      obtain ⟨v, -, rfl⟩ := orStuck_map h
      exact moved_binary rfl hS
    · cases h

theorem word_inj {op op' : Op} (h : op.word = op'.word) : op = op' := by
  have hof := ofWord_word op
  rw [h, ofWord_word] at hof
  exact (Option.some.inj hof).symm

theorem goes_moved (hop : insn[m.pc]? = some op.word) (h : Goes lib insn m m') :
    Moved insn op m m' := by
  have hsame : ∀ op' : Op, insn[m.pc]? = some op'.word → op' = op := by
    intro op' hop'
    rw [hop] at hop'
    exact (word_inj (Option.some.inj hop')).symm
  cases h with
  | step h => exact step_moved hop h
  | load v hop' harg hn =>
    cases hsame _ hop'
    exact ⟨.inl rfl, rfl, nofun⟩
  | store d hop' harg hn hS =>
    cases hsame _ hop'
    refine ⟨.inl rfl, ?_, nofun⟩
    rw [hS]
    rfl
  | operator v hop' hbin hS =>
    cases hsame _ hop'
    exact moved_binary hbin hS
  | call v hop' hcall =>
    cases hsame _ hop'
    cases op <;> first
      | cases hcall; done
      | exact ⟨.inl rfl, rfl, nofun⟩
end Run

section Reach
variable {lib : Library} {insn : List Long} {m m' : Vm} {T : Nat → Nat → Prop} {b d : Nat}
  {is body : List Ins}

/-- What fitting means for the instruction word at `b`. -/
structure Fetched (insn : List Long) (T : Nat → Nat → Prop) (b d : Nat) (i : Ins) (op : Op) :
    Prop where
  fetch : insn[b]? = some op.word
  length : i.words.length = op.size
  after : i.after d = d + op.pushes - op.pops (insn.getD (b + 1) 0)
  pops : op.pops (insn.getD (b + 1) 0) ≤ d
  emitted : op ≠ .lea ∧ op ≠ .jsr ∧ op ≠ .ent ∧ op ≠ .lev
  exit : op ≠ .exit
  sized : op = .li ∨ op = .si → ∃ n, insn[b + 1]? = some n ∧ isSize n = true
  jump : op.isJump = true → ∃ t, insn[b + 1]? = some t ∧ T (codeIndex t) d

theorem CodeAt.getD {op : Op} {n : Long} (h : CodeAt insn b (insArg op n :: is)) :
    insn.getD (b + 1) 0 = n := by
  rw [List.getD_eq_getElem?_getD, h.arg]
  rfl

theorem Fits.fetched {i : Ins} (h : Fits insn T b d i) (hc : CodeAt insn b (i :: is)) :
    ∃ op, Fetched insn T b d i op := by
  cases h with
  | imm n => exact ⟨.imm, hc.op, rfl, rfl, Nat.zero_le _, by decide, nofun, by simp, nofun⟩
  | @jump op n hj ht =>
    cases op <;> first
      | cases hj; done
      | exact ⟨_, hc.op, rfl, rfl, Nat.zero_le _, by decide, nofun, by simp,
          fun _ => ⟨n, hc.arg, ht⟩⟩
  | @adj n hn hargs =>
    refine ⟨.adj, hc.op, rfl, ?_, ?_, by decide, nofun, by simp, nofun⟩
    · rw [hc.getD]
      exact after_insArg .adj n
    · rw [hc.getD]
      exact hn
  | @li n hn =>
    exact ⟨.li, hc.op, rfl, rfl, Nat.zero_le _, by decide, nofun, fun _ => ⟨n, hc.arg, hn⟩, nofun⟩
  | @si n hn hd =>
    exact ⟨.si, hc.op, rfl, rfl, hd, by decide, nofun, fun _ => ⟨n, hc.arg, hn⟩, nofun⟩
  | psh => exact ⟨.psh, hc.op, rfl, rfl, Nat.zero_le _, by decide, nofun, by simp, nofun⟩
  | @binary op hbin hd =>
    cases op <;> first
      | cases hbin; done
      | exact ⟨_, hc.op, rfl, rfl, hd, by decide, nofun, by simp, nofun⟩
  | @call op n hcall hn hargs hadj =>
    cases op <;> first
      | cases hcall; done
      | exact ⟨_, hc.op, rfl, rfl, Nat.zero_le _, by decide, nofun, by simp, nofun⟩

/-- The instructions of a program and the end of its code, with their depths. -/
def At (body : List Ins) (p d : Nat) : Prop :=
  ∃ front back, body = front ++ back ∧ p = 1 + size front ∧ d = depthAfter 0 front

/-- A program whose code fits, up to its `EXIT`. -/
structure Program (insn : List Long) (body : List Ins) : Prop where
  code : insn = 0 :: words (body ++ [ins .exit])
  typed : Typed insn (At body) 1 0 body
  depth : depthAfter 0 body = 0
  length : insn.length ≤ 1024

theorem Program.codeAt (h : Program insn body) : CodeAt insn 1 (body ++ [ins .exit]) :=
  ⟨[0], [], by rw [h.code, List.append_nil]; rfl, rfl⟩

theorem Typed.split {front back : List Ins} {i : Ins}
    (h : Typed insn T b d (front ++ i :: back)) :
    2 * depthAfter d front + 1 ≤ b + size front ∧
      Fits insn T (b + size front) (depthAfter d front) i := by
  induction front generalizing b d with
  | nil =>
    cases h with
    | cons hb hi _ => exact ⟨hb, hi⟩
  | cons j front ih =>
    cases h with
    | cons _ _ h =>
      have hsplit := ih h
      rwa [Nat.add_assoc, ← size_cons] at hsplit

theorem Program.at_cases (h : Program insn body) {p d : Nat} (hat : At body p d) :
    insn[p]? = some Op.exit.word ∧ d = 0 ∨
      ∃ i back, CodeAt insn p (i :: back) ∧ Fits insn (At body) p d i ∧ 2 * d + 1 ≤ p ∧
        At body (p + i.words.length) (i.after d) := by
  obtain ⟨front, back, rfl, rfl, rfl⟩ := hat
  cases back with
  | nil =>
    left
    have hcode := h.codeAt
    rw [List.append_nil] at hcode
    have hdepth := h.depth
    rw [List.append_nil] at hdepth
    exact ⟨hcode.right.op, hdepth⟩
  | cons i back =>
    right
    obtain ⟨hroom, hfits⟩ := h.typed.split
    have hcode := h.codeAt
    rw [List.append_assoc] at hcode
    refine ⟨i, back ++ [ins .exit], hcode.right, hfits, hroom, front ++ [i], back, by simp, ?_, ?_⟩
    · simp [Nat.add_assoc]
    · simp

theorem Program.at_lt (h : Program insn body) {p d : Nat} (hat : At body p d) :
    p < insn.length := by
  obtain ⟨front, back, rfl, rfl, rfl⟩ := hat
  rw [h.code]
  simp
  omega

theorem Program.at_start (h : Program insn body) {p d : Nat} (hat : At body p d) :
    Start insn p := by
  obtain ⟨front, back, hbody, rfl, rfl⟩ := hat
  induction front using List.reverseRecOn generalizing back with
  | nil => exact .first
  | append_singleton front i ih =>
    rw [List.append_assoc] at hbody
    have hstart := ih ([i] ++ back) hbody
    have htyped := h.typed
    have hcode := h.codeAt
    rw [hbody] at htyped hcode
    rw [List.append_assoc] at hcode
    obtain ⟨op, hop⟩ := htyped.split.2.fetched hcode.right
    have hnext := hstart.next hop.fetch hop.exit
    rw [size_append, ← Nat.add_assoc]
    have hsize : size [i] = op.size := by
      rw [← hop.length]
      simp
    rw [hsize]
    exact hnext

/-- One turn goes from instruction to instruction, at their depths. -/
theorem Program.goes (h : Program insn body) (hat : At body m.pc m.stack.length)
    (hgo : Goes lib insn m m') : At body m'.pc m'.stack.length := by
  rcases h.at_cases hat with ⟨hexit, -⟩ | ⟨i, back, hcode, hfits, -, hnext⟩
  · exact absurd rfl (goes_moved hexit hgo).exit
  · obtain ⟨op, hop⟩ := hfits.fetched hcode
    have hmoved := goes_moved hop.fetch hgo
    rw [hop.length, hop.after, ← hmoved.depth] at hnext
    rcases hmoved.pc with hpc | ⟨hjump, t, ht, hpc⟩
    · rw [hpc]
      exact hnext
    · obtain ⟨t', ht', hat'⟩ := hop.jump hjump
      have hdepth := hmoved.depth
      have hkeep : op.pushes = 0 ∧ ∀ n, op.pops n = 0 := by
        cases op <;> first
          | cases hjump; done
          | exact ⟨rfl, fun _ => rfl⟩
      rw [hkeep.1, hkeep.2] at hdepth
      cases ht.symm.trans ht'
      rw [hpc, hdepth]
      exact hat'

theorem Program.reaches (h : Program insn body) {data : Data} (hm : Reaches lib insn data m) :
    At body m.pc m.stack.length := by
  induction hm with
  | refl => exact ⟨[], body, rfl, rfl, rfl⟩
  | tail _ hgo ih => exact h.goes ih hgo

theorem Program.safe (h : Program insn body) (hat : At body m.pc m.stack.length) :
    ∃ op, Safe insn m op := by
  have hlt := h.at_lt hat
  have hlength := h.length
  rcases h.at_cases hat with ⟨hexit, hempty⟩ | ⟨i, back, hcode, hfits, hroom, -⟩
  · refine ⟨.exit, hexit, h.at_start hat, by decide, by simp, nofun, Nat.zero_le _, ?_, ?_⟩
    · rw [hempty]
      decide
    · exact fun _ => List.eq_nil_of_length_eq_zero hempty
  · obtain ⟨op, hop⟩ := hfits.fetched hcode
    refine ⟨op, hop.fetch, h.at_start hat, hop.emitted, hop.sized, ?_, hop.pops, ?_, ?_⟩
    · intro hjump
      obtain ⟨t, ht, hat'⟩ := hop.jump hjump
      exact ⟨t, ht, h.at_start hat', h.at_lt hat'⟩
    · have hpush : op.pushes ≤ 1 := by
        unfold Op.pushes
        split <;> omega
      omega
    · exact fun hexit => absurd hexit hop.exit

end Reach

section Calls
variable {insn : List Long} {m : Vm} {T : Nat → Nat → Prop} {b d : Nat} {is body : List Ins} {op : Op}

theorem Fits.isCall {i : Ins} (h : Fits insn T b d i) (hc : CodeAt insn b (i :: is))
    (hop : insn[b]? = some op.word) (hcall : op.isCall = true) :
    i.words.length = 1 ∧ i.after d = d ∧ ∃ n ≤ d, ArgsBefore insn b n ∧
      (n ≠ 0 → insn[b + 1]? = some Op.adj.word) := by
  have hsame : ∀ op' : Op, i.op = op'.word → op' = op := by
    intro op' hop'
    rw [hc.op, hop'] at hop
    exact word_inj (Option.some.inj hop)
  cases h with
  | @call op' n hcall' hn hargs hadj =>
    exact ⟨rfl, after_call hcall', n, hn, hargs, fun h0 => (hadj h0).1⟩
  | @jump op' n hj ht =>
    cases hsame op' rfl
    cases op <;> first
      | cases hj; done
      | cases hcall
  | @binary op' hbin hd =>
    cases hsame op' rfl
    cases op <;> first
      | cases hbin; done
      | cases hcall
  | imm | adj | li | si | psh =>
    cases hsame _ rfl
    cases hcall

theorem Fits.isAdj {i : Ins} (h : Fits insn T b d i) (hc : CodeAt insn b (i :: is))
    (hop : insn[b]? = some Op.adj.word) :
    (insn.getD (b + 1) 0).toNat ≤ d ∧
      ∀ p, b = p + 1 → ArgsBefore insn p (insn.getD (b + 1) 0).toNat := by
  have hsame : ∀ op' : Op, i.op = op'.word → op' = .adj := by
    intro op' hop'
    rw [hc.op, hop'] at hop
    exact word_inj (Option.some.inj hop)
  cases h with
  | adj hn hargs =>
    rw [hc.getD]
    exact ⟨hn, hargs⟩
  | @call op' _ hcall =>
    cases hsame op' rfl
    cases hcall
  | @jump op' _ hj =>
    cases hsame op' rfl
    cases hj
  | @binary op' hbin =>
    cases hsame op' rfl
    cases hbin
  | imm | li | si | psh => cases hsame _ rfl

/-- The arguments of a call are on the stack, and their code stands before it. -/
theorem Program.pushed (h : Program insn body) (hat : At body m.pc m.stack.length)
    (hop : insn[m.pc]? = some op.word) (hcall : op.isCall = true) :
    pushed insn m.pc ≤ m.stack.length ∧ ArgsBefore insn m.pc (pushed insn m.pc) := by
  rcases h.at_cases hat with ⟨hexit, -⟩ | ⟨i, back, hcode, hfits, -, hnext⟩
  · rw [hop] at hexit
    cases word_inj (Option.some.inj hexit)
    cases hcall
  · obtain ⟨hlen, hafter, n, hn, hargs, hadj⟩ := hfits.isCall hcode hop hcall
    rw [hlen, hafter] at hnext
    by_cases hnadj : insn[m.pc + 1]? = some Op.adj.word
    · rw [PerfProf.Expr.pushed, if_pos hnadj]
      rcases h.at_cases hnext with ⟨hexit, -⟩ | ⟨j, back', hcode', hfits', -, -⟩
      · rw [hnadj] at hexit
        cases word_inj (Option.some.inj hexit)
      · obtain ⟨hle, hbefore⟩ := hfits'.isAdj hcode' hnadj
        exact ⟨hle, hbefore m.pc rfl⟩
    · rw [PerfProf.Expr.pushed, if_neg hnadj]
      have h0 : n = 0 := by
        by_contra hne
        exact hnadj (hadj hne)
      rw [h0] at hargs
      exact ⟨Nat.zero_le _, hargs⟩

theorem readsOwn_iff {pc : Nat} (hcall : op.isCall = true) (hn : pushed insn pc ≤ 512) :
    ReadsOwn insn pc op ↔ op.arity ≤ pushed insn pc := by
  -- counting down from the operand of `ADJ`, which is the number of arguments unless there are none
  have hcount : ∀ k : Nat, 1 ≤ k → ((∀ o ∈ (List.range k).map fun j : Nat =>
      (insn.getD (pc + 2) 0).toInt - ((j : Int) + 1), 0 ≤ o ∧ o < pushed insn pc) ↔
        k ≤ pushed insn pc) := by
    intro k hk
    unfold pushed at hn ⊢
    split
    · rename_i hadj
      rw [if_pos hadj] at hn
      have hint : (insn.getD (pc + 2) 0).toInt = (insn.getD (pc + 2) 0).toNat :=
        BitVec.toInt_eq_toNat_of_lt (by omega)
      simp only [List.mem_map, List.mem_range, hint]
      constructor
      · intro hall
        have hlast := hall _ ⟨k - 1, by omega, rfl⟩
        omega
      · rintro hle o ⟨j, hj, rfl⟩
        omega
    · simp only [List.mem_map, List.mem_range]
      constructor
      · intro hall
        have hfirst := hall _ ⟨0, by omega, rfl⟩
        omega
      · intro hle
        omega
  cases op
  case prtf => exact hcount 7 (by decide)
  case strncmp => exact hcount 3 (by decide)
  case ksym | nthl | nths =>
    simp only [ReadsOwn, reads, Op.arity, List.mem_singleton, forall_eq]
    omega
  all_goals cases hcall

end Calls

section Names

/-- What a name of the symbol table stands for, if it was set. -/
def Entry.Declared : Entry → Prop
  | .int type => type < array
  | .sizeof => True
  | .id s => s.set = true → s.cls = .glo ∧ s.type < ptr ∨ s ∈ library

def Token.Declared : Token → Prop
  | .int type => (Entry.int type).Declared
  | .id s => (Entry.id s).Declared
  | _ => True

/-- A name that is not declared has an entry that `calloc` cleared. -/
def Token.Known : Token → Prop
  | .id s => s.set = true ∨ s.cls = .undef
  | _ => True

def typeNames : List (List Char) :=
  ["char".toList, "short".toList, "int".toList, "long".toList]

/-- The names of a symbol table, where only type names stand for types. -/
structure Symtab.Declared (tab : Symtab) : Prop where
  entry : ∀ p ∈ tab, p.2.Declared
  types : ∀ p ∈ tab, ∀ type, p.2 = .int type → p.1 ∈ typeNames

theorem lookup_mem {tab : Symtab} {name : List Char} {x : Entry} (h : tab.lookup name = some x) :
    (name, x) ∈ tab := by
  obtain ⟨front, back, rfl, -⟩ := List.lookup_eq_some_iff.mp h
  simp

theorem Symtab.Declared.find {tab : Symtab} (h : tab.Declared) (name : List Char) :
    (tab.find name).Declared := by
  unfold Symtab.find
  split
  · rename_i x hx
    exact h.entry _ (lookup_mem hx)
  · exact nofun

theorem declared_builtins : Symtab.Declared builtins := by
  constructor
  · intro p hp
    simp only [builtins, List.mem_cons, List.not_mem_nil, or_false] at hp
    rcases hp with rfl | rfl | rfl | rfl | rfl | rfl | rfl | rfl | rfl | rfl
    all_goals first
      | exact (by decide : 0 < array)
      | exact (by decide : tyShort < array)
      | exact (by decide : tyInt < array)
      | exact (by decide : 3 < array)
      | exact trivial
      | exact fun _ => Or.inr (by decide)
  · intro p hp type hint
    simp only [builtins, List.mem_cons, List.not_mem_nil, or_false] at hp
    rcases hp with rfl | rfl | rfl | rfl | rfl | rfl | rfl | rfl | rfl | rfl
    all_goals first
      | decide
      | cases hint

theorem elementType_lt {n type : Nat} (h : elementType n = some type) :
    type < array ∧ type ||| array < ptr := by
  have hall : ∀ t < array, t ||| array < ptr := by decide
  have hlt : type < array := by
    unfold elementType at h
    split at h <;> first
      | cases h; done
      | cases h; decide
  exact ⟨hlt, hall type hlt⟩

theorem Symtab.Declared.declareVar {data : Long} {tab tab' : Symtab} {v : GlobalVarDeclare}
    (h : tab.Declared) (hv : v.name ∈ typeNames → v.size = v.elementsize)
    (hdecl : declareVar data tab v = some tab') : tab'.Declared := by
  simp only [PerfProf.Expr.declareVar, Option.bind_eq_bind, Option.bind_eq_some_iff,
    Option.some.injEq] at hdecl
  obtain ⟨type, htype, rfl⟩ := hdecl
  obtain ⟨hlt, hptr⟩ := elementType_lt htype
  have hglo : (if v.size ≠ v.elementsize then type ||| array else type) < ptr := by
    split
    · exact hptr
    · exact Nat.lt_of_lt_of_le hlt (by decide)
  have hname : ∀ t, tab.find v.name = .int t → v.name ∈ typeNames := by
    intro t ht
    unfold Symtab.find at ht
    split at ht
    · rename_i x hx
      exact h.types _ (lookup_mem hx) t ht
    · cases ht
  cases hfind : tab.find v.name with
  | int t =>
    have hmem := hname t hfind
    rw [if_neg (not_not.mpr (hv hmem))]
    constructor
    · exact List.forall_mem_cons.mpr ⟨hlt, h.entry⟩
    · exact List.forall_mem_cons.mpr ⟨fun _ _ => hmem, h.types⟩
  | sizeof =>
    constructor
    · exact List.forall_mem_cons.mpr ⟨trivial, h.entry⟩
    · exact List.forall_mem_cons.mpr ⟨by simp, h.types⟩
  | id s =>
    constructor
    · exact List.forall_mem_cons.mpr ⟨fun _ => Or.inl ⟨rfl, hglo⟩, h.entry⟩
    · exact List.forall_mem_cons.mpr ⟨by simp, h.types⟩

theorem Symtab.Declared.foldlM {data : Long} {declare : List GlobalVarDeclare} {tab tab' : Symtab}
    (h : tab.Declared) (hv : ∀ v ∈ declare, v.name ∈ typeNames → v.size = v.elementsize)
    (hfold : declare.foldlM (PerfProf.Expr.declareVar data) tab = some tab') : tab'.Declared := by
  induction declare generalizing tab with
  | nil =>
    cases hfold
    exact h
  | cons v vs ih =>
    rw [List.foldlM_cons, Option.bind_eq_bind, Option.bind_eq_some_iff] at hfold
    obtain ⟨tab₁, h₁, hrest⟩ := hfold
    rw [List.forall_mem_cons] at hv
    exact ih (h.declareVar hv.1 h₁) hv.2 hrest

/-- What `realloc` left in an entry is not set. -/
theorem Symtab.Declared.enter {tab : Symtab} (h : tab.Declared) (held : List (List Char × Symbol)) :
    (tab.enter held).Declared := by
  have hheld : ∀ p ∈ held.map fun h => (h.1, Entry.id { h.2 with set := false }),
      ∃ s : Symbol, p.2 = .id s ∧ s.set = false := by
    intro p hp
    obtain ⟨x, -, rfl⟩ := List.mem_map.mp hp
    exact ⟨_, rfl, rfl⟩
  constructor
  · intro p hp
    rcases List.mem_append.mp hp with hp | hp
    · exact h.entry p hp
    · obtain ⟨s, hs, hset⟩ := hheld p hp
      rw [hs]
      intro ht
      cases hset.symm.trans ht
  · intro p hp type hint
    rcases List.mem_append.mp hp with hp | hp
    · exact h.types p hp type hint
    · obtain ⟨s, hs, -⟩ := hheld p hp
      rw [hs] at hint
      cases hint

theorem Symtab.Declared.symtab {held : List (List Char × Symbol)} {data : Long}
    {declare : List GlobalVarDeclare} {tab : Symtab}
    (hv : ∀ v ∈ declare, v.name ∈ typeNames → v.size = v.elementsize)
    (h : PerfProf.Expr.symtab held data declare = some tab) : tab.Declared := by
  obtain ⟨tab₁, hfold, rfl⟩ := Option.map_eq_some_iff.mp h
  exact (declared_builtins.foldlM hv hfold).enter held

theorem declared_number (c : Char) (l : Lex) : (number c l).1.Declared := by
  unfold number
  split
  · trivial
  · split <;> trivial

theorem declared_ite {P : Prop} [Decidable P] {x y : Token × Lex} (hx : x.1.Declared)
    (hy : y.1.Declared) : (if P then x else y).1.Declared := by
  split
  · exact hx
  · exact hy

theorem Symtab.Declared.next {tab : Symtab} (h : tab.Declared) (str : Long) (fuel : Nat) (l : Lex) :
    (next tab str fuel l).1.Declared := by
  induction fuel generalizing l with
  | zero => trivial
  | succ fuel ih =>
    rw [PerfProf.Expr.next]
    split
    · trivial
    · rename_i c p hp
      have hid : ∀ x : Entry, x.Declared → (match x with
          | .int type => Token.int type
          | .sizeof => .sizeof
          | .id s => .id s).Declared := by
        intro x hx
        cases x with
        | int type => exact hx
        | sizeof => trivial
        | id s => exact hx
      have htwo : ∀ {c : Char} {two one : Token} {l : Lex}, two.Declared → one.Declared →
          (ifNext c two one l).1.Declared := fun h h' => declared_ite h h'
      refine declared_ite (ih _) (declared_ite (hid _ (h.find _))
        (declared_ite (declared_number _ _) ?_))
      refine declared_ite (declared_ite (ih _) trivial) (declared_ite trivial (declared_ite trivial ?_))
      refine declared_ite (htwo trivial trivial) (declared_ite (htwo trivial trivial)
        (declared_ite (htwo trivial trivial) (declared_ite (htwo trivial trivial) ?_)))
      refine declared_ite (declared_ite trivial (htwo trivial trivial))
        (declared_ite (declared_ite trivial (htwo trivial trivial)) ?_)
      refine declared_ite (htwo trivial trivial) (declared_ite (htwo trivial trivial) ?_)
      -- the tokens of one character
      iterate 14 refine declared_ite trivial ?_
      exact ih _

theorem Symtab.Declared.tokens {tab : Symtab} (h : tab.Declared) (str : Long) (fuel : Nat)
    (l : Lex) : ∀ tk ∈ tokens tab str fuel l, tk.Declared := by
  induction fuel generalizing l with
  | zero => nofun
  | succ fuel ih =>
    have hnext := h.next str (l.p.length + 1) l
    rw [PerfProf.Expr.tokens]
    split
    · nofun
    · rename_i tk l' heq
      rw [heq] at hnext
      exact List.forall_mem_cons.mpr ⟨hnext, ih _⟩

mutual

/-- The names of an accepted tree are those of the symbol table. -/
theorem declared_of_checked : ∀ e : Exp, e.Checked →
    (∀ tk ∈ e.toks, tk.Declared ∧ tk.Known) → e.Declared
  | .num _, _, _ | .negNum _, _, _ | .str .., _, _ => trivial
  | .var s, hc, h => by
    have hcls : s.cls = .num ∨ s.cls = .loc ∨ s.cls = .glo := hc
    obtain ⟨hdecl, hknown⟩ := h (.id s) (List.mem_singleton_self _)
    rcases hknown with hset | hundef
    · rcases hdecl hset with hglo | hlib
      · exact hglo
      · rw [cls_library hlib] at hcls
        exact absurd hcls (by decide)
    · rw [hundef] at hcls
      exact absurd hcls (by decide)
  | .sizeof type n, _, h => (h (.int type) (by simp [Exp.toks, typeToks])).1
  | .call s as, hc, h => by
    refine ⟨?_, declaredArgs_of_checked as hc.2 fun tk htk => h tk (by simp [Exp.toks, htk])⟩
    have hcls := hc.1
    obtain ⟨hdecl, hknown⟩ := h (.id s) (by simp [Exp.toks])
    rcases hknown with hset | hundef
    · rcases hdecl hset with hglo | hlib
      · rw [hglo.1] at hcls
        exact absurd hcls (by decide)
      · exact hlib
    · rw [hundef] at hcls
      exact absurd hcls (by decide)
  | .paren e, hc, h => declared_of_checked e hc fun tk htk => h tk (by simp [Exp.toks, htk])
  | .un _ e, hc, h => declared_of_checked e hc fun tk htk => h tk (by simp [Exp.toks, htk])
  | .deref e, hc, h => declared_of_checked e hc.1 fun tk htk => h tk (by simp [Exp.toks, htk])
  | .addr e, hc, h => declared_of_checked e hc.1 fun tk htk => h tk (by simp [Exp.toks, htk])
  | .pre _ e, hc, h => declared_of_checked e hc.1 fun tk htk => h tk (by simp [Exp.toks, htk])
  | .post _ e, hc, h => declared_of_checked e hc.1 fun tk htk => h tk (by simp [Exp.toks, htk])
  | .cast type _ e, hc, h => ⟨(h (.int type) (by simp [Exp.toks, typeToks])).1,
    declared_of_checked e hc fun tk htk => h tk (by simp [Exp.toks, htk])⟩
  | .index l r, hc, h =>
    ⟨declared_of_checked l hc.1 fun tk htk => h tk (by simp [Exp.toks, htk]),
      declared_of_checked r hc.2.1 fun tk htk => h tk (by simp [Exp.toks, htk])⟩
  | .bin _ l r, hc, h | .land l r, hc, h | .lor l r, hc, h =>
    ⟨declared_of_checked l hc.1 fun tk htk => h tk (by simp [Exp.toks, htk]),
      declared_of_checked r hc.2 fun tk htk => h tk (by simp [Exp.toks, htk])⟩
  | .assign l r, hc, h =>
    ⟨declared_of_checked l hc.1 fun tk htk => h tk (by simp [Exp.toks, htk]),
      declared_of_checked r hc.2.1 fun tk htk => h tk (by simp [Exp.toks, htk])⟩
  | .cond c t f, hc, h =>
    ⟨declared_of_checked c hc.1 fun tk htk => h tk (by simp [Exp.toks, htk]),
      declared_of_checked t hc.2.1 fun tk htk => h tk (by simp [Exp.toks, htk]),
      declared_of_checked f hc.2.2 fun tk htk => h tk (by simp [Exp.toks, htk])⟩

theorem declaredArgs_of_checked : ∀ as : Args, as.Checked →
    (∀ tk ∈ as.toks, tk.Declared ∧ tk.Known) → as.Declared
  | .nil, _, _ => trivial
  | .cons e comma rest, hc, h =>
    ⟨declared_of_checked e hc.1 fun tk htk => h tk (by simp [Args.toks, htk]),
      declaredArgs_of_checked rest hc.2 fun tk htk => h tk (by simp [Args.toks, htk])⟩

end

end Names

section Accepted

theorem mem_commaToks {e : Exp} {es : List Exp} {x : Exp} (hx : x ∈ e :: es) {tk : Token}
    (htk : tk ∈ x.toks) : tk ∈ commaToks e es := by
  induction es generalizing e with
  | nil =>
    rw [List.mem_singleton.mp hx] at htk
    exact htk
  | cons e' es ih =>
    rw [commaToks, List.mem_append, List.mem_cons]
    rcases List.mem_cons.mp hx with rfl | hx
    · exact Or.inl htk
    · exact Or.inr (Or.inr (ih hx))

theorem checked_of_genAll {e : Exp} {es : List Exp} {c c' : Buf}
    (h : genAll e es c = some c') (hl : ∀ x ∈ e :: es, x.LvaluesOnly) :
    (∀ x ∈ e :: es, x.Checked) ∧ c'.code = c.code ++ words (allCode e es c.code.length) := by
  induction es generalizing e c with
  | nil =>
    rw [List.forall_mem_singleton] at hl ⊢
    exact ⟨checked_of_gen e c c' h hl, congrArg Buf.code (gen_words h hl)⟩
  | cons e' es ih =>
    simp only [genAll, Option.bind_eq_bind, Option.bind_eq_some_iff] at h
    obtain ⟨c₁, h1, h2⟩ := h
    rw [List.forall_mem_cons] at hl
    obtain ⟨hchecked, hcode⟩ := ih h2 hl.2
    refine ⟨List.forall_mem_cons.mpr ⟨checked_of_gen e c c₁ h1 hl.1, hchecked⟩, ?_⟩
    rw [hcode, gen_words h1 hl.1, allCode]
    simp

theorem typed_allCode {insn : List Long} {T : Nat → Nat → Prop} {e : Exp} {es : List Exp} {b : Nat}
    (h : ∀ x ∈ e :: es, x.Declared) (hc : ∀ x ∈ e :: es, x.Checked)
    (hp : Placed insn T b 0 (allCode e es b)) :
    Typed insn T b 0 (allCode e es b) ∧ depthAfter 0 (allCode e es b) = 0 := by
  have hroom := hp.room
  induction es generalizing e b with
  | nil =>
    rw [List.forall_mem_singleton] at h hc
    simp only [allCode] at hp hroom ⊢
    exact ⟨typed_code e h hc b 0 hp, depth_code e b 0 h hc (by omega)⟩
  | cons e' es ih =>
    rw [List.forall_mem_cons] at h hc
    simp only [allCode] at hp hroom ⊢
    rw [size_append] at hroom
    have hde := depth_code e b 0 h.1 hc.1 (by omega)
    have hp₁ := hp.right hde (by have := hp.stack; omega)
    obtain ⟨htyped, hdepth⟩ := ih h.2 hc.2 hp₁ hp₁.room
    refine ⟨(typed_code e h.1 hc.1 b 0 hp.left).append hde htyped, ?_⟩
    rw [depthAfter_append, hde, hdepth]

/-- The expressions of an accepted text, and the code they are compiled to. -/
theorem accepted_code {held : List (List Char × Symbol)} {data str : Long} {text : List Char}
    {declare : List GlobalVarDeclare} {prog : Prog}
    (h : exprCompile held data str text declare = .ok prog) :
    ∃ tab e es rest, symtab held data declare = some tab ∧
      tokens tab str (text.length + 1) ⟨text, 0, 0⟩ = commaToks e es ++ rest ∧
      (∀ x ∈ e :: es, x.Leveled) ∧
      ((∀ x ∈ e :: es, x.LvaluesOnly) → (∀ x ∈ e :: es, x.Checked) ∧
        prog.insn = 0 :: words (allCode e es 1 ++ [ins .exit]) ∧
        ((∀ v ∈ declare, v.name ∈ typeNames → v.size = v.elementsize) →
          (∀ tk ∈ commaToks e es, tk.Known) → ∀ x ∈ e :: es, x.Declared)) := by
  unfold exprCompile at h
  split at h
  · cases h
  · rename_i tab htab
    dsimp only [Bind.bind, Except.bind] at h
    split at h
    · cases h
    · rename_i s hs
      cases h
      obtain ⟨e, es, rest, htoks, hlev, hgen⟩ := exprs_sound hs
      refine ⟨tab, e, es, rest, htab, htoks, hlev, fun hl => ?_⟩
      obtain ⟨hchecked, hcode⟩ := checked_of_genAll hgen hl
      refine ⟨hchecked, ?_, fun hnames hknown x hx => ?_⟩
      · rw [emit_code, St.code, hcode]
        simp
      · have htab' : tab.Declared := .symtab hnames htab
        refine declared_of_checked x (hchecked x hx) fun tk htk => ?_
        have htk' : tk ∈ commaToks e es := mem_commaToks hx htk
        have hmem : tk ∈ commaToks e es ++ rest := List.mem_append_left _ htk'
        rw [← htoks] at hmem
        exact ⟨htab'.tokens _ _ _ tk hmem, hknown tk htk'⟩

theorem Runs.reaches {lib : Library} {insn : List Long} {d : Data} {m : Vm}
    (h : Runs lib insn ⟨1, 0, [], d⟩ m) : Reaches lib insn d m := by
  induction h with
  | here => exact .refl
  | next _ hb ih => exact ih.tail (.step hb)

/-- An array that is called `int`. -/
def arrayInt : GlobalVarDeclare := ⟨"int".toList, 0, 16, 4⟩

/-- The instruction at `pc` loads or stores no known size. -/
def WrongAt (insn : List Long) (pc : Nat) : Prop :=
  insn[pc]? = some Op.li.word ∧ ∃ n, insn[pc + 1]? = some n ∧ isSize n = false

end Accepted

end PerfProf.Expr
