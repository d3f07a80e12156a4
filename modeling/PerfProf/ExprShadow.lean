import PerfProf.ExprLoad
import PerfProf.ExprNames

/-! The entry that `expr_load_glo` finds in the table of a compiled program: that of the last
declared variable whose name begins the name asked for. -/
namespace PerfProf.ExprSymtab
open PerfProf.Expr PerfProf.Intern

section Entries
variable {rs : List Read} {tab : SymbolTable} {name k : List Char} {e : SymbolEntry}

/-- What has been set for the name is a variable. -/
def Global (rs : List Read) (k : List Char) : Prop :=
  (settled rs k).token = tokId ∧ (settled rs k).cls = classGlo

theorem hashOf_len (hk : k.length < 64) : (hashOf k &&& 63).toNat = k.length := by
  cases k with
  | nil => rfl
  | cons c cs =>
    rw [List.length_cons] at hk ⊢
    have hmod : ∀ x : Long, ((x <<< 6 + word (cs.length + 1)) &&& 63).toNat = cs.length + 1 := by
      intro x
      have hlow : (63 : Long).toNat = 2 ^ 6 - 1 := rfl
      rw [BitVec.toNat_and, hlow, Nat.and_two_pow_sub_one_eq_mod, BitVec.toNat_add,
        BitVec.toNat_shiftLeft, Nat.shiftLeft_eq, word, BitVec.toNat_ofNat]
      omega
    exact hmod _

/-- The test of `expr_load_glo` on the entry of a name. -/
theorem globalNamed_iff (h : EntryOf rs k e) (hk : k.length < 64) :
    e.globalNamed name = true ↔ Global rs k ∧ k <+: name := by
  obtain ⟨hname, hhash, hsetting⟩ := h
  have hlen : e.len = k.length := by rw [SymbolEntry.len, hhash, hashOf_len hk]
  have htake : e.name.take k.length = k := by
    refine (List.prefix_iff_eq_take.mp ?_).symm
    rw [← hname]
    exact List.takeWhile_prefix isWord
  rw [SymbolEntry.globalNamed, Bool.and_eq_true, Bool.and_eq_true, beq_iff_eq, beq_iff_eq,
    beq_iff_eq, hlen, htake, List.prefix_iff_eq_take, hsetting, Global]

/-- The entry found in a table that is in order. -/
theorem lastNamed_iff (h : Holds rs tab) (hshort : ∀ k ∈ known rs, k.length < 64) (t : Nat)
    (v : Long) : (∃ s, LastNamed tab.entries name s ∧ s.type = t ∧ s.value = v) ↔
      ∃ pre k post, known rs = pre ++ k :: post ∧ Global rs k ∧ k <+: name ∧
        (∀ a ∈ post, Global rs a → ¬ a <+: name) ∧
          (settled rs k).type = t ∧ (settled rs k).value = v := by
  obtain ⟨f, hf, hentries⟩ := h.entries
  have hfree : ∀ n, ((List.replicate n SymbolEntry.free).reverse.find?
      (SymbolEntry.globalNamed name)) = none := by
    intro n
    rw [List.reverse_replicate, List.find?_eq_none]
    intro e he
    rw [List.eq_of_mem_replicate he]
    exact Bool.false_ne_true
  have hfind : ∀ s, LastNamed tab.entries name s ↔
      ∃ k, (known rs).reverse.find? (SymbolEntry.globalNamed name ∘ f) = some k ∧ f k = s := by
    intro s
    rw [← find_last_iff, hentries, List.reverse_append, List.find?_append, hfree, Option.none_or,
      ← List.map_reverse, List.find?_map, Option.map_eq_some_iff]
  constructor
  · rintro ⟨s, hs, rfl, rfl⟩
    obtain ⟨k, hk, rfl⟩ := (hfind s).mp hs
    obtain ⟨hglobal, pre, post, hsplit, hpost⟩ := find_reverse_iff.mp hk
    have hmem : ∀ a ∈ k :: post, a ∈ known rs := by
      intro a ha
      rw [hsplit]
      exact List.mem_append_right pre ha
    have hentry := hf k (hmem k List.mem_cons_self)
    obtain ⟨hg, hprefix⟩ :=
      (globalNamed_iff hentry (hshort k (hmem k List.mem_cons_self))).mp hglobal
    refine ⟨pre, k, post, hsplit, hg, hprefix, fun a ha hga hp => ?_, ?_, ?_⟩
    · have hin := hmem a (List.mem_cons_of_mem k ha)
      have htrue := (globalNamed_iff (hf a hin) (hshort a hin)).mpr ⟨hga, hp⟩
      exact Bool.false_ne_true ((hpost a ha).symm.trans htrue)
    · rw [← hentry.2.2]
    · rw [← hentry.2.2]
  · rintro ⟨pre, k, post, hsplit, hg, hprefix, hpost, rfl, rfl⟩
    have hmem : ∀ a ∈ k :: post, a ∈ known rs := by
      intro a ha
      rw [hsplit]
      exact List.mem_append_right pre ha
    have hin := hmem k List.mem_cons_self
    have hentry := hf k hin
    refine ⟨f k, (hfind _).mpr ⟨k, find_reverse_iff.mpr ⟨?_, pre, post, hsplit, ?_⟩, rfl⟩, ?_, ?_⟩
    · exact (globalNamed_iff hentry (hshort k hin)).mpr ⟨hg, hprefix⟩
    · intro a ha
      have hina := hmem a (List.mem_cons_of_mem k ha)
      rw [Bool.eq_false_iff]
      intro htrue
      obtain ⟨hga, hp⟩ := (globalNamed_iff (hf a hina) (hshort a hina)).mp htrue
      exact hpost a ha hga hp
    · rw [hentry.2.2]
    · rw [hentry.2.2]

end Entries

section Compiled
variable {declared : List Declared} {mentions : List Ident}

def Declared.name (d : Declared) : List Char := d.ident.name

def Declared.read (d : Declared) : Read := ⟨d.ident, .glo d.type d.value⟩

/-- The declared names are different ones and none is built in. -/
structure Fresh (declared : List Declared) : Prop where
  nodup : (declared.map Declared.name).Nodup
  new : ∀ d ∈ declared, d.name ∉ known builtinReads

theorem settled_append_of_ne {rs ss : List Read} {k : List Char} (h : ∀ r ∈ ss, r.name ≠ k) :
    settled (rs ++ ss) k = settled rs k := by
  have hnone : ss.filter (fun r => r.name = k) = [] := by
    rw [List.filter_eq_nil_iff]
    exact fun r hr hname => h r hr (of_decide_eq_true hname)
  rw [settled, List.filter_append, hnone, List.append_nil, settled]

/-- A name that is only mentioned sets nothing. -/
theorem settled_mentions (rs : List Read) (mentions : List Ident) (k : List Char) :
    settled (rs ++ mentions.map fun x => ⟨x, .mention⟩) k = settled rs k := by
  induction mentions using List.reverseRecOn with
  | nil => rw [List.map_nil, List.append_nil]
  | append_singleton mentions x ih =>
    rw [List.map_append, List.map_singleton, ← List.append_assoc, settled_snoc, ih]
    exact ite_self _

theorem not_global_builtin (k : List Char) : ¬ Global builtinReads k := by
  have hall : ∀ k ∈ known builtinReads, (settled builtinReads k).cls ≠ classGlo := by
    decide +kernel
  rintro ⟨-, hcls⟩
  by_cases hk : k ∈ known builtinReads
  · exact hall k hk hcls
  · rw [settled_unknown hk] at hcls
    exact absurd hcls (by decide)

theorem settled_declared (h : Fresh declared) {d : Declared} (hd : d ∈ declared) :
    settled (compileReads declared mentions) d.name =
      { token := tokId, cls := classGlo, type := d.type, value := d.value } := by
  obtain ⟨pre, post, rfl⟩ := List.append_of_mem hd
  have hnodup := h.nodup
  rw [List.map_append, List.map_cons, List.nodup_append, List.nodup_cons] at hnodup
  have hpre : ∀ r ∈ pre.map Declared.read, r.name ≠ d.name := by
    intro r hr
    obtain ⟨x, hx, rfl⟩ := List.mem_map.mp hr
    exact hnodup.2.2 x.name (List.mem_map_of_mem hx) d.name List.mem_cons_self
  have hpost : ∀ r ∈ post.map Declared.read, r.name ≠ d.name := by
    rintro r hr heq
    obtain ⟨x, hx, rfl⟩ := List.mem_map.mp hr
    exact hnodup.2.1.1 (heq ▸ List.mem_map_of_mem hx)
  have hsplit : builtinReads ++ (pre ++ d :: post).map Declared.read =
      builtinReads ++ pre.map Declared.read ++ [d.read] ++ post.map Declared.read := by
    simp
  rw [compileReads, settled_mentions]
  show settled (builtinReads ++ (pre ++ d :: post).map Declared.read) d.name = _
  have hname : d.read.name = d.name := rfl
  rw [hsplit, settled_append_of_ne hpost, settled_snoc, if_pos hname, settled_append_of_ne hpre,
    settled_unknown (h.new d hd)]
  rfl

theorem global_iff (h : Fresh declared) (k : List Char) :
    Global (compileReads declared mentions) k ↔ k ∈ declared.map Declared.name := by
  constructor
  · intro hg
    by_contra hk
    refine not_global_builtin k ?_
    have hne : ∀ r ∈ declared.map Declared.read, r.name ≠ k := by
      rintro r hr rfl
      obtain ⟨d, hd, rfl⟩ := List.mem_map.mp hr
      exact hk (List.mem_map_of_mem hd)
    have hsettled : settled (compileReads declared mentions) k = settled builtinReads k := by
      rw [compileReads, settled_mentions]
      exact settled_append_of_ne hne
    rw [Global, ← hsettled]
    exact hg
  · intro hk
    obtain ⟨d, hd, rfl⟩ := List.mem_map.mp hk
    rw [Global, settled_declared h hd]
    exact ⟨rfl, rfl⟩

/-- The declared names are entered in their order, before those that are only mentioned. -/
theorem known_compileReads (h : Fresh declared) : ∃ more,
    known (compileReads declared mentions) =
      known builtinReads ++ declared.map Declared.name ++ more := by
  have hnames : (builtinReads ++ declared.map Declared.read).map Read.name =
      builtinReads.map Read.name ++ declared.map Declared.name := by
    rw [List.map_append, List.map_map]
    rfl
  have hdeclared : known (builtinReads ++ declared.map Declared.read) =
      known builtinReads ++ declared.map Declared.name := by
    rw [known, hnames]
    refine firsts_append_new h.nodup fun k hk => ?_
    obtain ⟨d, hd, rfl⟩ := List.mem_map.mp hk
    exact h.new d hd
  obtain ⟨more, hmore⟩ := firsts_prefix
    ((builtinReads ++ declared.map Declared.read).map Read.name)
    ((mentions.map fun x => (⟨x, .mention⟩ : Read)).map Read.name)
  refine ⟨more, ?_⟩
  rw [← hdeclared, known, known, hmore, ← List.map_append]
  rfl

/-- In the table of a compiled program `expr_load_glo` finds the last declared variable whose name
begins the name asked for. -/
theorem lastNamed_declared (fresh : Nat → SymbolEntry) (name : List Char) (data : Long) (size : Nat)
    (hroomy : Roomy (known (compileReads declared mentions)))
    (hshort : ∀ k ∈ known (compileReads declared mentions), k.length < 64) (h : Fresh declared)
    (t : Nat) (v : Long) :
    (∃ s, LastNamed (compiled fresh data size declared mentions).symtab name s ∧ s.type = t ∧
      s.value = v) ↔
    ∃ pre d post, declared = pre ++ d :: post ∧ d.name <+: name ∧
      (∀ a ∈ post, ¬ a.name <+: name) ∧ d.type = t ∧ d.value = v := by
  obtain ⟨more, hknown⟩ : ∃ more, known (compileReads declared mentions) =
    known builtinReads ++ declared.map Declared.name ++ more := known_compileReads h
  have hnodup := known_nodup (compileReads declared mentions)
  have hsplit : ∀ pre d post, declared = pre ++ d :: post →
      known (compileReads declared mentions) =
        (known builtinReads ++ pre.map Declared.name) ++
          d.name :: (post.map Declared.name ++ more) := by
    rintro pre d post rfl
    rw [hknown]
    simp
  have hmore : ∀ a ∈ more, ¬ Global (compileReads declared mentions) a := by
    intro a ha hg
    rw [hknown, List.nodup_append] at hnodup
    exact hnodup.2.2 a (List.mem_append_right _ ((global_iff h a).mp hg)) a ha rfl
  rw [show (compiled fresh data size declared mentions).symtab =
    (SymbolTable.start.after fresh (compileReads declared mentions)).entries from rfl,
    lastNamed_iff (run_holds hroomy) hshort]
  constructor
  · rintro ⟨pre', k, post', hk, hg, hprefix, hpost, rfl, rfl⟩
    obtain ⟨d, hd, rfl⟩ := List.mem_map.mp ((global_iff h k).mp hg)
    obtain ⟨pre, post, hdecl⟩ := List.append_of_mem hd
    have hboth := (hsplit pre d post hdecl).symm.trans hk
    rw [hk, List.nodup_append, List.nodup_cons] at hnodup
    have hnotpost := hnodup.2.1.1
    have hnotpre : d.name ∉ pre' := fun hmem => hnodup.2.2 _ hmem _ List.mem_cons_self rfl
    obtain ⟨-, -, hposts⟩ :=
      (List.append_cons_inj_of_notMem hnotpre hnotpost).mp hboth.symm
    refine ⟨pre, d, post, hdecl, hprefix, fun a ha => ?_, ?_, ?_⟩
    · have hmem : a.name ∈ post' := by
        rw [hposts]
        exact List.mem_append_left _ (List.mem_map_of_mem ha)
      refine hpost a.name hmem ((global_iff h _).mpr (List.mem_map_of_mem ?_))
      rw [hdecl]
      exact List.mem_append_right _ (List.mem_cons_of_mem _ ha)
    · rw [settled_declared h hd]
    · rw [settled_declared h hd]
  · rintro ⟨pre, d, post, hdecl, hprefix, hpost, rfl, rfl⟩
    have hd : d ∈ declared := by
      rw [hdecl]
      exact List.mem_append_right _ List.mem_cons_self
    refine ⟨_, d.name, _, hsplit pre d post hdecl, (global_iff h _).mpr (List.mem_map_of_mem hd),
      hprefix, fun a ha hga => ?_, ?_, ?_⟩
    · rw [List.mem_append] at ha
      obtain ha | ha := ha
      · obtain ⟨x, hx, rfl⟩ := List.mem_map.mp ha
        exact hpost x hx
      · exact absurd hga (hmore a ha)
    · rw [settled_declared h hd]
    · rw [settled_declared h hd]

end Compiled

end PerfProf.ExprSymtab
