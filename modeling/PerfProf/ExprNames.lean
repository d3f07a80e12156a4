import Mathlib.Data.List.TakeWhile
import PerfProf.ExprSymtab

/-! Which entry an identifier gets. Up to 16 different names, and as long as no name clashes with one
that extends it, the table is a map from names: every name has an entry of its own, with what was
set for it last. -/
namespace PerfProf.ExprSymtab
open PerfProf.Expr PerfProf.Intern

section Spec

def Read.name (r : Read) : List Char := r.ident.name

/-- The different names, in the order of their first occurrences. -/
def known (rs : List Read) : List (List Char) := firsts (rs.map Read.name)

/-- What has been set for a name by the reads of this very name. -/
def settled (rs : List Read) (name : List Char) : Setting :=
  (rs.filter fun r => r.name = name).foldl (fun m r => r.use.apply m) { token := tokId }

/-- The entry of `k` is taken for the shorter name `a`. The hashes are equal only if the lengths
differ by a multiple of 64. -/
def Clash (k a : List Char) : Prop := k ≠ a ∧ a <+: k ∧ hashOf k = hashOf a

/-- Two occurrences have the same entry if and only if they are the same name, what is used of an
entry is what has been set for the name, and no entry behind the last is looked at. -/
structure Resolves (rs : List Read) (vs : List Visit) : Prop where
  same : ∀ v ∈ vs, ∀ w ∈ vs, v.id = w.id ↔ v.name = w.name
  used : ∀ i v, vs[i]? = some v → v.setting = settled (rs.take (i + 1)) v.name
  inside : ∀ v ∈ vs, v.scanned < v.nrSyms

/-- At most 16 names, none of which clashes with one entered before it. -/
def Roomy (names : List (List Char)) : Prop :=
  names.length ≤ 16 ∧ names.Pairwise fun k a => ¬ Clash k a

end Spec

section Compare

theorem prefix_takeWhile {p : Char → Bool} {a text : List Char} (ha : ∀ c ∈ a, p c = true) :
    a <+: text.takeWhile p ↔ a <+: text := by
  refine ⟨fun h => h.trans (List.takeWhile_prefix p), fun h => ?_⟩
  obtain ⟨rest, rfl⟩ := h
  rw [List.takeWhile_append_of_pos ha]
  exact List.prefix_append _ _

theorem spelled_word (text : List Char) : ∀ c ∈ spelled text, isWord c = true :=
  fun _ h => List.mem_takeWhile_imp h

/-- The compare of limited length tells a name from all but the names it begins. -/
theorem accepts_iff {e : SymbolEntry} {k a : List Char} (hk : spelled e.name = k)
    (hhash : e.hash = hashOf k) (ha : ∀ c ∈ a, isWord c = true) :
    e.accepts a = true ↔ k = a ∨ Clash k a := by
  have hprefix : e.name.take a.length = a ↔ a <+: k := by
    rw [← hk, spelled, prefix_takeWhile ha, List.prefix_iff_eq_take]
    exact eq_comm
  rw [SymbolEntry.accepts, Bool.and_eq_true, beq_iff_eq, beq_iff_eq, hhash, hprefix]
  constructor
  · rintro ⟨h1, h2⟩
    by_cases heq : k = a
    · exact .inl heq
    · exact .inr ⟨heq, h2, h1⟩
  · rintro (rfl | ⟨_, h2, h1⟩)
    · exact ⟨rfl, List.prefix_rfl⟩
    · exact ⟨h1, h2⟩

end Compare

section Settled

theorem known_snoc (rs : List Read) (r : Read) : known (rs ++ [r]) = enter (known rs) r.name := by
  rw [known, List.map_append, List.map_singleton, firsts_snoc, known]

theorem known_nodup (rs : List Read) : (known rs).Nodup := firsts_nodup _

theorem settled_snoc (rs : List Read) (r : Read) (name : List Char) :
    settled (rs ++ [r]) name =
      if r.name = name then r.use.apply (settled rs name) else settled rs name := by
  rw [settled, List.filter_append, List.foldl_append]
  split_ifs with h
  · rw [List.filter_cons_of_pos (by simpa using h)]
    rfl
  · rw [List.filter_cons_of_neg (by simpa using h)]
    rfl

theorem settled_unknown {rs : List Read} {name : List Char} (h : name ∉ known rs) :
    settled rs name = { token := tokId } := by
  have hnone : rs.filter (fun r => r.name = name) = [] := by
    rw [List.filter_eq_nil_iff]
    intro r hr hname
    refine h (mem_firsts (List.mem_map.mpr ⟨r, hr, ?_⟩))
    simpa using hname
  rw [settled, hnone]
  rfl

theorem apply_token {use : Use} {m : Setting} (h : m.token ≠ 0) : (use.apply m).token ≠ 0 := by
  cases use with
  | int type => exact (by decide : tokInt ≠ 0)
  | sizeof => exact (by decide : tokSizeof ≠ 0)
  | lib type insn => exact h
  | glo type value => exact h
  | mention => exact h

theorem settled_token (rs : List Read) (name : List Char) : (settled rs name).token ≠ 0 := by
  induction rs using List.reverseRecOn with
  | nil => exact (by decide : tokId ≠ 0)
  | append_singleton rs r ih =>
    rw [settled_snoc]
    split_ifs
    · exact apply_token ih
    · exact ih

end Settled

section Invariant

/-- The entry of a name. -/
def EntryOf (rs : List Read) (k : List Char) (e : SymbolEntry) : Prop :=
  spelled e.name = k ∧ e.hash = hashOf k ∧ e.toSetting = settled rs k

/-- The entries of the known names stand first, in the order of `known`, the others are free. -/
structure Holds (rs : List Read) (tab : SymbolTable) : Prop where
  entries : ∃ f : List Char → SymbolEntry, (∀ k ∈ known rs, EntryOf rs k (f k)) ∧
    tab.entries = (known rs).map f ++ List.replicate (16 - (known rs).length) .free
  count : tab.nSyms = (known rs).length
  room : (known rs).length ≤ 16

theorem Holds.nrSyms {rs : List Read} {tab : SymbolTable} (h : Holds rs tab) :
    tab.nrSyms = 16 := by
  obtain ⟨f, _, hentries⟩ := h.entries
  have hroom := h.room
  rw [SymbolTable.nrSyms, hentries, List.length_append, List.length_map, List.length_replicate]
  omega

theorem start_holds : Holds [] .start where
  entries := ⟨fun _ => .free, fun _ h => (List.not_mem_nil h).elim, rfl⟩
  count := rfl
  room := by decide

/-- The test of the search on the entry of a name. -/
theorem stops_iff {rs : List Read} {k : List Char} {e : SymbolEntry} (h : EntryOf rs k e)
    (text : List Char) :
    (e.token == 0 || e.accepts (spelled text)) = true ↔ k = spelled text ∨ Clash k (spelled text) := by
  have htoken : (e.token == 0) = false := by
    rw [beq_eq_false_iff_ne, h.2.2]
    exact settled_token rs k
  rw [htoken, Bool.false_or]
  exact accepts_iff h.1 h.2.1 (spelled_word text)

/-- Where the search stops among entries that are in order. -/
def stop (tab : SymbolTable) (text : List Char) : Nat :=
  tab.entries.findIdx fun e => e.token == 0 || e.accepts (spelled text)

theorem stop_eq {keys : List (List Char)} {tab : SymbolTable} {f : List Char → SymbolEntry}
    (hentries : tab.entries = keys.map f ++ List.replicate (16 - keys.length) .free)
    (text : List Char) :
    stop tab text = keys.findIdx ((fun e => e.token == 0 || e.accepts (spelled text)) ∘ f) := by
  rw [stop, hentries, List.findIdx_append, List.findIdx_map, List.length_map]
  split_ifs with h
  · rfl
  · have hfree : (List.replicate (16 - keys.length) SymbolEntry.free).findIdx
        (fun e => e.token == 0 || e.accepts (spelled text)) = 0 := by
      cases 16 - keys.length <;> rfl
    have hle : keys.findIdx
        ((fun e => e.token == 0 || e.accepts (spelled text)) ∘ f) ≤ keys.length :=
      List.findIdx_le_length
    omega

end Invariant

section Step
variable {rs : List Read} {tab : SymbolTable} {f : List Char → SymbolEntry} {r : Read}

/-- Without clashes the search stops at the entry of the name, or behind the last entry. -/
theorem stop_idxOf (hf : ∀ k ∈ known rs, EntryOf rs k (f k))
    (hentries : tab.entries = (known rs).map f ++ List.replicate (16 - (known rs).length) .free)
    (hclash : (known (rs ++ [r])).Pairwise fun k a => ¬ Clash k a) :
    stop tab r.ident.text = (known rs).idxOf r.name := by
  have hp : ∀ k ∈ known rs, ((fun e => e.token == 0 || e.accepts (spelled r.ident.text)) ∘ f) k =
      true ↔ k = r.name ∨ Clash k r.name := fun k hk => stops_iff (hf k hk) r.ident.text
  rw [known_snoc, enter] at hclash
  rw [stop_eq hentries]
  split_ifs at hclash with hknown
  · exact findIdx_eq_idxOf hp hclash hknown
  · rw [List.pairwise_append] at hclash
    rw [findIdx_eq_length hp (fun k hk => hclash.2.2 k hk _ (List.mem_singleton_self _)) hknown,
      List.idxOf_eq_length hknown]

/-- What a visit has to be. -/
structure Visits (rs : List Read) (r : Read) (v : Visit) : Prop where
  name : v.name = r.name
  id : v.id = (known (rs ++ [r])).idxOf r.name
  inside : v.scanned < v.nrSyms
  setting : v.setting = settled (rs ++ [r]) r.name

theorem next_eq (tab : SymbolTable) (fresh : Nat → SymbolEntry) (text : List Char) :
    tab.next fresh text = match tab.entries[stop tab text]? with
      | none => { tab := (tab.grow fresh).add tab.nSyms text, id := tab.nSyms,
                  scanned := stop tab text, nrSyms := tab.nrSyms }
      | some e =>
        if e.token = 0 then
          { tab := tab.add (stop tab text) text, id := stop tab text, scanned := stop tab text,
            nrSyms := tab.nrSyms }
        else { tab := tab, id := stop tab text, scanned := stop tab text, nrSyms := tab.nrSyms } :=
  rfl

/-- The entries of the other names keep what they have. -/
theorem entryOf_snoc {k : List Char} {e : SymbolEntry} (h : EntryOf rs k e) (hk : k ≠ r.name) :
    EntryOf (rs ++ [r]) k e := by
  refine ⟨h.1, h.2.1, ?_⟩
  rw [settled_snoc, if_neg hk.symm]
  exact h.2.2

theorem read_known {fresh : Nat → SymbolEntry} (h : Holds rs tab)
    (hclash : (known (rs ++ [r])).Pairwise fun k a => ¬ Clash k a) (hknown : r.name ∈ known rs) :
    Holds (rs ++ [r]) (tab.read fresh r).1 ∧ Visits rs r (tab.read fresh r).2 := by
  obtain ⟨f, hf, hentries⟩ := h.entries
  have hkeys : known (rs ++ [r]) = known rs := by rw [known_snoc, enter, if_pos hknown]
  have hlt : (known rs).idxOf r.name < (known rs).length := List.idxOf_lt_length_of_mem hknown
  have hstop := stop_idxOf hf hentries hclash
  have hat : tab.entries[(known rs).idxOf r.name]? = some (f r.name) := by
    rw [hentries, List.getElem?_append_left (by rwa [List.length_map]), List.getElem?_map,
      List.getElem?_idxOf hknown]
    rfl
  have htoken : (f r.name).token ≠ 0 := by
    rw [(hf _ hknown).2.2]
    exact settled_token rs r.name
  have hnext : tab.next fresh r.ident.text =
      { tab := tab, id := (known rs).idxOf r.name, scanned := (known rs).idxOf r.name,
        nrSyms := tab.nrSyms } := by
    rw [next_eq, hstop, hat]
    exact if_neg htoken
  have hset : (tab.set ((known rs).idxOf r.name) r.use).entries =
      (known rs).map (fun k => if k == r.name then r.use.on (f k) else f k) ++
        List.replicate (16 - (known rs).length) .free := by
    rw [SymbolTable.set, hentries, modify_append_left (by rwa [List.length_map]),
      modify_idxOf (known_nodup rs) hknown]
  have hread : tab.read fresh r = (tab.set ((known rs).idxOf r.name) r.use,
      { name := r.name, id := (known rs).idxOf r.name, scanned := (known rs).idxOf r.name,
        nrSyms := tab.nrSyms,
        setting := ((tab.set ((known rs).idxOf r.name) r.use).entries.getD
          ((known rs).idxOf r.name) .free).toSetting }) := by
    rw [SymbolTable.read, hnext]
    rfl
  rw [hread]
  constructor
  · refine ⟨⟨_, fun k hk => ?_, by rw [hkeys]; exact hset⟩, ?_, ?_⟩
    · rw [hkeys] at hk
      split_ifs with heq
      · rw [beq_iff_eq] at heq
        subst heq
        refine ⟨(hf _ hk).1, (hf _ hk).2.1, ?_⟩
        rw [settled_snoc, if_pos rfl, ← (hf _ hk).2.2]
        rfl
      · exact entryOf_snoc (hf k hk) fun h => heq (beq_iff_eq.mpr h)
    · rw [hkeys]
      exact h.count
    · rw [hkeys]
      exact h.room
  · have hroom := h.room
    have hnr := h.nrSyms
    refine ⟨rfl, by rw [hkeys], ?_, ?_⟩
    · dsimp only
      omega
    · dsimp only
      rw [List.getD_eq_getElem?_getD, hset,
        List.getElem?_append_left (by rwa [List.length_map]), List.getElem?_map,
        List.getElem?_idxOf hknown, settled_snoc, if_pos rfl, ← (hf _ hknown).2.2]
      simp
      rfl

theorem read_new {fresh : Nat → SymbolEntry} (h : Holds rs tab)
    (hclash : (known (rs ++ [r])).Pairwise fun k a => ¬ Clash k a) (hnew : r.name ∉ known rs)
    (hlt : (known rs).length < 16) :
    Holds (rs ++ [r]) (tab.read fresh r).1 ∧ Visits rs r (tab.read fresh r).2 := by
  obtain ⟨f, hf, hentries⟩ := h.entries
  have hkeys : known (rs ++ [r]) = known rs ++ [r.name] := by rw [known_snoc, enter, if_neg hnew]
  have hlen : ((known rs).map f).length = (known rs).length := List.length_map _
  have hstop := stop_idxOf hf hentries hclash
  rw [List.idxOf_eq_length hnew] at hstop
  obtain ⟨n, hn⟩ : ∃ n, 16 - (known rs).length = n + 1 := ⟨15 - (known rs).length, by omega⟩
  rw [hn, List.replicate_succ] at hentries
  have hat : tab.entries[(known rs).length]? = some .free := by
    rw [hentries, ← hlen, List.getElem?_append_right (Nat.le_refl _), Nat.sub_self]
    rfl
  have hnext : tab.next fresh r.ident.text =
      { tab := tab.add (known rs).length r.ident.text, id := (known rs).length,
        scanned := (known rs).length, nrSyms := tab.nrSyms } := by
    rw [next_eq, hstop, hat]
    rfl
  have hset : ((tab.add (known rs).length r.ident.text).set (known rs).length r.use).entries =
      (known rs).map f ++ r.use.on (.named r.ident.text .free) :: List.replicate n .free := by
    rw [SymbolTable.set, SymbolTable.add, hentries, ← hlen, modify_append_length,
      modify_append_length]
  have hread : tab.read fresh r =
      ((tab.add (known rs).length r.ident.text).set (known rs).length r.use,
        { name := r.name, id := (known rs).length, scanned := (known rs).length,
          nrSyms := tab.nrSyms,
          setting := (((tab.add (known rs).length r.ident.text).set
            (known rs).length r.use).entries.getD (known rs).length .free).toSetting }) := by
    rw [SymbolTable.read, hnext]
    rfl
  have hsettled : settled (rs ++ [r]) r.name = r.use.apply { token := tokId } := by
    rw [settled_snoc, if_pos rfl, settled_unknown hnew]
  have hnr := h.nrSyms
  rw [hread]
  constructor
  · refine ⟨⟨fun k => if k == r.name then r.use.on (.named r.ident.text .free) else f k,
      fun k hk => ?_, ?_⟩, ?_, ?_⟩
    · dsimp only
      split_ifs with heq
      · rw [beq_iff_eq] at heq
        subst heq
        exact ⟨rfl, rfl, hsettled.symm⟩
      · have hne : k ≠ r.name := fun h => heq (beq_iff_eq.mpr h)
        rw [hkeys, List.mem_append, List.mem_singleton] at hk
        exact entryOf_snoc (hf k (hk.resolve_right hne)) hne
    · have hold : (known rs).map (fun k => if k == r.name then
          r.use.on (.named r.ident.text .free) else f k) = (known rs).map f := by
        refine List.map_congr_left fun k hk => if_neg fun h => ?_
        exact hnew (eq_of_beq h ▸ hk)
      rw [hset, hkeys, List.map_append, hold, List.length_append, List.length_singleton,
        List.append_assoc, List.map_singleton, if_pos BEq.rfl]
      congr
      omega
    · rw [hkeys, List.length_append, List.length_singleton, ← h.count]
      rfl
    · rw [hkeys, List.length_append, List.length_singleton]
      exact hlt
  · refine ⟨rfl, ?_, ?_, ?_⟩
    · rw [hkeys, List.idxOf_append_of_notMem hnew, List.idxOf_cons_self]
      rfl
    · dsimp only
      omega
    · dsimp only
      rw [List.getD_eq_getElem?_getD, hset, ← hlen,
        List.getElem?_append_right (Nat.le_refl _), Nat.sub_self, hsettled]
      rfl

/-- A read that keeps to the 16 names and clashes with none. -/
theorem read_visits {fresh : Nat → SymbolEntry} (h : Holds rs tab)
    (hroomy : Roomy (known (rs ++ [r]))) :
    Holds (rs ++ [r]) (tab.read fresh r).1 ∧ Visits rs r (tab.read fresh r).2 := by
  by_cases hknown : r.name ∈ known rs
  · exact read_known h hroomy.2 hknown
  · have hlen := hroomy.1
    rw [known_snoc, enter, if_neg hknown, List.length_append, List.length_singleton] at hlen
    exact read_new h hroomy.2 hknown hlen

/-- The first read that does not: it looks behind the last entry or gets that of another name. -/
theorem read_strays (fresh : Nat → SymbolEntry) (h : Holds rs tab) (hroomy : Roomy (known rs))
    (hover : ¬ Roomy (known (rs ++ [r]))) :
    (tab.read fresh r).2.nrSyms ≤ (tab.read fresh r).2.scanned ∨
      ∃ k ∈ known rs, k ≠ r.name ∧ (tab.read fresh r).2.id = (known rs).idxOf k := by
  obtain ⟨f, hf, hentries⟩ := h.entries
  have hnew : r.name ∉ known rs := by
    intro hknown
    rw [known_snoc, enter, if_pos hknown] at hover
    exact hover hroomy
  have hp : ∀ k ∈ known rs, ((fun e => e.token == 0 || e.accepts (spelled r.ident.text)) ∘ f) k =
      true ↔ k = r.name ∨ Clash k r.name := fun k hk => stops_iff (hf k hk) r.ident.text
  have hstop := stop_eq hentries r.ident.text
  by_cases hclash : ∃ k ∈ known rs, Clash k r.name
  · right
    have hlt : stop tab r.ident.text < (known rs).length := by
      obtain ⟨k, hk, hkc⟩ := hclash
      rw [hstop]
      exact List.findIdx_lt_length_of_exists ⟨k, hk, (hp k hk).mpr (.inr hkc)⟩
    have hmem : (known rs)[stop tab r.ident.text] ∈ known rs := List.getElem_mem hlt
    have hat : tab.entries[stop tab r.ident.text]? =
        some (f (known rs)[stop tab r.ident.text]) := by
      rw [hentries, List.getElem?_append_left (by rwa [List.length_map]), List.getElem?_map,
        List.getElem?_eq_getElem hlt]
      rfl
    have htoken : (f (known rs)[stop tab r.ident.text]).token ≠ 0 := by
      rw [(hf _ hmem).2.2]
      exact settled_token rs _
    have hid : (tab.read fresh r).2.id = stop tab r.ident.text := by
      rw [SymbolTable.read, next_eq, hat]
      dsimp only
      rw [if_neg htoken]
    refine ⟨_, hmem, fun heq => hnew (heq ▸ hmem), ?_⟩
    rw [hid, (known_nodup rs).idxOf_getElem]
  · left
    have hfull : (known rs).length = 16 := by
      have hpair : (known (rs ++ [r])).Pairwise fun k a => ¬ Clash k a := by
        rw [known_snoc, enter, if_neg hnew, List.pairwise_append]
        refine ⟨hroomy.2, List.pairwise_singleton _ _, fun k hk a ha hka => hclash ⟨k, hk, ?_⟩⟩
        rwa [List.mem_singleton.mp ha] at hka
      by_contra hne
      refine hover ⟨?_, hpair⟩
      have hle := hroomy.1
      rw [known_snoc, enter, if_neg hnew, List.length_append, List.length_singleton]
      omega
    have hpast : stop tab r.ident.text = 16 := by
      rw [hstop, findIdx_eq_length hp (fun k hk hkc => hclash ⟨k, hk, hkc⟩) hnew, hfull]
    have hnr := h.nrSyms
    have hnone : tab.entries[stop tab r.ident.text]? = none := by
      rw [List.getElem?_eq_none_iff, hpast, ← SymbolTable.nrSyms, hnr]
    rw [SymbolTable.read, next_eq, hnone]
    dsimp only
    omega

end Step

section Run
variable {fresh : Nat → SymbolEntry} {rs : List Read} {r : Read}

theorem after_snoc (tab : SymbolTable) (rs : List Read) (r : Read) :
    tab.after fresh (rs ++ [r]) = ((tab.after fresh rs).read fresh r).1 := by
  induction rs generalizing tab with
  | nil => rfl
  | cons x rs ih => exact ih _

theorem trace_snoc (tab : SymbolTable) (rs : List Read) (r : Read) :
    tab.trace fresh (rs ++ [r]) = tab.trace fresh rs ++ [((tab.after fresh rs).read fresh r).2] := by
  induction rs generalizing tab with
  | nil => rfl
  | cons x rs ih => exact congrArg (List.cons _) (ih _)

theorem trace_length (tab : SymbolTable) (rs : List Read) :
    (tab.trace fresh rs).length = rs.length := by
  induction rs generalizing tab with
  | nil => rfl
  | cons x rs ih => exact congrArg (· + 1) (ih _)

theorem known_extends (rs : List Read) (r : Read) : known rs <+: known (rs ++ [r]) := by
  rw [known_snoc]
  exact enter_extends _ _

theorem Roomy.of_snoc (h : Roomy (known (rs ++ [r]))) : Roomy (known rs) :=
  ⟨Nat.le_trans (known_extends rs r).length_le h.1, h.2.sublist (known_extends rs r).sublist⟩

theorem run_holds (h : Roomy (known rs)) : Holds rs (SymbolTable.start.after fresh rs) := by
  induction rs using List.reverseRecOn with
  | nil => exact start_holds
  | append_singleton rs r ih =>
    rw [after_snoc]
    exact (read_visits (ih h.of_snoc) h).1

theorem run_visits (fresh : Nat → SymbolEntry) (h : Roomy (known rs)) :
    ∀ i v, (SymbolTable.start.trace fresh rs)[i]? = some v →
      ∃ r, rs[i]? = some r ∧ Visits (rs.take i) r v := by
  induction rs using List.reverseRecOn with
  | nil => intro i v hv; cases hv
  | append_singleton rs r ih =>
    intro i v hv
    have hlen : (SymbolTable.start.trace fresh rs).length = rs.length := trace_length _ _
    rw [trace_snoc] at hv
    by_cases hi : i < rs.length
    · rw [List.getElem?_append_left (by rwa [hlen])] at hv
      rw [List.getElem?_append_left hi, List.take_append_of_le_length (Nat.le_of_lt hi)]
      exact ih h.of_snoc i v hv
    · rw [List.getElem?_append_right (by omega), hlen] at hv
      have hlast : i = rs.length := by
        by_contra hne
        rw [List.getElem?_eq_none (by rw [List.length_singleton]; omega)] at hv
        cases hv
      subst hlast
      rw [Nat.sub_self] at hv
      cases hv
      refine ⟨r, by simp, ?_⟩
      rw [List.take_left]
      exact (read_visits (run_holds h.of_snoc) h).2

/-- The place of a name does not move while more are read. -/
theorem visits_id {i : Nat} {v : Visit} (hr : rs[i]? = some r) (h : Visits (rs.take i) r v) :
    v.id = (known rs).idxOf v.name ∧ v.name ∈ known rs := by
  have htake : rs.take i ++ [r] = rs.take (i + 1) := by rw [List.take_add_one, hr]; rfl
  have hprefix : known (rs.take i ++ [r]) <+: known rs := by
    rw [htake, known, List.map_take, known]
    have hsplit := firsts_prefix ((rs.map Read.name).take (i + 1)) ((rs.map Read.name).drop (i + 1))
    rwa [List.take_append_drop] at hsplit
  have hmem : r.name ∈ known (rs.take i ++ [r]) := by
    rw [known_snoc]
    exact mem_enter _ _
  rw [h.id, h.name, idxOf_prefix hprefix hmem]
  exact ⟨rfl, hprefix.subset hmem⟩

theorem roomy_resolves (h : Roomy (known rs)) :
    Resolves rs (SymbolTable.start.trace fresh rs) := by
  have hvisits := run_visits fresh h
  have hid : ∀ v ∈ SymbolTable.start.trace fresh rs,
      v.id = (known rs).idxOf v.name ∧ v.name ∈ known rs := by
    intro v hv
    obtain ⟨i, hi⟩ := List.getElem?_of_mem hv
    obtain ⟨r, hr, hvisit⟩ := hvisits i v hi
    exact visits_id hr hvisit
  constructor
  · intro v hv w hw
    rw [(hid v hv).1, (hid w hw).1]
    exact List.idxOf_inj (hid v hv).2
  · intro i v hv
    obtain ⟨r, hr, hvisit⟩ := hvisits i v hv
    have htake : rs.take i ++ [r] = rs.take (i + 1) := by rw [List.take_add_one, hr]; rfl
    rw [hvisit.setting, htake, hvisit.name]
  · intro v hv
    obtain ⟨i, hi⟩ := List.getElem?_of_mem hv
    obtain ⟨r, _, hvisit⟩ := hvisits i v hi
    exact hvisit.inside

theorem Resolves.of_snoc (h : Resolves (rs ++ [r]) (SymbolTable.start.trace fresh (rs ++ [r]))) :
    Resolves rs (SymbolTable.start.trace fresh rs) := by
  rw [trace_snoc] at h
  have hlen : (SymbolTable.start.trace fresh rs).length = rs.length := trace_length _ _
  refine ⟨fun v hv w hw => h.same v (List.mem_append_left _ hv) w (List.mem_append_left _ hw),
    fun i v hv => ?_, fun v hv => h.inside v (List.mem_append_left _ hv)⟩
  have hi : i < rs.length := by
    rw [← hlen]
    exact (List.getElem?_eq_some_iff.mp hv).1
  have hused := h.used i v (by rw [List.getElem?_append_left (by rwa [hlen]), hv])
  rwa [List.take_append_of_le_length hi] at hused

/-- Every known name has been visited, at its place. -/
theorem known_visited (fresh : Nat → SymbolEntry) (h : Roomy (known rs)) {k : List Char} (hk : k ∈ known rs) :
    ∃ v ∈ SymbolTable.start.trace fresh rs, v.name = k ∧ v.id = (known rs).idxOf k := by
  obtain ⟨x, hx, hname⟩ := List.mem_map.mp (firsts_subset _ k hk)
  obtain ⟨i, hi⟩ := List.getElem?_of_mem hx
  have hlt : i < (SymbolTable.start.trace fresh rs).length := by
    rw [trace_length]
    exact (List.getElem?_eq_some_iff.mp hi).1
  obtain ⟨r, hr, hvisit⟩ := run_visits fresh h i _ (List.getElem?_eq_getElem hlt)
  rw [hi] at hr
  cases hr
  have hid := (visits_id hi hvisit).1
  rw [hvisit.name, hname] at hid
  exact ⟨_, List.getElem_mem hlt, by rw [hvisit.name, hname], hid⟩

theorem resolves_roomy (h : Resolves rs (SymbolTable.start.trace fresh rs)) :
    Roomy (known rs) := by
  induction rs using List.reverseRecOn with
  | nil => exact ⟨by decide, List.Pairwise.nil⟩
  | append_singleton rs r ih =>
    have hroomy := ih h.of_snoc
    rw [trace_snoc] at h
    have hlast : ((SymbolTable.start.after fresh rs).read fresh r).2 ∈
        SymbolTable.start.trace fresh rs ++ [((SymbolTable.start.after fresh rs).read fresh r).2] :=
      List.mem_append_right _ (List.mem_singleton_self _)
    by_contra hover
    obtain hpast | ⟨k, hk, hne, hid⟩ := read_strays fresh (run_holds hroomy) hroomy hover
    · exact Nat.not_lt.mpr hpast (h.inside _ hlast)
    · obtain ⟨v, hv, hname, hvid⟩ := known_visited fresh hroomy hk
      have hsame := (h.same v (List.mem_append_left _ hv) _ hlast).mp (hvid.trans hid.symm)
      rw [hname] at hsame
      exact hne hsame

/-- The table resolves the identifiers of a compilation as strings if and only if there are at
most 16 of them, with the ten that are built in, and none clashes with one entered before it. -/
theorem symbols_resolve_iff (fresh : Nat → SymbolEntry) (declared : List Declared)
    (mentions : List Ident) :
    Resolves (compileReads declared mentions)
        (SymbolTable.start.trace fresh (compileReads declared mentions)) ↔
      Roomy (known (compileReads declared mentions)) :=
  ⟨resolves_roomy, roomy_resolves⟩

/-- Seven fields of a tracepoint. -/
def sevenFields : List Declared :=
  [⟨⟨"prev_pid".toList, rfl⟩, 2, 0⟩, ⟨⟨"prev_prio".toList, rfl⟩, 2, 4⟩,
    ⟨⟨"prev_state".toList, rfl⟩, 3, 8⟩, ⟨⟨"next_pid".toList, rfl⟩, 2, 16⟩,
    ⟨⟨"next_prio".toList, rfl⟩, 2, 20⟩, ⟨⟨"cpu".toList, rfl⟩, 2, 24⟩,
    ⟨⟨"flags".toList, rfl⟩, 2, 28⟩]

/-- With the seventh field the table is full and the token behind it is read. -/
theorem seventh_field_past_end :
    ¬ Resolves (compileReads sevenFields [])
      (SymbolTable.start.trace (fun _ => .free) (compileReads sevenFields [])) := by
  intro h
  have hinside : (SymbolTable.start.trace (fun _ => .free)
      (compileReads sevenFields [])).all (fun v => v.scanned < v.nrSyms) = true :=
    List.all_eq_true.mpr fun v hv => decide_eq_true (h.inside v hv)
  exact absurd hinside (by decide +kernel)

end Run

end PerfProf.ExprSymtab
