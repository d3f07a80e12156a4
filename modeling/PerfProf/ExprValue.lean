import PerfProf.ExprSafe

/-! The value of `&&`, `||`, casts, `=` and prefix `++` and `--`. `expr_run` leaves the long it has
computed; C makes it a truth value or a value of the type. An evaluation shows the difference
exactly if an operand of one of these operators does not fit. -/
namespace PerfProf.Expr

section Operands
variable (lib : Library) (M : Meaning)

/-- What is evaluated once `r` has given a value. -/
def andThen (r : Option (Long × Data)) (f : Long → Data → List (Exp × Data)) :
    List (Exp × Data) :=
  match r with
  | some (x, d) => f x d
  | none => []

/-- What is evaluated for the address of an lvalue, each with the buffer it is evaluated on. -/
def Exp.spotOperands : Exp → Data → List (Exp × Data)
  | .deref e, d => [(e, d)]
  | .index e i, d => (e, d) :: andThen (e.value lib M d) fun _ d => [(i, d)]
  | .paren e, d => e.spotOperands d
  | _, _ => []

def Args.operands : Args → Data → List (Exp × Data)
  | .nil, _ => []
  | .cons e _ rest, d => (e, d) :: andThen (e.value lib M d) fun _ d => rest.operands d

/-- The operands that the evaluation of an expression evaluates. -/
def Exp.operands : Exp → Data → List (Exp × Data)
  | .num _, _ | .negNum _, _ | .str .., _ | .var _, _ | .sizeof .., _ => []
  | .call _ as, d => as.operands lib M d
  | .paren e, d | .cast _ _ e, d | .un _ e, d | .deref e, d => [(e, d)]
  | .post _ e, d | .pre _ e, d | .addr e, d => e.spotOperands lib M d
  | .index l r, d | .bin _ l r, d => (l, d) :: andThen (l.value lib M d) fun _ d => [(r, d)]
  | .land l r, d => (l, d) :: andThen (l.value lib M d) fun x d => if x = 0 then [] else [(r, d)]
  | .lor l r, d => (l, d) :: andThen (l.value lib M d) fun x d => if x = 0 then [(r, d)] else []
  | .cond c t f, d =>
    (c, d) :: andThen (c.value lib M d) fun x d => [(if x = 0 then f else t, d)]
  | .assign l r, d =>
    l.spotOperands lib M d ++ andThen (l.spot lib M d) fun _ d => [(r, d)]

/-- The subexpressions evaluated in an evaluation, with their buffers. -/
def Evaluated : Exp × Data → Exp × Data → Prop :=
  Relation.ReflTransGen fun s t => t ∈ s.1.operands lib M s.2

end Operands

section Statement
variable (lib : Library)

/-- What `expr_run` computes for an operator is what C says: 0 or 1, or the operand truncated
and sign-extended to the type. -/
def Exp.AsC : Exp → Data → Prop
  | .land l r, d => ∀ v d', (Exp.land l r).value lib asRun d = some (v, d') → v = 0 ∨ v = 1
  | .lor l r, d => ∀ v d', (Exp.lor l r).value lib asRun d = some (v, d') → v = 0 ∨ v = 1
  | .cast type n e, d => ∀ v d' w d₁, (Exp.cast type n e).value lib asRun d = some (v, d') →
      e.value lib asRun d = some (w, d₁) → v = asC.narrow (type + n * ptr) w
  | .assign l r, d => ∀ v d' p d₁ w d₂, (Exp.assign l r).value lib asRun d = some (v, d') →
      l.spot lib asRun d = some (p, d₁) → r.value lib asRun d₁ = some (w, d₂) →
      v = asC.narrow l.type w
  | .pre inc e, d => ∀ v d' p d₁ w, (Exp.pre inc e).value lib asRun d = some (v, d') →
      e.spot lib asRun d = some (p, d₁) → d₁.load (width e.type) p = some w →
      v = asC.narrow e.type (w + incDelta inc e.type)
  | _, _ => True

/-- A `char`, a `short` or an `int` has the value. -/
def InRange (ty : Nat) (w : Long) : Prop :=
  ty ≤ tyInt → -(2 ^ (8 * width ty - 1)) ≤ w.toInt ∧ w.toInt < 2 ^ (8 * width ty - 1)

/-- The operand that decides `&&` or `||` is 0 or 1, and what is cast, assigned or stored by `++`
and `--` is in the range of the type. Operands have the values that C gives them. -/
def Exp.Fits : Exp → Data → Prop
  | .land l r, d => ∀ x d₁, l.value lib asC d = some (x, d₁) → x ≠ 0 →
      ∀ y d₂, r.value lib asC d₁ = some (y, d₂) → y = 0 ∨ y = 1
  | .lor l r, d => ∀ x d₁, l.value lib asC d = some (x, d₁) → (x ≠ 0 → x = 1) ∧
      (x = 0 → ∀ y d₂, r.value lib asC d₁ = some (y, d₂) → y = 0 ∨ y = 1)
  | .cast type n e, d => ∀ w d₁, e.value lib asC d = some (w, d₁) → InRange (type + n * ptr) w
  | .assign l r, d => ∀ p d₁ w d₂ d₃, l.spot lib asC d = some (p, d₁) →
      r.value lib asC d₁ = some (w, d₂) → d₂.store (width l.type) p w = some d₃ →
      InRange l.type w
  | .pre inc e, d => ∀ p d₁ w d₂, e.spot lib asC d = some (p, d₁) →
      d₁.load (width e.type) p = some w →
      d₁.store (width e.type) p (w + incDelta inc e.type) = some d₂ →
      InRange e.type (w + incDelta inc e.type)
  | _, _ => True

/-- In the run, every operator evaluated has its C value. -/
def Right (e : Exp) (d : Data) : Prop :=
  ∀ x d', Evaluated lib asRun (e, d) (x, d') → x.AsC lib d'

/-- In C's evaluation, all operands fit. -/
def Fit (e : Exp) (d : Data) : Prop :=
  ∀ x d', Evaluated lib asC (e, d) (x, d') → x.Fits lib d'

def rightAll : Exp → List Exp → Data → Prop
  | e, [], d => Right lib e d
  | e, e' :: es, d => Right lib e d ∧
    ∀ v d₁, e.value lib asRun d = some (v, d₁) → rightAll e' es d₁

def fitAll : Exp → List Exp → Data → Prop
  | e, [], d => Fit lib e d
  | e, e' :: es, d => Fit lib e d ∧ ∀ v d₁, e.value lib asC d = some (v, d₁) → fitAll e' es d₁

end Statement

section Range

theorem eq_signExtend_iff {k : Nat} (hk : k = 8 ∨ k = 16 ∨ k = 32) (w : Long) :
    w = (w.setWidth k).signExtend 64 ↔ -(2 ^ (k - 1)) ≤ w.toInt ∧ w.toInt < 2 ^ (k - 1) := by
  have hpos : 0 < 2 ^ k := Nat.two_pow_pos k
  have hle : k ≤ 64 := by omega
  rw [← BitVec.toInt_inj, BitVec.toInt_signExtend_of_le hle, BitVec.toInt_setWidth, eq_comm,
    Int.bmod_eq_iff hpos]
  have htoInt := BitVec.toInt_eq_toNat_cond w
  rcases hk with rfl | rfl | rfl <;> (norm_num; split at htoInt <;> omega)

theorem narrow_eq_iff (ty : Nat) (w : Long) : w = asC.narrow ty w ↔ InRange ty w := by
  unfold InRange
  simp only [asC]
  split
  · rename_i hty
    rw [eq_signExtend_iff]
    · simp [hty]
    · unfold tyInt at hty
      interval_cases ty <;> simp [width, ptr]
  · rename_i hty
    simp [hty]

end Range

section Agreement
variable {lib : Library} {e l r : Exp} {d : Data} {same : Prop}

theorem right_iff : Right lib e d ↔
    e.AsC lib d ∧ ∀ y ∈ e.operands lib asRun d, Right lib y.1 y.2 := by
  constructor
  · intro h
    exact ⟨h e d .refl, fun y hy x d' hx => h x d' (.head hy hx)⟩
  · rintro ⟨hself, hrest⟩ x d' hx
    rcases hx.cases_head with heq | ⟨y, hy, hx⟩
    · cases heq
      exact hself
    · exact hrest y hy x d' hx

theorem fit_iff : Fit lib e d ↔
    e.Fits lib d ∧ ∀ y ∈ e.operands lib asC d, Fit lib y.1 y.2 := by
  constructor
  · intro h
    exact ⟨h e d .refl, fun y hy x d' hx => h x d' (.head hy hx)⟩
  · rintro ⟨hself, hrest⟩ x d' hx
    rcases hx.cases_head with heq | ⟨y, hy, hx⟩
    · cases heq
      exact hself
    · exact hrest y hy x d' hx

/-- Operands of the run and of C are right together, and then `same` holds. -/
structure Both (lib : Library) (run c : List (Exp × Data)) (same : Prop) : Prop where
  iff : (∀ y ∈ run, Right lib y.1 y.2) ↔ ∀ y ∈ c, Fit lib y.1 y.2
  same : (∀ y ∈ c, Fit lib y.1 y.2) → same

/-- The evaluation of `e` is right in the run iff its operands fit, and then has C's value. -/
structure Agrees (lib : Library) (e : Exp) (d : Data) : Prop where
  iff : Right lib e d ↔ Fit lib e d
  value : Fit lib e d → e.value lib asRun d = e.value lib asC d

theorem both_nil : Both lib [] [] True := ⟨by simp, fun _ => trivial⟩

theorem both_one (h : Agrees lib e d) :
    Both lib [(e, d)] [(e, d)] (e.value lib asRun d = e.value lib asC d) := by
  constructor
  · simpa using h.iff
  · simpa using h.value

theorem Both.append {run c : List (Exp × Data)} {r r' : Option (Long × Data)}
    {f g : Long → Data → List (Exp × Data)} {k : Long → Data → Prop}
    (h : Both lib run c (r = r')) (hnext : ∀ x d, Both lib (f x d) (g x d) (k x d)) :
    Both lib (run ++ andThen r f) (c ++ andThen r' g)
      (r = r' ∧ ∀ x d, r' = some (x, d) → k x d) := by
  have hlast : r = r' → Both lib (andThen r f) (andThen r' g)
      (∀ x d, r' = some (x, d) → k x d) := by
    rintro rfl
    cases r with
    | none => exact ⟨by simp [andThen], fun _ => nofun⟩
    | some y =>
      refine ⟨(hnext y.1 y.2).iff, fun hfit x d hy => ?_⟩
      cases hy
      exact (hnext x d).same hfit
  constructor
  · simp only [List.mem_append, or_imp, forall_and]
    rw [h.iff]
    exact and_congr_right fun hc => (hlast (h.same hc)).iff
  · intro hall
    have hc : r = r' := h.same fun y hy => hall y (List.mem_append_left _ hy)
    exact ⟨hc, (hlast hc).same fun y hy => hall y (List.mem_append_right _ hy)⟩

/-- From the operands to the expression. -/
theorem Both.agrees (h : Both lib (e.operands lib asRun d) (e.operands lib asC d) same)
    (hself : same → (e.AsC lib d ↔ e.Fits lib d))
    (hvalue : same → e.Fits lib d → e.value lib asRun d = e.value lib asC d) :
    Agrees lib e d := by
  constructor
  · rw [right_iff, fit_iff, h.iff]
    exact and_congr_left fun hc => hself (h.same hc)
  · intro hfit
    obtain ⟨hself, hc⟩ := fit_iff.mp hfit
    exact hvalue (h.same hc) hself

theorem agrees_leaf (h : ∀ M, e.operands lib M d = []) (hself : e.AsC lib d) (hfit : e.Fits lib d)
    (hvalue : e.value lib asRun d = e.value lib asC d) : Agrees lib e d := by
  refine @Both.agrees _ _ _ True ?_ (fun _ => by simp [hself, hfit]) (fun _ _ => hvalue)
  rw [h, h]
  exact both_nil

theorem agrees_cast (h : Agrees lib e d) (type n : Nat) : Agrees lib (.cast type n e) d := by
  refine Both.agrees (both_one h) (fun hsame => ?_) (fun hsame hfit => ?_)
  · simp only [Exp.AsC, Exp.Fits, Exp.value, asRun_narrow]
    rw [hsame]
    cases hv : e.value lib asC d with
    | none => simp
    | some r =>
      simp only [Option.map_some, Option.some.injEq, Prod.mk.injEq, ← narrow_eq_iff]
      constructor
      · rintro h w d₁ rfl
        exact h w d₁ w d₁ ⟨rfl, rfl⟩ rfl
      · rintro h v d' w d₁ ⟨rfl, -⟩ hr
        cases hr
        exact h _ _ rfl
  · simp only [Exp.Fits] at hfit
    simp only [Exp.value, asRun_narrow]
    rw [hsame]
    cases hv : e.value lib asC d with
    | none => rfl
    | some r =>
      have hrange := hfit r.1 r.2 hv
      rw [Option.map_some, Option.map_some, ← (narrow_eq_iff _ _).mpr hrange]

theorem logic_bit {v : Long} (h : v = 0 ∨ v = 1) : asC.logic v = v := by
  rcases h with rfl | rfl <;> rfl

theorem agrees_land (hl : Agrees lib l d) (hr : ∀ d, Agrees lib r d) :
    Agrees lib (.land l r) d := by
  have hboth := (both_one hl).append (f := fun x d => if x = 0 then [] else [(r, d)])
    (g := fun x d => if x = 0 then [] else [(r, d)])
    (k := fun x d => x ≠ 0 → r.value lib asRun d = r.value lib asC d) (by
      intro x d
      by_cases h0 : x = 0
      · simp only [if_pos h0]
        exact ⟨both_nil.iff, fun _ hne => absurd h0 hne⟩
      · simp only [if_neg h0]
        exact ⟨(both_one (hr d)).iff, fun hc _ => (both_one (hr d)).same hc⟩)
  refine hboth.agrees ?_ ?_
  · rintro ⟨hsame, hnext⟩
    simp only [Exp.AsC, Exp.Fits, Exp.value, asRun_logic, hsame, Option.bind_eq_bind]
    cases hv : l.value lib asC d with
    | none => simp
    | some x =>
      have hnext := hnext x.1 x.2 hv
      simp only [Option.bind_some, Option.some.injEq]
      by_cases h0 : x.1 = 0
      · simp only [h0, if_true, Option.some.injEq, Prod.mk.injEq]
        refine ⟨fun _ y d₁ hy hne => ?_, fun _ v d' hv => Or.inl hv.1.symm⟩
        subst hy
        exact absurd h0 hne
      · simp only [if_neg h0, hnext h0]
        constructor
        · rintro h _ _ rfl _ y d₂ hy
          exact h y d₂ (by simp [hy])
        · intro h v d' hv
          obtain ⟨y, hy, hpair⟩ := Option.map_eq_some_iff.mp hv
          cases hpair
          exact h x.1 x.2 rfl h0 y.1 y.2 hy
  · rintro ⟨hsame, hnext⟩ hfit
    simp only [Exp.Fits] at hfit
    simp only [Exp.value, asRun_logic, hsame, Option.bind_eq_bind]
    cases hv : l.value lib asC d with
    | none => rfl
    | some x =>
      simp only [Option.bind_some]
      by_cases h0 : x.1 = 0
      · rw [if_pos h0, if_pos h0, h0, logic_bit (Or.inl rfl)]
      · rw [if_neg h0, if_neg h0, hnext x.1 x.2 hv h0]
        cases hy : r.value lib asC x.2 with
        | none => rfl
        | some y =>
          rw [Option.map_some, Option.map_some, logic_bit (hfit x.1 x.2 hv h0 y.1 y.2 hy)]

theorem agrees_lor (hl : Agrees lib l d) (hr : ∀ d, Agrees lib r d) :
    Agrees lib (.lor l r) d := by
  have hboth := (both_one hl).append (f := fun x d => if x = 0 then [(r, d)] else [])
    (g := fun x d => if x = 0 then [(r, d)] else [])
    (k := fun x d => x = 0 → r.value lib asRun d = r.value lib asC d) (by
      intro x d
      by_cases h0 : x = 0
      · simp only [if_pos h0]
        exact ⟨(both_one (hr d)).iff, fun hc _ => (both_one (hr d)).same hc⟩
      · simp only [if_neg h0]
        exact ⟨both_nil.iff, fun _ hz => absurd hz h0⟩)
  refine hboth.agrees ?_ ?_
  · rintro ⟨hsame, hnext⟩
    simp only [Exp.AsC, Exp.Fits, Exp.value, asRun_logic, hsame, Option.bind_eq_bind]
    cases hv : l.value lib asC d with
    | none => simp
    | some x =>
      have hnext := hnext x.1 x.2 hv
      simp only [Option.bind_some, Option.some.injEq]
      by_cases h0 : x.1 = 0
      · simp only [if_pos h0, hnext h0]
        constructor
        · rintro h _ _ rfl
          exact ⟨fun hne => absurd h0 hne, fun _ y d₂ hy => h y d₂ (by simp [hy])⟩
        · intro h v d' hv
          obtain ⟨y, hy, hpair⟩ := Option.map_eq_some_iff.mp hv
          cases hpair
          exact (h x.1 x.2 rfl).2 h0 y.1 y.2 hy
      · simp only [if_neg h0, Option.some.injEq, Prod.mk.injEq]
        constructor
        · rintro h _ _ rfl
          exact ⟨fun hne => (h _ _ ⟨rfl, rfl⟩).resolve_left hne, fun hz => absurd hz h0⟩
        · rintro h v d' ⟨rfl, rfl⟩
          exact Or.inr ((h x.1 x.2 rfl).1 h0)
  · rintro ⟨hsame, hnext⟩ hfit
    simp only [Exp.Fits] at hfit
    simp only [Exp.value, asRun_logic, hsame, Option.bind_eq_bind]
    cases hv : l.value lib asC d with
    | none => rfl
    | some x =>
      simp only [Option.bind_some]
      by_cases h0 : x.1 = 0
      · rw [if_pos h0, if_pos h0, hnext x.1 x.2 hv h0]
        cases hy : r.value lib asC x.2 with
        | none => rfl
        | some y =>
          rw [Option.map_some, Option.map_some, logic_bit ((hfit x.1 x.2 hv).2 h0 y.1 y.2 hy)]
      · rw [if_neg h0, if_neg h0, logic_bit (Or.inr ((hfit x.1 x.2 hv).1 h0))]

/-- The operands of the address of an lvalue. -/
def AgreesSpot (lib : Library) (e : Exp) (d : Data) : Prop :=
  Both lib (e.spotOperands lib asRun d) (e.spotOperands lib asC d)
    (e.spot lib asRun d = e.spot lib asC d)

theorem agrees_pre (h : AgreesSpot lib e d) (inc : Bool) : Agrees lib (.pre inc e) d := by
  refine Both.agrees h (fun hsame => ?_) (fun hsame hfit => ?_)
  · simp only [Exp.AsC, Exp.Fits, Exp.value, asRun_narrow, hsame, Option.bind_eq_bind,
      Option.bind_eq_some_iff, Prod.exists, Option.some.injEq, Prod.mk.injEq, ← narrow_eq_iff]
    constructor
    · intro h p d₁ w d₂ hp hw hd
      exact h _ d₂ p d₁ w ⟨p, d₁, hp, w, hw, d₂, hd, rfl, rfl⟩ hp hw
    · rintro h v d' p d₁ w ⟨p', d₁', hp', w', hw', d₂, hd, rfl, rfl⟩ hp hw
      cases hp'.symm.trans hp
      cases hw'.symm.trans hw
      exact h _ _ _ _ hp hw hd
  · simp only [Exp.Fits, ← narrow_eq_iff] at hfit
    simp only [Exp.value, asRun_narrow, hsame, Option.bind_eq_bind]
    cases hp : e.spot lib asC d with
    | none => rfl
    | some p =>
      simp only [Option.bind_some]
      cases hw : p.2.load (width e.type) p.1 with
      | none => rfl
      | some w =>
        simp only [Option.bind_some]
        cases hd : p.2.store (width e.type) p.1 (w + incDelta inc e.type) with
        | none => rfl
        | some d₂ => simp only [Option.bind_some, ← hfit p.1 p.2 w d₂ hp hw hd]

theorem agrees_assign (hl : AgreesSpot lib l d) (hr : ∀ d, Agrees lib r d) :
    Agrees lib (.assign l r) d := by
  have hboth := Both.append hl (f := fun _ d => [(r, d)]) (g := fun _ d => [(r, d)])
    (k := fun _ d => r.value lib asRun d = r.value lib asC d) (fun _ d => both_one (hr d))
  refine hboth.agrees ?_ ?_
  · rintro ⟨hsame, hnext⟩
    simp only [Exp.AsC, Exp.Fits, Exp.value, asRun_narrow, hsame, Option.bind_eq_bind,
      Option.bind_eq_some_iff, Prod.exists, Option.some.injEq, Prod.mk.injEq, ← narrow_eq_iff]
    constructor
    · intro h p d₁ w d₂ d₃ hp hw hd
      rw [← hnext p d₁ hp] at hw
      exact h w d₃ p d₁ w d₂ ⟨p, d₁, hp, w, d₂, hw, d₃, hd, rfl, rfl⟩ hp hw
    · rintro h v d' p d₁ w d₂ ⟨p', d₁', hp', w', d₂', hw', d₃, hd, rfl, rfl⟩ hp hw
      cases hp'.symm.trans hp
      cases hw'.symm.trans hw
      rw [hnext p d₁ hp] at hw
      exact h p d₁ _ _ _ hp hw hd
  · rintro ⟨hsame, hnext⟩ hfit
    simp only [Exp.Fits, ← narrow_eq_iff] at hfit
    simp only [Exp.value, asRun_narrow, hsame, Option.bind_eq_bind]
    cases hp : l.spot lib asC d with
    | none => rfl
    | some p =>
      simp only [Option.bind_some, hnext p.1 p.2 hp]
      cases hw : r.value lib asC p.2 with
      | none => rfl
      | some w =>
        simp only [Option.bind_some]
        cases hd : w.2.store (width l.type) p.1 w.1 with
        | none => rfl
        | some d₃ => simp only [Option.bind_some, ← hfit p.1 p.2 w.1 w.2 d₃ hp hw hd]

theorem agreesSpot_index {i : Exp} (he : Agrees lib e d) (hi : ∀ d, Agrees lib i d) :
    AgreesSpot lib (.index e i) d := by
  have hboth := (both_one he).append (f := fun _ d => [(i, d)]) (g := fun _ d => [(i, d)])
    (k := fun _ d => i.value lib asRun d = i.value lib asC d) (fun _ d => both_one (hi d))
  refine ⟨hboth.iff, fun hc => ?_⟩
  obtain ⟨hsame, hnext⟩ := hboth.same hc
  simp only [Exp.spot, hsame, Option.bind_eq_bind]
  cases hp : e.value lib asC d with
  | none => rfl
  | some p => simp only [Option.bind_some, hnext p.1 p.2 hp]

mutual

/-- Every evaluation is right in the run exactly if its operands fit. -/
theorem agrees : ∀ (e : Exp) (d : Data), Agrees lib e d
  | .num _, _ | .negNum _, _ | .str .., _ | .sizeof .., _ | .var _, _ =>
    agrees_leaf (fun _ => rfl) trivial trivial rfl
  | .call s as, d => by
    refine (agreesArgs as d).agrees (fun _ => Iff.rfl) fun hsame _ => ?_
    simp only [Exp.value, hsame]
  | .paren e, d =>
    (both_one (agrees e d)).agrees (fun _ => Iff.rfl) fun hsame _ => hsame
  | .cast type n e, d => agrees_cast (agrees e d) type n
  | .un op e, d => by
    refine (both_one (agrees e d)).agrees (fun _ => Iff.rfl) fun hsame _ => ?_
    simp only [Exp.value, hsame]
  | .deref e, d => by
    refine (both_one (agrees e d)).agrees (fun _ => Iff.rfl) fun hsame _ => ?_
    simp only [Exp.value, hsame]
  | .addr e, d =>
    Both.agrees (e := .addr e) (agreesSpot e d) (fun _ => Iff.rfl) fun hsame _ => hsame
  | .post inc e, d => by
    refine Both.agrees (e := .post inc e) (agreesSpot e d) (fun _ => Iff.rfl) fun hsame _ => ?_
    simp only [Exp.value, hsame]
  | .pre inc e, d => agrees_pre (agreesSpot e d) inc
  | .index l r, d => by
    have hspot := agreesSpot_index (agrees l d) (agrees r)
    refine Both.agrees (e := .index l r) hspot (fun _ => Iff.rfl) fun hsame _ => ?_
    have hload : ∀ M, (Exp.index l r).value lib M d = (do
        let (p, d) ← (Exp.index l r).spot lib M d
        let v ← d.load (width (l.type - ptr)) p
        some (v, d)) := by
      intro M
      simp [Option.bind_assoc]
    rw [hload, hload, hsame]
  | .bin op l r, d => by
    have hboth := (both_one (agrees l d)).append (f := fun _ d => [(r, d)])
      (g := fun _ d => [(r, d)]) (k := fun _ d => r.value lib asRun d = r.value lib asC d)
      (fun _ d => both_one (agrees r d))
    refine hboth.agrees (fun _ => Iff.rfl) fun ⟨hsame, hnext⟩ _ => ?_
    simp only [Exp.value, hsame, Option.bind_eq_bind]
    cases hx : l.value lib asC d with
    | none => rfl
    | some x => simp only [Option.bind_some, hnext x.1 x.2 hx]
  | .land l r, d => agrees_land (agrees l d) (agrees r)
  | .lor l r, d => agrees_lor (agrees l d) (agrees r)
  | .cond c t f, d => by
    have hpick : ∀ (x : Long) (d : Data), Agrees lib (if x = 0 then f else t) d := by
      intro x d
      split
      · exact agrees f d
      · exact agrees t d
    have hboth := (both_one (agrees c d)).append
      (f := fun x d => [(if x = 0 then f else t, d)])
      (g := fun x d => [(if x = 0 then f else t, d)])
      (k := fun x d => (if x = 0 then f else t).value lib asRun d =
        (if x = 0 then f else t).value lib asC d) (fun x d => both_one (hpick x d))
    refine hboth.agrees (fun _ => Iff.rfl) fun ⟨hsame, hnext⟩ _ => ?_
    simp only [Exp.value, hsame, Option.bind_eq_bind]
    cases hx : c.value lib asC d with
    | none => rfl
    | some x =>
      have hlast := hnext x.1 x.2 hx
      simp only [Option.bind_some]
      by_cases h0 : x.1 = 0
      · simpa only [if_pos h0] using hlast
      · simpa only [if_neg h0] using hlast
  | .assign l r, d => agrees_assign (agreesSpot l d) (agrees r)

theorem agreesSpot : ∀ (e : Exp) (d : Data), AgreesSpot lib e d
  | .deref e, d => both_one (agrees e d)
  | .index e i, d => agreesSpot_index (agrees e d) (agrees i)
  | .paren e, d => agreesSpot e d
  | .var _, _ | .num _, _ | .negNum _, _ | .str .., _ | .sizeof .., _ | .call .., _ | .post .., _
  | .un .., _ | .addr _, _ | .pre .., _ | .cast .., _ | .bin .., _ | .land .., _ | .lor .., _
  | .cond .., _ | .assign .., _ => ⟨both_nil.iff, fun _ => rfl⟩

theorem agreesArgs : ∀ (as : Args) (d : Data),
    Both lib (as.operands lib asRun d) (as.operands lib asC d)
      (as.values lib asRun d = as.values lib asC d)
  | .nil, _ => ⟨both_nil.iff, fun _ => rfl⟩
  | .cons e _ rest, d => by
    have hboth := (both_one (agrees e d)).append (f := fun _ d => rest.operands lib asRun d)
      (g := fun _ d => rest.operands lib asC d)
      (k := fun _ d => rest.values lib asRun d = rest.values lib asC d)
      (fun _ d => agreesArgs rest d)
    refine ⟨hboth.iff, fun hc => ?_⟩
    obtain ⟨hsame, hnext⟩ := hboth.same hc
    simp only [Args.values, hsame, Option.bind_eq_bind]
    cases hx : e.value lib asC d with
    | none => rfl
    | some x => simp only [Option.bind_some, hnext x.1 x.2 hx]

end

theorem rightAll_iff (e : Exp) (es : List Exp) (d : Data) :
    rightAll lib e es d ↔ fitAll lib e es d := by
  induction es generalizing e d with
  | nil => exact (agrees e d).iff
  | cons e' es ih =>
    rw [rightAll, fitAll, (agrees e d).iff]
    refine and_congr_right fun hfit => ?_
    rw [(agrees e d).value hfit]
    simp only [ih]

end Agreement

section Program

end Program

end PerfProf.Expr
