import RowTypes.Proofs.Generation

/-!
# What inference makes of a definition

The demands of a definition's value are met on the spot, to see which unknowns its type leaves
open, and are met again with those of the rest.  If they cannot be met the name gets a type and no
scheme, which is no loss: then the whole cannot be met either, unless a limit was exceeded.

A recursive definition demands in addition that the type of its name in the value is the type of
the value.
-/

namespace RowTypes

open Equations Milner

/-- The value of a definition has a type: in the scope of its name, if it is recursive. -/
def ValueHasType (isRec : Bool) (name : String) (value : Expr) (Γ : Milner.Context)
    (ρ : Mono Int) : Prop :=
  HasType (if isRec then Γ.bind name (Poly.mono ρ) else Γ) value ρ

theorem hasType_let {Γ : Milner.Context} {span : Span} {name : String} {isRec : Bool}
    {value body : Expr} {τ : Mono Int} :
    HasType Γ (.letIn span name isRec none value body) τ ↔
      ∃ ρ A, ValueHasType isRec name value Γ ρ ∧ (∀ a ∈ A, ¬ Γ.Free a) ∧
        HasType (Γ.bind name (.quantify A ρ)) body τ := by
  constructor
  · intro h
    cases h with
    | letIn hvalue hA hbody => exact ⟨_, _, hvalue, hA, hbody⟩
    | letRec hvalue hA hbody => exact ⟨_, _, hvalue, hA, hbody⟩
  · rintro ⟨ρ, A, hvalue, hA, hbody⟩
    cases isRec with
    | false => exact .letIn hvalue hA hbody
    | true => exact .letRec hvalue hA hbody

/-- How many demands the value of a definition makes. -/
def valueDemands (isRec : Bool) (value : Expr) : Nat := value.demandCount + if isRec then 1 else 0

section Definitions

variable {e : Env} {σ σ₁ σ₂ τ : Session} {value body : Expr} {typed : Typed}
  {E E₁ E₂ : Equations} {span : Span} {level : Int} {name : String} {isRec : Bool}

/-- The value of a recursive definition, with the demand on its name. -/
theorem made_rec (span : Span) (hfits : e.Fits σ.supply.count)
    (hvalue : Inferred (e.bindMono name (.var ⟨(σ.supply.count : Int) + 1, level⟩)) value σ.next τ
      typed E) :
    Made e (valueDemands true value) (ValueHasType true name value) σ τ
      ⟨typed.ty, typed.constraints.add (Generate.equality
        (.var ⟨(σ.supply.count : Int) + 1, level⟩) typed.ty span)⟩
      (E ++ [(.var ⟨(σ.supply.count : Int) + 1, level⟩, typed.ty)]) := by
  have hadv := σ.advances_next.trans hvalue.advances
  have hname : (Ty.var ⟨(σ.supply.count : Int) + 1, level⟩).Within
      (e.Reaches σ.supply.count σ.next.supply.count) := within_ret (Nat.le_refl _)
  have houter := Env.Reaches.outer (Env.reaches_bindMono name hname) (Nat.le_succ _)
    hvalue.advances.count
  have htype := hvalue.type.mono houter
  have hread : ∀ R : Reading Int,
      (e.bindMono name (.var ⟨(σ.supply.count : Int) + 1, level⟩)).read R =
        (e.read R).bind name (Poly.mono (R (σ.supply.count + 1))) :=
    fun R => Env.read_bindMono R e name (Ty.simple_var _)
  refine ⟨hadv, htype, within_append (hvalue.within.mono houter)
    (within_pair (hname.mono hvalue.advances.still) htype), hvalue.gathers.equality _ _ _,
    fun hfull R hR => ?_, fun R ρ hρ hex => ?_⟩
  · obtain ⟨hR₁, hR₂⟩ := Reading.unifies_append.1 hR
    have hself : R (σ.supply.count + 1) = typed.ty.read R := Reading.unifies_pair.1 hR₂
    have hval := hvalue.sound (hvalue.gathers.full_of_add hfull) R hR₁
    rw [hread R, hself] at hval
    exact hval
  · obtain ⟨R₁, hagree₁, hname₁⟩ := Reading.exists_next σ.supply.count R ρ
    have hρ₁ : HasType ((e.bindMono name (.var ⟨(σ.supply.count : Int) + 1, level⟩)).read R₁)
        value ρ := by
      rw [hread R₁, hname₁, hfits.read_agrees hagree₁]
      exact hρ
    obtain ⟨R₂, hagree₂, hu₂, hty₂⟩ := hvalue.complete R₁ ρ hρ₁ hex
    have hself : R₂ (σ.supply.count + 1) = ρ :=
      (hagree₂ (σ.supply.count + 1) (Int.le_of_eq rfl)).trans hname₁
    exact ⟨R₂, Reading.AgreesUpTo.trans hagree₁ hagree₂ (Nat.le_succ _),
      Reading.unifies_append.2 ⟨hu₂, Reading.unifies_pair.2 (hself.trans hty₂.symm)⟩, hty₂⟩

/-- The demands of what was made can be posed. -/
theorem Made.posed {k : Nat} {Types : Milner.Context → Mono Int → Prop}
    (h : Made e k Types σ τ typed E) (hfits : e.Fits σ.supply.count) :
    Posed .simple τ.supply.count (Session.equationsOf typed.constraints.items) where
  core := fun t ht => (h.within t (h.gathers.mem_sides ht)).1
  older := fun t ht id hid =>
    ((h.within t (h.gathers.mem_sides ht)).2 id hid).le hfits h.advances.count
  fresh := fun hrecords => hrecords.elim

/-- Solving the demands of what was made answers their equations. -/
theorem Made.settled {k : Nat} {Types : Milner.Context → Mono Int → Prop}
    (h : Made e k Types σ τ typed E) (hfits : e.Fits σ.supply.count) (limit : Nat) :
    Session.Settled .simple τ.supply.count τ (Session.equationsOf typed.constraints.items)
      ((Session.solve limit typed.constraints).run τ) :=
  Session.settled_solve limit h.gathers.equational (h.posed hfits)

/-- What inference has made of a definition: a scheme for its name, and the demands of its
value. -/
structure Defined (e : Env) (isRec : Bool) (name : String) (value : Expr) (σ τ : Session)
    (scheme : Scheme) (cs : ConstraintSet) (E : Equations) : Prop where
  advances : σ.Advances τ
  within : E.Within (e.Reaches σ.supply.count τ.supply.count)
  gathers : Gathers cs (valueDemands isRec value) E
  fits : (e.bind name scheme).Fits τ.supply.count
  reaches : ∀ id, scheme.Mentions id → e.Reaches σ.supply.count τ.supply.count id
  sound : cs.size = valueDemands isRec value → ∀ R : Reading Int, R.Unifies E →
    ∃ ρ A, ValueHasType isRec name value (e.read R) ρ ∧ (∀ a ∈ A, ¬ (e.read R).Free a) ∧
      Poly.Above (.quantify A ρ) (scheme.read R)
  complete : ∀ (R : Reading Int) (ρ : Mono Int) (A : List Int),
    ValueHasType isRec name value (e.read R) ρ → (∀ a ∈ A, ¬ (e.read R).Free a) →
    τ.exceeded = false → ∃ R' : Reading Int, R.AgreesUpTo σ.supply.count R' ∧ R'.Unifies E ∧
      (scheme.read R').Above (.quantify A ρ)

/-- A definition whose demands cannot be met keeps its name monomorphic. -/
theorem Made.defined_mono (hfits : e.Fits σ.supply.count)
    (hvalue : Made e (valueDemands isRec value) (ValueHasType isRec name value) σ σ₁ typed E)
    (hadv : σ₁.Advances τ)
    (href : Refutes (Session.equationsOf typed.constraints.items) (τ.exceeded = true)) :
    Defined e isRec name value σ τ (.mono typed.ty) typed.constraints E where
  advances := hvalue.advances.trans hadv
  within := hvalue.within.mono hadv.still
  gathers := hvalue.gathers
  fits := hfits.bindMono (Nat.le_trans hvalue.advances.count hadv.count) name hvalue.type.1
    fun id hid => hadv.still id (hvalue.type.2 id hid)
  reaches := fun id hid => hadv.still id (hvalue.type.2 id (Scheme.mentions_mono.1 hid))
  sound := fun hfull R hR => by
    refine ⟨_, [], hvalue.sound hfull R hR, by simp, fun ρ hρ => ?_⟩
    rw [Scheme.read_mono _ hvalue.type.1, Poly.instance_mono] at hρ
    refine Poly.instance_quantify.2 ⟨.var, ?_⟩
    simp [hρ, Mono.bind_var]
  complete := fun R ρ A hρ hA hex => by
    obtain ⟨R₁, -, hu₁, -⟩ := hvalue.complete R ρ hρ (hadv.not_exceeded hex)
    have hexceeded := href.excused (fun t ht => (hvalue.within t (hvalue.gathers.mem_sides ht)).1)
      (hvalue.gathers.meets hu₁)
    rw [hexceeded] at hex
    cases hex

/-- A definition whose demands are met gets the scheme of what they leave open. -/
theorem Made.defined_closing (hfits : e.Fits σ.supply.count)
    (hvalue : Made e (valueDemands isRec value) (ValueHasType isRec name value) σ σ₁ typed E)
    (hadv : σ₁.Advances τ) {s : Subst}
    (hposed : Posed .simple σ₁.supply.count (Session.equationsOf typed.constraints.items))
    (hs : Solves .simple σ₁.supply.count τ.supply.count
      (Session.equationsOf typed.constraints.items) s) :
    Defined e isRec name value σ τ (e.closing s typed.ty) typed.constraints E := by
  have hdef : Env.Defines e σ.supply.count σ₁.supply.count τ.supply.count
      (Session.equationsOf typed.constraints.items) s typed.ty := by
    refine ⟨hfits, hposed, hs, hvalue.type.1, hvalue.type.2, ?_, hvalue.advances.count⟩
    rintro id ⟨t, ht, hid⟩
    exact (hvalue.within t (hvalue.gathers.mem_sides ht)).2 id hid
  refine ⟨hvalue.advances.trans hadv, hvalue.within.mono hadv.still, hvalue.gathers,
    (hdef.fits_bind name).mono hadv.count, fun id hid => ?_, fun hfull R hR => ?_,
    fun R ρ A hρ hA hex => ?_⟩
  · exact hadv.still id (hdef.reaches_env (Env.mentions_closing.1 hid).2)
  · obtain ⟨R₁, A, hu₁, hread₁, hA, habove⟩ :=
      hdef.exists_above_closing (hvalue.gathers.meets hR)
    refine ⟨_, A, ?_, hA, habove⟩
    rw [← hread₁]
    exact hvalue.sound hfull R₁ (hvalue.gathers.unifies hfull hu₁)
  · obtain ⟨R₁, hagree₁, hu₁, hty₁⟩ := hvalue.complete R ρ hρ (hadv.not_exceeded hex)
    refine ⟨R₁, hagree₁, hu₁, ?_⟩
    rw [← hty₁]
    refine hdef.closing_above (hvalue.gathers.meets hu₁) fun a ha => ?_
    rw [hfits.read_agrees hagree₁]
    exact hA a ha

/-- A definition has the type of its body. -/
theorem inferred_let (hfits : e.Fits σ.supply.count) {scheme : Scheme} {cs : ConstraintSet}
    (hdef : Defined e isRec name value σ σ₁ scheme cs E₁)
    (hbody : Inferred (e.bind name scheme) body σ₁ τ typed E₂) :
    Inferred e (.letIn span name isRec none value body) σ τ
      ⟨typed.ty, cs.union typed.constraints⟩ (E₁ ++ E₂) := by
  have houter := Env.Reaches.outer (Env.reaches_bind name hdef.reaches) hdef.advances.count
    hbody.advances.count
  refine ⟨hdef.advances.trans hbody.advances, hbody.type.mono houter,
    within_append (hdef.within.mono hbody.advances.still) (hbody.within.mono houter),
    hdef.gathers.union hbody.gathers, fun hfull R hR => ?_, fun R ρ hρ hex => ?_⟩
  · obtain ⟨hR₁, hR₂⟩ := Reading.unifies_append.1 hR
    obtain ⟨hsize₁, hsize₂⟩ := hdef.gathers.full_of_union hbody.gathers hfull
    obtain ⟨ρ, A, hvalue, hA, habove⟩ := hdef.sound hsize₁ R hR₁
    have htype := hbody.sound hsize₂ R hR₂
    rw [Env.read_bind] at htype
    exact hasType_let.2 ⟨ρ, A, hvalue, hA, htype.weaken (.bind (.refl _) name habove)⟩
  · obtain ⟨ρ', A, hvalue, hA, htype⟩ := hasType_let.1 hρ
    obtain ⟨R₁, hagree₁, hu₁, habove⟩ :=
      hdef.complete R ρ' A hvalue hA (hbody.advances.not_exceeded hex)
    have htype₁ : HasType ((e.bind name scheme).read R₁) body ρ := by
      rw [Env.read_bind, hfits.read_agrees hagree₁]
      exact htype.weaken (.bind (.refl _) name habove)
    obtain ⟨R₂, hagree₂, hu₂, hty₂⟩ := hbody.complete R₁ ρ htype₁ hex
    refine ⟨R₂, hagree₁.trans hagree₂ hdef.advances.count,
      Reading.unifies_append.2 ⟨?_, hu₂⟩, hty₂⟩
    exact hfits.unifies_within hdef.advances.count hdef.within hagree₂ hu₁

end Definitions

end RowTypes
