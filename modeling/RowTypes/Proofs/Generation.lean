import RowTypes.Proofs.Demands

/-!
# What inference makes of an expression

Inference gives an expression a type and demands.  The two are right if every reading that unifies
the demands gives the expression its type in the Damas–Milner system, and complete if every type
the system gives it is that of a reading which unifies the demands.  The first holds if no demand
was dropped, and the second if no limit was exceeded.

Both are shown here form by form: from what is known about the parts of an expression follows the
same about the whole.  Each form that makes an unknown for its own type has the last number, so a
reading of the parts is extended by the type it needs.  Where all parts are typed in the context of
the whole, this is argued once (`InferredParts.inferred`), and a form only has to show that its
equations say what its typing rule says.
-/

namespace RowTypes

open Equations Milner

namespace Reading

/-- The second reading is the first one on the unknowns up to a number. -/
def AgreesUpTo (n : Nat) (R R' : Reading Int) : Prop := ∀ id : Int, id ≤ n → R' id = R id

variable {n m : Nat} {R R' R'' : Reading Int}

theorem AgreesUpTo.refl (n : Nat) (R : Reading Int) : AgreesUpTo n R R := fun _ _ => rfl

theorem AgreesUpTo.trans (h : AgreesUpTo n R R') (h' : AgreesUpTo m R' R'') (hnm : n ≤ m) :
    AgreesUpTo n R R'' := fun id hid => (h' id (by omega)).trans (h id hid)

/-- The next unknown can be read as anything. -/
theorem exists_next (n : Nat) (R : Reading Int) (ρ : Mono Int) :
    ∃ R' : Reading Int, AgreesUpTo n R R' ∧ R' (n + 1) = ρ := by
  refine ⟨Function.update R (n + 1) ρ, fun id hid => ?_, Function.update_self _ _ _⟩
  exact Function.update_of_ne (by omega) _ _

end Reading

namespace Env

variable {e e' : Env} {n n' m m' : Nat} {R R' : Reading Int} {t : Ty} {E : Equations}

theorem Fits.read_agrees (h : e.Fits n) (hR : R.AgreesUpTo n R') : e.read R' = e.read R :=
  h.read_congr fun id hid => hR id (h.older id hid)

theorem Reaches.le {id : Int} (h : e.Reaches n m id) (hfits : e.Fits n) (hnm : n ≤ m) : id ≤ m := by
  rcases h with h | ⟨-, h⟩
  · have := hfits.older id h
    omega
  · exact h

theorem Reaches.mono (hn : n ≤ n') (hm : m' ≤ m) (id : Int) (h : e.Reaches n' m' id) :
    e.Reaches n m id := h.imp_right fun ⟨hlt, hle⟩ => ⟨by omega, by omega⟩

/-- What is made in an environment around another one is made of what that one reaches. -/
theorem Reaches.outer (he' : ∀ id, e'.Mentions id → e.Reaches n n' id) (hn : n ≤ n')
    (hm : n' ≤ m) (id : Int) (h : e'.Reaches n' m id) : e.Reaches n m id := by
  rcases h with h | ⟨hlt, hle⟩
  · exact Reaches.mono (Nat.le_refl _) hm id (he' id h)
  · exact .inr ⟨by omega, hle⟩

theorem reaches_bind {s : Scheme} (name : String) (hs : ∀ id, s.Mentions id → e.Reaches n m id)
    (id : Int) (h : (e.bind name s).Mentions id) : e.Reaches n m id :=
  (mentions_bind h).elim (hs id) .inl

theorem reaches_bindMono (name : String) (ht : t.Within (e.Reaches n m)) (id : Int)
    (h : (e.bindMono name t).Mentions id) : e.Reaches n m id :=
  reaches_bind name (fun id hid => ht.2 id (Scheme.mentions_mono.1 hid)) id h

theorem Fits.read_within (h : e.Fits n) (hnm : n ≤ m) (ht : t.Within (e.Reaches n m))
    (hR : R.AgreesUpTo m R') : t.read R' = t.read R :=
  Ty.read_congr ht.1 fun id hid => hR id ((ht.2 id hid).le h hnm)

theorem Fits.unifies_within (h : e.Fits n) (hnm : n ≤ m) (hE : E.Within (e.Reaches n m))
    (hR : R.AgreesUpTo m R') (hu : R.Unifies E) : R'.Unifies E := by
  intro eq heq
  rw [h.read_within hnm (hE _ (mem_sides.2 ⟨eq, heq, .inl rfl⟩)) hR,
    h.read_within hnm (hE _ (mem_sides.2 ⟨eq, heq, .inr rfl⟩)) hR]
  exact hu eq heq

end Env

/-- The session after one more unknown. -/
def Session.next (σ : Session) : Session := { σ with supply := ⟨σ.supply.count + 1⟩ }

theorem Session.advances_next (σ : Session) : σ.Advances σ.next := ⟨Nat.le_succ _, rfl, id⟩

/-- What inference has made of something that has types in contexts: a type, so many demands, and
their equations. -/
structure Made (e : Env) (k : Nat) (Types : Milner.Context → Mono Int → Prop) (σ τ : Session)
    (typed : Typed) (E : Equations) : Prop where
  advances : σ.Advances τ
  type : typed.ty.Within (e.Reaches σ.supply.count τ.supply.count)
  within : E.Within (e.Reaches σ.supply.count τ.supply.count)
  gathers : Gathers typed.constraints k E
  sound : typed.constraints.size = k → ∀ R : Reading Int, R.Unifies E →
    Types (e.read R) (typed.ty.read R)
  complete : ∀ (R : Reading Int) (ρ : Mono Int), Types (e.read R) ρ → τ.exceeded = false →
    ∃ R' : Reading Int, R.AgreesUpTo σ.supply.count R' ∧ R'.Unifies E ∧ typed.ty.read R' = ρ

/-- What inference has made of an expression. -/
abbrev Inferred (e : Env) (x : Expr) : Session → Session → Typed → Equations → Prop :=
  Made e x.demandCount fun Γ ρ => HasType Γ x ρ

/-- What inference has made of several expressions, added to demands that there were. -/
structure InferredAll (e : Env) (xs : List Expr) (σ τ : Session) (cs₀ : ConstraintSet)
    (ts : List Ty) (cs : ConstraintSet) (E : Equations) : Prop where
  advances : σ.Advances τ
  types : ∀ t ∈ ts, t.Within (e.Reaches σ.supply.count τ.supply.count)
  within : E.Within (e.Reaches σ.supply.count τ.supply.count)
  gathers : ∀ {k : Nat} {E₀ : Equations}, Gathers cs₀ k E₀ →
    Gathers cs (k + Expr.demandCountAll xs) (E₀ ++ E)
  full : ∀ {k : Nat} {E₀ : Equations}, Gathers cs₀ k E₀ →
    cs.size = k + Expr.demandCountAll xs → cs₀.size = k
  sound : ∀ {k : Nat} {E₀ : Equations}, Gathers cs₀ k E₀ →
    cs.size = k + Expr.demandCountAll xs → ∀ R : Reading Int, R.Unifies E →
      HasTypes (e.read R) xs (ts.map (Ty.read R))
  complete : ∀ (R : Reading Int) (ρs : List (Mono Int)), HasTypes (e.read R) xs ρs →
    τ.exceeded = false → ∃ R' : Reading Int, R.AgreesUpTo σ.supply.count R' ∧ R'.Unifies E ∧
      ts.map (Ty.read R') = ρs

theorem Session.Advances.not_exceeded {σ τ : Session} (h : σ.Advances τ)
    (hτ : τ.exceeded = false) : σ.exceeded = false :=
  Bool.eq_false_iff.2 fun hσ => by rw [h.exceeded hσ] at hτ; cases hτ

/-- What is made later is made of what can be reached from the start. -/
theorem Session.Advances.since {σ τ : Session} (h : σ.Advances τ) {e : Env} {m : Nat} (id : Int) :
    e.Reaches τ.supply.count m id → e.Reaches σ.supply.count m id :=
  Env.Reaches.mono h.count (Nat.le_refl _) id

/-- What was made earlier can be reached later. -/
theorem Session.Advances.still {σ τ : Session} (h : σ.Advances τ) {e : Env} {n : Nat} (id : Int) :
    e.Reaches n σ.supply.count id → e.Reaches n τ.supply.count id :=
  Env.Reaches.mono (Nat.le_refl _) h.count id

section Forms

variable {e : Env} {σ σ₁ σ₂ σ₃ τ : Session} {x : Expr} {typed : Typed} {E E₁ E₂ E₃ F : Equations}
  {cs : ConstraintSet} {span : Span} {level : Int}

/-- A form whose type is the last unknown, demanded by equations that come after those of its
parts. -/
theorem Inferred.of_parts (hfits : e.Fits σ.supply.count) (hadv : σ.Advances τ)
    (hE : E.Within (e.Reaches σ.supply.count τ.supply.count))
    (hF : F.Within (e.Reaches σ.supply.count τ.next.supply.count))
    (hg : Gathers cs x.demandCount (E ++ F))
    (hsound : cs.size = x.demandCount → ∀ R : Reading Int, R.Unifies E → R.Unifies F →
      HasType (e.read R) x (R (τ.supply.count + 1)))
    (hcomplete : ∀ (R : Reading Int) (ρ : Mono Int), HasType (e.read R) x ρ →
      τ.exceeded = false → ∃ R' : Reading Int, R.AgreesUpTo σ.supply.count R' ∧ R'.Unifies E ∧
        ∀ R'' : Reading Int, R'.AgreesUpTo τ.supply.count R'' → R'' (τ.supply.count + 1) = ρ →
          R''.Unifies F) :
    Inferred e x σ τ.next ⟨.var ⟨(τ.supply.count : Int) + 1, level⟩, cs⟩ (E ++ F) where
  advances := hadv.trans τ.advances_next
  type := within_var (.inr ⟨by have := hadv.count; dsimp only; omega, Int.le_of_eq rfl⟩)
  within := within_append (hE.mono τ.advances_next.still) hF
  gathers := hg
  sound := fun hfull R hR => hsound hfull R (Reading.unifies_append.1 hR).1
    (Reading.unifies_append.1 hR).2
  complete := by
    intro R ρ hρ hex
    obtain ⟨R', hagree, hu, hF⟩ := hcomplete R ρ hρ hex
    obtain ⟨R'', hagree', hret⟩ := Reading.exists_next τ.supply.count R' ρ
    refine ⟨R'', hagree.trans hagree' hadv.count, Reading.unifies_append.2 ⟨?_, ?_⟩, hret⟩
    · exact hfits.unifies_within hadv.count hE hagree' hu
    · exact hF R'' hagree' hret

theorem within_ret (h : σ.supply.count ≤ τ.supply.count) :
    (Ty.var ⟨(τ.supply.count : Int) + 1, level⟩).Within
      (e.Reaches σ.supply.count τ.next.supply.count) :=
  within_var (.inr ⟨by dsimp only; omega, Int.le_of_eq rfl⟩)

/-- A constant has its type by the one demand it makes. -/
theorem inferred_literal (hfits : e.Fits σ.supply.count) {kind : LiteralKind} (value : String)
    {name : String} (hkind : literalType? kind = some (.prim name)) :
    ∃ E, Inferred e (.literal span kind value) σ σ.next
      ⟨.var ⟨(σ.supply.count : Int) + 1, level⟩, ConstraintSet.empty.add (Generate.equality
        (.var ⟨(σ.supply.count : Int) + 1, level⟩) (.prim name) span)⟩ E := by
  refine ⟨_, Inferred.of_parts (F := [(.var ⟨(σ.supply.count : Int) + 1, level⟩, .prim name)])
    hfits (.refl σ) within_nil (within_pair (within_ret (Nat.le_refl _)) (within_prim name))
    (Gathers.empty.equality _ _ _) (fun _ R _ hF => ?_) fun R ρ hρ _ => ?_⟩
  · have hret := Reading.unifies_pair.1 hF
    exact .literal (by rw [hkind]; exact congrArg some hret.symm)
  · refine ⟨R, .refl _ R, Reading.unifies_nil, fun R'' _ hret => ?_⟩
    cases hρ with
    | literal hρ =>
        rw [hkind] at hρ
        cases hρ
        exact Reading.unifies_pair.2 hret

/-- A name has the instance of its scheme that was taken. -/
theorem inferred_var (hfits : e.Fits σ.supply.count) {name : String} {s : Scheme}
    (hs : e.lookup? name = some s) :
    ∃ E, Inferred e (.var span name) σ
      { σ.next with supply := (s.instantiate level σ.next.supply).2 }
      ⟨.var ⟨(σ.supply.count : Int) + 1, level⟩, ConstraintSet.empty.add (Generate.equality
        (.var ⟨(σ.supply.count : Int) + 1, level⟩) (s.instantiate level σ.next.supply).1 span)⟩
      E := by
  have hsimple := hfits.lookup hs
  have hcount : σ.next.supply.count ≤ (s.instantiate level σ.next.supply).2.count :=
    Scheme.count_instantiate
  have hnext : σ.next.supply.count = σ.supply.count + 1 := rfl
  have hret : (Ty.var ⟨(σ.supply.count : Int) + 1, level⟩).Within
      (e.Reaches σ.supply.count (s.instantiate level σ.next.supply).2.count) :=
    within_var (.inr ⟨by dsimp only; omega, by dsimp only; omega⟩)
  have hinst : (s.instantiate level σ.next.supply).1.Within
      (e.Reaches σ.supply.count (s.instantiate level σ.next.supply).2.count) := by
    refine ⟨Scheme.simple_instantiate hsimple, fun id hid => ?_⟩
    rcases Scheme.mentions_instantiate hsimple hid with hid | ⟨hlt, hle⟩
    · exact .inl (Env.mentions_of_lookup? hs hid)
    · exact .inr ⟨by omega, hle⟩
  have hread : ∀ R : Reading Int, e.read R name = some (s.read R) := by
    intro R
    rw [Env.read, hs]
    rfl
  refine ⟨_, ⟨Nat.le_trans (Nat.le_succ _) hcount, rfl, id⟩, hret,
    within_append within_nil (within_pair hret hinst), Gathers.empty.equality _ _ _, fun _ R hR => ?_, fun R ρ hρ _ => ?_⟩
  · have heq := Reading.unifies_pair.1 (Reading.unifies_append.1 hR).2
    refine .var (hread R) ?_
    rw [heq]
    exact Scheme.instance_instantiate hsimple R
  · cases hρ with
    | var hp hρ =>
        rw [hread R] at hp
        cases hp
        -- The reading is extended twice: by the result's unknown, then by those of the instance.
        obtain ⟨R₁, hagree₁, hR₁⟩ := Reading.exists_next σ.supply.count R ρ
        have hagree : s.read R₁ = s.read R := Scheme.read_congr hsimple fun id hid =>
          hagree₁ id (hfits.older id (Env.mentions_of_lookup? hs hid))
        have hle : ∀ id, s.Mentions id → id ≤ σ.next.supply.count := by
          intro id hid
          have := hfits.older id (Env.mentions_of_lookup? hs hid)
          omega
        rw [← hagree] at hρ
        obtain ⟨R₂, hagree₂, hR₂⟩ := Scheme.exists_reading_instantiate level hsimple hle hρ
        have hret₂ : R₂ (σ.supply.count + 1) = ρ :=
          (hagree₂ (σ.supply.count + 1) (Int.le_of_eq rfl)).trans hR₁
        refine ⟨R₂, Reading.AgreesUpTo.trans hagree₁ hagree₂ (Nat.le_succ _),
          Reading.unifies_pair.2 ?_, hret₂⟩
        rw [hR₂]
        exact hret₂

/-! ### Several expressions -/

theorem inferredAll_nil (e : Env) (σ : Session) (cs : ConstraintSet) :
    InferredAll e [] σ σ cs [] cs [] where
  advances := .refl σ
  types := by intro t ht; cases ht
  within := within_nil
  gathers := fun h => by rw [List.append_nil]; exact h
  full := fun _ hfull => hfull
  sound := fun _ _ _ _ => .nil
  complete := fun R ρs hρs _ => by
    cases hρs
    exact ⟨R, .refl _ R, Reading.unifies_nil, rfl⟩

variable {xs : List Expr} {cs₀ : ConstraintSet} {ts : List Ty}

/-- Types of several expressions are found one expression after the other: each extends the reading
that the one before it gave, so what came earlier keeps what it reads as. -/
theorem Inferred.complete_cons (hfits : e.Fits σ.supply.count) (hx : Inferred e x σ σ₁ typed E₁)
    (hadv : σ₁.Advances τ)
    (hxs : ∀ (R : Reading Int) (ρs : List (Mono Int)), HasTypes (e.read R) xs ρs →
      τ.exceeded = false → ∃ R' : Reading Int, R.AgreesUpTo σ₁.supply.count R' ∧
        R'.Unifies E₂ ∧ ts.map (Ty.read R') = ρs)
    (R : Reading Int) (ρs : List (Mono Int)) (hρs : HasTypes (e.read R) (x :: xs) ρs)
    (hex : τ.exceeded = false) :
    ∃ R' : Reading Int, R.AgreesUpTo σ.supply.count R' ∧ R'.Unifies (E₁ ++ E₂) ∧
      (typed.ty :: ts).map (Ty.read R') = ρs := by
  cases hρs with
  | cons hρ hρs =>
      obtain ⟨R₁, hagree₁, hu₁, hty₁⟩ := hx.complete R _ hρ (hadv.not_exceeded hex)
      rw [← hfits.read_agrees hagree₁] at hρs
      obtain ⟨R₂, hagree₂, hu₂, hty₂⟩ := hxs R₁ _ hρs hex
      refine ⟨R₂, hagree₁.trans hagree₂ hx.advances.count,
        Reading.unifies_append.2 ⟨?_, hu₂⟩, ?_⟩
      · exact hfits.unifies_within hx.advances.count hx.within hagree₂ hu₁
      · rw [List.map_cons, hty₂, hfits.read_within hx.advances.count hx.type hagree₂, hty₁]

theorem InferredAll.cons (hfits : e.Fits σ.supply.count) (hx : Inferred e x σ σ₁ typed E₁)
    (hxs : InferredAll e xs σ₁ σ₂ (cs₀.union typed.constraints) ts cs E₂) :
    InferredAll e (x :: xs) σ σ₂ cs₀ (typed.ty :: ts) cs (E₁ ++ E₂) where
  advances := hx.advances.trans hxs.advances
  types := List.forall_mem_cons.2 ⟨hx.type.mono hxs.advances.still,
    fun t ht => (hxs.types t ht).mono hx.advances.since⟩
  within := within_append (hx.within.mono hxs.advances.still) (hxs.within.mono hx.advances.since)
  gathers := fun h => by
    have hall := hxs.gathers (h.union hx.gathers)
    rw [List.append_assoc, Nat.add_assoc] at hall
    exact hall
  full := fun h hfull => by
    rw [Expr.demandCountAll, ← Nat.add_assoc] at hfull
    exact (h.full_of_union hx.gathers (hxs.full (h.union hx.gathers) hfull)).1
  sound := fun h hfull R hR => by
    rw [Expr.demandCountAll, ← Nat.add_assoc] at hfull
    obtain ⟨hR₁, hR₂⟩ := Reading.unifies_append.1 hR
    have hsize := (h.full_of_union hx.gathers (hxs.full (h.union hx.gathers) hfull)).2
    exact .cons (hx.sound hsize R hR₁) (hxs.sound (h.union hx.gathers) hfull R hR₂)
  complete := hx.complete_cons hfits hxs.advances hxs.complete

/-! ### Forms whose parts are typed in one context -/

/-- What inference has made of the parts of an expression, with all their demands. -/
structure InferredParts (e : Env) (xs : List Expr) (σ τ : Session) (ts : List Ty)
    (cs : ConstraintSet) (E : Equations) : Prop where
  advances : σ.Advances τ
  types : ∀ t ∈ ts, t.Within (e.Reaches σ.supply.count τ.supply.count)
  within : E.Within (e.Reaches σ.supply.count τ.supply.count)
  gathers : Gathers cs (Expr.demandCountAll xs) E
  sound : cs.size = Expr.demandCountAll xs → ∀ R : Reading Int, R.Unifies E →
    HasTypes (e.read R) xs (ts.map (Ty.read R))
  complete : ∀ (R : Reading Int) (ρs : List (Mono Int)), HasTypes (e.read R) xs ρs →
    τ.exceeded = false → ∃ R' : Reading Int, R.AgreesUpTo σ.supply.count R' ∧ R'.Unifies E ∧
      ts.map (Ty.read R') = ρs

/-- Parts that nothing was demanded before. -/
theorem InferredAll.parts (h : InferredAll e xs σ τ .empty ts cs E) :
    InferredParts e xs σ τ ts cs E where
  advances := h.advances
  types := h.types
  within := h.within
  gathers := by
    have hg := h.gathers .empty
    rw [Nat.zero_add] at hg
    exact hg
  sound := fun hfull => h.sound .empty (by rw [Nat.zero_add]; exact hfull)
  complete := h.complete

/-- A first part and the others, whose demands are added to those of the first. -/
theorem Inferred.parts (hfits : e.Fits σ.supply.count) (hx : Inferred e x σ σ₁ typed E₁)
    (hxs : InferredAll e xs σ₁ τ typed.constraints ts cs E₂) :
    InferredParts e (x :: xs) σ τ (typed.ty :: ts) cs (E₁ ++ E₂) where
  advances := hx.advances.trans hxs.advances
  types := List.forall_mem_cons.2 ⟨hx.type.mono hxs.advances.still,
    fun t ht => (hxs.types t ht).mono hx.advances.since⟩
  within := within_append (hx.within.mono hxs.advances.still) (hxs.within.mono hx.advances.since)
  gathers := hxs.gathers hx.gathers
  sound := fun hfull R hR => by
    obtain ⟨hR₁, hR₂⟩ := Reading.unifies_append.1 hR
    exact .cons (hx.sound (hxs.full hx.gathers hfull) R hR₁) (hxs.sound hx.gathers hfull R hR₂)
  complete := hx.complete_cons hfits hxs.advances hxs.complete

/-- What is made of an expression is right and complete if that holds for its parts, and its own
equations say of the types what its typing rule says. -/
theorem InferredParts.inferred (h : InferredParts e xs σ τ ts cs₀ E)
    (hfits : e.Fits σ.supply.count) (rule : List (Mono Int) → Mono Int → Prop)
    (hrule : ∀ (Γ : Milner.Context) (ρ : Mono Int),
      HasType Γ x ρ ↔ ∃ ρs, HasTypes Γ xs ρs ∧ rule ρs ρ)
    (hF : F.Within (e.Reaches σ.supply.count τ.next.supply.count))
    (hmeans : ∀ R : Reading Int,
      R.Unifies F ↔ rule (ts.map (Ty.read R)) (R (τ.supply.count + 1)))
    (hg : Gathers cs x.demandCount (E ++ F))
    (hfull : cs.size = x.demandCount → cs₀.size = Expr.demandCountAll xs) :
    Inferred e x σ τ.next ⟨.var ⟨(τ.supply.count : Int) + 1, level⟩, cs⟩ (E ++ F) := by
  refine Inferred.of_parts hfits h.advances h.within hF hg (fun hsize R hR hRF => ?_)
    fun R ρ hρ hex => ?_
  · exact (hrule _ _).2 ⟨_, h.sound (hfull hsize) R hR, (hmeans R).1 hRF⟩
  · obtain ⟨ρs, hρs, hholds⟩ := (hrule _ _).1 hρ
    obtain ⟨R₁, hagree₁, hu₁, rfl⟩ := h.complete R ρs hρs hex
    refine ⟨R₁, hagree₁, hu₁, fun R₂ hagree₂ hret => (hmeans R₂).2 ?_⟩
    have hsame : ts.map (Ty.read R₂) = ts.map (Ty.read R₁) := List.map_congr_left fun t ht =>
      hfits.read_within h.advances.count (h.types t ht) hagree₂
    rw [hsame, hret]
    exact hholds

/-- The types of the parts are still within reach when the type of the whole has been made. -/
theorem InferredParts.types_next (h : InferredParts e xs σ τ ts cs E) :
    ∀ t ∈ ts, t.Within (e.Reaches σ.supply.count τ.next.supply.count) :=
  fun t ht => (h.types t ht).mono τ.advances_next.still

/-- A tuple has the types of its elements. -/
theorem inferred_tuple (hfits : e.Fits σ.supply.count)
    (hxs : InferredParts e xs σ τ ts cs E) :
    ∃ E', Inferred e (.tuple span xs) σ τ.next
      ⟨.var ⟨(τ.supply.count : Int) + 1, level⟩,
        cs.add (Generate.equality (.var ⟨(τ.supply.count : Int) + 1, level⟩) (.tuple ts) span)⟩
      E' := by
  refine ⟨_, hxs.inferred hfits (fun ρs ρ => ρ = .tuple ρs) (fun Γ ρ => ⟨fun h => ?_, ?_⟩)
    (within_pair (within_ret hxs.advances.count) (within_tuple hxs.types_next)) (fun R => ?_)
    (hxs.gathers.equality _ _ _) hxs.gathers.full_of_add⟩
  · cases h with
    | tuple hρs => exact ⟨_, hρs, rfl⟩
  · rintro ⟨ρs, hρs, rfl⟩
    exact .tuple hρs
  · rw [Reading.unifies_pair, ← Ty.readAll_eq_map]
    rfl

/-- A call has the result of the function. -/
theorem inferred_call (hfits : e.Fits σ.supply.count) {f : Expr} {args : List Expr} {ft : Ty}
    (h : InferredParts e (f :: args) σ τ (ft :: ts) cs E) :
    ∃ E', Inferred e (.call span f args) σ τ.next
      ⟨.var ⟨(τ.supply.count : Int) + 1, level⟩, cs.add (Generate.equality ft
        (.curried ts (.var ⟨(τ.supply.count : Int) + 1, level⟩)) span)⟩ E' := by
  obtain ⟨hft, hts⟩ := List.forall_mem_cons.1 h.types_next
  refine ⟨_, h.inferred hfits (fun ρs ρ => ρs = .curried ρs.tail ρ :: ρs.tail)
    (fun Γ ρ => ⟨fun hρ => ?_, ?_⟩)
    (within_pair hft (within_curried hts (within_ret h.advances.count))) (fun R => ?_)
    (h.gathers.equality _ _ _) h.gathers.full_of_add⟩
  · cases hρ with
    | call hf hargs => exact ⟨_, .cons hf hargs, rfl⟩
  · rintro ⟨ρs, hρs, heq⟩
    rw [heq] at hρs
    obtain ⟨hf, hargs⟩ := HasTypes.cons_iff.1 hρs
    exact .call hf hargs
  · rw [Reading.unifies_pair, Ty.read_curried, List.map_cons, List.tail_cons, List.cons_eq_cons,
      and_iff_left rfl]
    rfl

/-! ### Operators and conditionals -/

theorem eq_prim_of_toTy {ρ : Mono Int} {name : String} (h : ρ.toTy = .prim name) :
    ρ = .prim name := by
  cases ρ with
  | prim => cases h; rfl
  | _ => cases h

/-- An operator before its operand has the type of the operand. -/
theorem inferred_unary (hfits : e.Fits σ.supply.count) {op name : String}
    (hop : unaryType? op = some (.prim name)) {t : Ty} (h : InferredParts e [x] σ τ [t] cs E) :
    ∃ E', Inferred e (.unary span op x) σ τ.next
      ⟨.var ⟨(τ.supply.count : Int) + 1, level⟩,
        (cs.add (Generate.equality t (.prim name) span)).add
          (Generate.equality (.var ⟨(τ.supply.count : Int) + 1, level⟩) (.prim name) span)⟩ E' := by
  have ht := h.types_next t List.mem_cons_self
  have hg := h.gathers.equality t (.prim name) span
  have hg' := hg.equality (.var ⟨(τ.supply.count : Int) + 1, level⟩) (.prim name) span
  rw [List.append_assoc] at hg'
  refine ⟨_, h.inferred hfits (fun ρs ρ => ρs = [.prim name] ∧ ρ = .prim name)
    (fun Γ ρ => ⟨fun hρ => ?_, ?_⟩) (within_append (within_pair ht (within_prim name))
      (within_pair (within_ret h.advances.count) (within_prim name))) (fun R => ?_) hg'
    fun hfull => h.gathers.full_of_add (hg.full_of_add hfull)⟩
  · cases hρ with
    | unary hop' hρ =>
        rw [hop] at hop'
        have hprim := eq_prim_of_toTy (Option.some.inj hop').symm
        exact ⟨_, .cons hρ .nil, by rw [hprim], hprim⟩
  · rintro ⟨ρs, hρs, rfl, rfl⟩
    exact .unary hop (HasTypes.cons_iff.1 hρs).1
  · rw [Reading.unifies_append, Reading.unifies_pair, Reading.unifies_pair, List.map_singleton,
      List.singleton_inj]
    rfl

/-- An operator between operands has the type that its rule gives. -/
theorem inferred_binary (hfits : e.Fits σ.supply.count) {op operand result : String}
    {l r : Expr} {lt rt : Ty} {ls rs : Span}
    (hop : binaryRule? op = some (.typed (.prim operand) (.prim result)))
    (h : InferredParts e [l, r] σ τ [lt, rt] cs E) :
    ∃ E', Inferred e (.binary span op l r) σ τ.next
      ⟨.var ⟨(τ.supply.count : Int) + 1, level⟩,
        ((cs.add (Generate.equality lt (.prim operand) ls)).add
          (Generate.equality rt (.prim operand) rs)).add
          (Generate.equality (.var ⟨(τ.supply.count : Int) + 1, level⟩) (.prim result) span)⟩
      E' := by
  obtain ⟨hlt, hrt⟩ := List.forall_mem_cons.1 h.types_next
  have hg₁ := h.gathers.equality lt (.prim operand) ls
  have hg₂ := hg₁.equality rt (.prim operand) rs
  have hg₃ := hg₂.equality (.var ⟨(τ.supply.count : Int) + 1, level⟩) (.prim result) span
  rw [List.append_assoc (E ++ _), List.append_assoc E] at hg₃
  refine ⟨_, h.inferred hfits
    (fun ρs ρ => ρs = [.prim operand, .prim operand] ∧ ρ = .prim result)
    (fun Γ ρ => ⟨fun hρ => ?_, ?_⟩) (within_append (within_pair hlt (within_prim operand))
      (within_append (within_pair (hrt rt List.mem_cons_self) (within_prim operand))
        (within_pair (within_ret h.advances.count) (within_prim result)))) (fun R => ?_) hg₃
    fun hfull => h.gathers.full_of_add (hg₁.full_of_add (hg₂.full_of_add hfull))⟩
  · cases hρ with
    | binary hop' hl hr =>
        rw [hop] at hop'
        injection hop' with hrule
        injection hrule with hoperand hresult
        have hoperand := eq_prim_of_toTy hoperand.symm
        exact ⟨_, .cons hl (.cons hr .nil), by rw [hoperand], eq_prim_of_toTy hresult.symm⟩
  · rintro ⟨ρs, hρs, rfl, rfl⟩
    obtain ⟨hl, hρs⟩ := HasTypes.cons_iff.1 hρs
    refine .binary ?_ hl (HasTypes.cons_iff.1 hρs).1
    exact hop
  · rw [Reading.unifies_append, Reading.unifies_append, Reading.unifies_pair,
      Reading.unifies_pair, Reading.unifies_pair, List.map_cons, List.map_singleton,
      List.cons_eq_cons, List.singleton_inj, and_assoc]
    rfl

/-- A conditional has the type of both of its branches. -/
theorem inferred_cond (hfits : e.Fits σ.supply.count) {c t f : Expr} {ct tt ft : Ty}
    {cspan : Span} (h : InferredParts e [c, t, f] σ τ [ct, tt, ft] cs E) :
    ∃ E', Inferred e (.cond span c t f) σ τ.next
      ⟨.var ⟨(τ.supply.count : Int) + 1, level⟩,
        (cs.add (Generate.equality ct .bool cspan)).add
          ⟨.branch (.var ⟨(τ.supply.count : Int) + 1, level⟩) [tt, ft], .inference, span⟩⟩
      E' := by
  obtain ⟨hct, hbranches⟩ := List.forall_mem_cons.1 h.types_next
  obtain ⟨htt, hft⟩ := List.forall_mem_cons.1 hbranches
  have hret : (Ty.var ⟨(τ.supply.count : Int) + 1, level⟩).Within
      (e.Reaches σ.supply.count τ.next.supply.count) := within_ret h.advances.count
  have hg₁ := h.gathers.equality ct .bool cspan
  have hg₂ := hg₁.add (c := ⟨.branch (.var ⟨(τ.supply.count : Int) + 1, level⟩) [tt, ft],
    .inference, span⟩) (.branch _ _ not_records_simple)
  have hdemands : Expr.demandCountAll [c, t, f] + 1 + 1 = (Expr.cond span c t f).demandCount := by
    simp only [Expr.demandCountAll, Expr.demandCount]
    omega
  rw [List.append_assoc E, hdemands] at hg₂
  refine ⟨_, h.inferred hfits (fun ρs ρ => ρs = [.prim "Bool", ρ, ρ])
    (fun Γ ρ => ⟨fun hρ => ?_, ?_⟩) (within_append (within_pair hct (within_prim _))
      (within_append (F := [(ft, _)]) (within_pair htt hret)
        (within_pair (hft ft List.mem_cons_self) hret))) (fun R => ?_) hg₂
    fun hfull => h.gathers.full_of_add (hg₁.full_of_add (hfull.trans hdemands.symm))⟩
  · cases hρ with
    | cond hc ht hf => exact ⟨_, .cons hc (.cons ht (.cons hf .nil)), rfl⟩
  · rintro ⟨ρs, hρs, rfl⟩
    obtain ⟨hc, hρs⟩ := HasTypes.cons_iff.1 hρs
    obtain ⟨ht, hρs⟩ := HasTypes.cons_iff.1 hρs
    exact .cond hc ht (HasTypes.cons_iff.1 hρs).1
  · rw [Reading.unifies_append, Reading.unifies_pair, List.map_cons, List.map_cons,
      List.map_singleton, List.cons_eq_cons, List.cons_eq_cons, List.singleton_inj]
    exact and_congr_right fun _ => Reading.unifies_cons.trans
      (and_congr_right fun _ => Reading.unifies_pair)

/-! ### Functions -/

/-- What parameters have been given: a type each, and a place in the environment. -/
structure BoundParams (e : Env) (ps : List Param) (σ τ : Session) (ts : List Ty) (e' : Env) :
    Prop where
  advances : σ.Advances τ
  fits : e'.Fits τ.supply.count
  types : ∀ t ∈ ts, t.Within (e.Reaches σ.supply.count τ.supply.count)
  reaches : ∀ id, e'.Mentions id → e.Reaches σ.supply.count τ.supply.count id
  length : ps.length = ts.length
  read : ∀ R : Reading Int, e'.read R = (e.read R).bindAll (ps.map (·.name)) (ts.map (Ty.read R))
  complete : ∀ (R : Reading Int) (ρs : List (Mono Int)), ps.length = ρs.length →
    ∃ R' : Reading Int, R.AgreesUpTo σ.supply.count R' ∧ ts.map (Ty.read R') = ρs

theorem boundParams_nil (hfits : e.Fits σ.supply.count) : BoundParams e [] σ σ [] e where
  advances := .refl σ
  fits := hfits
  types := by intro t ht; cases ht
  reaches := fun _ hid => .inl hid
  length := rfl
  read := fun _ => rfl
  complete := fun R ρs hρs => ⟨R, .refl _ R, (List.length_eq_zero_iff.1 hρs.symm).symm⟩

theorem fits_param (hfits : e.Fits σ.supply.count) (name : String) :
    (e.bindMono name (.var ⟨(σ.supply.count : Int) + 1, level⟩)).Fits σ.next.supply.count :=
  hfits.bindMono (Nat.le_succ _) name (Ty.simple_var _)
    (within_ret (e := e) (σ := σ) (τ := σ) (Nat.le_refl _)).2

theorem BoundParams.cons {p : Param} {ps : List Param} {e' : Env}
    (hps : BoundParams (e.bindMono p.name (.var ⟨(σ.supply.count : Int) + 1, level⟩)) ps σ.next τ
      ts e') :
    BoundParams e (p :: ps) σ τ (.var ⟨(σ.supply.count : Int) + 1, level⟩ :: ts) e' := by
  have hret : (Ty.var ⟨(σ.supply.count : Int) + 1, level⟩).Within
      (e.Reaches σ.supply.count σ.next.supply.count) := within_ret (Nat.le_refl _)
  have houter := Env.Reaches.outer (Env.reaches_bindMono p.name hret) (Nat.le_succ _)
    hps.advances.count
  refine ⟨σ.advances_next.trans hps.advances, hps.fits, fun t ht => ?_, fun id hid => ?_,
    congrArg Nat.succ hps.length, fun R => ?_, fun R ρs hρs => ?_⟩
  · rcases List.mem_cons.1 ht with rfl | ht
    · exact hret.mono hps.advances.still
    · exact (hps.types t ht).mono houter
  · exact houter id (hps.reaches id hid)
  · rw [hps.read R, Env.read_bindMono R e p.name (Ty.simple_var _)]
    rfl
  · cases ρs with
    | nil => cases hρs
    | cons ρ ρs =>
        obtain ⟨R₁, hagree₁, hret₁⟩ := Reading.exists_next σ.supply.count R ρ
        obtain ⟨R₂, hagree₂, htypes₂⟩ := hps.complete R₁ ρs (Nat.succ.inj hρs)
        refine ⟨R₂, Reading.AgreesUpTo.trans hagree₁ hagree₂ (Nat.le_succ _), ?_⟩
        rw [List.map_cons, htypes₂]
        exact congrArg (· :: ρs)
          ((hagree₂ (σ.supply.count + 1) (Int.le_of_eq rfl)).trans hret₁)

/-- A function takes its parameters to what its body is. -/
theorem inferred_lambda (hfits : e.Fits σ.supply.count) {ps : List Param} {body : Expr}
    {e' : Env} (hps : BoundParams e ps σ σ₁ ts e') (hbody : Inferred e' body σ₁ τ typed E) :
    ∃ E', Inferred e (.lambda span ps body) σ τ.next
      ⟨.var ⟨(τ.supply.count : Int) + 1, level⟩, typed.constraints.add (Generate.equality
        (.var ⟨(τ.supply.count : Int) + 1, level⟩) (.curried ts typed.ty) span)⟩ E' := by
  have hadv := hps.advances.trans hbody.advances
  have hcount := hadv.count
  have houter := Env.Reaches.outer hps.reaches hps.advances.count hbody.advances.count
  have htypes := fun t ht => (hps.types t ht).mono hbody.advances.still
  have htype := hbody.type.mono houter
  refine ⟨_, Inferred.of_parts hfits hadv (hbody.within.mono houter)
    (within_pair (within_ret hcount) (within_curried
      (fun t ht => (htypes t ht).mono τ.advances_next.still)
      (htype.mono τ.advances_next.still)))
    (hbody.gathers.equality _ _ _) (fun hfull R hR hF => ?_) fun R ρ hρ hex => ?_⟩
  · have hret : R (τ.supply.count + 1) = (Ty.curried ts typed.ty).read R :=
      Reading.unifies_pair.1 hF
    have hb := hbody.sound (hbody.gathers.full_of_add hfull) R hR
    rw [hps.read R] at hb
    rw [hret, Ty.read_curried]
    exact .lambda (by rw [List.length_map]; exact hps.length) hb
  · cases hρ with
    | lambda hlen hρ =>
        obtain ⟨R₁, hagree₁, htypes₁⟩ := hps.complete R _ hlen
        rw [← htypes₁, ← hfits.read_agrees hagree₁, ← hps.read R₁] at hρ
        obtain ⟨R₂, hagree₂, hu₂, hty₂⟩ := hbody.complete R₁ _ hρ hex
        refine ⟨R₂, hagree₁.trans hagree₂ hps.advances.count, hu₂, fun R₃ hagree₃ hret =>
          Reading.unifies_pair.2 (hret.trans ?_)⟩
        rw [Ty.read_curried, hfits.read_within hcount htype hagree₃, hty₂, ← htypes₁]
        refine congrArg (fun τs => Mono.curried τs _) (List.map_congr_left fun t ht => ?_)
        rw [hfits.read_within hcount (htypes t ht) hagree₃,
          hfits.read_within hps.advances.count (hps.types t ht) hagree₂]

end Forms

end RowTypes
