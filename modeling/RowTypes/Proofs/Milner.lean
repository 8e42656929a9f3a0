import RowTypes.Inference.Operator
import RowTypes.Source.Expr

/-!
# The Damas–Milner system

What inference is measured against: types of names, primitives, functions and tuples, schemes that
are closed over some names, and a typing relation for the expressions that need no records.

A scheme is a type over two kinds of names, those that are free in it and those that it is closed
over.  Keeping the two apart means that nothing is ever captured, and an instance is a type for
each bound name and nothing else.

Calls and functions take their arguments one by one.  A call without arguments passes unit, and a
function without parameters takes it.  A recursive definition has one type in its own value and a
scheme only in its body.
-/

namespace RowTypes

namespace Milner

/-- Types over some names. -/
inductive Mono (ν : Type) where
  | var (a : ν)
  | prim (name : String)
  | fn (param result : Mono ν)
  | tuple (elems : List (Mono ν))

namespace Mono

variable {ν μ ξ : Type}

mutual

/-- Replaces each name by a type. -/
def bind (f : ν → Mono μ) : Mono ν → Mono μ
  | .var a => f a
  | .prim name => .prim name
  | .fn p r => .fn (bind f p) (bind f r)
  | .tuple ts => .tuple (bindAll f ts)

/-- Replaces each name of several types. -/
def bindAll (f : ν → Mono μ) : List (Mono ν) → List (Mono μ)
  | [] => []
  | t :: ts => bind f t :: bindAll f ts

end

theorem bindAll_eq_map (f : ν → Mono μ) (ts : List (Mono ν)) : bindAll f ts = ts.map (bind f) := by
  induction ts with
  | nil => rfl
  | cons t ts ih => rw [bindAll, ih, List.map_cons]

example : bind (fun a : Nat => .prim (toString a)) (.tuple [.var 1, .fn (.var 2) (.var 1)]) =
    (.tuple [.prim "1", .fn (.prim "2") (.prim "1")] : Mono Nat) := by cbv

mutual

/-- Induction over types, where what holds of the elements of a tuple is given for each. -/
theorem induct {motive : Mono ν → Prop} (var : ∀ a, motive (.var a))
    (prim : ∀ name, motive (.prim name)) (fn : ∀ p r, motive p → motive r → motive (.fn p r))
    (tuple : ∀ ts, (∀ t ∈ ts, motive t) → motive (.tuple ts)) : ∀ t : Mono ν, motive t
  | .var a => var a
  | .prim name => prim name
  | .fn p r => fn p r (induct var prim fn tuple p) (induct var prim fn tuple r)
  | .tuple ts => tuple ts (inductAll var prim fn tuple ts)

theorem inductAll {motive : Mono ν → Prop} (var : ∀ a, motive (.var a))
    (prim : ∀ name, motive (.prim name)) (fn : ∀ p r, motive p → motive r → motive (.fn p r))
    (tuple : ∀ ts, (∀ t ∈ ts, motive t) → motive (.tuple ts)) :
    ∀ ts : List (Mono ν), ∀ t ∈ ts, motive t
  | [], _, h => by cases h
  | t :: ts, u, h => by
      rcases List.mem_cons.1 h with heq | h
      · rw [heq]
        exact induct var prim fn tuple t
      · exact inductAll var prim fn tuple ts u h

end

/-- A name occurs in a type. -/
inductive Occurs (a : ν) : Mono ν → Prop where
  | var : Occurs a (.var a)
  | param {p r : Mono ν} : Occurs a p → Occurs a (.fn p r)
  | result {p r : Mono ν} : Occurs a r → Occurs a (.fn p r)
  | elem {ts : List (Mono ν)} {t : Mono ν} : t ∈ ts → Occurs a t → Occurs a (.tuple ts)

theorem bind_congr {f g : ν → Mono μ} (t : Mono ν) (h : ∀ a, t.Occurs a → f a = g a) :
    t.bind f = t.bind g := by
  induction t using induct with
  | var a => exact h a .var
  | prim name => rfl
  | fn p r ihp ihr =>
      rw [bind, bind, ihp fun a ha => h a (.param ha), ihr fun a ha => h a (.result ha)]
  | tuple ts ih =>
      rw [bind, bind, bindAll_eq_map, bindAll_eq_map]
      exact congrArg tuple (List.map_congr_left fun t ht => ih t ht fun a ha => h a (.elem ht ha))

theorem bind_bind (f : ν → Mono μ) (g : μ → Mono ξ) (t : Mono ν) :
    (t.bind f).bind g = t.bind fun a => (f a).bind g := by
  induction t using induct with
  | var a => rfl
  | prim name => rfl
  | fn p r ihp ihr => rw [bind, bind, bind, ihp, ihr]
  | tuple ts ih =>
      rw [bind, bind, bind, bindAll_eq_map, bindAll_eq_map, bindAll_eq_map, List.map_map]
      exact congrArg tuple (List.map_congr_left ih)

theorem bind_var (t : Mono ν) : t.bind .var = t := by
  induction t using induct with
  | var a => rfl
  | prim name => rfl
  | fn p r ihp ihr => rw [bind, ihp, ihr]
  | tuple ts ih =>
      rw [bind, bindAll_eq_map]
      exact congrArg tuple ((List.map_congr_left ih).trans (List.map_id ts))

theorem occurs_bind {f : ν → Mono μ} {b : μ} {t : Mono ν} :
    (t.bind f).Occurs b ↔ ∃ a, t.Occurs a ∧ (f a).Occurs b := by
  induction t using induct with
  | var a =>
      rw [bind]
      constructor
      · exact fun h => ⟨a, .var, h⟩
      · rintro ⟨_, ⟨⟩, h⟩
        exact h
  | prim name =>
      constructor
      · rintro ⟨⟩
      · rintro ⟨_, ⟨⟩, _⟩
  | fn p r ihp ihr =>
      rw [bind]
      constructor
      · rintro (_ | h | h)
        · obtain ⟨a, ha, hb⟩ := ihp.1 h
          exact ⟨a, .param ha, hb⟩
        · obtain ⟨a, ha, hb⟩ := ihr.1 h
          exact ⟨a, .result ha, hb⟩
      · rintro ⟨a, _ | ha | ha, hb⟩
        · exact .param (ihp.2 ⟨a, ha, hb⟩)
        · exact .result (ihr.2 ⟨a, ha, hb⟩)
  | tuple ts ih =>
      rw [bind, bindAll_eq_map]
      constructor
      · rintro (_ | _ | _ | ⟨hmem, h⟩)
        obtain ⟨t, ht, rfl⟩ := List.mem_map.1 hmem
        obtain ⟨a, ha, hb⟩ := (ih t ht).1 h
        exact ⟨a, .elem ht ha, hb⟩
      · rintro ⟨a, _ | _ | _ | ⟨ht, ha⟩, hb⟩
        exact .elem (List.mem_map_of_mem ht) ((ih _ ht).2 ⟨a, ha, hb⟩)

/-- The function that takes arguments one by one, and unit if there are none. -/
def curried (params : List (Mono ν)) (result : Mono ν) : Mono ν :=
  match params with
  | [] => .fn (.prim "Unit") result
  | params => params.foldr .fn result

theorem bind_curried (f : ν → Mono μ) (ts : List (Mono ν)) (t : Mono ν) :
    (curried ts t).bind f = curried (ts.map (bind f)) (t.bind f) := by
  have hfoldr : ∀ us : List (Mono ν),
      (us.foldr .fn t).bind f = (us.map (bind f)).foldr .fn (t.bind f) := by
    intro us
    induction us with
    | nil => rfl
    | cons u us ih => rw [List.foldr_cons, bind, ih, List.map_cons, List.foldr_cons]
  cases ts with
  | nil => rfl
  | cons u us => exact hfoldr (u :: us)

end Mono

/-- Schemes: types over names that are free and names that are bound. -/
abbrev Poly := Mono (Int ⊕ Int)

namespace Poly

/-- A type is what a scheme is with types for its bound names. -/
def Instance (p : Poly) (τ : Mono Int) : Prop := ∃ r : Int → Mono Int, τ = p.bind (Sum.elim .var r)

/-- A name is free in a scheme. -/
def Free (p : Poly) (a : Int) : Prop := p.Occurs (.inl a)

/-- The scheme that binds no names. -/
def mono (τ : Mono Int) : Poly := τ.bind fun a => .var (.inl a)

/-- Binds some names of a type. -/
def quantify (A : List Int) (τ : Mono Int) : Poly :=
  τ.bind fun a => .var (if a ∈ A then .inr a else .inl a)

/-- Every instance of the second scheme is one of the first. -/
def Above (p q : Poly) : Prop := ∀ τ, q.Instance τ → p.Instance τ

theorem Above.refl (p : Poly) : p.Above p := fun _ h => h

/-- A name that is free in a scheme is free in every scheme below it, because it occurs in all
instances. -/
theorem Above.free {p q : Poly} (h : p.Above q) {a : Int} (ha : p.Free a) : q.Free a := by
  obtain ⟨r, hr⟩ := h _ ⟨fun _ => .prim "Unit", rfl⟩
  have hocc : (p.bind (Sum.elim .var r)).Occurs a := Mono.occurs_bind.2 ⟨_, ha, .var⟩
  rw [← hr] at hocc
  obtain ⟨b, hb, hab⟩ := Mono.occurs_bind.1 hocc
  cases b with
  | inl b =>
      cases hab
      exact hb
  | inr b => cases hab

theorem instance_mono {τ ρ : Mono Int} : (mono τ).Instance ρ ↔ ρ = τ := by
  unfold Instance mono
  simp only [Mono.bind_bind, Mono.bind, Sum.elim_inl, Mono.bind_var]
  exact ⟨fun ⟨_, h⟩ => h, fun h => ⟨.var, h⟩⟩

theorem free_mono {τ : Mono Int} {a : Int} : (mono τ).Free a ↔ τ.Occurs a := by
  unfold Free mono
  rw [Mono.occurs_bind]
  constructor
  · rintro ⟨b, hb, ⟨⟩⟩
    exact hb
  · exact fun h => ⟨a, h, .var⟩

/-- The instances of a closed type replace the names it is closed over. -/
theorem instance_quantify {A : List Int} {τ ρ : Mono Int} :
    (quantify A τ).Instance ρ ↔
      ∃ r : Int → Mono Int, ρ = τ.bind fun a => if a ∈ A then r a else .var a := by
  unfold Instance quantify
  refine exists_congr fun r => ?_
  rw [Mono.bind_bind]
  have hfun : (fun a : Int => Mono.bind (Sum.elim Mono.var r)
      (.var (if a ∈ A then Sum.inr a else Sum.inl a) : Poly)) =
      fun a => if a ∈ A then r a else .var a := by
    funext a
    split <;> rfl
  rw [hfun]

end Poly

/-- The schemes of the names in scope. -/
abbrev Context := String → Option Poly

namespace Context

/-- Gives a name a scheme. -/
def bind (Γ : Context) (name : String) (p : Poly) : Context :=
  fun x => if x = name then some p else Γ x

/-- Gives several names types. -/
def bindAll (Γ : Context) (names : List String) (τs : List (Mono Int)) : Context :=
  (names.zip τs).foldl (fun Γ entry => Γ.bind entry.1 (.mono entry.2)) Γ

/-- A name is free in the scheme of some name in scope. -/
def Free (Γ : Context) (a : Int) : Prop := ∃ x p, Γ x = some p ∧ p.Free a

/-- The first context has a scheme above that of the second for each name. -/
def Above (Γ Δ : Context) : Prop := ∀ x, Option.Rel Poly.Above (Γ x) (Δ x)

theorem Above.refl (Γ : Context) : Γ.Above Γ := by
  intro x
  cases Γ x with
  | none => exact .none
  | some p => exact .some (.refl p)

theorem Above.bind {Γ Δ : Context} (h : Γ.Above Δ) (name : String) {p q : Poly} (hpq : p.Above q) :
    (Γ.bind name p).Above (Δ.bind name q) := by
  intro x
  unfold Context.bind
  split
  · exact .some hpq
  · exact h x

theorem Above.bindAll {Γ Δ : Context} (h : Γ.Above Δ) (names : List String)
    (τs : List (Mono Int)) : (Γ.bindAll names τs).Above (Δ.bindAll names τs) := by
  unfold Context.bindAll
  generalize names.zip τs = entries
  induction entries generalizing Γ Δ with
  | nil => exact h
  | cons entry entries ih => exact ih (h.bind entry.1 (.refl _))

theorem Above.free {Γ Δ : Context} (h : Γ.Above Δ) {a : Int} (ha : Γ.Free a) : Δ.Free a := by
  obtain ⟨x, p, hp, ha⟩ := ha
  have hx := h x
  rw [hp] at hx
  cases hq : Δ x with
  | none => rw [hq] at hx; cases hx
  | some q =>
      rw [hq] at hx
      cases hx with
      | some hpq => exact ⟨x, q, hq, hpq.free ha⟩

end Context

/-- The type of constants of a kind. -/
def literalType? : LiteralKind → Option (Mono Int)
  | .int => some (.prim "Int")
  | .bool => some (.prim "Bool")
  | .string => some (.prim "String")
  | .unit => some (.prim "Unit")
  | .other _ => none

mutual

/-- A type over numbers as one of unknowns of these numbers. -/
def Mono.toTy : Mono Int → Ty
  | .var a => .var ⟨a, 0⟩
  | .prim name => .prim name
  | .fn p r => .fn p.toTy r.toTy
  | .tuple ts => .tuple (Mono.toTyAll ts)

/-- Several types over numbers, as types of unknowns. -/
def Mono.toTyAll : List (Mono Int) → List Ty
  | [] => []
  | t :: ts => t.toTy :: Mono.toTyAll ts

end

mutual

/-- An expression has a type. -/
inductive HasType : Context → Expr → Mono Int → Prop where
  | literal {Γ : Context} {span : Span} {kind : LiteralKind} {value : String} {τ : Mono Int} :
      literalType? kind = some τ → HasType Γ (.literal span kind value) τ
  | var {Γ : Context} {span : Span} {name : String} {p : Poly} {τ : Mono Int} :
      Γ name = some p → p.Instance τ → HasType Γ (.var span name) τ
  | call {Γ : Context} {span : Span} {f : Expr} {args : List Expr} {τs : List (Mono Int)}
      {τ : Mono Int} :
      HasType Γ f (.curried τs τ) → HasTypes Γ args τs → HasType Γ (.call span f args) τ
  | binary {Γ : Context} {span : Span} {op : String} {l r : Expr} {σ τ : Mono Int} :
      binaryRule? op = some (.typed σ.toTy τ.toTy) → HasType Γ l σ → HasType Γ r σ →
      HasType Γ (.binary span op l r) τ
  | unary {Γ : Context} {span : Span} {op : String} {x : Expr} {τ : Mono Int} :
      unaryType? op = some τ.toTy → HasType Γ x τ → HasType Γ (.unary span op x) τ
  | cond {Γ : Context} {span : Span} {c t f : Expr} {τ : Mono Int} :
      HasType Γ c (.prim "Bool") → HasType Γ t τ → HasType Γ f τ → HasType Γ (.cond span c t f) τ
  | lambda {Γ : Context} {span : Span} {params : List Param} {body : Expr} {τs : List (Mono Int)}
      {τ : Mono Int} : params.length = τs.length →
      HasType (Γ.bindAll (params.map (·.name)) τs) body τ →
      HasType Γ (.lambda span params body) (.curried τs τ)
  | tuple {Γ : Context} {span : Span} {xs : List Expr} {τs : List (Mono Int)} :
      HasTypes Γ xs τs → HasType Γ (.tuple span xs) (.tuple τs)
  | letIn {Γ : Context} {span : Span} {name : String} {value body : Expr} {σ τ : Mono Int}
      {A : List Int} : HasType Γ value σ → (∀ a ∈ A, ¬ Γ.Free a) →
      HasType (Γ.bind name (.quantify A σ)) body τ →
      HasType Γ (.letIn span name false none value body) τ
  | letRec {Γ : Context} {span : Span} {name : String} {value body : Expr} {σ τ : Mono Int}
      {A : List Int} : HasType (Γ.bind name (.mono σ)) value σ → (∀ a ∈ A, ¬ Γ.Free a) →
      HasType (Γ.bind name (.quantify A σ)) body τ →
      HasType Γ (.letIn span name true none value body) τ

/-- Several expressions have several types. -/
inductive HasTypes : Context → List Expr → List (Mono Int) → Prop where
  | nil {Γ : Context} : HasTypes Γ [] []
  | cons {Γ : Context} {x : Expr} {xs : List Expr} {τ : Mono Int} {τs : List (Mono Int)} :
      HasType Γ x τ → HasTypes Γ xs τs → HasTypes Γ (x :: xs) (τ :: τs)

end

theorem HasTypes.cons_iff {Γ : Context} {x : Expr} {xs : List Expr} {τ : Mono Int}
    {τs : List (Mono Int)} : HasTypes Γ (x :: xs) (τ :: τs) ↔ HasType Γ x τ ∧ HasTypes Γ xs τs :=
  ⟨fun h => by cases h with | cons h hs => exact ⟨h, hs⟩, fun ⟨h, hs⟩ => .cons h hs⟩

mutual

/-- What has a type in a context has it in every context above. -/
theorem HasType.weaken {Γ Δ : Context} {x : Expr} {τ : Mono Int} (hΓ : Γ.Above Δ) :
    HasType Δ x τ → HasType Γ x τ
  | .literal h => .literal h
  | @HasType.var _ _ name q _ hq hτ => by
      have hx := hΓ name
      rw [hq] at hx
      cases hp : Γ name with
      | none => rw [hp] at hx; cases hx
      | some p =>
          rw [hp] at hx
          cases hx with
          | some hpq => exact .var hp (hpq τ hτ)
  | .call hf hargs => .call (hf.weaken hΓ) (hargs.weaken hΓ)
  | .binary hop hl hr => .binary hop (hl.weaken hΓ) (hr.weaken hΓ)
  | .unary hop hx => .unary hop (hx.weaken hΓ)
  | .cond hc ht hf => .cond (hc.weaken hΓ) (ht.weaken hΓ) (hf.weaken hΓ)
  | .lambda hlen hbody => .lambda hlen (hbody.weaken (hΓ.bindAll _ _))
  | .tuple hxs => .tuple (hxs.weaken hΓ)
  | .letIn hvalue hA hbody =>
      .letIn (hvalue.weaken hΓ) (fun a ha hfree => hA a ha (hΓ.free hfree))
        (hbody.weaken (hΓ.bind _ (.refl _)))
  | .letRec hvalue hA hbody =>
      .letRec (hvalue.weaken (hΓ.bind _ (.refl _))) (fun a ha hfree => hA a ha (hΓ.free hfree))
        (hbody.weaken (hΓ.bind _ (.refl _)))

theorem HasTypes.weaken {Γ Δ : Context} {xs : List Expr} {τs : List (Mono Int)}
    (hΓ : Γ.Above Δ) : HasTypes Δ xs τs → HasTypes Γ xs τs
  | .nil => .nil
  | .cons hx hxs => .cons (hx.weaken hΓ) (hxs.weaken hΓ)

end

end Milner

/-- The expressions of the core language: constants, names, calls, functions, definitions,
conditionals, tuples and operators, without annotations and without comparisons of any type. -/
inductive Expr.Core : Expr → Prop where
  | literal (span : Span) {kind : LiteralKind} (value : String) :
      (Milner.literalType? kind).isSome = true → Core (.literal span kind value)
  | var (span : Span) (name : String) : Core (.var span name)
  | call (span : Span) {f : Expr} {args : List Expr} : Core f → (∀ x ∈ args, Core x) →
      Core (.call span f args)
  | binary (span : Span) {op : String} {l r : Expr} : op ∉ ["==", "!="] → Core l → Core r →
      Core (.binary span op l r)
  | unary (span : Span) (op : String) {x : Expr} : Core x → Core (.unary span op x)
  | cond (span : Span) {c t f : Expr} : Core c → Core t → Core f → Core (.cond span c t f)
  | lambda (span : Span) {params : List Param} {body : Expr} : (∀ p ∈ params, p.typed = none) →
      Core body → Core (.lambda span params body)
  | letIn (span : Span) (name : String) (isRec : Bool) {value body : Expr} : Core value →
      Core body → Core (.letIn span name isRec none value body)
  | tuple (span : Span) {xs : List Expr} : (∀ x ∈ xs, Core x) → Core (.tuple span xs)

end RowTypes
