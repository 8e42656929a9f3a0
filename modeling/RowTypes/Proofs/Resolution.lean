import RowTypes.Proofs.Renumbering
import RowTypes.Proofs.Runs
import RowTypes.Registry.Resolve

/-!
# Resolving at another time

An annotation is resolved against the definitions made so far, and the unknowns it needs are taken
from the supply.  So the same declaration, resolved earlier or later, is resolved with other numbers
and against other definitions.  The numbers make no difference but that of `Alike`: the two runs
give out numbers in the same order, and a number given out by one corresponds to the number given
out by the other at the same moment.  The definitions make a difference in one point only.  A name
that is not defined is allowed, and a name that is defined must have as many arguments as it has
parameters; where the two sides agree on that, they agree on everything.

Where resolving fails, it complains about the annotation or about a name in it (`Refused`).
-/

namespace RowTypes

namespace TyExpr

mutual

/-- The names that an annotation refers to, with the numbers of their arguments. -/
def refs : TyExpr → List (String × Nat)
  | .missing | .ref _ _ | .lit _ _ => []
  | .name _ n args => (n, args.length) :: refsAll args
  | .fn _ p r => p.refs ++ r.refs
  | .record _ fs _ => refsFields fs
  | .tuple _ es | .union _ es | .inter _ es => refsAll es

def refsAll : List TyExpr → List (String × Nat)
  | [] => []
  | e :: es => e.refs ++ refsAll es

def refsFields : List (String × TyExpr) → List (String × Nat)
  | [] => []
  | (_, e) :: fs => e.refs ++ refsFields fs

end

end TyExpr

/-- A name may stand with a number of arguments: it is not defined, or has as many parameters. -/
def Registry.Allows (r : Registry) (name : String) (arity : Nat) : Prop :=
  ∀ d, r.lookup? name = some d → d.params.length = arity

/-- The numbers that two supplies have given out since two moments, the first with the first, the
second with the second, and so on. -/
def Since (c c' n : Nat) (a b : Int) : Prop :=
  ∃ i : Nat, i < n ∧ a = (c : Int) + i + 1 ∧ b = (c' : Int) + i + 1

theorem oneToOne_since (c c' n : Nat) : OneToOne (Since c c' n) := by
  rintro a b a' b' ⟨i, -, rfl, rfl⟩ ⟨j, -, rfl, rfl⟩
  omega

theorem Since.mono {c c' m n : Nat} (hmn : m ≤ n) (a b : Int) (h : Since c c' m a b) :
    Since c c' n a b := by
  obtain ⟨i, hi, ha, hb⟩ := h
  exact ⟨i, Nat.lt_of_lt_of_le hi hmn, ha, hb⟩

/-- Two runs end in the same way, and results correspond. -/
inductive SameEnd {α β : Type} (R : α → β → Prop) :
    Except Diagnostic α → Except Diagnostic β → Prop
  | ok {a : α} {b : β} : R a b → SameEnd R (.ok a) (.ok b)
  | error (d d' : Diagnostic) : SameEnd R (.error d) (.error d')

namespace Resolve

open Ty

variable {α β α' β' : Type} {c c' m n : Nat}

/-- Two runs have made as many unknowns since two moments, and entered them under the same
names. -/
structure InStep (c c' n : Nat) (s s' : Resolving) : Prop where
  count : s.supply.count = c + n
  count' : s'.supply.count = c' + n
  vars : Table.Paired (TyVar.Alike (Since c c' n)) s.vars s'.vars

/-- Two runs that start in step end in the same way and in step. -/
def Parallel (c c' n : Nat) (R : Nat → α → β → Prop) (x : Resolve α) (y : Resolve β) : Prop :=
  ∀ s s' : Resolving, InStep c c' n s s' → ∃ m, n ≤ m ∧
    InStep c c' m (x.run s).2 (y.run s').2 ∧ SameEnd (R m) (x.run s).1 (y.run s').1

variable {R : Nat → α → β → Prop} {R' : Nat → α' → β' → Prop}

theorem parallel_pure {a : α} {b : β} (h : R n a b) : Parallel c c' n R (pure a) (pure b) :=
  fun _ _ hs => ⟨n, Nat.le_refl n, hs, .ok h⟩

theorem parallel_throw (d d' : Diagnostic) : Parallel c c' n R (throw d) (throw d') :=
  fun _ _ hs => ⟨n, Nat.le_refl n, hs, .error d d'⟩

theorem Parallel.bind {x : Resolve α} {y : Resolve β} {f : α → Resolve α'} {g : β → Resolve β'}
    (h : Parallel c c' n R x y)
    (hfg : ∀ a b m, n ≤ m → R m a b → Parallel c c' m R' (f a) (g b)) :
    Parallel c c' n R' (x >>= f) (y >>= g) := by
  intro s s' hs
  obtain ⟨m, hm, hs', hend⟩ := h s s' hs
  rw [run_bind, run_bind]
  generalize x.run s = out at hs' hend ⊢
  generalize y.run s' = out' at hs' hend ⊢
  obtain ⟨res, q⟩ := out
  obtain ⟨res', q'⟩ := out'
  cases hend with
  | ok hR =>
      obtain ⟨k, hk, h⟩ := hfg _ _ m hm hR q q' hs'
      exact ⟨k, Nat.le_trans hm hk, h⟩
  | error d d' => exact ⟨m, hm, hs', .error d d'⟩

/-- Looking at the states changes neither. -/
theorem parallel_get {f : Resolving → Resolve α} {g : Resolving → Resolve β}
    (h : ∀ s s' : Resolving, InStep c c' n s s' → Parallel c c' n R (f s) (g s')) :
    Parallel c c' n R (get >>= f) (get >>= g) :=
  fun s s' hs => h s s' hs s s' hs

theorem InStep.insert {s s' : Resolving} (h : InStep c c' n s s') (v v' : TyVar) (name : String)
    (hv : v.Alike (Since c c' n) v') :
    InStep c c' n { s with vars := Table.insert name v s.vars }
      { s' with vars := Table.insert name v' s'.vars } :=
  ⟨h.count, h.count', h.vars.insert name hv⟩

theorem parallel_fresh (level : Int) :
    Parallel c c' n (fun m => TyVar.Alike (Since c c' m)) (fresh level) (fresh level) := by
  intro s s' hs
  refine ⟨n + 1, Nat.le_succ n, ⟨?_, ?_, ?_⟩, .ok ⟨⟨n, Nat.lt_succ_self n, ?_, ?_⟩, rfl⟩⟩
  · show s.supply.count + 1 = c + (n + 1)
    rw [hs.count, Nat.add_assoc]
  · show s'.supply.count + 1 = c' + (n + 1)
    rw [hs.count', Nat.add_assoc]
  · exact hs.vars.imp fun _ _ hv => hv.mono (Since.mono (Nat.le_succ n))
  · show (s.supply.count : Int) + 1 = c + n + 1
    rw [hs.count]
    push_cast
    rfl
  · show (s'.supply.count : Int) + 1 = c' + n + 1
    rw [hs.count']
    push_cast
    rfl

/-- An unknown is entered under a name. -/
theorem parallel_enter {v w : TyVar} (name : String) (h : v.Alike (Since c c' n) w) :
    Parallel c c' n (fun _ _ _ => True)
      (modify fun s : Resolving => { s with vars := Table.insert name v s.vars } : Resolve PUnit)
      (modify fun s : Resolving => { s with vars := Table.insert name w s.vars } :
        Resolve PUnit) :=
  fun _ _ hs => ⟨n, Nat.le_refl n, hs.insert v w name h, .ok trivial⟩

theorem parallel_typeVar (rules : ScopeRules) (span : Span) (name : String) :
    Parallel c c' n (fun m => Alike (Since c c' m)) (typeVar rules span name)
      (typeVar rules span name) := by
  unfold typeVar
  refine parallel_get fun s s' hs => ?_
  have hget := hs.vars.get? name
  generalize Table.get? name s.vars = x at hget ⊢
  generalize Table.get? name s'.vars = x' at hget ⊢
  cases hget with
  | some hv => exact parallel_pure (.var hv)
  | none =>
      dsimp only
      split
      · exact parallel_throw _ _
      · refine (parallel_fresh rules.level).bind fun v w m _ hv => ?_
        exact (parallel_enter name hv).bind fun _ _ k hk _ =>
          parallel_pure (.var (hv.mono (Since.mono hk)))

section Resolving

variable {r r' : Registry} {rules : ScopeRules}

theorem parallel_reference {e : TyExpr} {name : String} {ts ts' : List Ty}
    (hforward : rules.forward = true) (hallows : r.Allows name ts.length ↔ r'.Allows name ts.length)
    (hts : AlikeAll (Since c c' n) ts ts') :
    Parallel c c' n (fun m => Alike (Since c c' m)) (reference r rules e name ts)
      (reference r' rules e name ts') := by
  -- On either side the reference stands as it is, or is refused.
  have hend : ∀ {r : Registry} {us : List Ty}, us.length = ts.length →
      (r.Allows name ts.length → reference r rules e name us = pure (.named name us)) ∧
      (¬ r.Allows name ts.length → ∃ d, reference r rules e name us = throw d) := by
    intro r us hlen
    unfold reference Registry.Allows
    rw [hforward]
    cases r.lookup? name with
    | none => exact ⟨fun _ => rfl, fun h => absurd nofun h⟩
    | some d =>
        dsimp only
        rw [hlen]
        by_cases h : d.params.length = ts.length
        · rw [if_neg (not_not.2 h)]
          refine ⟨fun _ => rfl, fun h' => absurd ?_ h'⟩
          rintro _ ⟨⟩
          exact h
        · rw [if_pos h]
          exact ⟨fun h' => absurd (h' d rfl) h, fun _ => ⟨_, rfl⟩⟩
  by_cases h : r.Allows name ts.length
  · rw [(hend rfl).1 h, (hend hts.length_eq.symm).1 (hallows.1 h)]
    exact parallel_pure (.named name hts)
  · obtain ⟨d, hd⟩ := (hend rfl).2 h
    obtain ⟨d', hd'⟩ := (hend hts.length_eq.symm).2 fun h' => h (hallows.2 h')
    rw [hd, hd']
    exact parallel_throw d d'

mutual

/-- An annotation is resolved in the same way on both sides, if they agree on the names that it
refers to. -/
theorem parallel_resolve (hforward : rules.forward = true) : ∀ {e : TyExpr} {n : Nat},
    (∀ ref ∈ e.refs, r.Allows ref.1 ref.2 ↔ r'.Allows ref.1 ref.2) →
    Parallel c c' n (fun m => Alike (Since c c' m)) (resolve r rules e) (resolve r' rules e)
  | .missing, n, _ => by
      rw [resolve, resolve]
      exact parallel_throw _ _
  | .name span name args, n, h => by
      rw [resolve, resolve]
      split
      · next t ht =>
          split
          · unfold Ty.primitive? at ht
            split at ht
            · cases ht
              exact parallel_pure (.prim name)
            · cases ht
          · exact parallel_throw _ _
      · rw [TyExpr.refs, List.forall_mem_cons] at h
        refine (parallel_resolveAll hforward h.2).bind fun ts ts' m _ hts => ?_
        refine parallel_reference hforward ?_ hts.1
        rw [hts.2]
        exact h.1
  | .ref span name, n, _ => by
      rw [resolve, resolve]
      exact parallel_typeVar rules span name
  | .fn _ p q, n, h => by
      rw [resolve, resolve]
      rw [TyExpr.refs, List.forall_mem_append] at h
      refine (parallel_resolve hforward h.1).bind fun p p' m _ hp => ?_
      refine (parallel_resolve hforward h.2).bind fun q q' k hk hq => ?_
      exact parallel_pure (.fn (hp.mono (Since.mono hk)) hq)
  | .record span fields isOpen, n, h => by
      rw [resolve, resolve]
      refine (parallel_resolveFields hforward h .nil).bind fun fs fs' m _ hfs => ?_
      dsimp only
      split
      · rw [← bind_pure_comp, bind_assoc, bind_assoc]
        refine (parallel_fresh rules.level).bind fun v w k hk hv => ?_
        exact parallel_pure (.record (hfs.mono (Since.mono hk)) (.some hv))
      · exact parallel_pure (.record hfs .none)
  | .tuple _ es, n, h => by
      rw [resolve, resolve]
      exact (parallel_resolveAll hforward h).bind fun ts ts' m _ hts =>
        parallel_pure (.tuple hts.1)
  | .union span es, n, h => by
      rw [resolve, resolve]
      refine (parallel_resolveAll hforward h).bind fun ts ts' m _ hts => ?_
      have hunion := hts.1.unionOf? (oneToOne_since c c' m)
      generalize Ty.unionOf? ts = x at hunion ⊢
      generalize Ty.unionOf? ts' = x' at hunion ⊢
      cases hunion with
      | none => exact parallel_throw _ _
      | some ht => exact parallel_pure ht
  | .inter span es, n, h => by
      rw [resolve, resolve]
      refine (parallel_resolveAll hforward h).bind fun ts ts' m _ hts => ?_
      have hinter := hts.1.interOf? (oneToOne_since c c' m)
      generalize Ty.interOf? ts = x at hinter ⊢
      generalize Ty.interOf? ts' = x' at hinter ⊢
      cases hinter with
      | none => exact parallel_throw _ _
      | some ht => exact parallel_pure ht
  | .lit _ value, n, _ => by
      rw [resolve, resolve]
      exact parallel_pure (.lit value)

theorem parallel_resolveAll (hforward : rules.forward = true) : ∀ {es : List TyExpr} {n : Nat},
    (∀ ref ∈ TyExpr.refsAll es, r.Allows ref.1 ref.2 ↔ r'.Allows ref.1 ref.2) →
    Parallel c c' n (fun m ts ts' => AlikeAll (Since c c' m) ts ts' ∧ ts.length = es.length)
      (resolveAll r rules es) (resolveAll r' rules es)
  | [], n, _ => by
      rw [resolveAll, resolveAll]
      exact parallel_pure ⟨.nil, rfl⟩
  | e :: es, n, h => by
      rw [resolveAll, resolveAll]
      rw [TyExpr.refsAll, List.forall_mem_append] at h
      refine (parallel_resolve hforward h.1).bind fun t t' m _ ht => ?_
      refine (parallel_resolveAll hforward h.2).bind fun ts ts' k hk hts => parallel_pure ?_
      refine ⟨.cons (ht.mono (Since.mono hk)) hts.1, ?_⟩
      rw [List.length_cons, List.length_cons, hts.2]

theorem parallel_resolveFields (hforward : rules.forward = true) {whole : TyExpr} :
    ∀ {fs : List (String × TyExpr)} {n : Nat} {done done' : List (String × Ty)},
    (∀ ref ∈ TyExpr.refsFields fs, r.Allows ref.1 ref.2 ↔ r'.Allows ref.1 ref.2) →
    AlikeFields (Since c c' n) done done' →
    Parallel c c' n (fun m => AlikeFields (Since c c' m)) (resolveFields r rules whole done fs)
      (resolveFields r' rules whole done' fs)
  | [], n, _, _, _, hdone => by
      rw [resolveFields, resolveFields]
      exact parallel_pure hdone
  | (name, e) :: fs, n, done, done', h, hdone => by
      rw [resolveFields, resolveFields]
      rw [TyExpr.refsFields, List.forall_mem_append] at h
      rw [(alikeFields_iff_paired.1 hdone).has_eq name]
      split
      · exact parallel_throw _ _
      · refine (parallel_resolve hforward h.1).bind fun t t' m hm ht => ?_
        exact parallel_resolveFields hforward h.2 (.insert name ht (hdone.mono (Since.mono hm)))

end

end Resolving

end Resolve

/-! ## What an annotation is refused for -/

namespace Resolve

variable {α β : Type} {r : Registry} {rules : ScopeRules}

/-- What resolving complains about: an annotation that is not there or makes no type, and a name
that is not known. -/
inductive Refused : Diagnostic → Prop
  | absent (message : String) (span : Span) : Refused ⟨.internal message none, span⟩
  | invalid (text reason : String) (span : Span) : Refused ⟨.invalidTyExpr text reason, span⟩
  | typeVar (name : String) (span : Span) : Refused ⟨.undefinedTypeVariable name, span⟩
  | typeName (name : String) (span : Span) : Refused ⟨.undefinedConstructor name, span⟩

/-- A run that fails only as annotations are refused. -/
def Refuses (m : Resolve α) : Prop := ∀ s, Ends m s (fun _ _ => True) fun d _ => Refused d

theorem refuses_pure (a : α) : Refuses (pure a) := fun _ => ends_pure trivial

theorem refuses_throw {d : Diagnostic} (h : Refused d) : Refuses (throw d : Resolve α) :=
  fun _ => ends_throw h

theorem Refuses.bind {m : Resolve α} {f : α → Resolve β} (h : Refuses m)
    (hf : ∀ a, Refuses (f a)) : Refuses (m >>= f) :=
  fun s => Ends.bind ((h s).imp (fun a q _ => hf a q) fun _ _ h => h)

theorem refuses_fresh (level : Int) : Refuses (fresh level) := fun _ => ends_lift trivial

theorem refuses_typeVar (span : Span) (name : String) : Refuses (typeVar rules span name) := by
  unfold typeVar
  refine fun s => ends_get ?_
  split
  · exact ends_pure trivial
  · split
    · exact Ends.bind (ends_throw (.typeVar name span))
    · refine (refuses_fresh _).bind (fun v => ?_) s
      exact Refuses.bind (fun _ => ends_lift trivial) fun _ => refuses_pure _

theorem refuses_reference (e : TyExpr) (name : String) (args : List Ty) :
    Refuses (reference r rules e name args) := by
  unfold reference
  split
  · split
    · exact refuses_pure _
    · exact refuses_throw (.typeName name _)
  · split
    · exact refuses_throw (.invalid _ _ _)
    · exact refuses_pure _

mutual

theorem refuses_resolve : ∀ e : TyExpr, Refuses (resolve r rules e)
  | .missing => by
      rw [resolve]
      exact refuses_throw (.absent _ _)
  | .name span name args => by
      rw [resolve]
      split
      · split
        · exact refuses_pure _
        · exact refuses_throw (.invalid _ _ _)
      · exact (refuses_resolveAll args).bind fun ts => refuses_reference _ name ts
  | .ref span name => by
      rw [resolve]
      exact refuses_typeVar span name
  | .fn _ p q => by
      rw [resolve]
      exact (refuses_resolve p).bind fun _ => (refuses_resolve q).bind fun _ => refuses_pure _
  | .record span fields isOpen => by
      rw [resolve]
      refine (refuses_resolveFields _ [] fields).bind fun ts => ?_
      dsimp only
      split
      · exact ((refuses_fresh _).bind fun _ => refuses_pure _).bind fun _ => refuses_pure _
      · exact refuses_pure _
  | .tuple _ es => by
      rw [resolve]
      exact (refuses_resolveAll es).bind fun _ => refuses_pure _
  | .union span es => by
      rw [resolve]
      refine (refuses_resolveAll es).bind fun ts => ?_
      split
      · exact refuses_pure _
      · exact refuses_throw (.invalid _ _ _)
  | .inter span es => by
      rw [resolve]
      refine (refuses_resolveAll es).bind fun ts => ?_
      split
      · exact refuses_pure _
      · exact refuses_throw (.invalid _ _ _)
  | .lit _ value => by
      rw [resolve]
      exact refuses_pure _

theorem refuses_resolveAll : ∀ es : List TyExpr, Refuses (resolveAll r rules es)
  | [] => by
      rw [resolveAll]
      exact refuses_pure _
  | e :: es => by
      rw [resolveAll]
      exact (refuses_resolve e).bind fun _ => (refuses_resolveAll es).bind fun _ => refuses_pure _

theorem refuses_resolveFields (whole : TyExpr) : ∀ (done : List (String × Ty))
    (fs : List (String × TyExpr)), Refuses (resolveFields r rules whole done fs)
  | done, [] => by
      rw [resolveFields]
      exact refuses_pure _
  | done, (name, e) :: fs => by
      rw [resolveFields]
      split
      · exact refuses_throw (.invalid _ _ _)
      · exact (refuses_resolve e).bind fun _ => refuses_resolveFields whole _ fs

end

end Resolve

/-- Two definitions of one name differ in their numbers only. -/
structure Definition.Alike (F : Int → Int → Prop) (d d' : Definition) : Prop where
  name : d.name = d'.name
  params : List.Forall₂ (TyVar.Alike F) d.params d'.params
  body : d.body.Alike F d'.body

namespace Resolve

variable {c c' n : Nat} {r r' : Registry}

theorem parallel_declareParams (span : Span) : ∀ {names : List String} {n : Nat},
    Parallel c c' n
      (fun m vs ws => vs.length = names.length ∧
        List.Forall₂ (TyVar.Alike (Since c c' m)) vs ws)
      (declareParams span names) (declareParams span names)
  | [], n => parallel_pure ⟨rfl, .nil⟩
  | name :: names, n => by
      rw [declareParams]
      refine parallel_get fun s s' hs => ?_
      rw [hs.vars.has_eq name]
      split
      · exact parallel_throw _ _
      · refine (parallel_fresh 0).bind fun v w m _ hv => ?_
        refine (parallel_enter name hv).bind fun _ _ k hk _ => ?_
        refine (parallel_declareParams span).bind fun vs ws l hl hvs => parallel_pure ?_
        refine ⟨?_, .cons (hv.mono (Since.mono (Nat.le_trans hk hl))) hvs.2⟩
        rw [List.length_cons, List.length_cons, hvs.1]

/-- A declaration is resolved in the same way on both sides, if they agree on the names that it
refers to. -/
theorem parallel_definition {d : TypeDecl}
    (h : ∀ ref ∈ d.body.refs, r.Allows ref.1 ref.2 ↔ r'.Allows ref.1 ref.2) :
    Parallel c c' n
      (fun m e e' => e.name = d.name ∧ e.params.length = d.params.length ∧
        e.Alike (Since c c' m) e')
      (definition r d) (definition r' d) := by
  unfold definition
  refine (parallel_declareParams d.span).bind fun vs ws m _ hvs => ?_
  refine (parallel_resolve rfl h).bind fun t t' k hk ht => parallel_pure ?_
  refine ⟨rfl, hvs.1, rfl, ?_, ht⟩
  exact hvs.2.imp fun v w hv => hv.mono (Since.mono hk)

end Resolve

/-! ## Declarations in a session -/

namespace Session

variable {d : TypeDecl} {e : Definition} {err : Diagnostic} {made : Resolving} {s : Session}

theorem run_resolving_ok {α : Type} {vars : Table String TyVar} {m : Resolve α} {a : α}
    (h : m.run { supply := s.supply, vars } = (.ok a, made)) :
    (resolving vars m).run s = (.ok (a, made.vars), { s with supply := made.supply }) := by
  unfold resolving
  dsimp only [ExceptT.run] at h ⊢
  rw [h]

theorem run_resolving_error {α : Type} {vars : Table String TyVar} {m : Resolve α}
    (h : m.run { supply := s.supply, vars } = (.error err, made)) :
    (resolving vars m).run s = (.error err, { s with supply := made.supply }) := by
  unfold resolving
  dsimp only [ExceptT.run] at h ⊢
  rw [h]

theorem run_declare_ok
    (h : (Resolve.definition s.registry d).run { supply := s.supply } = (.ok e, made)) :
    (declare d).run s = (define e).run { s with supply := made.supply } := by
  show (resolving [] (Resolve.definition s.registry d) >>= fun out => define out.1).run s = _
  rw [run_bind, run_resolving_ok h]

theorem run_declare_error
    (h : (Resolve.definition s.registry d).run { supply := s.supply } = (.error err, made)) :
    (declare d).run s = (.error err, { s with supply := made.supply }) := by
  show (resolving [] (Resolve.definition s.registry d) >>= fun out => define out.1).run s = _
  rw [run_bind, run_resolving_error h]

theorem run_define_ok {registry : Registry} (h : s.registry.define e = .ok registry) :
    (define e).run s = (.ok (), { s with registry }) := by
  have hget : (get : ExceptT Diagnostic (StateM Session) Session).run s = (.ok s, s) := rfl
  rw [define, run_bind, hget]
  dsimp only
  rw [h]
  rfl

theorem run_define_error (h : s.registry.define e = .error err) :
    (define e).run s = (.error err, s) := by
  have hget : (get : ExceptT Diagnostic (StateM Session) Session).run s = (.ok s, s) := rfl
  rw [define, run_bind, hget]
  dsimp only
  rw [h]
  rfl

end Session

end RowTypes
