import RowTypes.Proofs.EndingAnalysis
import RowTypes.Proofs.HeadExpansion

/-!
# The search for cycles ends

Before a definition is added, the references at its head are followed through the definitions so far
and the new one.  Each step puts arguments in and may make the type larger, and definitions that are
there already may lead back to each other.  The search ends all the same, because it gives up at a
name that is on its way already: there are no more steps on a way than names.

The search here is the one without a bound.  It has the set of names that it traversed, handed on
from step to step, and one stack for the names on the way, which grows before a step and shrinks
after it, whatever was found there.  The two hold the same names (`Records`), the stack is left as
it was found, and what the search comes to is what the bounded search says (`comesTo_walk`).
-/

namespace RowTypes

/-! ## The search -/

/-- A step back, if there is one. -/
def Trail.popped {α : Type} (t : Trail α) : Trail α := (t.pop?.map (·.2)).getD t

@[simp] theorem Trail.popped_push {α : Type} (t : Trail α) (a : α) : (t.push a).popped = t := by
  rw [popped, pop?_push]
  rfl

namespace Registry

/-- A step of the search, which may not come to an end. It finds a cycle or nothing. -/
abbrev Walk := StateT (Trail String) Option

/-- The first cycle that is found from some types. -/
def firstFound (walk : Ty → Walk (Option (List String))) : List Ty → Walk (Option (List String))
  | [] => pure none
  | t :: ts => do
    match ← walk t with
    | some cycle => pure (some cycle)
    | none => firstFound walk ts

/-- Follows the references at the head of a type, with so many calls below each other, until it
comes to a name that was traversed. -/
def walkWithin (r : Registry) : Nat → List String → Ty → Walk (Option (List String))
  | 0, _, _ => fun _ => none
  | n + 1, traversed, t =>
    match t with
    | .named name args =>
      if name ∈ traversed then do
        let path ← get
        pure (some (path.since name ++ [name]))
      else
        match r.expand? name args with
        | none => pure none
        | some expanded => do
          modify (·.push name)
          let found ← r.walkWithin n (name :: traversed) expanded
          modify (·.popped)
          pure found
    | .inter ts => firstFound (r.walkWithin n traversed) ts
    | .mu _ t => r.walkWithin n traversed t
    | _ => pure none

/-- The names that were traversed are those on the way. -/
def Records (traversed : List String) (trail : Trail String) : Prop :=
  ∀ name, name ∈ traversed ↔ name ∈ trail.items

variable {r : Registry} {traversed : List String} {trail : Trail String} {k : Nat}

/-- What is found below a reference. -/
def cycleAt (r : Registry) (k : Nat) (trail : Trail String) (ref : String × List Ty) :
    Option (List String) :=
  if trail.contains ref.1 then some (trail.since ref.1 ++ [ref.1])
  else (r.expand? ref.1 ref.2).bind fun expanded => r.cycleWithin k (trail.push ref.1) expanded

theorem Records.push (h : Records traversed trail) (name : String) :
    Records (name :: traversed) (trail.push name) := by
  intro other
  rw [List.mem_cons, h, Trail.push, List.mem_append, List.mem_singleton, or_comm]

/-- At a reference the search goes on as it does from what the reference stands for. -/
theorem comesTo_walk_named (h : Records traversed trail) {name : String} {args : List Ty}
    (hnext : name ∉ trail.items → ∀ u, r.expand? name args = some u →
      ComesTo (fun n => r.walkWithin n (name :: traversed) u (trail.push name))
        (r.cycleWithin k (trail.push name) u, trail.push name)) :
    ComesTo (fun n => r.walkWithin n traversed (.named name args) trail)
      (r.cycleAt k trail (name, args), trail) := by
  by_cases hmem : name ∈ trail.items
  · refine (comesTo_some _).call fun n => ?_
    rw [walkWithin]
    rw [if_pos ((h name).2 hmem), cycleAt, Trail.contains, decide_eq_true hmem, if_pos rfl]
    rfl
  · cases hu : r.expand? name args with
    | none =>
        refine (comesTo_some _).call fun n => ?_
        rw [walkWithin]
        rw [if_neg fun htrav => hmem ((h name).1 htrav), hu, cycleAt, Trail.contains,
          decide_eq_false hmem, if_neg Bool.false_ne_true, hu]
        rfl
    | some u =>
        refine ComesTo.call ((hnext hmem u hu).bind
          (g := fun _ out => some (out.1, out.2.popped)) ?_) fun n => ?_
        · rw [cycleAt, Trail.contains, decide_eq_false hmem, if_neg Bool.false_ne_true, hu]
          simp only [Trail.popped_push]
          exact comesTo_some _
        · rw [walkWithin, if_neg fun htrav => hmem ((h name).1 htrav), hu]
          rfl

/-- The members of an intersection are searched one after the other, from the same stack. -/
theorem comesTo_firstFound {ans : Ty → Option (List String)} : ∀ {ts : List Ty},
    (∀ t ∈ ts, ComesTo (fun n => r.walkWithin n traversed t trail) (ans t, trail)) →
      ComesTo (fun n => firstFound (r.walkWithin n traversed) ts trail) (ts.findSome? ans, trail)
  | [], _ => comesTo_some _
  | t :: ts, h => by
      obtain ⟨ht, hts⟩ := List.forall_mem_cons.1 h
      refine ht.bind (g := fun n out => (match out.1 with
        | some cycle => pure (some cycle)
        | none => firstFound (r.walkWithin n traversed) ts : Walk _) out.2) ?_
      rw [List.findSome?_cons]
      cases ans t with
      | some cycle => exact comesTo_some _
      | none => exact comesTo_firstFound hts

theorem findSome?_headRefsAll {α : Type} (f : String × List Ty → Option α) (ts : List Ty) :
    (Ty.headRefsAll ts).findSome? f = ts.findSome? fun t => t.headRefs.findSome? f := by
  induction ts with
  | nil => rfl
  | cons t ts ih =>
      rw [Ty.headRefsAll, List.findSome?_append, ih, List.findSome?_cons]
      cases t.headRefs.findSome? f <;> rfl

mutual

/-- The search goes through intersections and recursive types to the references at the head. -/
theorem comesTo_walk_refs (hrefs : ∀ name args,
      ComesTo (fun n => r.walkWithin n traversed (.named name args) trail)
        (r.cycleAt k trail (name, args), trail)) : ∀ t : Ty,
    ComesTo (fun n => r.walkWithin n traversed t trail)
      (t.headRefs.findSome? (r.cycleAt k trail), trail)
  | .named name args => by
      rw [Ty.headRefs, List.findSome?_singleton]
      exact hrefs name args
  | .inter ts => by
      rw [Ty.headRefs, findSome?_headRefsAll]
      exact (comesTo_firstFound (comesTo_walk_refsAll hrefs ts)).call fun n => rfl
  | .mu _ t => (comesTo_walk_refs hrefs t).call fun n => rfl
  | .var _ | .prim _ | .lit _ | .fn _ _ | .record _ _ | .tuple _ | .union _ =>
      (comesTo_some _).call fun n => rfl

theorem comesTo_walk_refsAll (hrefs : ∀ name args,
      ComesTo (fun n => r.walkWithin n traversed (.named name args) trail)
        (r.cycleAt k trail (name, args), trail)) : ∀ ts : List Ty, ∀ t ∈ ts,
    ComesTo (fun n => r.walkWithin n traversed t trail)
      (t.headRefs.findSome? (r.cycleAt k trail), trail)
  | [] => List.forall_mem_nil _
  | t :: ts =>
      List.forall_mem_cons.2 ⟨comesTo_walk_refs hrefs t, comesTo_walk_refsAll hrefs ts⟩

end

/-- The search ends, with what the bounded search finds and with the stack as it was: the names on
the way are different ones of the registry. -/
theorem comesTo_walk : ∀ {k : Nat} {traversed : List String} {trail : Trail String},
    Records traversed trail → r.OnWay trail → r.names.length < k + trail.items.length → ∀ t : Ty,
    ComesTo (fun n => r.walkWithin n traversed t trail) (r.cycleWithin k trail t, trail)
  | 0, _, _, _, hway, hk, _ => by
      have := hway.length_le
      omega
  | k + 1, traversed, trail, h, hway, hk, t => by
      refine comesTo_walk_refs (fun name args => comesTo_walk_named h fun hnew u hu => ?_) t
      refine comesTo_walk (h.push name) (hway.push hnew hu) ?_ u
      simp only [Trail.push, List.length_append, List.length_singleton]
      omega

/-- The search that a definition has to pass ends. -/
theorem comesTo_cycle? (r : Registry) (d : Definition) :
    ComesTo (fun n => (r.insert d).walkWithin n [d.name] d.body (({} : Trail String).push d.name))
      (r.cycle? d, ({} : Trail String).push d.name) := by
  refine comesTo_walk (fun name => ?_) (onWay_start r d) ?_ d.body
  · simp [Trail.push]
  · simp only [Trail.push, List.nil_append, List.length_singleton, names, Table.keys,
      List.length_map]
    omega

/-! ## What a definition changes -/

/-- A registry has one definition more than another, and nothing worked out. -/
structure Extends (r : Registry) (d : Definition) (r' : Registry) : Prop where
  new : d.name ∉ r.names
  names : r'.names.Perm (d.name :: r.names)
  lookup : ∀ name, r'.lookup? name = if name = d.name then some d else r.lookup? name
  expand : ∀ name args, name ≠ d.name → r'.expand? name args = r.expand? name args
  memo : r'.memo = []

theorem extends_insert {d : Definition} (hnew : r.lookup? d.name = none) :
    r.Extends d (r.insert d) where
  new := fun hmem => by
    rw [names, ← Table.get?_isSome, ← lookup?, hnew] at hmem
    cases hmem
  names := by
    obtain ⟨l, rest, hl, hinsert⟩ := Table.exists_insert_eq d hnew
    rw [names, names, insert, hinsert, hl, Table.keys, Table.keys]
    exact List.perm_middle.map Prod.fst
  lookup := lookup?_insert r d
  expand := fun _ args hne => expand?_insert_of_ne hne args
  memo := rfl

end Registry

namespace Session

/-- A definition that is refused leaves the session as it was, and with it what names stand for and
which forms have been worked out.  One that is not refused is added to the registry. -/
theorem ends_define (d : Definition) (s : Session) :
    Ends (define d) s
      (fun _ q => s.registry.Extends d q.registry ∧ q = { s with registry := q.registry })
      fun _ q => q = s := by
  rw [Ends, run_define]
  cases hdef : s.registry.define d with
  | error err => rfl
  | ok r =>
      obtain ⟨hnew, -, rfl⟩ := Registry.define_eq_ok hdef
      exact ⟨Registry.extends_insert hnew, rfl⟩

/-- The session after some definitions, those that were refused included. -/
def defineAll : List Definition → Session → Session
  | [], s => s
  | d :: ds, s => defineAll ds ((define d).run s).2

/-- What one more definition keeps is kept by any number of them. -/
theorem keeps_defineAll {P : Registry → Prop} (hP : ∀ r d r', Registry.Extends r d r' → P r → P r')
    (ds : List Definition) {s : Session} (h : P s.registry) : P (defineAll ds s).registry := by
  induction ds generalizing s with
  | nil => exact h
  | cons d ds ih =>
      refine ih ?_
      have hends := ends_define d s
      unfold Ends at hends
      split at hends
      · next hrun => rw [hrun]; exact hP _ d _ hends.1 h
      · next hrun => rw [hrun, hends]; exact h

/-- No name is defined twice. -/
theorem nodup_names_defineAll (ds : List Definition) {s : Session} (h : s.registry.names.Nodup) :
    (defineAll ds s).registry.names.Nodup :=
  keeps_defineAll (P := (·.names.Nodup)) (fun _ _ _ hext hr =>
    hext.names.nodup_iff.2 (List.nodup_cons.2 ⟨hext.new, hr⟩)) ds h

/-- Definitions stay, whatever is defined after them. -/
theorem lookup?_defineAll {name : String} {e : Definition} (ds : List Definition) {s : Session}
    (h : s.registry.lookup? name = some e) :
    (defineAll ds s).registry.lookup? name = some e := by
  refine keeps_defineAll (P := (·.lookup? name = some e)) (fun r d r' hext hr => ?_) ds h
  rw [hext.lookup, if_neg ?_, hr]
  rintro rfl
  exact hext.new (Table.get?_isSome.1 (by rw [← Registry.lookup?, hr]; rfl))

/-- Whatever was defined before, and though what is there may go round in a cycle, the search for a
cycle through a new definition ends.  If the definition is refused, all is as it was.  If not, it is
added under its name, no other name changes, and nothing is left worked out. -/
theorem define_all_or_nothing (s : Session) (d : Definition) :
    ComesTo (fun n => (s.registry.insert d).walkWithin n [d.name] d.body
        (({} : Trail String).push d.name))
      (s.registry.cycle? d, ({} : Trail String).push d.name) ∧
    Ends (define d) s
      (fun _ q => s.registry.Extends d q.registry ∧ q = { s with registry := q.registry })
      fun _ q => q = s :=
  ⟨Registry.comesTo_cycle? s.registry d, ends_define d s⟩

/-- A definition that comes back to itself through the parameter of another one, which was not there
when it was made. -/
def entangled : Session :=
  defineAll [{ name := "A", body := .named "F" [.named "A" []] },
    { name := "F", params := [⟨1, 0⟩], body := .var ⟨1, 0⟩ }] {}

example : ((define { name := "G", body := .named "A" [] }).run entangled).1 =
    .error ⟨.circularTypeDefinition "G" ["A", "F", "A"], {}⟩ := by decide +kernel

end Session

end RowTypes
