import RowTypes.Coverage.Analysis
import RowTypes.Proofs.NormalTypes
import RowTypes.Solver.Solve

/-!
# Building that must succeed

A union of nothing does not exist, and neither does an intersection of nothing.  Where one has to be
built all the same, something stands in for it.  The programs here do what those of the same names
do, but they stop there, with nothing: a program that comes to something has not built anything from
nothing.

From canonical types there is always something to build.  So on canonical types every program here
comes to what the one of the same name comes to, and that is canonical again.
-/

namespace RowTypes

namespace Must

/-! ## Substituting -/

mutual

def apply (s : Subst) (t : Ty) : Option Ty :=
  if s.isEmpty then some t else
  match t with
  | .var v => some ((s.lookup? v).getD (.var v))
  | .prim name => some (.prim name)
  | .lit value => some (.lit value)
  | .fn p r => do return .fn (← apply s p) (← apply s r)
  | .record fs none => do return .record (← applyFields s fs) none
  | .record fs (some row) => do
    return (RecordTy.splice (← applyFields s fs) row (s.lookup? row)).toTy
  | .tuple ts => do return .tuple (← applyAll s ts)
  | .union ts => do Ty.unionOf? (← applyAll s ts)
  | .inter ts => do Ty.interOf? (← applyAll s ts)
  | .named name ts => do return .named name (← applyAll s ts)
  | .mu v t => do return .mu v (← apply (s.erase v) t)
termination_by structural t

def applyAll (s : Subst) (ts : List Ty) : Option (List Ty) :=
  match ts with
  | [] => some []
  | t :: ts => do return (← apply s t) :: (← applyAll s ts)
termination_by structural ts

def applyFields (s : Subst) (fs : List (String × Ty)) : Option (List (String × Ty)) :=
  match fs with
  | [] => some []
  | (name, t) :: fs => do return (name, ← apply s t) :: (← applyFields s fs)
termination_by structural fs

end

def after (s first : Subst) : Option Subst := do
  let applied ← first.bindings.foldrM (fun entry acc => do
    return acc.bind entry.2.var (← apply s entry.2.ty)) .empty
  return s.bindings.foldl (fun acc entry =>
    if Table.has entry.1 first.bindings then acc else acc.bind entry.2.var entry.2.ty) applied

def unfold (binder : TyVar) (body : Ty) : Option Ty :=
  apply (.single binder (.mu binder body)) body

def expand? (d : Definition) (args : List Ty) : Option (Option Ty) :=
  if args.length = d.params.length then do
    return some (← apply (.ofList (d.params.zip args)) d.body)
  else return none

def instantiate (s : Scheme) (level : Int) (supply : Supply) : Option (Ty × Supply) :=
  if s.isMono then some (s.body, supply)
  else do
    let (fresh, supply) := Scheme.refresh level s.vars .empty supply
    return (← apply fresh s.body, supply)

section Substituting

variable {s first : Subst} {t : Ty} {ts args : List Ty} {k : Compound}

/-- The empty substitution builds nothing. -/
theorem apply_of_isEmpty (h : s.isEmpty = true) : apply s t = some (s.apply t) := by
  rw [apply.eq_def, if_pos h, Subst.apply_of_isEmpty h]

theorem apply_of_nonempty (h : ¬ s.isEmpty = true → apply s t = some (s.apply t)) :
    apply s t = some (s.apply t) :=
  if hs : s.isEmpty = true then apply_of_isEmpty hs else h hs

theorem apply_of (h : ¬ s.isEmpty = true) : apply s (k.of ts) = (applyAll s ts).bind k.build? := by
  cases k with
  | union =>
      show apply s (.union ts) = (applyAll s ts).bind Ty.unionOf?
      rw [apply, if_neg h]
      rfl
  | inter =>
      show apply s (.inter ts) = (applyAll s ts).bind Ty.interOf?
      rw [apply, if_neg h]
      rfl

theorem applyAll_of_forall (h : ∀ t ∈ ts, apply s t = some (s.apply t)) :
    applyAll s ts = some (ts.map s.apply) := by
  induction ts with
  | nil => rfl
  | cons t ts ih =>
      obtain ⟨ht, hts⟩ := List.forall_mem_cons.1 h
      rw [applyAll, ht, ih hts]
      rfl

theorem applyFields_of_forall {fs : List (String × Ty)}
    (h : ∀ f ∈ fs, apply s f.2 = some (s.apply f.2)) :
    applyFields s fs = some (fs.map fun f => (f.1, s.apply f.2)) := by
  induction fs with
  | nil => rfl
  | cons f fs ih =>
      obtain ⟨hf, hfs⟩ := List.forall_mem_cons.1 h
      rw [applyFields, hf, ih hfs]
      rfl

theorem canonical_splice {fs : List (String × Ty)} {row : TyVar} {bound : Option Ty}
    (hfs : ∀ f ∈ fs, f.2.Canonical) (hbound : ∀ u, bound = some u → u.Canonical) :
    (RecordTy.splice fs row bound).toTy.Canonical :=
  Discipline.ok_splice (D := normality) (w := (0 : Nat)) (.record _ hfs) fun u hu =>
    .inl ⟨trivial, hbound u hu⟩

theorem apply_compound (hcompound : (k.of ts).Canonical)
    (ih : ∀ t ∈ ts, apply s t = some (s.apply t) ∧ (s.apply t).Canonical) :
    apply s (k.of ts) = some (s.apply (k.of ts)) ∧ (s.apply (k.of ts)).Canonical := by
  by_cases hs : s.isEmpty = true
  · exact ⟨apply_of_isEmpty hs, by rwa [Subst.apply_of_isEmpty hs]⟩
  · have hne : ts.map s.apply ≠ [] := by
      have hlen := (Ty.canonical_of.1 hcompound).1
      exact List.ne_nil_of_length_pos (by rw [List.length_map]; omega)
    have hall : ∀ u ∈ ts.map s.apply, u.Canonical := List.forall_mem_map.2 fun t ht => (ih t ht).2
    rw [apply_of hs, applyAll_of_forall fun t ht => (ih t ht).1, Subst.apply_of (by simpa using hs)]
    exact ⟨Compound.build?_eq_build hne hall, Compound.canonical_build hne hall⟩

/-- Substituting canonical types into a canonical type builds nothing from nothing. -/
theorem apply_of_get? (h : t.Canonical) : ∀ {s : Subst},
    (∀ id u, s.get? id = some u → u.Canonical) →
    apply s t = some (s.apply t) ∧ (s.apply t).Canonical := by
  induction h with
  | var v =>
      intro s hs
      constructor
      · rw [apply, Subst.apply]
        split <;> rfl
      · rw [Subst.apply_var]
        cases hv : s.get? v.id with
        | none => exact .var v
        | some u => exact hs v.id u hv
  | prim name =>
      intro s _
      rw [apply, Subst.apply_prim]
      exact ⟨by split <;> rfl, .prim name⟩
  | lit value =>
      intro s _
      rw [apply, Subst.apply_lit]
      exact ⟨by split <;> rfl, .lit value⟩
  | fn _ _ ihp ihr =>
      intro s hs
      refine ⟨apply_of_nonempty fun hempty => ?_, ?_⟩
      · rw [apply, if_neg hempty, (ihp hs).1, (ihr hs).1, Subst.apply_fn]
        rfl
      · rw [Subst.apply_fn]
        exact .fn (ihp hs).2 (ihr hs).2
  | @record fs row _ ih =>
      intro s hs
      have hall : ∀ f ∈ fs.map fun f => (f.1, s.apply f.2), f.2.Canonical :=
        List.forall_mem_map.2 fun f hf => (ih f hf hs).2
      have hfields := applyFields_of_forall fun f hf => (ih f hf hs).1
      cases row with
      | none =>
          refine ⟨apply_of_nonempty fun hempty => ?_, ?_⟩
          · rw [apply, if_neg hempty, hfields, Subst.apply_closed]
            rfl
          · rw [Subst.apply_closed]
            exact .record none hall
      | some row =>
          refine ⟨apply_of_nonempty fun hempty => ?_, ?_⟩
          · rw [apply, if_neg hempty, hfields, Subst.apply_open]
            rfl
          · rw [Subst.apply_open]
            exact canonical_splice hall fun u hu => hs row.id u hu
  | tuple _ ih =>
      intro s hs
      refine ⟨apply_of_nonempty fun hempty => ?_, ?_⟩
      · rw [apply, if_neg hempty, applyAll_of_forall fun t ht => (ih t ht hs).1, Subst.apply_tuple]
        rfl
      · rw [Subst.apply_tuple]
        exact .tuple (List.forall_mem_map.2 fun t ht => (ih t ht hs).2)
  | union hlen hts hflat hdistinct ih =>
      intro s hs
      exact apply_compound (k := .union) (.union hlen hts hflat hdistinct) fun t ht => ih t ht hs
  | inter hlen hts hflat hdistinct ih =>
      intro s hs
      exact apply_compound (k := .inter) (.inter hlen hts hflat hdistinct) fun t ht => ih t ht hs
  | named name _ ih =>
      intro s hs
      refine ⟨apply_of_nonempty fun hempty => ?_, ?_⟩
      · rw [apply, if_neg hempty, applyAll_of_forall fun t ht => (ih t ht hs).1, Subst.apply_named]
        rfl
      · rw [Subst.apply_named]
        exact .named name (List.forall_mem_map.2 fun t ht => (ih t ht hs).2)
  | mu v _ ih =>
      intro s hs
      have ih' := @ih (s.erase v) fun id u hu => by
        rw [Subst.get?_erase] at hu
        split at hu
        · cases hu
        · exact hs id u hu
      refine ⟨apply_of_nonempty fun hempty => ?_, ?_⟩
      · rw [apply, if_neg hempty, ih'.1, Subst.apply_mu]
        rfl
      · rw [Subst.apply_mu]
        exact .mu v ih'.2

theorem apply_eq (hs : s.Canonical) (ht : t.Canonical) : apply s t = some (s.apply t) :=
  (apply_of_get? ht fun _ _ hu => canonical_of_binds (hs.get? hu)).1

theorem applyAll_eq (hs : s.Canonical) (hts : ∀ t ∈ ts, t.Canonical) :
    applyAll s ts = some (s.applyAll ts) := by
  rw [Subst.applyAll_eq_map]
  exact applyAll_of_forall fun t ht => apply_eq hs (hts t ht)

theorem after_eq (hs : s.Canonical) (hfirst : first.Canonical) :
    after s first = some (s.after first) := by
  have hfold : ∀ bindings : Table Int Binding, (∀ entry ∈ bindings, entry.2.ty.Canonical) →
      bindings.foldrM (fun entry acc => do
        return acc.bind entry.2.var (← apply s entry.2.ty)) Subst.empty =
      some (bindings.foldr (fun entry acc =>
        acc.bind entry.2.var (s.apply entry.2.ty)) .empty) := by
    intro bindings
    induction bindings with
    | nil => exact fun _ => rfl
    | cons entry bindings ih =>
        intro h
        obtain ⟨hentry, hrest⟩ := List.forall_mem_cons.1 h
        rw [List.foldrM_cons, ih hrest, List.foldr_cons]
        show (do return Subst.bind _ entry.2.var (← apply s entry.2.ty)) = _
        rw [apply_eq hs hentry]
        rfl
  rw [after, hfold first.bindings fun _ => hfirst.ty]
  rfl

theorem unfold_eq {v : TyVar} (h : (Ty.mu v t).Canonical) : unfold v t = some (.unfold v t) :=
  apply_eq (Discipline.sends_single (.inl ⟨trivial, h⟩)) h.body

theorem expand?_eq {d : Definition} (hd : d.body.Canonical) (hargs : ∀ u ∈ args, u.Canonical) :
    expand? d args = some (d.expand? args) := by
  rw [expand?, Definition.expand?]
  split
  · rw [apply_eq (Discipline.sends_ofList fun b hb => ?_) hd]
    · rfl
    · exact .inl ⟨trivial, hargs _ (List.of_mem_zip hb).2⟩
  · rfl

theorem instantiate_eq {scheme : Scheme} (h : scheme.body.Canonical) (level : Int)
    (supply : Supply) :
    instantiate scheme level supply = some (scheme.instantiate level supply) := by
  rw [instantiate, Scheme.instantiate]
  split
  · rfl
  · have hrefresh : ∃ w, normality.Before supply.count w ∧
        normality.count w = (Scheme.refresh level scheme.vars .empty supply).2.count ∧
        normality.Sends w (Scheme.refresh level scheme.vars .empty supply).1 :=
      Discipline.exists_refresh level (fun _ _ => .inl trivial) Discipline.sends_empty rfl
    obtain ⟨w, -, -, hs⟩ := hrefresh
    have happly := apply_eq hs h
    show (apply (Scheme.refresh level scheme.vars .empty supply).1 scheme.body >>= fun t =>
      some (t, (Scheme.refresh level scheme.vars .empty supply).2)) = _
    rw [happly]
    rfl

end Substituting

/-! ## Narrowing -/

/-- The search for a head, which may stop as well. -/
def anyHeadWithin (p : Ty → Option Bool) : Nat → Ty → Option (Option Bool)
  | 0, _ => none
  | n + 1, .union ts =>
    ts.foldlM (fun found t => if found = some false then anyHeadWithin p n t else some found)
      (some false)
  | n + 1, .mu v body =>
    match unfold v body with
    | some t => anyHeadWithin p n t
    | none => some none
  | _ + 1, t => some (p t)

def anyHead? (p : Ty → Option Bool) (t : Ty) : Option (Option Bool) := search (anyHeadWithin p · t)

def anyHead (t : Ty) (p : Ty → Option Bool) : Option Bool := (anyHead? p t).getD (some true)

mutual

def compatible : Pattern → Ty → Option Bool
  | .var .., _ | .wildcard _, _ => some true
  | .missing, t => anyHead t fun
    | .var _ => some true
    | _ => some false
  | .literal _ kind value, t => anyHead t fun t => some (Pattern.literalFits kind value t)
  | .tuple _ ps, t => anyHead t fun
    | .var _ => some true
    | .tuple ts => compatibleAll ps ts
    | _ => some false
  | .record _ fs, t => anyHead t fun
    | .var _ => some true
    | .record ts row => compatibleFields fs ts row.isSome
    | _ => some false

def compatibleAll : List Pattern → List Ty → Option Bool
  | [], [] => some true
  | p :: ps, t :: ts => do
    if ← compatible p t then compatibleAll ps ts else return false
  | _, _ => some false

def compatibleFields : List (String × Pattern) → List (String × Ty) → Bool → Option Bool
  | [], _, _ => some true
  | (name, p) :: fs, ts, isOpen => do
    let here ← match Table.get? name ts with
      | some t => compatible p t
      | none => some isOpen
    if here then compatibleFields fs ts isOpen else return false

end

def unfoldOnce : Ty → Option Ty
  | .mu v t => unfold v t
  | t => some t

def narrow (t : Ty) (p : Pattern) : Option Ty := do
  match ← unfoldOnce t with
  | .union ts =>
    match ← ts.filterM (compatible p) with
    | [] => return .union ts
    | kept => Ty.unionOf? kept
  | t => return t

/-- The union of some types, which has to exist if there are any. -/
def unionOfAny (ts : List Ty) : Option (Option Ty) :=
  if ts.isEmpty then some none else do return some (← Ty.unionOf? ts)

def tupleElem? (i length : Nat) : Ty → Option Ty
  | .tuple ts => if ts.length = length then ts[i]? else none
  | _ => none

def elem? (t : Ty) (i length : Nat) : Option (Option Ty) :=
  match t with
  | .union alts => unionOfAny (alts.filterMap (tupleElem? i length))
  | t => some (tupleElem? i length t)

def recordField? (name : String) : Ty → Option Ty
  | .record fs _ => Table.get? name fs
  | _ => none

def field? (t : Ty) (name : String) : Option (Option Ty) :=
  match t with
  | .union alts =>
    match alts.mapM (recordField? name) with
    | some ts => unionOfAny ts
    | none => some none
  | t => some (recordField? name t)

mutual

def refineInto : Pattern → Option Ty → Table String Ty → Option (Table String Ty)
  | _, none, found => some found
  | .var _ name, some t, found => do
    match ← unfoldOnce t with
    | .var _ => return found
    | t => return Table.insert name t found
  | .tuple span ps, some t, found => do
    refineElems ps (← narrow (← unfoldOnce t) (.tuple span ps)) 0 ps.length found
  | .record span fs, some t, found => do
    refineFields fs (← narrow (← unfoldOnce t) (.record span fs)) found
  | _, some _, found => some found

def refineElems : List Pattern → Ty → Nat → Nat → Table String Ty → Option (Table String Ty)
  | [], _, _, _, found => some found
  | p :: ps, t, i, length, found => do
    refineElems ps t (i + 1) length (← refineInto p (← elem? t i length) found)

def refineFields : List (String × Pattern) → Ty → Table String Ty → Option (Table String Ty)
  | [], _, found => some found
  | (name, p) :: fs, t, found => do
    refineFields fs t (← refineInto p (← field? t name) found)

end

def refine (t : Ty) (p : Pattern) : Option (Table String Ty) := refineInto p (some t) []

section Narrowing

variable {t : Ty} {ts : List Ty} {p p' : Ty → Bool} {q : Ty → Option Bool}

section Alternatives

variable {ask : Ty → Option (Option Bool)} {g : Ty → Option Bool}

/-- An answer that is found is kept. -/
theorem foldlM_of_ne {found : Option Bool} (hfound : found ≠ some false) (ts : List Ty) :
    ts.foldlM (fun found t => if found = some false then ask t else some found) found =
      some found := by
  induction ts with
  | nil => rfl
  | cons t ts ih =>
      rw [List.foldlM_cons, if_neg hfound]
      exact ih

theorem foldlM_eq_anyM (h : ∀ t ∈ ts, ask t = (g t).map some) :
    ts.foldlM (fun found t => if found = some false then ask t else some found) (some false) =
      (ts.anyM g).map some := by
  induction ts with
  | nil => rfl
  | cons t ts ih =>
      obtain ⟨ht, hts⟩ := List.forall_mem_cons.1 h
      rw [List.foldlM_cons, if_pos rfl, ht, anyM_cons]
      cases g t with
      | none => rfl
      | some b =>
          cases b with
          | true => exact foldlM_of_ne (by decide) ts
          | false => exact ih hts

end Alternatives

/-- Followed as far, the search finds the same on canonical types. -/
theorem anyHeadWithin_eq (hp : ∀ t : Ty, t.Canonical → q t = some (p t)) : ∀ (n : Nat) {t : Ty},
    t.Canonical → anyHeadWithin q n t = (Ty.anyHeadWithin p n t).map some
  | 0, _, _ => rfl
  | n + 1, t, h => by
      cases t with
      | union ts => exact foldlM_eq_anyM fun t ht => anyHeadWithin_eq hp n (h.alternatives t ht)
      | mu v t =>
          rw [anyHeadWithin, unfold_eq h]
          exact anyHeadWithin_eq hp n h.unfold
      | _ => exact congrArg some (hp _ h)

theorem anyHead?_eq (hp : ∀ t : Ty, t.Canonical → q t = some (p t)) (h : t.Canonical) :
    anyHead? q t = (Ty.anyHead? p t).map some := by
  rw [anyHead?, Ty.anyHead?, ← search_map (Ty.steady_anyHeadWithin p t)]
  exact congrArg search (funext fun n => anyHeadWithin_eq hp n h)

theorem anyHead_eq (h : t.Canonical) (hp : ∀ t : Ty, t.Canonical → q t = some (p t)) :
    anyHead t q = some (t.anyHead p) := by
  rw [anyHead, Ty.anyHead, anyHead?_eq hp h]
  cases Ty.anyHead? p t <;> rfl

mutual

theorem compatible_eq : ∀ {p : Pattern} {t : Ty}, t.Canonical →
    compatible p t = some (p.compatible t)
  | .var .., _, _ | .wildcard _, _, _ => by rw [compatible, Pattern.compatible]
  | .missing, t, h => by
      rw [compatible, Pattern.compatible]
      exact anyHead_eq h fun t _ => by cases t <;> rfl
  | .literal _ kind value, t, h => by
      rw [compatible, Pattern.compatible]
      exact anyHead_eq h fun _ _ => rfl
  | .tuple _ ps, t, h => by
      rw [compatible, Pattern.compatible]
      refine anyHead_eq h fun t h => ?_
      cases t with
      | tuple ts => exact compatibleAll_eq h.elems
      | _ => rfl
  | .record _ fs, t, h => by
      rw [compatible, Pattern.compatible]
      refine anyHead_eq h fun t h => ?_
      cases t with
      | record ts row => exact compatibleFields_eq h.fields
      | _ => rfl

theorem compatibleAll_eq : ∀ {ps : List Pattern} {ts : List Ty}, (∀ t ∈ ts, t.Canonical) →
    compatibleAll ps ts = some (Pattern.compatibleAll ps ts)
  | [], [], _ | [], _ :: _, _ | _ :: _, [], _ => by simp [compatibleAll, Pattern.compatibleAll]
  | p :: ps, t :: ts, h => by
      obtain ⟨ht, hts⟩ := List.forall_mem_cons.1 h
      rw [compatibleAll, Pattern.compatibleAll, compatible_eq ht, compatibleAll_eq hts]
      cases p.compatible t <;> rfl

theorem compatibleFields_eq : ∀ {ps : List (String × Pattern)} {fs : List (String × Ty)}
    {isOpen : Bool}, (∀ f ∈ fs, f.2.Canonical) →
    compatibleFields ps fs isOpen = some (Pattern.compatibleFields ps fs isOpen)
  | [], _, _, _ => rfl
  | (name, p) :: ps, fs, isOpen, h => by
      rw [compatibleFields, Pattern.compatibleFields, compatibleFields_eq h]
      cases hf : Table.get? name fs with
      | none => cases isOpen <;> rfl
      | some t =>
          dsimp only
          rw [compatible_eq (h _ (Table.mem_of_get? hf))]
          cases p.compatible t <;> rfl

end

theorem unfoldOnce_eq (h : t.Canonical) : unfoldOnce t = some t.unfoldOnce := by
  cases t with
  | mu v t => exact unfold_eq h
  | _ => rfl

theorem filterM_eq {f : Ty → Option Bool} {g : Ty → Bool} (h : ∀ t ∈ ts, f t = some (g t)) :
    ts.filterM f = some (ts.filter g) := by
  have general : ∀ (ts acc : List Ty), (∀ t ∈ ts, f t = some (g t)) →
      ts.filterAuxM f acc = some ((ts.filter g).reverse ++ acc) := by
    intro ts
    induction ts with
    | nil => exact fun _ _ => rfl
    | cons t ts ih =>
        intro acc h
        obtain ⟨ht, hts⟩ := List.forall_mem_cons.1 h
        rw [List.filterAuxM, ht, Option.bind_eq_bind, Option.bind_some, ih _ hts]
        cases hg : g t <;> simp [hg]
  rw [List.filterM, general ts [] h]
  simp

theorem narrow_eq (h : t.Canonical) (p : Pattern) : narrow t p = some (t.narrow p) := by
  have hunfolded := h.unfoldOnce
  rw [narrow, Ty.narrow, unfoldOnce_eq h]
  cases hshape : t.unfoldOnce with
  | union ts =>
      rw [hshape] at hunfolded
      have hts := hunfolded.alternatives
      show (ts.filterM (compatible p) >>= _) = _
      rw [filterM_eq fun t ht => compatible_eq (hts t ht)]
      dsimp only
      cases hkept : ts.filter fun t => p.compatible t with
      | nil => rfl
      | cons u us =>
          refine Compound.build?_eq_build (k := .union) (List.cons_ne_nil u us) fun t ht => ?_
          rw [← hkept] at ht
          exact hts t (List.mem_filter.1 ht).1
  | _ => rfl

theorem unionOfAny_eq (h : ∀ t ∈ ts, t.Canonical) : unionOfAny ts = some (Ty.unionOf? ts) := by
  cases ts with
  | nil => rfl
  | cons t ts =>
      have hbuild := Compound.build?_eq_build (k := .union) (List.cons_ne_nil t ts) h
      show (Ty.unionOf? (t :: ts) >>= fun u => some (some u)) = some (Ty.unionOf? (t :: ts))
      rw [show Ty.unionOf? (t :: ts) = _ from hbuild]
      rfl

theorem canonical_tupleElem? {i length : Nat} {u : Ty} (h : t.Canonical)
    (hu : tupleElem? i length t = some u) : u.Canonical := by
  cases t with
  | tuple ts => exact Ty.Canonical.inherited.elem? (t := .tuple ts) h hu
  | _ => cases hu

theorem canonical_recordField? {name : String} {u : Ty} (h : t.Canonical)
    (hu : recordField? name t = some u) : u.Canonical := by
  cases t with
  | record fs row =>
      exact Ty.Canonical.inherited.field? (t := .record fs row) h hu
  | _ => cases hu

theorem elem?_eq (h : t.Canonical) (i length : Nat) :
    elem? t i length = some (t.elem? i length) := by
  cases t with
  | union alts =>
      refine unionOfAny_eq fun u hu => ?_
      obtain ⟨alt, halt, hu⟩ := List.mem_filterMap.1 hu
      exact canonical_tupleElem? (h.alternatives alt halt) hu
  | _ => rfl

theorem field?_eq (h : t.Canonical) (name : String) : field? t name = some (t.field? name) := by
  cases t with
  | union alts =>
      have hfield : (Ty.union alts).field? name =
          (alts.mapM (recordField? name)).bind Ty.unionOf? := rfl
      rw [field?, hfield]
      cases hts : alts.mapM (recordField? name) with
      | none => rfl
      | some ts =>
          refine unionOfAny_eq fun u hu => ?_
          obtain ⟨alt, halt, hu⟩ := Ty.exists_of_mem_mapM hts hu
          exact canonical_recordField? (h.alternatives alt halt) hu
  | _ => rfl

mutual

theorem refineInto_eq : ∀ {p : Pattern} {o : Option Ty} {found : Table String Ty},
    (∀ t, o = some t → t.Canonical) → refineInto p o found = some (Pattern.refineInto p o found)
  | _, none, _, _ => by rw [refineInto, Pattern.refineInto]
  | .var _ name, some t, found, ho => by
      rw [refineInto, Pattern.refineInto, unfoldOnce_eq (ho t rfl)]
      cases t.unfoldOnce <;> rfl
  | .tuple span ps, some t, found, ho => by
      have h := (ho t rfl).unfoldOnce
      rw [refineInto, Pattern.refineInto, unfoldOnce_eq (ho t rfl)]
      show (narrow t.unfoldOnce _ >>= _) = _
      rw [narrow_eq h]
      exact refineElems_eq (h.narrow _)
  | .record span fs, some t, found, ho => by
      have h := (ho t rfl).unfoldOnce
      rw [refineInto, Pattern.refineInto, unfoldOnce_eq (ho t rfl)]
      show (narrow t.unfoldOnce _ >>= _) = _
      rw [narrow_eq h]
      exact refineFields_eq (h.narrow _)
  | .missing, some _, _, _ | .literal .., some _, _, _ | .wildcard _, some _, _, _ => by
      simp only [refineInto, Pattern.refineInto]

theorem refineElems_eq : ∀ {ps : List Pattern} {t : Ty} {i length : Nat}
    {found : Table String Ty}, t.Canonical →
    refineElems ps t i length found = some (Pattern.refineElems ps t i length found)
  | [], _, _, _, _, _ => rfl
  | p :: ps, t, i, length, found, h => by
      rw [refineElems, Pattern.refineElems, elem?_eq h]
      show (refineInto p _ found >>= _) = _
      rw [refineInto_eq fun _ hu => Ty.Canonical.inherited.elem? h hu]
      exact refineElems_eq h

theorem refineFields_eq : ∀ {fs : List (String × Pattern)} {t : Ty} {found : Table String Ty},
    t.Canonical → refineFields fs t found = some (Pattern.refineFields fs t found)
  | [], _, _, _ => rfl
  | (name, p) :: fs, t, found, h => by
      rw [refineFields, Pattern.refineFields, field?_eq h]
      show (refineInto p _ found >>= _) = _
      rw [refineInto_eq fun _ hu => Ty.Canonical.inherited.field? h hu]
      exact refineFields_eq h

end

theorem refine_eq (h : t.Canonical) (p : Pattern) : refine t p = some (p.refine t) :=
  refineInto_eq (by rintro _ ⟨⟩; exact h)

end Narrowing

/-! ## Listing values -/

mutual

def enumerateWith (onMu : TyVar → Ty → OptionT Option (List Space)) :
    Ty → OptionT Option (List Space)
  | .prim name => pure (Space.ofPrimitive name)
  | .lit value => pure [.literal .string value]
  | .union ts => enumerateAlts onMu ts
  | .tuple ts => do return (← productOf onMu [[]] ts).map .tuple
  | .record fs _ => do
    return (← productOfFields onMu [[]] fs).map fun row => .record ((Table.keys fs).zip row)
  | .mu v t => onMu v t
  | _ => pure [.anything]

def enumerateAlts (onMu : TyVar → Ty → OptionT Option (List Space)) :
    List Ty → OptionT Option (List Space)
  | [] => pure []
  | t :: ts => do
    let here ← enumerateWith onMu t
    let rest ← enumerateAlts onMu ts
    if (here ++ rest).length > Space.spaceLimit then failure else pure (here ++ rest)

def productOf (onMu : TyVar → Ty → OptionT Option (List Space)) (front : List (List Space)) :
    List Ty → OptionT Option (List (List Space))
  | [] => pure front
  | t :: ts => do
    let spaces ← enumerateWith onMu t
    let front ← .mk (some (Space.extend? front spaces))
    productOf onMu front ts

def productOfFields (onMu : TyVar → Ty → OptionT Option (List Space))
    (front : List (List Space)) : List (String × Ty) → OptionT Option (List (List Space))
  | [] => pure front
  | (_, t) :: fs => do
    let spaces ← enumerateWith onMu t
    let front ← .mk (some (Space.extend? front spaces))
    productOfFields onMu front fs

end

def enumerateWithin : Nat → List Int → Ty → OptionT Option (List Space)
  | 0, _, t => enumerateWith (fun _ _ => pure [.anything]) t
  | n + 1, unfolding, t =>
    enumerateWith (fun v body =>
      if v.id ∈ unfolding then pure [.anything]
      else do enumerateWithin n (v.id :: unfolding) (← OptionT.lift (unfold v body))) t

def spaces? (t : Ty) : OptionT Option (List Space) := enumerateWithin t.binders.length [] t

def uncovered? (t : Ty) (patterns : List Pattern) : OptionT Option (List String) :=
  if patterns.any Pattern.isIrrefutable then pure []
  else do
    return Text.Names.sorted (((← spaces? t).filter fun s => !patterns.any (·.covers s)).map
      Space.render)

def isComparable (r : Registry) : Nat → Ty → Option Bool
  | 0, _ => some false
  | n + 1, t =>
    match t with
    | .prim _ | .lit _ | .var _ => some true
    | .tuple ts | .union ts => ts.allM (isComparable r n)
    | .record fs _ => fs.allM fun (_, t) => isComparable r n t
    | .named name args =>
      match r.lookup? name with
      | none => some false
      | some d => do
        match ← expand? d args with
        | none => return false
        | some t => isComparable r n t
    | .fn .. | .inter _ | .mu .. => some false

section Listing

/-- Listing that does not stop, and comes to a list or to too many spaces. -/
def listed {α : Type} (o : Option α) : OptionT Option α := .mk (some o)

theorem listed_bind {α β : Type} {o : Option α} {f : α → Option β} {f' : α → OptionT Option β}
    (h : ∀ a, f' a = listed (f a)) : (listed o >>= f') = listed (o >>= f) := by
  cases o with
  | none => rfl
  | some a => exact h a

variable {Q : Ty → Prop} {onMu : TyVar → Ty → Option (List Space)}
  {onMu' : TyVar → Ty → OptionT Option (List Space)}

mutual

theorem enumerateWith_eq (hQ : Ty.Inherited Q)
    (hmu : ∀ v t, Q (.mu v t) → onMu' v t = listed (onMu v t)) :
    ∀ {t : Ty}, Q t → enumerateWith onMu' t = listed (Space.enumerateWith onMu t)
  | .mu v t, h => hmu v t h
  | .union ts, h => by
      rw [enumerateWith, Space.enumerateWith]
      exact enumerateAlts_eq hQ hmu (hQ.alternatives h)
  | .tuple ts, h => by
      rw [enumerateWith, Space.enumerateWith, productOf_eq hQ hmu (hQ.elems h), Option.map_eq_bind]
      exact listed_bind fun _ => rfl
  | .record fs row, h => by
      rw [enumerateWith, Space.enumerateWith, productOfFields_eq hQ hmu (hQ.fields h),
        Option.map_eq_bind]
      exact listed_bind fun _ => rfl
  | .var _, _ | .prim _, _ | .lit _, _ | .fn _ _, _ | .inter _, _ | .named _ _, _ => rfl

theorem enumerateAlts_eq (hQ : Ty.Inherited Q)
    (hmu : ∀ v t, Q (.mu v t) → onMu' v t = listed (onMu v t)) :
    ∀ {ts : List Ty}, (∀ t ∈ ts, Q t) →
      enumerateAlts onMu' ts = listed (Space.enumerateAlts onMu ts)
  | [], _ => rfl
  | t :: ts, h => by
      obtain ⟨ht, hts⟩ := List.forall_mem_cons.1 h
      rw [enumerateAlts, Space.enumerateAlts, enumerateWith_eq hQ hmu ht,
        enumerateAlts_eq hQ hmu hts]
      refine listed_bind fun here => listed_bind fun rest => ?_
      split <;> rfl

theorem productOf_eq (hQ : Ty.Inherited Q)
    (hmu : ∀ v t, Q (.mu v t) → onMu' v t = listed (onMu v t)) :
    ∀ {ts : List Ty} {front : List (List Space)}, (∀ t ∈ ts, Q t) →
      productOf onMu' front ts = listed (Space.productOf onMu front ts)
  | [], _, _ => rfl
  | t :: ts, front, h => by
      obtain ⟨ht, hts⟩ := List.forall_mem_cons.1 h
      rw [productOf, Space.productOf, enumerateWith_eq hQ hmu ht]
      exact listed_bind fun spaces => listed_bind fun front => productOf_eq hQ hmu hts

theorem productOfFields_eq (hQ : Ty.Inherited Q)
    (hmu : ∀ v t, Q (.mu v t) → onMu' v t = listed (onMu v t)) :
    ∀ {fs : List (String × Ty)} {front : List (List Space)}, (∀ f ∈ fs, Q f.2) →
      productOfFields onMu' front fs = listed (Space.productOfFields onMu front fs)
  | [], _, _ => rfl
  | (name, t) :: fs, front, h => by
      obtain ⟨ht, hfs⟩ := List.forall_mem_cons.1 h
      rw [productOfFields, Space.productOfFields, enumerateWith_eq hQ hmu ht]
      exact listed_bind fun spaces => listed_bind fun front => productOfFields_eq hQ hmu hfs

end

theorem enumerateWithin_eq : ∀ {n : Nat} {unfolding : List Int} {t : Ty}, t.Canonical →
    enumerateWithin n unfolding t = listed (Space.enumerateWithin n unfolding t)
  | 0, _, _, h => enumerateWith_eq Ty.Canonical.inherited (fun _ _ _ => rfl) h
  | n + 1, unfolding, t, h => by
      rw [enumerateWithin, Space.enumerateWithin]
      refine enumerateWith_eq Ty.Canonical.inherited (fun v body h => ?_) h
      split
      · rfl
      · rw [unfold_eq h]
        exact enumerateWithin_eq h.unfold

theorem uncovered?_eq (h : t.Canonical) (patterns : List Pattern) :
    uncovered? t patterns = listed (Pattern.uncovered? t patterns) := by
  rw [uncovered?, Pattern.uncovered?]
  split
  · rfl
  · rw [spaces?, enumerateWithin_eq h, Option.map_eq_bind]
    exact listed_bind fun _ => rfl

theorem allM_eq {α : Type} {f : α → Option Bool} {g : α → Bool} {l : List α}
    (h : ∀ a ∈ l, f a = some (g a)) : l.allM f = some (l.all g) := by
  induction l with
  | nil => rfl
  | cons a l ih =>
      obtain ⟨ha, hl⟩ := List.forall_mem_cons.1 h
      rw [List.allM, ha, ih hl, List.all_cons]
      cases g a <;> rfl

theorem isComparable_eq {r : Registry} (hr : r.Canonical) : ∀ {n : Nat} {t : Ty}, t.Canonical →
    isComparable r n t = some (r.isComparable n t)
  | 0, _, _ => rfl
  | n + 1, t, h => by
      cases t with
      | tuple ts => exact allM_eq fun t ht => isComparable_eq hr (h.elems t ht)
      | union ts => exact allM_eq fun t ht => isComparable_eq hr (h.alternatives t ht)
      | record fs row => exact allM_eq fun f hf => isComparable_eq hr (h.fields f hf)
      | named name args =>
          rw [isComparable, Registry.isComparable, Registry.expand?]
          cases hd : r.lookup? name with
          | none => rfl
          | some d =>
              have hbody := hr.lookup? hd
              dsimp only
              rw [expand?_eq hbody h.args]
              cases hu : d.expand? args with
              | none =>
                  show some false = some ((d.expand? args).any _)
                  rw [hu]
                  rfl
              | some u =>
                  show isComparable r n u = some ((d.expand? args).any _)
                  rw [hu]
                  exact isComparable_eq hr (canonical_expand? hbody h.args hu)
      | _ => rfl

end Listing

end Must

end RowTypes
