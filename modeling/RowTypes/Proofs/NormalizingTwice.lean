import RowTypes.Proofs.FaithfulForms

/-!
# Normalising twice

Normalising a normal form gives it back, makes no binder and remembers nothing.  For that nothing in
a normal form may be left to do: its unions and intersections are as they would be built again, and
a reference that is left in it cannot be expanded, because its name is not defined or because it has
the wrong number of arguments.  In the first case the arguments are normalised themselves, in the
second nobody looks at them.  Forms that were remembered are put in as they are, so the same has to
be true of them; that is the invariant.

Two things are asked of the runs.  No reference may have been left as it is because expansions are
nested too deep: it would be expanded the next time.  And what is left must not have the digest of
a reference that was expanded, or else the form of that one is put in its place the next time.
Both are said of the list of references that are expanded in the course of a run.
-/

namespace RowTypes

open Ty

namespace Registry

variable {r : Registry} {s : Session} {t u : Ty} {ts : List Ty}

/-! ## What is expanded in the course of a run -/

/-- A reference that is expanded, if that is allowed: if the expansions from it on may nest to a
depth of at least one. -/
structure Expansion where
  ref : Reference
  allowed : Nat
  deriving Repr, Inhabited

section Expansions

variable (onRef : String → List Ty → StateM Session (Option Ty))
  (ofRef : String → List Ty → Session → List Expansion)

mutual

/-- The references that are expanded while a type is normalised, given those that are expanded on
account of a single reference. -/
def expansionsWith : Ty → Session → List Expansion
  | .var _, _ | .prim _, _ | .lit _, _ => []
  | .fn p q, s => expansionsWith p s ++ expansionsWith q ((normalizeWith onRef p).run s).2
  | .record fs _, s => expansionsFields fs s
  | .tuple ts, s | .union ts, s | .inter ts, s => expansionsAll ts s
  | .named name args, s =>
    ofRef name args s ++
      match (onRef name args).run s with
      | (some _, _) => []
      | (none, q) => expansionsAll args q
  | .mu _ t, s => expansionsWith t s

def expansionsAll : List Ty → Session → List Expansion
  | [], _ => []
  | t :: ts, s => expansionsWith t s ++ expansionsAll ts ((normalizeWith onRef t).run s).2

def expansionsFields : List (String × Ty) → Session → List Expansion
  | [], _ => []
  | (_, t) :: fs, s => expansionsWith t s ++ expansionsFields fs ((normalizeWith onRef t).run s).2

end

end Expansions

/-- The references that are expanded on account of a reference, itself included: none if it is being
expanded already, is remembered or cannot be expanded. -/
def expansionsRef (allowed : Nat) (expanding : Expanding) (name : String) (args : List Ty)
    (s : Session) : List Expansion :=
  let key := (Ty.named name args).digest
  if (expanding.lookup key).isSome || (Table.get? key s.registry.memo).isSome then []
  else
    match s.registry.expand? name args with
    | none => []
    | some expanded =>
      ⟨(name, args), allowed⟩ ::
        match allowed with
        | 0 => []
        | allowed + 1 =>
          let (v, q) := (freshVar 0).run s
          let inside := (key, v) :: expanding
          expansionsWith (normalizeRef allowed inside) (expansionsRef allowed inside) expanded q

/-- The references that are expanded in the course of a history. -/
def expansions : Session → List Event → List Expansion
  | _, [] => []
  | s, .unknown level :: events => expansions (Event.after s (.unknown level)) events
  | s, .normalize t :: events =>
    expansionsWith (normalizeRef expansionLimit []) (expansionsRef expansionLimit []) t s ++
      expansions (Event.after s (.normalize t)) events

end Registry

/-! ## Settled types -/

namespace Ty

/-- Types in which nothing is left to do: unions and intersections are as they are built, and
references cannot be expanded. -/
inductive Settled (r : Registry) : Ty → Prop where
  | var (v : TyVar) : Settled r (.var v)
  | prim (name : String) : Settled r (.prim name)
  | lit (value : String) : Settled r (.lit value)
  | fn {p q : Ty} : Settled r p → Settled r q → Settled r (.fn p q)
  | record {fs : List (String × Ty)} (row : Option TyVar) : (∀ f ∈ fs, Settled r f.2) →
      Settled r (.record fs row)
  | tuple {ts : List Ty} : (∀ t ∈ ts, Settled r t) → Settled r (.tuple ts)
  | union {ts : List Ty} : (∀ t ∈ ts, Settled r t) → unionOf ts = .union ts →
      Settled r (.union ts)
  | inter {ts : List Ty} : (∀ t ∈ ts, Settled r t) → interOf ts = .inter ts →
      Settled r (.inter ts)
  /-- A reference to a name that is not defined. -/
  | undefined {name : String} {args : List Ty} : r.lookup? name = none →
      (∀ t ∈ args, Settled r t) → Settled r (.named name args)
  /-- A reference with the wrong number of arguments, which may be any. -/
  | misfit {name : String} {args : List Ty} {d : Definition} : r.lookup? name = some d →
      d.expand? args = none → Settled r (.named name args)
  | mu (v : TyVar) {t : Ty} : Settled r t → Settled r (.mu v t)

variable {r : Registry} {k : Compound} {t : Ty} {ts : List Ty}

theorem settled_of_iff : (k.of ts).Settled r ↔ (∀ t ∈ ts, t.Settled r) ∧ k.build ts = k.of ts := by
  constructor
  · intro h
    cases k with
    | union => cases h with | union hts hbuild => exact ⟨hts, hbuild⟩
    | inter => cases h with | inter hts hbuild => exact ⟨hts, hbuild⟩
  · rintro ⟨hts, hbuild⟩
    cases k with
    | union => exact .union hts hbuild
    | inter => exact .inter hts hbuild

theorem settled_build (h : ∀ t ∈ ts, t.Settled r) : (k.build ts).Settled r := by
  refine Compound.build_induction (fun us hlen hus hflat hdistinct => ?_) fun t ht _ =>
    Compound.of_mem_parts (fun _ h => (settled_of_iff.1 h).1) (h t ht)
  exact settled_of_iff.2 ⟨hus, Compound.build_eq_of hlen hflat hdistinct⟩

end Ty

namespace Registry

variable {r : Registry} {s q : Session} {t u : Ty} {ts : List Ty}
  {onRef : String → List Ty → StateM Session (Option Ty)}
  {ofRef : String → List Ty → Session → List Expansion}

/-! ## What becomes of settled types -/

theorem run_normalizeAll_of_self (h : ∀ t ∈ ts, (normalizeWith onRef t).run s = (t, s)) :
    (normalizeAll onRef ts).run s = (ts, s) := by
  induction ts with
  | nil => rw [normalizeAll]; rfl
  | cons t ts ih =>
      rw [List.forall_mem_cons] at h
      rw [normalizeAll, StateM.run_bind, h.1, StateM.run_bind, ih h.2]
      rfl

theorem run_normalizeFields_of_self {fs : List (String × Ty)}
    (h : ∀ f ∈ fs, (normalizeWith onRef f.2).run s = (f.2, s)) :
    (normalizeFields onRef fs).run s = (fs, s) := by
  induction fs with
  | nil => rw [normalizeFields]; rfl
  | cons f fs ih =>
      rw [List.forall_mem_cons] at h
      rw [normalizeFields, StateM.run_bind, h.1, StateM.run_bind, ih h.2]
      rfl

theorem mem_visibleAll {R : Reference} : R ∈ r.visibleAll ts ↔ ∃ t ∈ ts, R ∈ r.visible t := by
  induction ts with
  | nil => simp [visibleAll]
  | cons t ts ih => rw [visibleAll, List.mem_append, ih, List.exists_mem_cons_iff]

theorem mem_visibleFields {R : Reference} {fs : List (String × Ty)} :
    R ∈ r.visibleFields fs ↔ ∃ f ∈ fs, R ∈ r.visible f.2 := by
  induction fs with
  | nil => simp [visibleFields]
  | cons f fs ih => rw [visibleFields, List.mem_append, ih, List.exists_mem_cons_iff]

/-- What is left of references in a settled type cannot be expanded. -/
theorem expand?_of_mem_visible (ht : t.Settled r) :
    ∀ R ∈ r.visible t, r.expand? R.1 R.2 = none := by
  induction ht with
  | var _ | prim _ | lit _ => rw [visible]; exact nofun
  | fn _ _ ihp ihq => rw [visible]; exact List.forall_mem_append.2 ⟨ihp, ihq⟩
  | record _ _ ih =>
      intro R hR
      obtain ⟨f, hf, hR⟩ := mem_visibleFields.1 (visible.eq_def .. ▸ hR)
      exact ih f hf R hR
  | tuple _ ih | union _ _ ih | inter _ _ ih =>
      intro R hR
      obtain ⟨t, ht, hR⟩ := mem_visibleAll.1 (visible.eq_def .. ▸ hR)
      exact ih t ht R hR
  | @undefined name args hname _ ih =>
      rw [visible, List.forall_mem_cons]
      refine ⟨by rw [expand?, hname, Option.bind_none], fun R hR => ?_⟩
      simp only [hname, Option.isSome_none, Bool.false_eq_true, if_false, mem_visibleAll] at hR
      obtain ⟨t, ht, hR⟩ := hR
      exact ih t ht R hR
  | @misfit name args d hd he =>
      rw [visible, if_pos (by rw [hd]; rfl), List.forall_mem_singleton]
      rw [expand?, hd, Option.bind_some, he]
  | mu _ _ ih => rw [visible]; exact ih

/-- A settled type is given back if the references that are left in it are passed over. -/
theorem run_normalizeWith_of_settled (ht : t.Settled r)
    (h : ∀ R ∈ r.visible t, (onRef R.1 R.2).run s =
      ((r.lookup? R.1).map fun _ => .named R.1 R.2, s)) :
    (normalizeWith onRef t).run s = (t, s) := by
  induction ht with
  | var _ | prim _ | lit _ => rw [normalizeWith]; rfl
  | fn _ _ ihp ihq =>
      simp only [visible, List.forall_mem_append] at h
      rw [normalizeWith, StateM.run_bind, ihp h.1, StateM.run_bind, ihq h.2]
      rfl
  | record row _ ih =>
      simp only [visible, mem_visibleFields] at h
      rw [normalizeWith, StateM.run_bind,
        run_normalizeFields_of_self fun f hf => ih f hf fun R hR => h R ⟨f, hf, hR⟩]
      rfl
  | tuple _ ih =>
      simp only [visible, mem_visibleAll] at h
      rw [normalizeWith, StateM.run_bind,
        run_normalizeAll_of_self fun t ht => ih t ht fun R hR => h R ⟨t, ht, hR⟩]
      rfl
  | union _ hbuild ih =>
      simp only [visible, mem_visibleAll] at h
      rw [normalizeWith, StateM.run_bind,
        run_normalizeAll_of_self fun t ht => ih t ht fun R hR => h R ⟨t, ht, hR⟩]
      exact congrArg (·, s) hbuild
  | inter _ hbuild ih =>
      simp only [visible, mem_visibleAll] at h
      rw [normalizeWith, StateM.run_bind,
        run_normalizeAll_of_self fun t ht => ih t ht fun R hR => h R ⟨t, ht, hR⟩]
      exact congrArg (·, s) hbuild
  | @undefined name args hname _ ih =>
      simp only [visible, hname, Option.isSome_none, Bool.false_eq_true, if_false,
        List.forall_mem_cons, mem_visibleAll, Option.map_none] at h
      rw [normalizeWith, StateM.run_bind, h.1]
      dsimp only
      rw [StateM.run_bind,
        run_normalizeAll_of_self fun t ht => ih t ht fun R hR => h.2 R ⟨t, ht, hR⟩]
      rfl
  | @misfit name args d hd _ =>
      have hself := h (name, args) (by rw [visible]; exact List.mem_cons_self)
      rw [hd, Option.map_some] at hself
      rw [normalizeWith, StateM.run_bind, hself]
      rfl
  | mu _ _ ih =>
      simp only [visible] at h
      rw [normalizeWith, StateM.run_bind, ih h]
      rfl

/-! ## What normalising leaves -/

/-- The reference is expanded indeed, and has one of some digests. -/
def Expansion.Within (K : Digest → Prop) (e : Expansion) : Prop := e.allowed ≠ 0 ∧ K e.ref.digest

/-- The definitions are the given ones, and what is remembered is settled and is remembered under
some digests only. -/
structure Tidy (r : Registry) (K : Digest → Prop) (s : Session) : Prop where
  definitions : s.registry.definitions = r.definitions
  memo : ∀ {key u}, Table.get? key s.registry.memo = some u → u.Settled r ∧ K key

variable {K : Digest → Prop}

theorem Tidy.expand?_eq (h : Tidy r K s) (name : String) (args : List Ty) :
    s.registry.expand? name args = r.expand? name args := by
  unfold expand?
  rw [lookup?_of_definitions h.definitions]

/-- What becomes of references is settled, and one that is left to itself is not defined. -/
def SettlesRefs (r : Registry) (K : Digest → Prop)
    (onRef : String → List Ty → StateM Session (Option Ty))
    (ofRef : String → List Ty → Session → List Expansion) : Prop :=
  ∀ name args s, Tidy r K s → (∀ e ∈ ofRef name args s, e.Within K) →
    Tidy r K ((onRef name args).run s).2 ∧
      (∀ u, ((onRef name args).run s).1 = some u → u.Settled r) ∧
      (((onRef name args).run s).1 = none → r.lookup? name = none)

mutual

/-- What becomes of a type is settled. -/
theorem settled_normalizeWith (hrefs : SettlesRefs r K onRef ofRef) : ∀ {t : Ty} {s : Session},
    Tidy r K s → (∀ e ∈ expansionsWith onRef ofRef t s, e.Within K) →
    Tidy r K ((normalizeWith onRef t).run s).2 ∧ ((normalizeWith onRef t).run s).1.Settled r
  | .var v, _, hs, _ => by rw [normalizeWith]; exact ⟨hs, .var v⟩
  | .prim name, _, hs, _ => by rw [normalizeWith]; exact ⟨hs, .prim name⟩
  | .lit value, _, hs, _ => by rw [normalizeWith]; exact ⟨hs, .lit value⟩
  | .fn p q, s, hs, h => by
      rw [expansionsWith, List.forall_mem_append] at h
      obtain ⟨hp, hsettled⟩ := settled_normalizeWith hrefs hs h.1
      obtain ⟨hq, hsettled'⟩ := settled_normalizeWith hrefs hp h.2
      rw [normalizeWith]
      exact ⟨hq, .fn hsettled hsettled'⟩
  | .record fs row, s, hs, h => by
      rw [expansionsWith] at h
      obtain ⟨hfs, hsettled⟩ := settled_normalizeFields hrefs hs h
      rw [normalizeWith]
      exact ⟨hfs, .record row hsettled⟩
  | .tuple ts, s, hs, h => by
      rw [expansionsWith] at h
      obtain ⟨hts, hsettled⟩ := settled_normalizeAll hrefs hs h
      rw [normalizeWith]
      exact ⟨hts, .tuple hsettled⟩
  | .union ts, s, hs, h => by
      rw [expansionsWith] at h
      obtain ⟨hts, hsettled⟩ := settled_normalizeAll hrefs hs h
      rw [normalizeWith]
      exact ⟨hts, settled_build (k := .union) hsettled⟩
  | .inter ts, s, hs, h => by
      rw [expansionsWith] at h
      obtain ⟨hts, hsettled⟩ := settled_normalizeAll hrefs hs h
      rw [normalizeWith]
      exact ⟨hts, settled_build (k := .inter) hsettled⟩
  | .named name args, s, hs, h => by
      rw [expansionsWith, List.forall_mem_append] at h
      obtain ⟨hq, hsome, hnone⟩ := hrefs name args s hs h.1
      rw [normalizeWith, StateM.run_bind]
      revert hq hsome hnone h
      generalize (onRef name args).run s = out
      obtain ⟨o, q⟩ := out
      intro h hq hsome hnone
      cases o with
      | some u => exact ⟨hq, hsome u rfl⟩
      | none =>
          obtain ⟨hargs, hsettled⟩ := settled_normalizeAll hrefs hq h.2
          exact ⟨hargs, .undefined (hnone rfl) hsettled⟩
  | .mu v t, s, hs, h => by
      rw [expansionsWith] at h
      obtain ⟨ht, hsettled⟩ := settled_normalizeWith hrefs hs h
      rw [normalizeWith]
      exact ⟨ht, .mu v hsettled⟩

theorem settled_normalizeAll (hrefs : SettlesRefs r K onRef ofRef) : ∀ {ts : List Ty} {s : Session},
    Tidy r K s → (∀ e ∈ expansionsAll onRef ofRef ts s, e.Within K) →
    Tidy r K ((normalizeAll onRef ts).run s).2 ∧
      ∀ t ∈ ((normalizeAll onRef ts).run s).1, t.Settled r
  | [], _, hs, _ => by rw [normalizeAll]; exact ⟨hs, nofun⟩
  | t :: ts, s, hs, h => by
      rw [expansionsAll, List.forall_mem_append] at h
      obtain ⟨ht, hsettled⟩ := settled_normalizeWith hrefs hs h.1
      obtain ⟨hts, hsettled'⟩ := settled_normalizeAll hrefs ht h.2
      rw [normalizeAll]
      exact ⟨hts, List.forall_mem_cons.2 ⟨hsettled, hsettled'⟩⟩

theorem settled_normalizeFields (hrefs : SettlesRefs r K onRef ofRef) :
    ∀ {fs : List (String × Ty)} {s : Session},
    Tidy r K s → (∀ e ∈ expansionsFields onRef ofRef fs s, e.Within K) →
    Tidy r K ((normalizeFields onRef fs).run s).2 ∧
      ∀ f ∈ ((normalizeFields onRef fs).run s).1, f.2.Settled r
  | [], _, hs, _ => by rw [normalizeFields]; exact ⟨hs, nofun⟩
  | (name, t) :: fs, s, hs, h => by
      rw [expansionsFields, List.forall_mem_append] at h
      obtain ⟨ht, hsettled⟩ := settled_normalizeWith hrefs hs h.1
      obtain ⟨hfs, hsettled'⟩ := settled_normalizeFields hrefs ht h.2
      rw [normalizeFields]
      exact ⟨hfs, List.forall_mem_cons.2 ⟨hsettled, hsettled'⟩⟩

end

theorem settled_tied (v : TyVar) (h : t.Settled r) : (t.tied v).Settled r := by
  unfold tied
  split
  · exact .mu v h
  · exact h

/-- An expansion ends, and its form is remembered or not. -/
theorem Tidy.close (hs : Tidy r K s) {key : Digest} (hkey : K key) (expanding : Expanding)
    (v : TyVar) (ht : t.Settled r) :
    Tidy r K ((closeExpansion expanding key v t).run s).2 ∧
      ((closeExpansion expanding key v t).run s).1.Settled r := by
  rw [run_closeExpansion]
  refine ⟨?_, settled_tied v ht⟩
  dsimp only
  split
  · exact hs
  · refine ⟨hs.definitions, fun {key' u} hu => ?_⟩
    dsimp only at hu
    by_cases hne : key' = key
    · subst hne
      rw [Table.get?_insert_self] at hu
      cases hu
      exact ⟨settled_tied v ht, hkey⟩
    · rw [Table.get?_insert_of_ne hne] at hu
      exact hs.memo hu

theorem normalizeRef_eq (allowed : Nat) : normalizeRef allowed = normalizeRefStep
    (match allowed with | 0 => none | allowed + 1 => some (normalizeRef allowed)) := by
  cases allowed <;> rw [normalizeRef]

/-- What becomes of references is settled, whatever is being expanded around them. -/
theorem settlesRefs_normalizeRef : ∀ (allowed : Nat) (expanding : Expanding),
    SettlesRefs r K (normalizeRef allowed expanding) (expansionsRef allowed expanding) := by
  intro allowed expanding name args s hs h
  rw [normalizeRef_eq]
  cases hexpanding : expanding.lookup (Ty.named name args).digest with
  | some v =>
      rw [run_normalizeRefStep_of_lookup hexpanding]
      exact ⟨hs, by rintro _ ⟨⟩; exact .var v, nofun⟩
  | none =>
  cases hmemo : Table.get? (Ty.named name args).digest s.registry.memo with
  | some u =>
      rw [run_normalizeRefStep_of_get? hexpanding hmemo]
      exact ⟨hs, by rintro _ ⟨⟩; exact (hs.memo hmemo).1, nofun⟩
  | none =>
  rw [run_normalizeRefStep hexpanding hmemo, lookup?_of_definitions hs.definitions]
  rw [expansionsRef.eq_def] at h
  dsimp only at h
  rw [if_neg (by simp [hexpanding, hmemo]), hs.expand?_eq, expand?] at h
  cases hd : r.lookup? name with
  | none => exact ⟨hs, nofun, fun _ => rfl⟩
  | some d =>
  rw [hd, Option.bind_some] at h
  cases allowed with
  | zero =>
      dsimp only
      cases he : d.expand? args with
      | none => exact ⟨hs, by rintro _ ⟨⟩; exact .misfit hd he, nofun⟩
      | some e =>
          -- It would be left as it is, although it can be expanded.
          rw [he] at h
          exact absurd rfl (h _ List.mem_cons_self).1
  | succ allowed =>
      dsimp only
      cases he : d.expand? args with
      | none => exact ⟨hs, by rintro _ ⟨⟩; exact .misfit hd he, nofun⟩
      | some e =>
          rw [he, List.forall_mem_cons] at h
          have hfresh : Tidy r K ((freshVar 0).run s).2 := ⟨hs.definitions, hs.memo⟩
          obtain ⟨hbody, hsettled⟩ :=
            settled_normalizeWith (settlesRefs_normalizeRef allowed _) hfresh h.2
          obtain ⟨hclose, hsettled'⟩ := hbody.close h.1.2 expanding _ hsettled
          exact ⟨hclose, by rintro _ ⟨⟩; exact hsettled', nofun⟩

/-- A type that is normalised becomes settled, and so is everything that is remembered. -/
theorem settled_normalize (hs : Tidy r K s)
    (h : ∀ e ∈ expansions s [.normalize t], e.Within K) :
    Tidy r K ((normalize t).run s).2 ∧ ((normalize t).run s).1.Settled r :=
  settled_normalizeWith (settlesRefs_normalizeRef expansionLimit []) hs
    fun e he => h e (List.mem_append_left _ he)

/-- So it stays in the course of a history. -/
theorem Tidy.history {events : List Event} (hs : Tidy r K s)
    (h : ∀ e ∈ expansions s events, e.Within K) : Tidy r K (history s events) := by
  induction events generalizing s with
  | nil => exact hs
  | cons event events ih =>
      cases event with
      | unknown level => exact ih ⟨hs.definitions, hs.memo⟩ h
      | normalize t =>
          rw [expansions, List.forall_mem_append] at h
          exact ih (settled_normalize hs (by simpa [expansions] using h.1)).1 h.2

theorem expansions_append {events later : List Event} : expansions s (events ++ later) =
    expansions s events ++ expansions (Registry.history s events) later := by
  induction events generalizing s with
  | nil => rfl
  | cons event events ih =>
      cases event with
      | unknown level => exact ih
      | normalize t =>
          rw [List.cons_append, expansions, expansions, ih, List.append_assoc]
          rfl

/-- Normalising a normal form gives it back and leaves the session as it is, whatever was normalised
before: if no reference was left as it is because expansions were nested too deep, and none that is
left in the normal form has the digest of one that was expanded. -/
theorem normalize_normalize (hmemo : s.registry.memo = []) (events : List Event)
    (hrun : (normalize t).run (history s events) = (u, q))
    (hdepth : ∀ e ∈ expansions s (events ++ [.normalize t]), e.allowed ≠ 0)
    (hdigests : ∀ e ∈ expansions s (events ++ [.normalize t]), ∀ R ∈ s.registry.visible u,
      e.ref.digest ≠ R.digest) :
    (normalize u).run q = (u, q) := by
  let K : Digest → Prop := fun key => ∃ e ∈ expansions s (events ++ [.normalize t]),
    e.ref.digest = key
  have hall : ∀ e ∈ expansions s (events ++ [.normalize t]), e.Within K := fun e he =>
    ⟨hdepth e he, e, he, rfl⟩
  rw [expansions_append, List.forall_mem_append] at hall
  have hstart : Tidy s.registry K s := ⟨rfl, fun hu => by rw [hmemo] at hu; cases hu⟩
  obtain ⟨hq, hu⟩ := settled_normalize (hstart.history hall.1) hall.2
  rw [hrun] at hq hu
  refine run_normalizeWith_of_settled hu fun R hR => ?_
  have hnew : Table.get? (Ty.named R.1 R.2).digest q.registry.memo = none := by
    cases hget : Table.get? (Ty.named R.1 R.2).digest q.registry.memo with
    | none => rfl
    | some x =>
        obtain ⟨e, he, hdigest⟩ := (hq.memo hget).2
        exact absurd hdigest (hdigests e he R hR)
  have hleft := expand?_of_mem_visible hu R hR
  rw [normalizeRef_eq, run_normalizeRefStep rfl hnew, lookup?_of_definitions hq.definitions]
  rw [expand?] at hleft
  cases hd : s.registry.lookup? R.1 with
  | none => rfl
  | some d =>
      rw [hd, Option.bind_some] at hleft
      dsimp only [expansionLimit]
      rw [hleft]
      rfl

/-! ## Instances -/

/-- A session in which a record has a field of its own type. -/
def rounds : Session :=
  { registry := { definitions :=
      [("Round", { name := "Round", body := .record [("next", .named "Round" [])] none })] } }

def round : Ty := .named "Round" []

def roundForm : Ty := .mu ⟨1, 0⟩ (.record [("next", .var ⟨1, 0⟩)] none)

/-- A name that is not defined is left, and so is one with too many arguments; the arguments of the
first one are normalised, and those of the second one are not. -/
theorem normalize_normalize_rounds :
    let t : Ty := .tuple [round, .named "Gone" [round], .named "Round" [round]]
    let u : Ty := .tuple [roundForm, .named "Gone" [roundForm], .named "Round" [round]]
    let q := ((normalize t).run (history rounds [.normalize round])).2
    (normalize t).run (history rounds [.normalize round]) = (u, q) ∧
      (∀ e ∈ expansions rounds ([.normalize round] ++ [.normalize t]), e.allowed ≠ 0) ∧
      (∀ e ∈ expansions rounds ([.normalize round] ++ [.normalize t]),
        ∀ R ∈ rounds.registry.visible u, e.ref.digest ≠ R.digest) ∧
      (normalize u).run q = (u, q) := by
  intro t u q
  have hrun : (normalize t).run (history rounds [.normalize round]) = (u, q) :=
    Prod.ext (by rfl) rfl
  have hall : ∀ e ∈ expansions rounds ([.normalize round] ++ [.normalize t]), e.allowed ≠ 0 ∧
      ∀ R ∈ rounds.registry.visible u, e.ref.digest ≠ R.digest := by
    have hcheck : ((expansions rounds ([.normalize round] ++ [.normalize t])).all fun e =>
        e.allowed != 0 && (rounds.registry.visible u).all fun R =>
          e.ref.digest != R.digest) = true := by
      decide +kernel
    simpa only [List.all_eq_true, Bool.and_eq_true, bne_iff_ne] using hcheck
  have hdepth := fun e he => (hall e he).1
  have hdigests := fun e he => (hall e he).2
  exact ⟨hrun, hdepth, hdigests,
    normalize_normalize (s := rounds) (t := t) rfl [.normalize round] hrun hdepth hdigests⟩

/-- Two names that have one digest, of which one is defined. -/
def homonyms : Session :=
  { registry := { definitions :=
      [("LtHf1prlU1bCeYZEdqWf", { name := "LtHf1prlU1bCeYZEdqWf", body := .int })] } }

def bothHomonyms : Ty :=
  .tuple [.named "gMPflVXtwGDXbIhP73TX" [], .named "LtHf1prlU1bCeYZEdqWf" []]

/-- If a name that is not defined has the digest of one that was expanded after it, it is left in
the normal form, and stands for the other one when that is normalised. -/
theorem normalize_homonyms :
    let out := (normalize bothHomonyms).run homonyms
    bothHomonyms.Plain ∧
      (∀ e ∈ expansions homonyms [.normalize bothHomonyms], e.allowed ≠ 0) ∧
      out.1 = .tuple [.named "gMPflVXtwGDXbIhP73TX" [], .int] ∧
      ((normalize out.1).run out.2).1 = .tuple [.int, .int] ∧
      ((normalize out.1).run out.2).1 ≠ out.1 := by
  have hplain : bothHomonyms.Plain := by
    have hname : ∀ name, (Ty.named name []).Plain := fun name => .named name (List.forall_mem_nil _)
    exact .tuple (List.forall_mem_cons.2 ⟨hname _, List.forall_mem_singleton.2 (hname _)⟩)
  have hdepth : ((expansions homonyms [.normalize bothHomonyms]).all
      fun e => e.allowed != 0) = true := by
    decide +kernel
  have hout : ((normalize bothHomonyms).run homonyms).1 =
      .tuple [.named "gMPflVXtwGDXbIhP73TX" [], .int] := by rfl
  have hagain : ((normalize ((normalize bothHomonyms).run homonyms).1).run
      ((normalize bothHomonyms).run homonyms).2).1 = .tuple [.int, .int] := by rfl
  refine ⟨hplain, by simpa using hdepth, hout, hagain, ?_⟩
  rw [hagain, hout]
  simp [Ty.int]

end Registry

end RowTypes
