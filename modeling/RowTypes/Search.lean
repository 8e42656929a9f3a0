/-!
# Searches

What a search has found depends on how far it is followed, so a search is a function of that limit.
Followed further it finds the same.

A search that nothing bounds is followed further and further until it finds something.  If it never
does, it goes on for ever and comes to nothing.  This is computed without a proof that it ends: what
the search comes to is nothing or was found at some limit, and that is all that holds of it by
itself.  That it is what was found wherever anything is found rests on the search being steady.
-/

namespace RowTypes

variable {α β : Type} {f : Nat → Option α} {a : α} {n : Nat}

/-- Nothing, or what a search finds at some limit. -/
def Finding (f : Nat → Option α) : Type :=
  { found : Option α // ∀ a, found = some a → ∃ n, f n = some a }

instance : Nonempty (Finding f) := ⟨none, nofun⟩

/-- Follows a search to one limit after the other. -/
def searchFrom (f : Nat → Option α) : Nat → Finding f :=
  WellFounded.extrinsicFix (fun later n => later = n + 1 ∧ f n = none) fun n follow =>
    match h : f n with
    | some a => ⟨some a, fun _ ha => ⟨n, h.trans ha⟩⟩
    | none => follow (n + 1) ⟨rfl, h⟩

/-- How far a search is followed to begin with. -/
def searchStart : Nat := 64

/-- What a search comes to that nothing bounds. -/
def search (f : Nat → Option α) : Option α :=
  match f searchStart with
  | some a => some a
  | none => (searchFrom f searchStart).1

/-- Followed further, a search finds the same. -/
def Steady (f : Nat → Option α) : Prop := ∀ n a, f n = some a → ∀ m, n ≤ m → f m = some a

theorem steady_of_succ (h : ∀ n a, f n = some a → f (n + 1) = some a) : Steady f := by
  intro n a ha m hle
  induction hle with
  | refl => exact ha
  | step _ ih => exact h _ a ih

theorem exists_of_search (h : search f = some a) : ∃ n, f n = some a := by
  unfold search at h
  split at h
  · next b hb => exact ⟨_, hb.trans h⟩
  · exact (searchFrom f searchStart).2 a h

/-- Following a search further comes to an end if anything is found. -/
theorem wellFounded_later (hf : Steady f) (h : f n = some a) :
    WellFounded fun later m => later = m + 1 ∧ f m = none := by
  refine Subrelation.wf (fun {later m} hlater => ?_) (measure fun m => n - m).wf
  have hlt : m < n := by
    refine Nat.lt_of_not_le fun hle => ?_
    have hm := hf n a h m hle
    rw [hlater.2] at hm
    cases hm
  show n - later < n - m
  omega

theorem isSome_searchFrom (hf : Steady f) (h : f n = some a) (m : Nat) :
    (searchFrom f m).1.isSome := by
  have hwf := wellFounded_later hf h
  induction m using hwf.induction with
  | _ m ih =>
    rw [searchFrom, WellFounded.extrinsicFix_eq_apply hwf]
    split
    · rfl
    · next hnone => exact ih (m + 1) ⟨rfl, hnone⟩

/-- A steady search comes to what it finds at any limit. -/
theorem search_eq_some_iff (hf : Steady f) : search f = some a ↔ ∃ n, f n = some a := by
  refine ⟨exists_of_search, fun ⟨n, h⟩ => ?_⟩
  have hsome : (search f).isSome := by
    unfold search
    split
    · rfl
    · exact isSome_searchFrom hf h _
  obtain ⟨b, hb⟩ := Option.isSome_iff_exists.1 hsome
  -- What is found at two limits is found at the larger one.
  obtain ⟨m, hm⟩ := exists_of_search hb
  rw [hb, ← hf m b hm (max m n) (Nat.le_max_left ..), hf n a h (max m n) (Nat.le_max_right ..)]

/-- It does not matter whether a search is followed one step further. -/
theorem search_succ (hf : Steady f) : search (fun n => f (n + 1)) = search f := by
  have hsucc : Steady fun n => f (n + 1) := fun n a h m hle => hf _ a h _ (Nat.succ_le_succ hle)
  refine Option.ext fun a => ?_
  rw [search_eq_some_iff hsucc, search_eq_some_iff hf]
  exact ⟨fun ⟨n, h⟩ => ⟨n + 1, h⟩, fun ⟨n, h⟩ => ⟨n, hf n a h _ (Nat.le_succ n)⟩⟩

theorem steady_const (found : Option α) : Steady fun _ => found := fun _ _ h _ _ => h

theorem search_const (found : Option α) : search (fun _ => found) = found :=
  Option.ext fun _ => (search_eq_some_iff (steady_const found)).trans
    ⟨fun ⟨_, h⟩ => h, fun h => ⟨0, h⟩⟩

section Bind

variable {g : α → Nat → Option β}

theorem Steady.bind (hf : Steady f) (hg : ∀ a, Steady (g a)) :
    Steady fun n => (f n).bind (g · n) := by
  intro n b h m hle
  obtain ⟨a, ha, hb⟩ := Option.bind_eq_some_iff.1 h
  exact Option.bind_eq_some_iff.2 ⟨a, hf n a ha m hle, hg a n b hb m hle⟩

/-- One search after the other comes to what both together come to. -/
theorem search_bind (hf : Steady f) (hg : ∀ a, Steady (g a)) :
    search (fun n => (f n).bind (g · n)) = (search f).bind fun a => search (g a) := by
  refine Option.ext fun b => ?_
  rw [search_eq_some_iff (hf.bind hg), Option.bind_eq_some_iff]
  simp only [search_eq_some_iff hf, search_eq_some_iff (hg _), Option.bind_eq_some_iff]
  constructor
  · rintro ⟨n, a, ha, hb⟩
    exact ⟨a, ⟨n, ha⟩, n, hb⟩
  · rintro ⟨a, ⟨n, ha⟩, m, hb⟩
    exact ⟨max n m, a, hf n a ha _ (Nat.le_max_left ..), hg a m b hb _ (Nat.le_max_right ..)⟩

end Bind

theorem search_map (hf : Steady f) (g : α → β) :
    search (fun n => (f n).map g) = (search f).map g := by
  simp only [Option.map_eq_bind, Function.comp_def]
  rw [search_bind (g := fun a _ => some (g a)) hf fun _ => steady_const _]
  simp only [search_const]

/-! ## One of several -/

section Any

variable {γ : Type} {p : Nat → γ → Option Bool} {cs : List γ}

theorem anyM_cons (p : γ → Option Bool) (c : γ) (cs : List γ) :
    (c :: cs).anyM p = (p c).bind fun b => if b then some true else cs.anyM p := by
  rw [List.anyM]
  cases p c with
  | none => rfl
  | some b => cases b <;> rfl

theorem anyM_mono {p q : γ → Option Bool} {b : Bool}
    (h : ∀ c ∈ cs, ∀ b, p c = some b → q c = some b) (hb : cs.anyM p = some b) :
    cs.anyM q = some b := by
  induction cs with
  | nil => exact hb
  | cons c cs ih =>
    obtain ⟨hc, hcs⟩ := List.forall_mem_cons.1 h
    rw [anyM_cons] at hb ⊢
    obtain ⟨here, hhere, hb⟩ := Option.bind_eq_some_iff.1 hb
    rw [hc here hhere, Option.bind_some]
    cases here with
    | true => exact hb
    | false => exact ih hcs hb

theorem steady_anyM (hp : ∀ c ∈ cs, Steady (p · c)) : Steady fun n => cs.anyM (p n) :=
  fun n _ h m hle => anyM_mono (fun c hc b hb => hp c hc n b hb m hle) h

/-- A search for one of several asks one after the other. -/
theorem search_anyM (hp : ∀ c ∈ cs, Steady (p · c)) :
    search (fun n => cs.anyM (p n)) = cs.anyM fun c => search (p · c) := by
  induction cs with
  | nil => exact search_const _
  | cons c cs ih =>
    obtain ⟨hc, hcs⟩ := List.forall_mem_cons.1 hp
    simp only [anyM_cons]
    rw [search_bind (g := fun b n => if b then some true else cs.anyM (p n)) hc]
    · congr 1
      funext b
      cases b with
      | true => exact search_const _
      | false => exact ih hcs
    · rintro (_ | _)
      · exact steady_anyM hcs
      · exact steady_const _

end Any

end RowTypes
