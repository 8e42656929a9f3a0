import RowTypes.Proofs.Readings
import RowTypes.Proofs.Schemes

/-!
# Environments as contexts

Under a reading, a scheme of unknowns is a scheme of the Damas–Milner system: what it is closed
over becomes its bound names, and the other unknowns are read.  Instantiating takes an instance,
and every instance is taken under some reading of the fresh unknowns.
-/

namespace RowTypes

open Milner

namespace Scheme

variable {R R' : Reading Int} {s : Scheme} {τ : Mono Int}

/-- The scheme under a reading of its free unknowns. -/
def read (R : Reading Int) (s : Scheme) : Poly :=
  s.body.read fun id => if s.Binds id then .var (.inr id) else Poly.mono (R id)

theorem read_mono (t : Ty) (ht : t.Simple) : (mono t).read R = Poly.mono (t.read R) := by
  rw [Poly.mono, Ty.bind_read _ _ ht]
  rfl

theorem read_congr (hs : s.body.Simple) (h : ∀ id, s.Mentions id → R id = R' id) :
    s.read R = s.read R' := by
  refine Ty.read_congr hs fun id hid => ?_
  split
  · rfl
  · next hbinds => rw [h id ⟨hid, hbinds⟩]

theorem free_read (hs : s.body.Simple) {a : Int} :
    (s.read R).Free a ↔ ∃ id, s.Mentions id ∧ (R id).Occurs a := by
  rw [Poly.Free, read, Ty.occurs_read hs]
  refine exists_congr fun id => ?_
  unfold Mentions
  split
  · next hbinds =>
      refine ⟨fun h => ?_, fun h => absurd hbinds h.1.2⟩
      cases h.2
  · next hbinds =>
      rw [and_assoc]
      refine and_congr_right fun _ => ?_
      exact Poly.free_mono.trans ⟨fun h => ⟨hbinds, h⟩, fun h => h.2⟩

/-- The instances of a scheme replace the unknowns that it is closed over. -/
theorem instance_read (hs : s.body.Simple) :
    (s.read R).Instance τ ↔
      ∃ r : Reading Int, τ = s.body.read fun id => if s.Binds id then r id else R id := by
  refine exists_congr fun r => ?_
  rw [read, Ty.bind_read _ _ hs]
  have hfun : (fun id => (if s.Binds id then (Mono.var (Sum.inr id) : Poly)
      else Poly.mono (R id)).bind (Sum.elim .var r)) =
      fun id => if s.Binds id then r id else R id := by
    funext id
    split
    · rfl
    · exact (Poly.instance_mono.1 ⟨r, rfl⟩)
  rw [hfun]

/-! ## Instantiating -/

theorem count_refresh (level : Int) : ∀ (vs : List TyVar) (s : Subst) (supply : Supply),
    (refresh level vs s supply).2.count = supply.count + vs.length
  | [], _, _ => rfl
  | v :: vs, s, supply => by
      refine (count_refresh level vs _ _).trans ?_
      rw [List.length_cons]
      show supply.count + 1 + vs.length = _
      omega

/-- What the unknowns that were refreshed are sent to is fresh, and the others are left alone. -/
theorem get?_refresh (level : Int) (id : Int) :
    ∀ (vs : List TyVar) (s : Subst) (supply : Supply),
      ((refresh level vs s supply).1.get? id = s.get? id ∧ id ∉ vs.map (·.id)) ∨
        ∃ w : TyVar, supply.count < w.id ∧ w.id ≤ supply.count + vs.length ∧
          (refresh level vs s supply).1.get? id = Subst.held id (.var w) ∧ id ∈ vs.map (·.id)
  | [], s, _ => .inl ⟨rfl, by simp⟩
  | v :: vs, s, supply => by
      rw [refresh]
      rcases get?_refresh level id vs (s.bind v (.var (supply.fresh level).1))
        (supply.fresh level).2 with ⟨hget, hnot⟩ | ⟨w, hlt, hle, hget, hmem⟩
      · dsimp only
        rw [hget, Subst.get?_bind]
        by_cases hid : id = v.id
        · refine .inr ⟨(supply.fresh level).1, ?_, ?_, ?_, by simp [hid]⟩
          · show (supply.count : Int) < supply.count + 1
            omega
          · show (supply.count : Int) + 1 ≤ supply.count + (v :: vs).length
            rw [List.length_cons]
            omega
          · rw [if_pos hid, hid]
        · exact .inl ⟨if_neg hid, by simp [hid, hnot]⟩
      · refine .inr ⟨w, ?_, ?_, hget, by simp [hmem]⟩
        · rw [Supply.count_fresh] at hlt
          omega
        · rw [Supply.count_fresh] at hle
          rw [List.length_cons]
          omega

/-- The fresh unknowns can be read as any types for the ones they stand for. -/
theorem exists_reading_refresh (level : Int) (r : Reading Int) :
    ∀ (vs : List TyVar) (s : Subst) (supply : Supply) (R : Reading Int),
      ∃ R' : Reading Int, (∀ id : Int, id ≤ supply.count → R' id = R id) ∧
        ∀ id, (refresh level vs s supply).1.reading R' id =
          if id ∈ vs.map (·.id) then r id else s.reading R' id
  | [], s, _, R => ⟨R, fun _ _ => rfl, fun id => by simp [refresh]⟩
  | v :: vs, s, supply, R => by
      let w := (supply.fresh level).1
      obtain ⟨R', hold, hnew⟩ := exists_reading_refresh level r vs (s.bind v (.var w))
        (supply.fresh level).2 (Function.update R w.id (r v.id))
      refine ⟨R', fun id hid => ?_, fun id => ?_⟩
      · have hne : id ≠ w.id := by
          show id ≠ (supply.count : Int) + 1
          omega
        rw [hold id (by rw [Supply.count_fresh]; omega), Function.update_of_ne hne]
      · have hw : R' w.id = r v.id := by
          rw [hold w.id (Int.le_of_eq rfl), Function.update_self]
        refine (hnew id).trans ?_
        by_cases hmem : id ∈ vs.map (·.id)
        · rw [if_pos hmem, if_pos (by simp [hmem])]
        · rw [if_neg hmem, Subst.reading_bind]
          by_cases hid : id = v.id
          · rw [if_pos hid, if_pos (by simp [hid]), hid]
            exact hw
          · rw [if_neg hid, if_neg (by simp [hid, hmem])]

variable {level : Int} {supply : Supply}

theorem count_instantiate : supply.count ≤ (s.instantiate level supply).2.count := by
  unfold instantiate
  split
  · exact Nat.le_refl _
  · have := count_refresh level s.vars .empty supply
    dsimp only
    omega

theorem not_binds_of_isMono (h : s.isMono = true) (id : Int) : ¬ s.Binds id := by
  rw [binds_iff, List.isEmpty_iff.1 h]
  simp

theorem core_refresh : (refresh level s.vars .empty supply).1.Core .simple := by
  intro id t ht
  refine ⟨?_, fun hrow => hrow.elim⟩
  rcases get?_refresh level id s.vars .empty supply with ⟨hget, -⟩ | ⟨w, -, -, hget, -⟩
  · rw [hget] at ht
    cases ht
  · rw [hget] at ht
    rw [(Subst.held_eq_some ht).1]
    exact Ty.simple_var w

theorem simple_instantiate (hs : s.body.Simple) : (s.instantiate level supply).1.Simple := by
  unfold instantiate
  split
  · exact hs
  · exact Subst.simple_apply core_refresh hs

/-- An instance of a scheme mentions its free unknowns and fresh ones. -/
theorem mentions_instantiate (hs : s.body.Simple) {id : Int}
    (h : (s.instantiate level supply).1.Mentions id) :
    s.Mentions id ∨ (supply.count < id ∧ id ≤ (s.instantiate level supply).2.count) := by
  unfold instantiate at h ⊢
  split
  · next hmono =>
      rw [if_pos hmono] at h
      exact .inl ⟨h, not_binds_of_isMono hmono id⟩
  · next hmono =>
      rw [if_neg hmono] at h
      obtain ⟨j, hj, hid⟩ := (Subst.mentions_apply_iff core_refresh hs).1 h
      rw [Subst.apply_var] at hid
      have hcount := count_refresh level s.vars .empty supply
      dsimp only
      rcases get?_refresh level j s.vars .empty supply with
        ⟨hget, hnot⟩ | ⟨w, hlt, hle, hget, hmem⟩
      · rw [hget] at hid
        rw [← Ty.mentions_var.1 hid]
        exact .inl ⟨hj, hnot⟩
      · refine .inr ?_
        have hw : w.id = id := by
          rw [hget] at hid
          unfold Subst.held at hid
          dsimp only at hid
          split at hid
          · next hself => rw [hself]; exact Ty.mentions_var.1 hid
          · exact Ty.mentions_var.1 hid
        omega

/-- Instantiating a scheme takes an instance of it. -/
theorem instance_instantiate (hs : s.body.Simple) (R : Reading Int) :
    (s.read R).Instance ((s.instantiate level supply).1.read R) := by
  rw [instance_read hs]
  unfold instantiate
  split
  · next hmono =>
      refine ⟨R, Ty.read_congr hs fun id _ => ?_⟩
      rw [if_neg (not_binds_of_isMono hmono id)]
  · refine ⟨(refresh level s.vars .empty supply).1.reading R, ?_⟩
    rw [Subst.read_apply R hs]
    refine Ty.read_congr hs fun id _ => ?_
    split
    · rfl
    · next hbinds =>
        rcases get?_refresh level id s.vars .empty supply with ⟨hget, -⟩ | ⟨w, -, -, -, hmem⟩
        · exact Subst.reading_of_none hget
        · exact absurd hmem hbinds

/-- Every instance of a scheme is what instantiating takes, under a reading of the fresh
unknowns. -/
theorem exists_reading_instantiate (level : Int) {supply : Supply} (hs : s.body.Simple)
    (hle : ∀ id, s.Mentions id → id ≤ supply.count) (h : (s.read R).Instance τ) :
    ∃ R' : Reading Int, (∀ id : Int, id ≤ supply.count → R' id = R id) ∧
      (s.instantiate level supply).1.read R' = τ := by
  obtain ⟨r, rfl⟩ := (instance_read hs).1 h
  unfold instantiate
  split
  · next hmono =>
      refine ⟨R, fun _ _ => rfl, Ty.read_congr hs fun id _ => ?_⟩
      rw [if_neg (not_binds_of_isMono hmono id)]
  · obtain ⟨R', hold, hnew⟩ := exists_reading_refresh level r s.vars .empty supply R
    refine ⟨R', hold, ?_⟩
    rw [Subst.read_apply R' hs]
    refine Ty.read_congr hs fun id hid => ?_
    rw [hnew id]
    by_cases hbinds : s.Binds id
    · rw [if_pos hbinds]
      exact if_pos hbinds
    · rw [if_neg hbinds, if_neg (show ¬ id ∈ s.vars.map (·.id) from hbinds),
        Subst.reading_of_none rfl]
      exact hold id (hle id ⟨hid, hbinds⟩)

end Scheme

/-! ## Environments -/

namespace Env

/-- The environment under a reading of its free unknowns. -/
def read (R : Reading Int) (e : Env) : Milner.Context :=
  fun name => (e.lookup? name).map (Scheme.read R)

/-- Environments that inference meets when so many unknowns have been given out.  The unknowns
that an open scheme is closed over are old as well, and free nowhere. -/
structure Fits (n : Nat) (e : Env) : Prop where
  ascending : e.schemes.Ascending
  simple : ∀ entry ∈ e.schemes, entry.2.body.Simple
  older : ∀ id, e.Mentions id → id ≤ n
  apart : ∀ entry ∈ e.schemes, (∃ j, entry.2.Mentions j) →
    ∀ id, entry.2.Binds id → id ≤ n ∧ ¬ e.Mentions id

/-- Environments of closed schemes of types without records. -/
structure Closed (e : Env) : Prop where
  ascending : e.schemes.Ascending
  simple : ∀ entry ∈ e.schemes, entry.2.body.Simple
  closed : ∀ id, ¬ e.Mentions id

theorem Closed.fits {e : Env} (h : e.Closed) (n : Nat) : e.Fits n where
  ascending := h.ascending
  simple := h.simple
  older := fun id hid => absurd hid (h.closed id)
  apart := fun entry hentry ⟨j, hj⟩ => absurd ⟨entry, hentry, hj⟩ (h.closed j)

variable {e : Env} {n m : Nat} {R R' : Reading Int} {s : Scheme} {name : String}

theorem Fits.lookup (h : e.Fits n) {name : String} (hs : e.lookup? name = some s) :
    s.body.Simple := h.simple (name, s) (Table.mem_of_get? hs)

theorem Fits.mono (h : e.Fits n) (hnm : n ≤ m) : e.Fits m where
  ascending := h.ascending
  simple := h.simple
  older := fun id hid => by have := h.older id hid; omega
  apart := fun entry hentry hopen id hid => by
    obtain ⟨hle, hnot⟩ := h.apart entry hentry hopen id hid
    exact ⟨by omega, hnot⟩

/-- Giving a name a scheme of unknowns that are free in the environment or new. -/
theorem Fits.bind (h : e.Fits n) (hnm : n ≤ m) (name : String) (hs : s.body.Simple)
    (hover : ∀ id, s.Mentions id → e.Mentions id ∨ (n < id ∧ id ≤ m))
    (hbinds : ∀ id, s.Binds id → id ≤ m ∧ ¬ e.Mentions id) : (e.bind name s).Fits m where
  ascending := h.ascending.insert name s
  simple := by
    intro entry hentry
    rcases Table.mem_insert hentry with rfl | hentry
    · exact hs
    · exact h.simple entry hentry
  older := by
    intro id hid
    rcases mentions_bind hid with hid | hid
    · rcases hover id hid with hid | ⟨-, hle⟩
      · have := h.older id hid
        omega
      · exact hle
    · have := h.older id hid
      omega
  apart := by
    intro entry hentry hopen id hid
    rcases Table.mem_insert hentry with rfl | hentry
    · obtain ⟨hle, hnot⟩ := hbinds id hid
      exact ⟨hle, fun hmem => (mentions_bind hmem).elim (fun hmem => hmem.2 hid) hnot⟩
    · obtain ⟨hle, hnot⟩ := h.apart entry hentry hopen id hid
      refine ⟨by omega, fun hmem => (mentions_bind hmem).elim (fun hmem => ?_) hnot⟩
      rcases hover id hmem with hmem | ⟨hlt, -⟩
      · exact hnot hmem
      · omega

theorem Fits.bindMono (h : e.Fits n) (hnm : n ≤ m) (name : String) {t : Ty} (ht : t.Simple)
    (hover : ∀ id, t.Mentions id → e.Mentions id ∨ (n < id ∧ id ≤ m)) :
    (e.bindMono name t).Fits m :=
  h.bind hnm name ht (fun id hid => hover id (Scheme.mentions_mono.1 hid)) fun id hid => by
    cases hid

theorem read_bind (R : Reading Int) (e : Env) (name : String) (s : Scheme) :
    (e.bind name s).read R = (e.read R).bind name (s.read R) := by
  funext x
  unfold read lookup? bind Milner.Context.bind
  split
  · next hx => rw [hx, Table.get?_insert_self]; rfl
  · next hx => rw [Table.get?_insert_of_ne hx]

theorem read_bindMono (R : Reading Int) (e : Env) (name : String) {t : Ty} (ht : t.Simple) :
    (e.bindMono name t).read R = (e.read R).bind name (Poly.mono (t.read R)) := by
  rw [bindMono, read_bind, Scheme.read_mono t ht]

theorem Fits.read_congr (h : e.Fits n) (hR : ∀ id, e.Mentions id → R id = R' id) :
    e.read R = e.read R' := by
  funext x
  unfold read
  cases hs : e.lookup? x with
  | none => rfl
  | some s =>
      refine congrArg some (Scheme.read_congr (h.lookup hs) fun id hid => hR id ?_)
      exact mentions_of_lookup? hs hid

theorem Fits.free_read (h : e.Fits n) {a : Int} :
    (e.read R).Free a ↔ ∃ id, e.Mentions id ∧ (R id).Occurs a := by
  constructor
  · rintro ⟨x, p, hp, ha⟩
    obtain ⟨s, hs, rfl⟩ := Option.map_eq_some_iff.1 hp
    obtain ⟨id, hid, ha⟩ := (Scheme.free_read (h.lookup hs)).1 ha
    exact ⟨id, mentions_of_lookup? hs hid, ha⟩
  · rintro ⟨id, ⟨entry, hentry, hid⟩, ha⟩
    have hget : e.lookup? entry.1 = some entry.2 := Table.get?_of_mem h.ascending hentry
    refine ⟨entry.1, entry.2.read R, by rw [read, hget]; rfl, ?_⟩
    exact (Scheme.free_read (h.simple entry hentry)).2 ⟨id, hid, ha⟩

end Env

end RowTypes
