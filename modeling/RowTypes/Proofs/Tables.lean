import Mathlib.Data.List.Forall2
import Mathlib.Data.List.Perm.Subperm
import Mathlib.Data.String.Basic
import RowTypes.Table

/-!
# Tables in order

A table is a plain list, and `get?` reads the first entry of a key.  In a table whose keys ascend
there is only one, so membership and lookup say the same, and two tables with the same number of
entries of which one holds the keys of the other hold the same keys.  Everything here is about
that: which operations keep the order, and what lookup gives after each of them.
-/

namespace RowTypes.Table

variable {κ α β : Type}

/-- The keys ascend. -/
def Ascending [LT κ] (t : Table κ α) : Prop := t.Pairwise fun a b => a.1 < b.1

/-- An order in which keys can be sorted. -/
class KeyOrder (κ : Type) [LT κ] : Prop where
  irrefl : ∀ k : κ, ¬ k < k
  trans : ∀ {a b c : κ}, a < b → b < c → a < c
  total : ∀ {a b : κ}, a ≠ b → ¬ a < b → b < a

instance : KeyOrder Int where
  irrefl := Int.lt_irrefl
  trans := Int.lt_trans
  total := by intro a b h h'; omega

instance : KeyOrder String where
  irrefl := lt_irrefl
  trans := lt_trans
  total := fun h h' => lt_of_le_of_ne (not_lt.1 h') (Ne.symm h)

theorem KeyOrder.asymm [LT κ] [KeyOrder κ] {k j : κ} (h : k < j) : ¬ j < k := fun h' =>
  KeyOrder.irrefl k (KeyOrder.trans h h')

theorem keys_map (f : α → β) (t : Table κ α) :
    keys (t.map fun entry => (entry.1, f entry.2)) = t.keys := by
  simp [keys, Function.comp_def]

section Lookup

variable [DecidableEq κ]

@[simp] theorem get?_nil (k : κ) : get? k ([] : Table κ α) = none := rfl

theorem get?_cons (k k' : κ) (a : α) (t : Table κ α) :
    get? k ((k', a) :: t) = if k = k' then some a else get? k t := rfl

theorem mem_of_get? {k : κ} {a : α} : ∀ {t : Table κ α}, get? k t = some a → (k, a) ∈ t
  | [], h => by cases h
  | (k', a') :: t, h => by
      rw [get?_cons] at h
      split at h
      · next hk => cases h; rw [hk]; exact List.mem_cons_self
      · exact List.mem_cons_of_mem _ (mem_of_get? h)

theorem get?_isSome {k : κ} {t : Table κ α} : (get? k t).isSome ↔ k ∈ t.keys := by
  induction t with
  | nil => simp [keys]
  | cons entry t ih =>
      obtain ⟨k', a⟩ := entry
      rw [get?_cons]
      simp only [keys, List.map_cons, List.mem_cons]
      split
      · next hk => simp [hk]
      · next hk => simp only [hk, false_or]; exact ih

theorem get?_map (f : α → β) (k : κ) (t : Table κ α) :
    get? k (t.map fun entry => (entry.1, f entry.2)) = (get? k t).map f := by
  induction t with
  | nil => rfl
  | cons entry t ih =>
      obtain ⟨k', a⟩ := entry
      rw [List.map_cons, get?_cons, get?_cons]
      split
      · rfl
      · exact ih

theorem get?_erase_self (k : κ) (t : Table κ α) : get? k (erase k t) = none := by
  cases h : get? k (erase k t) with
  | none => rfl
  | some a => simpa using (List.mem_filter.1 (mem_of_get? h)).2

theorem get?_erase_of_ne {k j : κ} (h : j ≠ k) (t : Table κ α) :
    get? j (erase k t) = get? j t := by
  induction t with
  | nil => rfl
  | cons entry t ih =>
      obtain ⟨k', a⟩ := entry
      rw [erase, List.filter_cons]
      split
      · rw [get?_cons, get?_cons]
        split
        · rfl
        · exact ih
      · next hk =>
          have hk' : k' = k := by simpa using hk
          rw [get?_cons, if_neg (by rw [hk']; exact h)]
          exact ih

theorem get?_filter_keys (keep : κ → Bool) (k : κ) (t : Table κ α) :
    get? k (t.filter fun entry => keep entry.1) = if keep k then get? k t else none := by
  induction t with
  | nil => simp
  | cons entry t ih =>
      obtain ⟨k', a⟩ := entry
      rw [List.filter_cons]
      by_cases hk : k = k'
      · subst hk
        by_cases hkeep : keep k = true
        · rw [if_pos hkeep, get?_cons, if_pos rfl, if_pos hkeep, get?_cons, if_pos rfl]
        · rw [if_neg hkeep, ih, if_neg hkeep, if_neg hkeep]
      · split
        · rw [get?_cons, if_neg hk, ih, get?_cons, if_neg hk]
        · rw [ih, get?_cons, if_neg hk]

end Lookup

section Keys

variable [LT κ]

theorem Ascending.map {t : Table κ α} (h : t.Ascending) (f : α → β) :
    Ascending (t.map fun entry => (entry.1, f entry.2)) := by
  rw [Ascending, List.pairwise_map]
  exact h

theorem Ascending.erase {t : Table κ α} (h : t.Ascending) [DecidableEq κ] (k : κ) :
    Ascending (t.erase k) :=
  List.Pairwise.filter _ h

theorem Ascending.nodup_keys [KeyOrder κ] {t : Table κ α} (h : t.Ascending) :
    t.keys.Nodup := by
  rw [keys, List.Nodup, List.pairwise_map]
  refine h.imp fun hlt heq => ?_
  rw [heq] at hlt
  exact KeyOrder.irrefl _ hlt

/-- In tables of one length, keys that are all found on the other side are the keys of both. -/
theorem keys_eq_of_subset [KeyOrder κ] {s : Table κ α} {t : Table κ β} (hs : s.Ascending)
    (hlen : s.length = t.length) (h : ∀ k ∈ s.keys, k ∈ t.keys) : ∀ k ∈ t.keys, k ∈ s.keys := by
  have hsub : s.keys.Subperm t.keys := List.Nodup.subperm hs.nodup_keys h
  have hperm : s.keys.Perm t.keys :=
    hsub.perm_of_length_le (by simp [keys, hlen])
  intro k hk
  exact hperm.mem_iff.2 hk

theorem get?_of_mem [DecidableEq κ] [KeyOrder κ] {k : κ} {a : α} :
    ∀ {t : Table κ α}, t.Ascending → (k, a) ∈ t → get? k t = some a
  | (k', a') :: t, h, hm => by
      obtain ⟨hhead, htail⟩ := List.pairwise_cons.1 h
      rw [get?_cons]
      rcases List.mem_cons.1 hm with heq | hrest
      · obtain ⟨rfl, rfl⟩ := Prod.mk.inj heq
        rw [if_pos rfl]
      · rw [if_neg, get?_of_mem htail hrest]
        rintro rfl
        exact KeyOrder.irrefl k (hhead (k, a) hrest)

/-- Tables in order are told apart by lookup alone. -/
theorem Ascending.ext [DecidableEq κ] [KeyOrder κ] : ∀ {s t : Table κ α}, s.Ascending →
    t.Ascending → (∀ k, get? k s = get? k t) → s = t
  | [], [], _, _, _ => rfl
  | [], (k, a) :: t, _, _, h => by
      have := h k
      rw [get?_cons, if_pos rfl] at this
      cases this
  | (k, a) :: s, [], _, _, h => by
      have := h k
      rw [get?_cons, if_pos rfl] at this
      cases this
  | (k, a) :: s, (j, b) :: t, hs, ht, h => by
      obtain ⟨hk, hs'⟩ := List.pairwise_cons.1 hs
      obtain ⟨hj, ht'⟩ := List.pairwise_cons.1 ht
      have below : ∀ {u : Table κ α} {i : κ}, (∀ e ∈ u, i < e.1) → get? i u = none := by
        intro u i hi
        cases hg : get? i u with
        | none => rfl
        | some c => exact absurd (hi _ (mem_of_get? hg)) (KeyOrder.irrefl i)
      -- The first keys are equal: each is found on the other side, and only below its rest.
      have hkj : k = j := by
        refine Classical.byContradiction fun hne => ?_
        have h₁ := h k
        have h₂ := h j
        rw [get?_cons, get?_cons, if_pos rfl, if_neg hne] at h₁
        rw [get?_cons, get?_cons, if_pos rfl, if_neg (Ne.symm hne)] at h₂
        have hjk := hj _ (mem_of_get? h₁.symm)
        exact KeyOrder.irrefl _ (KeyOrder.trans hjk (hk _ (mem_of_get? h₂)))
      subst hkj
      have hab := h k
      rw [get?_cons, get?_cons, if_pos rfl, if_pos rfl, Option.some.injEq] at hab
      subst hab
      refine congrArg _ (Ascending.ext hs' ht' fun i => ?_)
      by_cases hi : i = k
      · rw [hi, below hk, below hj]
      · have := h i
        rwa [get?_cons, get?_cons, if_neg hi, if_neg hi] at this

end Keys

section Order

variable [LT κ] [DecidableLT κ] [DecidableEq κ]

theorem mem_insert {k : κ} {a : α} {e : κ × α} :
    ∀ {t : Table κ α}, e ∈ insert k a t → e = (k, a) ∨ e ∈ t
  | [], h => .inl (List.mem_singleton.1 h)
  | (k', a') :: t, h => by
      rw [insert] at h
      split at h
      · rcases List.mem_cons.1 h with rfl | h
        · exact .inl rfl
        · exact .inr (List.mem_cons_of_mem _ h)
      · split at h
        · rcases List.mem_cons.1 h with rfl | h
          · exact .inl rfl
          · exact .inr h
        · rcases List.mem_cons.1 h with rfl | h
          · exact .inr List.mem_cons_self
          · exact (mem_insert h).imp_right (List.mem_cons_of_mem _)

/-- An entry under a key without one is put between those that are there. -/
theorem exists_insert_eq {k : κ} (a : α) : ∀ {t : Table κ α}, get? k t = none →
    ∃ l r, t = l ++ r ∧ insert k a t = l ++ (k, a) :: r
  | [], _ => ⟨[], [], rfl, rfl⟩
  | (k', a') :: t, h => by
      rw [get?_cons] at h
      split at h
      · cases h
      · next hne =>
          rw [insert, if_neg hne]
          split
          · exact ⟨[], _, rfl, rfl⟩
          · obtain ⟨l, r, rfl, hinsert⟩ := exists_insert_eq a h
            exact ⟨(k', a') :: l, r, rfl, by rw [hinsert, List.cons_append]⟩

/-- Of two entries under one key the later one stays. -/
theorem insert_insert_self (k : κ) (a b : α) :
    ∀ t : Table κ α, insert k a (insert k b t) = insert k a t
  | [] => by simp [insert]
  | (k', a') :: t => by
      rw [insert, insert]
      split
      · simp [insert]
      · next hne =>
          split
          · simp [insert]
          · next hlt => rw [insert, if_neg hne, if_neg hlt, insert_insert_self k a b t]

variable [KeyOrder κ]

theorem insert_comm_of_lt {k j : κ} (h : k < j) (a b : α) :
    ∀ t : Table κ α, insert k a (insert j b t) = insert j b (insert k a t)
  | [] => by
      have hne : k ≠ j := fun heq => KeyOrder.irrefl k (heq ▸ h)
      simp [insert, hne, hne.symm, h, KeyOrder.asymm h]
  | (i, c) :: t => by
      have hne : k ≠ j := fun heq => KeyOrder.irrefl k (heq ▸ h)
      have hnot := KeyOrder.asymm h
      by_cases hk : k = i
      · subst hk
        simp [insert, hne.symm, hnot]
      by_cases hlt : k < i
      · -- The lower of the two comes first, whatever the other comes to stand behind.
        have hright : insert j b (insert k a ((i, c) :: t)) =
            (k, a) :: insert j b ((i, c) :: t) := by
          simp only [insert, hk, hlt, hne.symm, hnot, if_true, if_false]
        rw [hright, insert.eq_def j b]
        dsimp only
        split
        · simp [insert, hne, h]
        · split
          · simp [insert, hne, h]
          · simp [insert, hk, hlt]
      · have hi : i < k := KeyOrder.total hk hlt
        have hij := KeyOrder.trans hi h
        have hji : j ≠ i := fun heq => KeyOrder.irrefl i (heq ▸ hij)
        simp [insert, hk, hlt, hji, KeyOrder.asymm hij, insert_comm_of_lt h a b t]

/-- Entries under different keys may be made in either order. -/
theorem insert_comm {k j : κ} (h : k ≠ j) (a b : α) (t : Table κ α) :
    insert k a (insert j b t) = insert j b (insert k a t) := by
  by_cases hlt : k < j
  · exact insert_comm_of_lt hlt a b t
  · exact (insert_comm_of_lt (KeyOrder.total h hlt) b a t).symm

theorem Ascending.insert {t : Table κ α} (h : t.Ascending) (k : κ) (a : α) :
    Ascending (t.insert k a) := by
  induction t with
  | nil => exact List.pairwise_singleton _ _
  | cons entry t ih =>
      obtain ⟨k', a'⟩ := entry
      obtain ⟨hhead, htail⟩ := List.pairwise_cons.1 h
      rw [Table.insert]
      split
      · next hk => subst hk; exact List.pairwise_cons.2 ⟨hhead, htail⟩
      · next hk =>
          split
          · next hlt =>
              refine List.pairwise_cons.2 ⟨fun e he => ?_, h⟩
              rcases List.mem_cons.1 he with rfl | he
              · exact hlt
              · exact KeyOrder.trans hlt (hhead e he)
          · next hlt =>
              refine List.pairwise_cons.2 ⟨fun e he => ?_, ih htail⟩
              rcases mem_insert he with rfl | he
              · exact KeyOrder.total hk hlt
              · exact hhead e he

theorem Ascending.foldl_insert {t : Table κ α} (h : t.Ascending) (entries : List (κ × α)) :
    Ascending (entries.foldl (fun t entry => Table.insert entry.1 entry.2 t) t) := by
  induction entries generalizing t with
  | nil => exact h
  | cons entry entries ih => exact ih (h.insert _ _)

theorem ascending_ofList (entries : List (κ × α)) : Ascending (ofList entries) :=
  Ascending.foldl_insert List.Pairwise.nil entries

end Order

section Collected

variable [LT κ] [DecidableLT κ] [DecidableEq κ]

theorem mem_ofList {e : κ × α} {entries : List (κ × α)} (h : e ∈ ofList entries) :
    e ∈ entries := by
  have general : ∀ (entries : List (κ × α)) (t : Table κ α),
      e ∈ entries.foldl (fun t entry => insert entry.1 entry.2 t) t → e ∈ t ∨ e ∈ entries := by
    intro entries
    induction entries with
    | nil => exact fun t h => .inl h
    | cons entry entries ih =>
        intro t h
        rcases ih _ h with h | h
        · exact (mem_insert h).elim (fun h => .inr (h ▸ List.mem_cons_self)) .inl
        · exact .inr (List.mem_cons_of_mem _ h)
  exact (general entries [] h).resolve_left (by intro h; cases h)

/-- A table of the entries that some keys have. -/
theorem get?_ofList_filterMap (f : κ → Option α) (keys : List κ) (k : κ) :
    get? k (ofList (keys.filterMap fun k => (f k).map fun a => (k, a))) =
      if k ∈ keys then f k else none := by
  have general : ∀ t : Table κ α,
      get? k ((keys.filterMap fun k => (f k).map fun a => (k, a)).foldl
        (fun t entry => Table.insert entry.1 entry.2 t) t) =
      if k ∈ keys ∧ (f k).isSome then f k else get? k t := by
    induction keys with
    | nil => intro t; simp
    | cons j keys ih =>
        intro t
        cases hj : f j with
        | none =>
            rw [List.filterMap_cons_none (by simp [hj]), ih]
            by_cases hk : k = j
            · subst hk; simp [hj]
            · simp [hk]
        | some a =>
            rw [List.filterMap_cons_some (b := (j, a)) (by simp [hj]), List.foldl_cons, ih]
            by_cases hk : k = j
            · subst hk; simp [hj]
            · rw [get?_insert_of_ne hk]; simp [hk]
  rw [ofList, general]
  by_cases hk : k ∈ keys
  · cases hf : f k <;> simp [hk]
  · simp [hk]

theorem underlay_cons (t more : Table κ α) (k : κ) (a : α) :
    underlay t ((k, a) :: more) = underlay (if has k t then t else insert k a t) more := rfl

theorem mem_underlay {e : κ × α} :
    ∀ {more t : Table κ α}, e ∈ underlay t more → e ∈ t ∨ e ∈ more
  | [], _, h => .inl h
  | (k, a) :: more, t, h => by
      rw [underlay_cons] at h
      rcases mem_underlay h with h | h
      · split at h
        · exact .inl h
        · rcases mem_insert h with rfl | h
          · exact .inr List.mem_cons_self
          · exact .inl h
      · exact .inr (List.mem_cons_of_mem _ h)

theorem get?_underlay (k : κ) : ∀ t more : Table κ α,
    get? k (underlay t more) = (get? k t).or (get? k more)
  | t, [] => by rw [get?_nil, Option.or_none]; rfl
  | t, (j, a) :: more => by
      rw [underlay_cons, get?_underlay k _ more, get?_cons]
      by_cases hk : k = j
      · subst hk
        rw [if_pos rfl]
        cases hg : get? k t with
        | none => rw [if_neg (by rw [has, hg]; simp), get?_insert_self]; rfl
        | some b => rw [if_pos (by rw [has, hg]; rfl), hg]; rfl
      · rw [if_neg hk]
        split
        · rfl
        · rw [get?_insert_of_ne hk]

theorem Ascending.underlay [KeyOrder κ] : ∀ {more t : Table κ α}, t.Ascending →
    Ascending (underlay t more)
  | [], _, h => h
  | (k, a) :: more, t, h => by
      rw [underlay_cons]
      split
      · exact h.underlay
      · exact (h.insert k a).underlay

theorem Ascending.map_underlay [KeyOrder κ] {t : Table κ α} (h : t.Ascending) (f : α → β)
    (more : Table κ α) :
    ((Table.underlay t more).map fun entry => (entry.1, f entry.2)) =
      Table.underlay (t.map fun entry => (entry.1, f entry.2))
        (more.map fun entry => (entry.1, f entry.2)) := by
  refine Ascending.ext (h.underlay.map f) (h.map f).underlay fun k => ?_
  rw [get?_map, get?_underlay, get?_underlay, get?_map, get?_map]
  cases get? k t <;> rfl

theorem Ascending.underlay_underlay [KeyOrder κ] {t : Table κ α} (h : t.Ascending)
    (more rest : Table κ α) :
    Table.underlay (Table.underlay t more) rest = Table.underlay t (Table.underlay more rest) := by
  refine Ascending.ext h.underlay.underlay h.underlay fun k => ?_
  rw [get?_underlay, get?_underlay, get?_underlay, get?_underlay, Option.or_assoc]

end Collected

/-! ## Tables with the same keys -/

section Pairs

variable {R S : α → β → Prop} {t : Table κ α} {t' : Table κ β}

/-- Two tables have the same keys in the same order, and values that are related. -/
def Paired (R : α → β → Prop) (t : Table κ α) (t' : Table κ β) : Prop :=
  List.Forall₂ (fun e e' => e.1 = e'.1 ∧ R e.2 e'.2) t t'

theorem Paired.imp (hRS : ∀ a b, R a b → S a b) (h : Paired R t t') : Paired S t t' :=
  List.Forall₂.imp (fun _ _ he => ⟨he.1, hRS _ _ he.2⟩) h

theorem paired_map {ι : Type} {f : ι → α} {g : ι → β} {t : Table κ ι}
    (h : ∀ e ∈ t, R (f e.2) (g e.2)) :
    Paired R (t.map fun e => (e.1, f e.2)) (t.map fun e => (e.1, g e.2)) :=
  List.forall₂_map_left_iff.2 (List.forall₂_map_right_iff.2
    (List.forall₂_same.2 fun e he => ⟨rfl, h e he⟩))

theorem Paired.exists_left (h : Paired R t t') : ∀ e' ∈ t', ∃ a, R a e'.2 := by
  induction h with
  | nil => exact List.forall_mem_nil _
  | cons he _ ih => exact List.forall_mem_cons.2 ⟨⟨_, he.2⟩, ih⟩

theorem Paired.ascending [LT κ] (h : Paired R t t') (ht : Ascending t) : Ascending t' := by
  have hkeys : t'.map (·.1) = t.map (·.1) := by
    induction h with
    | nil => rfl
    | cons he _ ih => rw [List.map_cons, List.map_cons, ih (List.pairwise_cons.1 ht).2, he.1]
  exact List.pairwise_map.1 (hkeys ▸ List.pairwise_map.2 ht)

variable [DecidableEq κ]

theorem Paired.get? (h : Paired R t t') (k : κ) :
    Option.Rel R (Table.get? k t) (Table.get? k t') := by
  induction h with
  | nil => exact .none
  | @cons e e' t t' he _ ih =>
      obtain ⟨x, a⟩ := e
      obtain ⟨x', a'⟩ := e'
      obtain ⟨hx, ha⟩ := he
      dsimp only at hx ha
      subst hx
      rw [get?_cons, get?_cons]
      by_cases hk : k = x
      · rw [if_pos hk, if_pos hk]
        exact .some ha
      · rw [if_neg hk, if_neg hk]
        exact ih

theorem Paired.has_eq (h : Paired R t t') (k : κ) : has k t = has k t' := by
  have hget := h.get? k
  unfold has
  generalize Table.get? k t = x at hget ⊢
  generalize Table.get? k t' = x' at hget ⊢
  cases hget <;> rfl

theorem Paired.insert [LT κ] [DecidableLT κ] (h : Paired R t t') (k : κ) {a : α} {b : β}
    (hab : R a b) : Paired R (Table.insert k a t) (Table.insert k b t') := by
  induction h with
  | nil => exact .cons ⟨rfl, hab⟩ .nil
  | @cons e e' t t' he hrest ih =>
      obtain ⟨x, a'⟩ := e
      obtain ⟨x', b'⟩ := e'
      obtain ⟨hx, ha⟩ := he
      dsimp only at hx ha
      subst hx
      rw [Table.insert, Table.insert]
      by_cases hk : k = x
      · rw [if_pos hk, if_pos hk]
        exact .cons ⟨rfl, hab⟩ hrest
      · rw [if_neg hk, if_neg hk]
        by_cases hlt : k < x
        · rw [if_pos hlt, if_pos hlt]
          exact .cons ⟨rfl, hab⟩ (.cons ⟨rfl, ha⟩ hrest)
        · rw [if_neg hlt, if_neg hlt]
          exact .cons ⟨rfl, ha⟩ ih

end Pairs

end RowTypes.Table
