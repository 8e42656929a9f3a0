import Mathlib.Algebra.Group.Int.Defs
import Mathlib.Data.List.Basic
import RowTypes.Source.Pattern

/-!
# Reading messages back

A digest is taken over a message: a tag, and the digests of the parts, eight bytes each.  A message
can be read back if its tag is one of some of which none starts another one, since the rest is cut
into words.  So as long as no two of the messages that come up have one digest, equal digests are
digests of one message, of one tag and of parts with equal digests.

Patterns are digested whatever their places, and the induction over a pattern that this amounts to
makes patterns with one digest the same up to their places.
-/

namespace RowTypes

namespace Digest

variable {ms : List (List UInt8)} {ps qs : List Digest} {tag tag' : String} {tags : List String}

/-- What the digest of a node is taken over. -/
def message (tag : String) (parts : List Digest) : List UInt8 :=
  textBytes tag ++ parts.flatMap wordBytes

/-- No two of some messages have one digest. -/
def Faithful (ms : List (List UInt8)) : Prop :=
  ∀ m ∈ ms, ∀ m' ∈ ms, ofBytes m = ofBytes m' → m = m'

instance (ms : List (List UInt8)) : Decidable (Faithful ms) :=
  inferInstanceAs (Decidable (∀ m ∈ ms, ∀ m' ∈ ms, ofBytes m = ofBytes m' → m = m'))

theorem textBytes_inj {s t : String} (h : textBytes s = textBytes t) : s = t :=
  String.toByteArray_inj.1 (ByteArray.ext (Array.toList_inj.1 h))

theorem wordBytes_inj {w w' : Digest} (h : wordBytes w = wordBytes w') : w = w' := by
  simp only [wordBytes, List.cons.injEq, ← UInt8.toNat_inj, UInt64.toNat_toUInt8,
    UInt64.toNat_shiftRight, Nat.shiftRight_eq_div_pow, UInt64.reduceToNat, Nat.reduceMod,
    Nat.reducePow] at h
  obtain ⟨h0, h1, h2, h3, h4, h5, h6, h7, -⟩ := h
  have hw := w.toNat_lt
  have hw' := w'.toNat_lt
  refine UInt64.toNat_inj.1 ?_
  omega

theorem words_inj : ∀ {ps qs : List Digest},
    ps.flatMap wordBytes = qs.flatMap wordBytes → ps = qs
  | [], [], _ => rfl
  | [], _ :: _, h => by simp [wordBytes] at h
  | _ :: _, [], h => by simp [wordBytes] at h
  | p :: ps, q :: qs, h => by
      rw [List.flatMap_cons, List.flatMap_cons] at h
      obtain ⟨hword, hrest⟩ := List.append_inj h rfl
      rw [wordBytes_inj hword, words_inj hrest]

/-- None of some tags starts another one. -/
def PrefixFree (tags : List String) : Prop :=
  ∀ tag ∈ tags, ∀ tag' ∈ tags, (textBytes tag).isPrefixOf (textBytes tag') = true → tag = tag'

instance (tags : List String) : Decidable (PrefixFree tags) :=
  inferInstanceAs (Decidable (∀ tag ∈ tags, ∀ tag' ∈ tags, _ → tag = tag'))

theorem message_inj (htags : PrefixFree tags) (htag : tag ∈ tags) (htag' : tag' ∈ tags)
    (h : message tag ps = message tag' qs) : tag = tag' ∧ ps = qs := by
  have heq : tag = tag' := by
    have hpre : textBytes tag <+: message tag' qs := h ▸ List.prefix_append _ _
    have hpre' : textBytes tag' <+: message tag' qs := List.prefix_append _ _
    obtain hle | hle := Nat.le_total (textBytes tag).length (textBytes tag').length
    · have := List.prefix_of_prefix_length_le hpre hpre' hle
      exact htags tag htag tag' htag' (List.isPrefixOf_iff_prefix.2 this)
    · have := List.prefix_of_prefix_length_le hpre' hpre hle
      exact (htags tag' htag' tag htag (List.isPrefixOf_iff_prefix.2 this)).symm
  subst heq
  exact ⟨rfl, words_inj (List.append_cancel_left h)⟩

theorem Faithful.text (h : Faithful ms) {s t : String} (hs : textBytes s ∈ ms)
    (ht : textBytes t ∈ ms) (heq : ofText s = ofText t) : s = t :=
  textBytes_inj (h _ hs _ ht heq)

/-- Integers that fit into a word. -/
def IsWord (i : Int) : Prop := -2 ^ 63 ≤ i ∧ i < 2 ^ 63
  deriving Decidable

theorem ofInt_inj {i j : Int} (hi : IsWord i) (hj : IsWord j) (h : ofInt i = ofInt j) : i = j := by
  unfold IsWord at hi hj
  have heq := congrArg UInt64.toNat h
  simp only [ofInt, UInt64.ofInt, UInt64.toNat_ofNat'] at heq
  omega

/-- Sorting forgets the order, and nothing else. -/
theorem sorted_eq_iff : sorted ps = sorted qs ↔ ps.Perm qs := by
  have hsorted (ps : List Digest) : ps.mergeSort.Pairwise fun a b => decide (a ≤ b) = true := by
    refine List.pairwise_mergeSort ?_ ?_ ps <;> simp only [decide_eq_true_eq, Bool.or_eq_true]
    · exact fun a b c => UInt64.le_trans
    · exact fun a b => UInt64.le_total a b
  unfold sorted
  constructor
  · intro h
    exact (List.mergeSort_perm ps _).symm.trans (h ▸ List.mergeSort_perm qs _)
  · intro h
    refine List.Perm.eq_of_pairwise (fun a b _ _ hab hba => ?_) (hsorted ps) (hsorted qs)
      ((List.mergeSort_perm ps _).trans (h.trans (List.mergeSort_perm qs _).symm))
    exact UInt64.le_antisymm (of_decide_eq_true hab) (of_decide_eq_true hba)

end Digest

/-! ## Patterns -/

namespace Pattern

open Digest (IsWord Faithful)

variable {ms : List (List UInt8)} {p q : Pattern} {ps qs : List Pattern}
  {fs gs : List (String × Pattern)}

mutual

/-- The pattern without places. -/
def unplaced : Pattern → Pattern
  | .missing => .missing
  | .literal _ kind value => .literal {} kind value
  | .var _ name => .var {} name
  | .wildcard _ => .wildcard {}
  | .tuple _ ps => .tuple {} (unplacedAll ps)
  | .record _ fs => .record {} (unplacedFields fs)

def unplacedAll : List Pattern → List Pattern
  | [] => []
  | p :: ps => p.unplaced :: unplacedAll ps

def unplacedFields : List (String × Pattern) → List (String × Pattern)
  | [] => []
  | (name, p) :: fs => (name, p.unplaced) :: unplacedFields fs

end

/-- Patterns that a program can have: none is missing, and a constant has the kind that its number
says, which is a machine word. -/
inductive Complete : Pattern → Prop where
  | literal (span : Span) {code : Int} (value : String) : IsWord code →
      Complete (.literal span (.ofCode code) value)
  | var (span : Span) (name : String) : Complete (.var span name)
  | wildcard (span : Span) : Complete (.wildcard span)
  | tuple (span : Span) {ps : List Pattern} : (∀ p ∈ ps, Complete p) → Complete (.tuple span ps)
  | record (span : Span) {fs : List (String × Pattern)} : (∀ f ∈ fs, Complete f.2) →
      Complete (.record span fs)

/-- The tag of a pattern's digest. -/
def tag : Pattern → String
  | .missing => ""
  | .literal .. => "LiteralPattern"
  | .var .. => "VarPattern"
  | .wildcard _ => "WildcardPattern"
  | .tuple .. => "TuplePattern"
  | .record .. => "RecordPattern"

/-- The tags of patterns and of their lists. -/
def tags : List String :=
  ["LiteralPattern", "VarPattern", "WildcardPattern", "TuplePattern", "RecordPattern", "list"]

theorem prefixFree_tags : Digest.PrefixFree tags := by decide +kernel

/-- The digests that a pattern's digest is taken over. -/
def digestParts : Pattern → List Digest
  | .missing | .wildcard _ => []
  | .literal _ kind value => [.ofInt kind.code, .ofText value]
  | .var _ name => [.ofText name]
  | .tuple _ ps => [.node "list" (digestAll ps)]
  | .record _ fs => digestFields fs

/-- What the digest of a pattern is taken over. -/
def message (p : Pattern) : List UInt8 := Digest.message p.tag p.digestParts

theorem Complete.tag_mem (h : p.Complete) : p.tag ∈ tags := by
  cases h <;> simp [tag, tags]

theorem Complete.digest_eq (h : p.Complete) : p.digest = Digest.ofBytes p.message := by
  cases h <;> rfl

mutual

/-- Everything that is digested on the way to the digest of a pattern. -/
def messages : Pattern → List (List UInt8)
  | .missing => []
  | .literal span kind value =>
    [(Pattern.literal span kind value).message, Digest.textBytes value]
  | .var span name => [(Pattern.var span name).message, Digest.textBytes name]
  | .wildcard span => [(Pattern.wildcard span).message]
  | .tuple span ps =>
    (Pattern.tuple span ps).message :: Digest.message "list" (digestAll ps) :: messagesAll ps
  | .record span fs => (Pattern.record span fs).message :: messagesFields fs

def messagesAll : List Pattern → List (List UInt8)
  | [] => []
  | p :: ps => p.messages ++ messagesAll ps

def messagesFields : List (String × Pattern) → List (List UInt8)
  | [] => []
  | (name, p) :: fs => Digest.textBytes name :: (p.messages ++ messagesFields fs)

end

theorem Complete.message_mem (h : p.Complete) : p.message ∈ p.messages := by
  cases h <;> rw [messages] <;> exact List.mem_cons_self

mutual

/-- The places of a pattern do not come up in its digest. -/
theorem digest_unplaced : ∀ p : Pattern, p.unplaced.digest = p.digest
  | .missing | .literal .. | .var .. | .wildcard _ => rfl
  | .tuple _ ps => by rw [unplaced, digest, digest, digestAll_unplacedAll ps]
  | .record _ fs => by rw [unplaced, digest, digest, digestFields_unplacedFields fs]

theorem digestAll_unplacedAll : ∀ ps : List Pattern, digestAll (unplacedAll ps) = digestAll ps
  | [] => rfl
  | p :: ps => by
      rw [unplacedAll, digestAll, digestAll, digest_unplaced p, digestAll_unplacedAll ps]

theorem digestFields_unplacedFields (fs : List (String × Pattern)) :
    digestFields (unplacedFields fs) = digestFields fs := by
  rcases fs with _ | ⟨⟨name, p⟩, fs⟩
  · rfl
  · rw [unplacedFields, digestFields, digestFields, digest_unplaced p,
      digestFields_unplacedFields fs]

end

theorem unplacedAll_eq_map (ps : List Pattern) : unplacedAll ps = ps.map unplaced := by
  induction ps with
  | nil => rfl
  | cons p ps ih => rw [unplacedAll, ih, List.map_cons]

theorem digestAll_eq_map (ps : List Pattern) : digestAll ps = ps.map digest := by
  induction ps with
  | nil => rfl
  | cons p ps ih => rw [digestAll, ih, List.map_cons]

theorem digestAll_eq_of_unplaced (h : ps.map unplaced = qs.map unplaced) :
    ps.map digest = qs.map digest := by
  rw [← unplacedAll_eq_map, ← unplacedAll_eq_map] at h
  rw [← digestAll_eq_map, ← digestAll_eq_map, ← digestAll_unplacedAll, h, digestAll_unplacedAll]

/-- Patterns with one digest are made in one way of parts with the same digests. -/
theorem Complete.parts_eq (hms : Faithful ms) (hp : p.Complete) (hq : q.Complete)
    (hsub : p.messages ⊆ ms) (hsub' : q.messages ⊆ ms) (h : p.digest = q.digest) :
    p.tag = q.tag ∧ p.digestParts = q.digestParts := by
  rw [hp.digest_eq, hq.digest_eq] at h
  exact Digest.message_inj prefixFree_tags hp.tag_mem hq.tag_mem
    (hms _ (hsub hp.message_mem) _ (hsub' hq.message_mem) h)

/-- Equal digests among some messages are digests of one pattern, up to places. -/
def Decides (ms : List (List UInt8)) (p : Pattern) : Prop :=
  ∀ {q : Pattern}, q.Complete → p.messages ⊆ ms → q.messages ⊆ ms → p.digest = q.digest →
    p.unplaced = q.unplaced

theorem unplacedAll_eq_of_digestAll_eq : ∀ {ps qs : List Pattern}, (∀ p ∈ ps, Decides ms p) →
    (∀ q ∈ qs, q.Complete) → messagesAll ps ⊆ ms → messagesAll qs ⊆ ms →
    digestAll ps = digestAll qs → unplacedAll ps = unplacedAll qs
  | [], [], _, _, _, _, _ => rfl
  | [], _ :: _, _, _, _, _, h | _ :: _, [], _, _, _, _, h => by simp [digestAll] at h
  | p :: ps, q :: qs, ih, hqs, hsub, hsub', h => by
      obtain ⟨hp, hps⟩ := List.forall_mem_cons.1 ih
      obtain ⟨hq, hqs⟩ := List.forall_mem_cons.1 hqs
      obtain ⟨hsp, hsps⟩ := List.append_subset.1 hsub
      obtain ⟨hsq, hsqs⟩ := List.append_subset.1 hsub'
      obtain ⟨hhead, htail⟩ := List.cons.inj h
      rw [unplacedAll, unplacedAll, hp hq hsp hsq hhead,
        unplacedAll_eq_of_digestAll_eq hps hqs hsps hsqs htail]

theorem unplacedFields_eq_of_digestFields_eq (hms : Faithful ms) :
    ∀ {fs gs : List (String × Pattern)}, (∀ f ∈ fs, Decides ms f.2) →
    (∀ g ∈ gs, g.2.Complete) → messagesFields fs ⊆ ms → messagesFields gs ⊆ ms →
    digestFields fs = digestFields gs → unplacedFields fs = unplacedFields gs
  | [], [], _, _, _, _, _ => rfl
  | [], _ :: _, _, _, _, _, h | _ :: _, [], _, _, _, _, h => by simp [digestFields] at h
  | (_, _) :: fs, (_, _) :: gs, ih, hgs, hsub, hsub', h => by
      obtain ⟨hf, hfs⟩ := List.forall_mem_cons.1 ih
      obtain ⟨hg, hgs⟩ := List.forall_mem_cons.1 hgs
      obtain ⟨hname, hsub⟩ := List.cons_subset.1 hsub
      obtain ⟨hname', hsub'⟩ := List.cons_subset.1 hsub'
      obtain ⟨hsf, hsfs⟩ := List.append_subset.1 hsub
      obtain ⟨hsg, hsgs⟩ := List.append_subset.1 hsub'
      obtain ⟨htext, hrest⟩ := List.cons.inj h
      obtain ⟨hhead, htail⟩ := List.cons.inj hrest
      rw [unplacedFields, unplacedFields, hms.text hname hname' htext, hf hg hsf hsg hhead,
        unplacedFields_eq_of_digestFields_eq hms hfs hgs hsfs hsgs htail]

/-- It is enough to compare patterns of one tag whose parts have equal digests. -/
theorem Complete.decides_of_parts (hp : p.Complete) (hms : Faithful ms)
    (h : ∀ {q : Pattern}, q.Complete → p.messages ⊆ ms → q.messages ⊆ ms → p.tag = q.tag →
      p.digestParts = q.digestParts → p.unplaced = q.unplaced) : Decides ms p := by
  intro q hq hsub hsub' heq
  obtain ⟨htag, hparts⟩ := hp.parts_eq hms hq hsub hsub' heq
  exact h hq hsub hsub' htag hparts

/-- As long as no two messages that come up have one digest, equal digests are digests of patterns
that are the same up to their places. -/
theorem Complete.decides (hms : Faithful ms) (hp : p.Complete) : Decides ms p := by
  induction hp with
  | @literal span code value hcode =>
      refine (Complete.literal span value hcode).decides_of_parts hms
        fun hq hsub hsub' htag hparts => ?_
      cases hq with
      | @literal _ code' value' hcode' =>
          obtain ⟨hkind, hrest⟩ := List.cons.inj hparts
          rw [LiteralKind.code_ofCode, LiteralKind.code_ofCode] at hkind
          have htext := hms.text (hsub (by simp [messages])) (hsub' (by simp [messages]))
            (List.cons.inj hrest).1
          rw [unplaced, unplaced, Digest.ofInt_inj hcode hcode' hkind, htext]
      | _ => simp [tag] at htag
  | var span name =>
      refine (Complete.var span name).decides_of_parts hms fun hq hsub hsub' htag hparts => ?_
      cases hq with
      | var _ name' =>
          have htext := hms.text (hsub (by simp [messages])) (hsub' (by simp [messages]))
            (List.cons.inj hparts).1
          rw [unplaced, unplaced, htext]
      | _ => simp [tag] at htag
  | wildcard span =>
      refine (Complete.wildcard span).decides_of_parts hms fun hq hsub hsub' htag _ => ?_
      cases hq with
      | wildcard _ => rfl
      | _ => simp [tag] at htag
  | tuple span hps ih =>
      refine (Complete.tuple span hps).decides_of_parts hms fun hq hsub hsub' htag hparts => ?_
      cases hq with
      | tuple _ hqs =>
          obtain ⟨hlist, hsub⟩ := List.cons_subset.1 (List.cons_subset.1 hsub).2
          obtain ⟨hlist', hsub'⟩ := List.cons_subset.1 (List.cons_subset.1 hsub').2
          have hdigests := (Digest.message_inj prefixFree_tags (by simp [tags]) (by simp [tags])
            (hms _ hlist _ hlist' (List.cons.inj hparts).1)).2
          rw [unplaced, unplaced, unplacedAll_eq_of_digestAll_eq ih hqs hsub hsub' hdigests]
      | _ => simp [tag] at htag
  | record span hfs ih =>
      refine (Complete.record span hfs).decides_of_parts hms fun hq hsub hsub' htag hparts => ?_
      cases hq with
      | record _ hgs =>
          rw [unplaced, unplaced, unplacedFields_eq_of_digestFields_eq hms ih hgs
            (List.cons_subset.1 hsub).2 (List.cons_subset.1 hsub').2 hparts]
      | _ => simp [tag] at htag

end Pattern

end RowTypes
