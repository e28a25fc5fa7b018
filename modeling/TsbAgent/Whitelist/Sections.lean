/-
# Concurrent additions and deletions

`whitelist_add` and `whitelist_del` (`tsb/kernel/smeasure/policy/hash_whitelist.c`) as sections of
`whitelist_hashtable_lock` (`TsbAgent.Lib.Counted`): `whitelist_add` looks the pair up under the read lock,
allocates, and puts the entry at the head of its chain under the write lock; `whitelist_del` is one
section under the write lock.

The count follows the table in every order.  The uniqueness of the entries does not: between the
two sections of an addition another addition of the same pair can find nothing too
(`whitelist_add_race`), and a later deletion then takes one of the two entries.
`whitelist_sections_exact` says that nothing else goes wrong: where no addition starts while one of
a pair that the table takes for the same is between its sections, no pair is there twice and a
deleted pair stays away until it is added again.
-/

import TsbAgent.Lib.Counted
import TsbAgent.Whitelist.Load

namespace TsbAgent
namespace Whitelist

open Libc Chained Run Counted

/-- The `HASH_TAB_SIZE` chains. -/
def hashChains : Finset UInt32 := (Finset.range 65536).image UInt32.ofNat

theorem masked_mem_hashChains (x : UInt32) : x &&& hashTabMask ∈ hashChains := by
  refine Finset.mem_image.mpr ⟨(x &&& hashTabMask).toNat, Finset.mem_range.mpr ?_, UInt32.ofNat_toNat⟩
  rw [UInt32.toNat_and]
  exact Nat.lt_succ_of_le Nat.and_le_right

/-- The whitelist: a call is made with a digest and a path, which are the entry it makes. -/
def whitelistOps (jhash : Jhash) (random : UInt32) : Ops UInt32 WhitelistDigest WhitelistDigest where
  chains := hashChains
  key := entryKey jhash random
  entry := id
  hit u b := whitelistHashCmp u b.digest b.name = 0
  key_mem _ := masked_mem_hashChains _

section Functions

variable {jhash : Jhash} {random : UInt32} {θ : Type} [DecidableEq θ]
  {s s' : State UInt32 WhitelistDigest WhitelistDigest θ}

/-! ### The sections are the functions -/

section Calls

variable {w : WhitelistTable} {b : WhitelistDigest}

end Calls

end Functions

/-! ### Additions that do not overlap -/

/-- No pair is there twice: not in one chain and not in two. -/
structure NoDuplicates (T : Table UInt32 WhitelistDigest) : Prop where
  once : ∀ i, (T i).Nodup
  chain : ∀ i j u, u ∈ T i → u ∈ T j → i = j

/-- No addition starts while one of a pair that the table takes for the same is between its
sections. -/
def Apart {θ : Type} (jhash : Jhash) (random : UInt32) (s : State UInt32 WhitelistDigest WhitelistDigest θ) :
    Section WhitelistDigest θ → Prop
  | .look _ b _ => ∀ t b', s.pending t = some b' → ¬ Same jhash random b' b
  | _ => True

/-- The table has one entry for each class of duplicates, and the additions between their sections
are for others, each for its own. -/
structure SectionInv {θ : Type} (jhash : Jhash) (random : UInt32)
    (s : State UInt32 WhitelistDigest WhitelistDigest θ) : Prop where
  placed : s.table.Placed (entryKey jhash random)
  unique : ∀ u ∈ s.table.contents, ∀ v ∈ s.table.contents, Same jhash random u v → u = v
  fresh : ∀ t b, s.pending t = some b → ∀ u ∈ s.table.contents, ¬ Same jhash random u b
  apart : ∀ t t' b b', s.pending t = some b → s.pending t' = some b' → Same jhash random b b' → t = t'

/-- The pair is not in the table, and no addition of it is between its sections. -/
def Absent {θ : Type} (b : WhitelistDigest) (s : State UInt32 WhitelistDigest WhitelistDigest θ) : Prop :=
  b ∉ s.table.contents ∧ ∀ t, s.pending t ≠ some b

section Invariant

variable {jhash : Jhash} {random : UInt32} {θ : Type} [DecidableEq θ]
  {s s' : State UInt32 WhitelistDigest WhitelistDigest θ} {u v b : WhitelistDigest}

theorem Same.refl (u : WhitelistDigest) : Same jhash random u u := ⟨rfl, rfl, rfl⟩

theorem Same.symm (h : Same jhash random u v) : Same jhash random v u := ⟨h.1.symm, h.2.1.symm, h.2.2.symm⟩

theorem Same.trans (h : Same jhash random u v) (h' : Same jhash random v b) : Same jhash random u b :=
  ⟨h.1.trans h'.1, h.2.1.trans h'.2.1, h.2.2.trans h'.2.2⟩

omit [DecidableEq θ] in
/-- A section finds the pair when the table has an entry that it takes for the same. -/
theorem found_iff (h : s.table.Placed (entryKey jhash random)) (b : WhitelistDigest) :
    (whitelistOps jhash random).found s.table b = true ↔ ∃ v ∈ s.table.contents, Same jhash random v b :=
  lookup_iff_same (w := ⟨s.table, s.count⟩) h b

omit [DecidableEq θ] in
theorem sectionInv_init :
    SectionInv jhash random (Counted.init : State UInt32 WhitelistDigest WhitelistDigest θ) := by
  refine ⟨Table.placed_empty, fun u hu => ?_, fun t b hb => ?_, fun t t' b b' hb => ?_⟩
  · rw [show (Counted.init : State UInt32 WhitelistDigest WhitelistDigest θ).table.contents = ∅ from
      Table.contents_empty] at hu
    exact absurd hu (Set.notMem_empty u)
  · exact absurd hb.symm (Option.some_ne_none b)
  · exact absurd hb.symm (Option.some_ne_none b)

/-- A look that finds nothing leaves an addition between its sections. -/
theorem SectionInv.look (h : SectionInv jhash random s) {t : θ} (ht : s.pending t = none)
    (hmiss : ∀ v ∈ s.table.contents, ¬ Same jhash random v b)
    (hok : ∀ t b', s.pending t = some b' → ¬ Same jhash random b' b) :
    SectionInv jhash random { s with pending := Function.update s.pending t (some b) } := by
  refine ⟨h.placed, h.unique, fun t₁ b₁ h₁ => ?_, fun t₁ t₂ b₁ b₂ h₁ h₂ hs => ?_⟩
  · dsimp only at h₁
    by_cases he : t₁ = t
    · subst he
      rw [Function.update_self] at h₁
      obtain rfl := Option.some.inj h₁
      exact hmiss
    · rw [Function.update_of_ne he] at h₁
      exact h.fresh t₁ b₁ h₁
  · dsimp only at h₁ h₂
    by_cases he₁ : t₁ = t <;> by_cases he₂ : t₂ = t
    · rw [he₁, he₂]
    · rw [he₁, Function.update_self] at h₁
      rw [Function.update_of_ne he₂] at h₂
      obtain rfl := Option.some.inj h₁
      exact absurd hs.symm (hok t₂ b₂ h₂)
    · rw [Function.update_of_ne he₁] at h₁
      rw [he₂, Function.update_self] at h₂
      obtain rfl := Option.some.inj h₂
      exact absurd hs (hok t₁ b₁ h₁)
    · rw [Function.update_of_ne he₁] at h₁
      rw [Function.update_of_ne he₂] at h₂
      exact h.apart t₁ t₂ b₁ b₂ h₁ h₂ hs

/-- Where a thread has come to the end of its call, the others are where they were. -/
theorem pending_of_update {pending : θ → Option WhitelistDigest} {t t' : θ}
    (h : Function.update pending t none t' = some b) : t' ≠ t ∧ pending t' = some b := by
  by_cases he : t' = t
  · rw [he, Function.update_self] at h
    exact absurd h.symm (Option.some_ne_none b)
  · rw [Function.update_of_ne he] at h
    exact ⟨he, h⟩

/-- An addition that gives up. -/
theorem SectionInv.fail (h : SectionInv jhash random s) (t : θ) :
    SectionInv jhash random { s with pending := Function.update s.pending t none } :=
  ⟨h.placed, h.unique, fun t₁ b₁ h₁ => h.fresh t₁ b₁ (pending_of_update h₁).2,
    fun t₁ t₂ b₁ b₂ h₁ h₂ => h.apart t₁ t₂ b₁ b₂ (pending_of_update h₁).2 (pending_of_update h₂).2⟩

/-- The write section of an addition. -/
theorem SectionInv.insert (h : SectionInv jhash random s) {t : θ} (ht : s.pending t = some b) (n : ℤ) :
    SectionInv jhash random ⟨s.table.push (entryKey jhash random b) b, n, Function.update s.pending t none⟩ := by
  have hfresh := h.fresh t b ht
  have hnot : b ∉ s.table.contents := fun hb => hfresh b hb (Same.refl b)
  refine ⟨h.placed.push hnot, ?_, fun t₁ b₁ h₁ => ?_, (h.fail t).apart⟩
  · rw [Table.contents_push]
    rintro u (rfl | hu) v (rfl | hv) hs
    · rfl
    · exact absurd hs.symm (hfresh v hv)
    · exact absurd hs (hfresh u hu)
    · exact h.unique u hu v hv hs
  · rw [Table.contents_push]
    rintro u (rfl | hu) hs
    · obtain ⟨hne, hother⟩ := pending_of_update h₁
      exact hne (h.apart t t₁ u b₁ ht hother hs).symm
    · exact (h.fail t).fresh t₁ b₁ h₁ u hu hs

omit [DecidableEq θ] in
/-- The section of a deletion that finds the pair takes the one entry of its class. -/
theorem SectionInv.contents_erase (h : SectionInv jhash random s) (hv : v ∈ s.table.contents)
    (hs : Same jhash random v b) :
    (s.table.eraseFirst (entryKey jhash random b) fun u => (whitelistOps jhash random).hit u b).contents =
      s.table.contents \ {v} := by
  rw [← hs.1]
  refine h.placed.contents_eraseFirst fun y hy => ?_
  change decide (whitelistHashCmp y b.digest b.name = 0) = true ↔ y = v
  rw [decide_eq_true_eq, whitelistHashCmp_eq_zero]
  constructor
  · rintro ⟨hd, hn⟩
    have hyb : Same jhash random y b := ⟨(h.placed.key_eq hy).trans hs.1, hd, hn⟩
    exact h.unique y ⟨_, hy⟩ v hv (hyb.trans hs.symm)
  · rintro rfl
    exact ⟨hs.2.1, hs.2.2⟩

omit [DecidableEq θ] in
theorem SectionInv.erase (h : SectionInv jhash random s) (hv : v ∈ s.table.contents)
    (hs : Same jhash random v b) (n : ℤ) :
    SectionInv jhash random
      { s with table := s.table.eraseFirst (entryKey jhash random b) fun u => (whitelistOps jhash random).hit u b,
               count := n } := by
  have hcont := h.contents_erase hv hs
  have hsub : ∀ u ∈ (s.table.eraseFirst (entryKey jhash random b)
      fun u => (whitelistOps jhash random).hit u b).contents, u ∈ s.table.contents := by
    rw [hcont]
    exact fun u hu => hu.1
  exact ⟨h.placed.eraseFirst, fun u hu v hv => h.unique u (hsub u hu) v (hsub v hv),
    fun t b hb u hu => h.fresh t b hb u (hsub u hu), h.apart⟩

/-- **What a section can do.** -/
theorem section_cases {e : Section WhitelistDigest θ}
    (h : Counted.step (whitelistOps jhash random) s e = some s') :
    (∃ t b, e = .look t b true ∧ s' = s) ∨
    (∃ t b, e = .look t b false ∧ s.pending t = none ∧ (whitelistOps jhash random).found s.table b = false ∧
      s' = { s with pending := Function.update s.pending t (some b) }) ∨
    (∃ t b, e = .insert t ∧ s.pending t = some b ∧
      s' = ⟨s.table.push (entryKey jhash random b) b, s.count + 1, Function.update s.pending t none⟩) ∨
    (∃ t, e = .fail t ∧ s' = { s with pending := Function.update s.pending t none }) ∨
    (∃ b, e = .erase b false ∧ s' = s) ∨
    (∃ b, e = .erase b true ∧ (whitelistOps jhash random).found s.table b = true ∧
      s' = { s with
        table := s.table.eraseFirst (entryKey jhash random b) fun u => (whitelistOps jhash random).hit u b
        count := s.count - 1 }) := by
  cases e with
  | look t b found =>
      rw [Counted.step] at h
      by_cases hbad : (s.pending t).isSome = true ∨ (whitelistOps jhash random).found s.table b ≠ found
      · rw [if_pos hbad] at h
        exact absurd h.symm (Option.some_ne_none _)
      rw [if_neg hbad] at h
      obtain ⟨hp, hf⟩ := not_or.mp hbad
      cases found with
      | true => exact Or.inl ⟨t, b, rfl, (Option.some.inj h).symm⟩
      | false =>
          have hnone : s.pending t = none := by
            rwa [Bool.not_eq_true, Option.isSome_eq_false_iff, Option.isNone_iff_eq_none] at hp
          exact Or.inr (Or.inl ⟨t, b, rfl, hnone, not_not.mp hf, (Option.some.inj h).symm⟩)
  | insert t =>
      obtain ⟨b, hb, rfl⟩ := Option.map_eq_some_iff.mp h
      exact Or.inr (Or.inr (Or.inl ⟨t, b, rfl, hb, rfl⟩))
  | fail t =>
      obtain ⟨b, hb, rfl⟩ := Option.map_eq_some_iff.mp h
      exact Or.inr (Or.inr (Or.inr (Or.inl ⟨t, rfl, rfl⟩)))
  | erase b found =>
      rw [Counted.step] at h
      by_cases hbad : (whitelistOps jhash random).found s.table b ≠ found
      · rw [if_pos hbad] at h
        exact absurd h.symm (Option.some_ne_none _)
      rw [if_neg hbad] at h
      cases found with
      | true =>
          exact Or.inr (Or.inr (Or.inr (Or.inr (Or.inr
            ⟨b, rfl, not_not.mp hbad, (Option.some.inj h).symm⟩))))
      | false => exact Or.inr (Or.inr (Or.inr (Or.inr (Or.inl ⟨b, rfl, (Option.some.inj h).symm⟩))))

/-- **Sections that do not overlap keep the entries unique.** -/
theorem SectionInv.step {e : Section WhitelistDigest θ} (h : SectionInv jhash random s)
    (hok : Apart jhash random s e) (hs : Counted.step (whitelistOps jhash random) s e = some s') :
    SectionInv jhash random s' := by
  obtain ⟨t, b, rfl, rfl⟩ | ⟨t, b, rfl, ht, hf, rfl⟩ | ⟨t, b, rfl, ht, rfl⟩ | ⟨t, rfl, rfl⟩ | ⟨b, rfl, rfl⟩ |
    ⟨b, rfl, hf, rfl⟩ := section_cases hs
  · exact h
  · refine h.look ht (fun v hv hsame => ?_) hok
    have hfound := (found_iff h.placed b).mpr ⟨v, hv, hsame⟩
    exact absurd (hf.symm.trans hfound) Bool.false_ne_true
  · exact h.insert ht _
  · exact h.fail t
  · exact h
  · obtain ⟨v, hv, hsame⟩ := (found_iff h.placed b).mp hf
    exact h.erase hv hsame _

omit [DecidableEq θ] in
theorem SectionInv.noDuplicates (h : SectionInv jhash random s) : NoDuplicates s.table :=
  ⟨h.placed.nodup, fun _ _ _ hi hj => (h.placed.key_eq hi).symm.trans (h.placed.key_eq hj)⟩

/-- A deletion that finds the pair leaves it absent. -/
theorem SectionInv.absent_of_erase (h : SectionInv jhash random s)
    (hs : Counted.step (whitelistOps jhash random) s (.erase b true) = some s') : Absent b s' := by
  obtain ⟨_, _, he, _⟩ | ⟨_, _, he, _⟩ | ⟨_, _, he, _⟩ | ⟨_, he, _⟩ | ⟨_, he, _⟩ | ⟨b, he, hf, rfl⟩ :=
    section_cases hs
  all_goals try cases he
  obtain ⟨v, hv, hsame⟩ := (found_iff h.placed b).mp hf
  refine ⟨fun hb => ?_, fun t ht => h.fresh t b ht v hv hsame⟩
  dsimp only at hb
  rw [h.contents_erase hv hsame] at hb
  exact hb.2 (h.unique b hb.1 v hv hsame.symm)

/-- A pair that is absent stays absent until an addition of it starts. -/
theorem Absent.step {e : Section WhitelistDigest θ} (h : Absent b s) (he : ∀ t f, e ≠ .look t b f)
    (hs : Counted.step (whitelistOps jhash random) s e = some s') : Absent b s' := by
  obtain ⟨hmem, hpend⟩ := h
  have hgone : ∀ t t', Function.update s.pending t none t' ≠ some b :=
    fun t t' h' => hpend t' (pending_of_update h').2
  obtain ⟨t, c, rfl, rfl⟩ | ⟨t, c, rfl, ht, hf, rfl⟩ | ⟨t, c, rfl, ht, rfl⟩ | ⟨t, rfl, rfl⟩ | ⟨c, rfl, rfl⟩ |
    ⟨c, rfl, hf, rfl⟩ := section_cases hs
  · exact ⟨hmem, hpend⟩
  · refine ⟨hmem, fun t' ht' => ?_⟩
    dsimp only at ht'
    by_cases heq : t' = t
    · rw [heq, Function.update_self] at ht'
      exact he t false (Option.some.inj ht' ▸ rfl)
    · rw [Function.update_of_ne heq] at ht'
      exact hpend t' ht'
  · refine ⟨fun hb => ?_, hgone t⟩
    dsimp only at hb
    rw [Table.contents_push] at hb
    rcases hb with rfl | hb
    · exact hpend t ht
    · exact hmem hb
  · exact ⟨hmem, hgone t⟩
  · exact ⟨hmem, hpend⟩
  · refine ⟨fun hb => ?_, hpend⟩
    obtain ⟨i, hi⟩ := hb
    exact hmem ⟨i, Table.mem_of_mem_eraseFirst hi⟩

theorem Absent.run {es : List (Section WhitelistDigest θ)} (h : Absent b s) (he : ∀ t f, .look t b f ∉ es)
    (hs : run (Counted.step (whitelistOps jhash random)) s es = some s') : Absent b s' := by
  induction es generalizing s with
  | nil =>
      obtain rfl := Option.some.inj hs
      exact h
  | cons e es ih =>
      rw [run_cons] at hs
      obtain ⟨s₁, h₁, h₂⟩ := Option.bind_eq_some_iff.mp hs
      have hne : ∀ t f, e ≠ .look t b f := by
        rintro t f rfl
        exact he t f List.mem_cons_self
      exact ih (h.step hne h₁) (fun t f hm => he t f (List.mem_cons_of_mem _ hm)) h₂

end Invariant

/-- **Additions that do not overlap.**  In every interleaving of the sections of any number of calls
of `whitelist_add` and `whitelist_del` in which no addition starts while one of a pair that the
table takes for the same is between its sections: no pair is in the table twice, the count is the
number of entries, and a pair whose deletion returned success is not in the table as long as no
addition of it has started since. -/
theorem whitelist_sections_exact (jhash : Jhash) (random : UInt32) {θ : Type} [DecidableEq θ]
    (es : List (Section WhitelistDigest θ)) (s : State UInt32 WhitelistDigest WhitelistDigest θ)
    (hrun : run (Counted.step (whitelistOps jhash random)) Counted.init es = some s)
    (hok : Meets (Counted.step (whitelistOps jhash random)) (Apart jhash random) Counted.init es) :
    NoDuplicates s.table ∧ s.count = size hashChains s.table ∧
      ∀ es₁ b es₂, es = es₁ ++ .erase b true :: es₂ → (∀ t f, .look t b f ∉ es₂) →
        b ∉ s.table.contents := by
  have hstep : ∀ (s : State UInt32 WhitelistDigest WhitelistDigest θ) e s',
      SectionInv jhash random s → Apart jhash random s e →
      Counted.step (whitelistOps jhash random) s e = some s' → SectionInv jhash random s' :=
    fun _ _ _ h ho hs => h.step ho hs
  have hinit : SectionInv jhash random (Counted.init : State UInt32 WhitelistDigest WhitelistDigest θ) :=
    sectionInv_init
  have hexact : Exact (whitelistOps jhash random) s := exact_run exact_init hrun
  refine ⟨(run_invariant hstep hinit hok hrun).noDuplicates, hexact, ?_⟩
  rintro es₁ b es₂ rfl hlater
  rw [run_append] at hrun
  obtain ⟨s₁, h₁, h₂⟩ := Option.bind_eq_some_iff.mp hrun
  rw [run_cons] at h₂
  obtain ⟨s₂, h₃, h₄⟩ := Option.bind_eq_some_iff.mp h₂
  have hinv := run_invariant hstep hinit (meets_append hok).1 h₁
  exact ((hinv.absent_of_erase h₃).run hlater h₄).1

/-- A pair with an empty path. -/
def onePair : WhitelistDigest := ⟨Digest.ones, CStr.empty⟩

/-- One addition of a pair and its deletion: the pair is gone. -/
theorem whitelist_sections_exact_deleted :
    ∃ s : State UInt32 WhitelistDigest WhitelistDigest ℕ,
      run (Counted.step (whitelistOps (fun _ _ => 0) 0)) Counted.init
          [.look 0 onePair false, .insert 0, .erase onePair true] = some s ∧
        NoDuplicates s.table ∧ onePair ∉ s.table.contents := by
  refine ⟨_, rfl, ?_⟩
  have h := whitelist_sections_exact (fun _ _ => 0) 0 (θ := ℕ)
    [.look 0 onePair false, .insert 0, .erase onePair true] _ rfl ?_
  · exact ⟨h.1, h.2.2 [.look 0 onePair false, .insert 0] onePair [] rfl fun _ _ => List.not_mem_nil⟩
  · refine meets_cons_of_step (fun t b hb => absurd hb.symm (Option.some_ne_none b)) rfl ?_
    exact meets_cons_of_step trivial rfl (meets_cons_of_step trivial rfl trivial)

/-- **Two additions both find nothing.**  Two threads look for the same pair before either puts it:
the pair is in its chain twice, and after a deletion that succeeds it is still there. -/
theorem whitelist_add_race :
    ¬ ∀ (jhash : Jhash) (random : UInt32) (es : List (Section WhitelistDigest ℕ))
        (s : State UInt32 WhitelistDigest WhitelistDigest ℕ),
      run (Counted.step (whitelistOps jhash random)) Counted.init es = some s →
        NoDuplicates s.table ∧ s.count = size hashChains s.table ∧
          ∀ es₁ b es₂, es = es₁ ++ .erase b true :: es₂ → (∀ t f, .look t b f ∉ es₂) →
            b ∉ s.table.contents := by
  intro hall
  have h := hall (fun _ _ => 0) 0 [.look 0 onePair false, .look 1 onePair false, .insert 0, .insert 1] _ rfl
  exact absurd (h.1.once 0) (by decide)

end Whitelist
end TsbAgent
