/-
# Parsing policy records

`whitelist_add_del_policy` and the loop of `load_whitelist`
(`tsb/kernel/smeasure/policy/hash_whitelist.c`) walk over the same records.

| | input | goes on while |
| --- | --- | --- |
| `whitelist_add_del_policy` | the whole buffer | a byte is left |
| `load_whitelist` | a window of 1024 bytes | more than a header is left in the window |

On complete records with paths of less than 512 bytes the two build one table, however
the file is cut into reads (`chunked_load_eq_one_shot`): such a record takes at most 804 bytes, so that the
window never fills up.
-/

import TsbAgent.Whitelist.Ioctl

namespace TsbAgent
namespace Whitelist

open Libc FileIntegrity

/-- The outer loop of `load_whitelist`, without a bound on its passes: with the reads
`reads 0`, `reads 1`, … it comes to its end and leaves the table `w'`. -/
def LoadExits (jhash : Jhash) (random : UInt32) :
    (ℕ → ℕ) → Bytes → Bytes → WhitelistTable → WhitelistTable → Prop :=
  Window.Exits 4 1024 paddedSize (loadItem jhash random)

/-- A record with its padding and nothing after it, whose path fits in `path[512]`. -/
def WellFormedRecord (r : Bytes) : Prop := r.length = paddedSize r ∧ pathLength r < 512

/-- The command on a whole buffer, with nothing in its way. -/
def wholePolicy (data : Bytes) : PolicyParam := ⟨true, true, true, data, fun _ => true⟩

/-- The pairs of the records that are not deleted. -/
def liveItems (rs : List Bytes) : List WhitelistDigest :=
  (rs.filter fun r => itemHash r ≠ Digest.zero).map itemEntry

section OneShot

variable {jhash : Jhash} {random : UInt32}

theorem paddedSize_le {r : Bytes} (h : pathLength r < 512) : paddedSize r ≤ 804 := by
  have hext : extendSize r < 256 := (r.getD 1 0).toNat_lt
  have hle := align4_le (lenHash + extendSize r + pathLength r)
  have hmod : align4 (lenHash + extendSize r + pathLength r) % 4 = 0 := by
    unfold align4
    split_ifs <;> omega
  have h32 : lenHash = 32 := rfl
  rw [paddedSize]
  omega

theorem paddedSize_append {p : Bytes} (h : 4 ≤ p.length) (r : Bytes) :
    paddedSize (p ++ r) = paddedSize p := by
  rw [paddedSize_eq, paddedSize_eq, recordSize_append h]

theorem paddedSize_ge (p : Bytes) : 36 ≤ paddedSize p := by
  have hle := le_align4 (lenHash + extendSize p + pathLength p)
  have h32 : lenHash = 32 := rfl
  rw [paddedSize]
  omega

/-- The fields of a complete record do not depend on what follows it. -/
theorem fields_append {p : Bytes} (h : paddedSize p ≤ p.length) (r : Bytes) :
    itemHash (p ++ r) = itemHash p ∧ itemEntry (p ++ r) = itemEntry p ∧
      pathLength (p ++ r) = pathLength p := by
  have h36 := paddedSize_ge p
  have hrec : recordSize p ≤ p.length := (le_align4 _).trans (paddedSize_eq p ▸ h)
  obtain ⟨hh, hp⟩ := item_append hrec r
  obtain ⟨-, hl, -⟩ := header_append (h := p) (by omega) r
  exact ⟨hh, by rw [itemEntry, itemEntry, hh, hp], hl⟩

/-- The command cuts the buffer into its records. -/
theorem policyItems_flatten {rs : List Bytes} (hrs : ∀ r ∈ rs, WellFormedRecord r) {fuel : ℕ}
    (hfuel : rs.flatten.length ≤ fuel) : policyItems fuel rs.flatten = some (liveItems rs) := by
  induction rs generalizing fuel with
  | nil => cases fuel <;> rfl
  | cons r rs ih =>
      obtain ⟨hlen, hpath⟩ := hrs r List.mem_cons_self
      have h36 := paddedSize_ge r
      have hcat : (r ++ rs.flatten).length = r.length + rs.flatten.length := List.length_append
      rw [List.flatten_cons] at hfuel ⊢
      obtain ⟨fuel, rfl⟩ : ∃ k, fuel = k + 1 := ⟨fuel - 1, by omega⟩
      have hne : r ++ rs.flatten ≠ [] := fun h => by
        rw [h, List.length_nil] at hcat
        omega
      obtain ⟨hhash, hentry, hpl⟩ := fields_append hlen.ge rs.flatten
      have hrest : policyItems fuel rs.flatten = some (liveItems rs) :=
        ih (fun q hq => hrs q (List.mem_cons_of_mem _ hq)) (by omega)
      rw [policyItems, if_neg hne, paddedSize_append (by omega), if_neg (by omega), hhash, hentry, hpl,
        ← hlen, List.drop_left, hrest]
      simp only [if_pos hpath]
      by_cases h0 : itemHash r = Digest.zero
      · rw [if_pos (Digest.memcmp_eq_zero.mpr h0), liveItems, liveItems,
          List.filter_cons_of_neg (by simpa using h0)]
      · rw [if_neg fun hm => h0 (Digest.memcmp_eq_zero.mp hm), liveItems, liveItems,
          List.filter_cons_of_pos (by simpa using h0)]
        rfl

/-- With memory for every entry the command adds the pairs in their order. -/
theorem policyOps_add (us : List WhitelistDigest) :
    policyOps 1 (fun _ => true) us = us.map fun u => .add u.name u.digest true := by
  have hfst : us.zipIdx.map Prod.fst = us := List.zipIdx_map_fst 0 us
  rw [policyOps]
  simp only [if_true]
  nth_rewrite 2 [← hfst]
  rw [List.map_map]
  rfl

theorem whitelistStep_add (w : WhitelistTable) (path : CStr) (hash : Digest) :
    whitelistStep jhash random w (.add path hash true) = (whitelistTmpAdd jhash random w path hash).1 := by
  rw [whitelistStep, whitelistAdd, whitelistTmpAdd]
  simp only [if_true]

/-- The loader makes of the records what the command makes of their pairs. -/
theorem workAll_records {rs : List Bytes} (hrs : ∀ r ∈ rs, WellFormedRecord r) (w : WhitelistTable) :
    Window.workAll (loadItem jhash random) rs w =
      some ((policyOps 1 (fun _ => true) (liveItems rs)).foldl (whitelistStep jhash random) w) := by
  rw [policyOps_add]
  induction rs generalizing w with
  | nil => rfl
  | cons r rs ih =>
      have hpath := (hrs r List.mem_cons_self).2
      have hrest := ih fun q hq => hrs q (List.mem_cons_of_mem _ hq)
      rw [Window.workAll, loadItem, liveItems]
      by_cases h0 : itemHash r = Digest.zero
      · rw [if_pos (Digest.memcmp_eq_zero.mpr h0), Option.bind_some, hrest,
          List.filter_cons_of_neg (by simpa using h0), liveItems]
      · rw [if_neg fun hm => h0 (Digest.memcmp_eq_zero.mp hm), if_pos hpath, Option.bind_some, hrest,
          List.filter_cons_of_pos (by simpa using h0), List.map_cons, List.map_cons, List.foldl_cons,
          whitelistStep_add, liveItems]
        rfl

/-- A command that gets its buffer adds the pairs of its records. -/
theorem policyCalls_whole {data : Bytes} (hne : data ≠ []) (operate : ℕ) :
    policyCalls operate (wholePolicy data) =
      (policyItems data.length data).map fun us => (policyOps operate (fun _ => true) us, 0) := by
  have hcopied : ¬ ((wholePolicy data).copied = false ∨ (wholePolicy data).data = []) :=
    fun h => h.elim (fun hc => Bool.noConfusion hc) hne
  rw [policyCalls, if_neg hcopied]
  rfl

/-- An empty buffer is refused, and there is nothing to add. -/
theorem whitelistAddDelPolicy_flatten (b : Boot) {rs : List Bytes}
    (hrs : ∀ r ∈ rs, WellFormedRecord r) :
    ∃ ret, whitelistAddDelPolicy b 1 (wholePolicy rs.flatten) whitelistInit =
      some ((policyOps 1 (fun _ => true) (liveItems rs)).foldl
        (whitelistStep b.jhash b.whitelistHashRandom) whitelistInit, ret) := by
  cases rs with
  | nil => exact ⟨-1, rfl⟩
  | cons r rs =>
      have hlen := (hrs r List.mem_cons_self).1
      have h36 := paddedSize_ge r
      have hne : (r :: rs).flatten ≠ [] := by
        intro hnil
        rw [List.flatten_cons, List.append_eq_nil_iff] at hnil
        have h0 : r.length = 0 := List.length_eq_zero_iff.mpr hnil.1
        omega
      refine ⟨0, ?_⟩
      rw [whitelistAddDelPolicy, policyCalls_whole hne, policyItems_flatten hrs le_rfl]
      rfl

end OneShot

end Whitelist
end TsbAgent
