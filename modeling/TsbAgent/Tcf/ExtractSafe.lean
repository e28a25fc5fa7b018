/-
# When a stored policy is decoded safely

`decodes_iff`: a decoder stays inside its buffer, and takes no list that does not fit, exactly
under `Decoder.Sound`.  One lemma for each item says what its round comes to when the memory is
there (`item_...`), one that it only stops earlier when it is not (`within_...`).
-/

import TsbAgent.Tcf.Extract

namespace TsbAgent
namespace Tcf
namespace Extract

open Libc Word Codec Bounded FileIntegrity

/-! ### Memory that is not granted -/

section Memory

variable (g : Grants) (b : Bytes) {num : ℤ}

theorem within_extractId (op : ℤ) : Within (extractId g b op) (extractId allGranted b op) :=
  within_bind (.refl _) fun _ => within_bind (within_malloc _ _ _) fun _ => within_bind (.refl _) fun _ =>
    within_bind (.refl _) fun _ => within_bind (within_malloc _ _ _) fun _ => .refl _

theorem within_extractRole (op : ℤ) : Within (extractRole g b op) (extractRole allGranted b op) := by
  have hmember (total memberOpt : ℤ) :
      Within (extractMember g b op total memberOpt) (extractMember allGranted b op total memberOpt) :=
    within_bind (.refl _) fun _ => within_bind (within_malloc _ _ _) fun _ => .refl _
  rw [extractRole, extractRole]
  refine within_bind (.refl _) fun header => ?_
  dsimp only
  generalize int32 (netAt header 0 4) = nameLength
  exact within_bind (within_malloc _ _ _) fun _ => within_bind (.refl _) fun _ => within_bind (.refl _) fun _ =>
    within_bind (within_malloc _ _ _) fun _ => within_bind (within_decode (hmember _)) fun _ => .refl _

theorem within_extractFileProtect (op : ℤ) :
    Within (extractFileProtect g b op) (extractFileProtect allGranted b op) := by
  have hprocess (cur : ℤ) : Within (extractPrivileged g b cur) (extractPrivileged allGranted b cur) :=
    within_bind (within_malloc _ _ _) fun _ => within_bind (.refl _) fun _ => within_bind (.refl _) fun _ =>
      within_bind (within_malloc _ _ _) fun _ => within_bind (within_malloc _ _ _) fun _ => .refl _
  exact within_bind (.refl _) fun _ => within_bind (.refl _) fun _ => within_bind (within_malloc _ _ _) fun _ =>
    within_bind (within_malloc _ _ _) fun _ => within_bind (within_decode hprocess) fun _ => .refl _

theorem within_extractPtraceNames : Within (extractPtraceNames g b) (extractPtraceNames allGranted b) := by
  have hname (slots : ℕ) (s : ℤ × ℕ) :
      Within (extractPtraceName g b slots s) (extractPtraceName allGranted b slots s) :=
    within_bind (.refl _) fun _ => within_bind (.refl _) fun _ => within_bind (.refl _) fun _ =>
      within_bind (.refl _) fun _ => within_bind (within_malloc _ _ _) fun _ => .refl _
  exact within_bind (.refl _) fun _ => within_bind (within_malloc _ _ _) fun _ =>
    within_bind (within_decode (hname _)) fun _ => within_bind (within_decode (hname _)) fun _ => .refl _

theorem within_extractDmeasure (ops : ℤ) : Within (extractDmeasure g b ops) (extractDmeasure allGranted b ops) :=
  within_bind (.refl _) fun _ => within_bind (.refl _) fun _ => within_bind (.refl _) fun _ =>
    within_bind (within_malloc _ _ _) fun _ => .refl _

theorem within_extractBootRef (op : ℤ) : Within (extractBootRef g b op) (extractBootRef allGranted b op) :=
  within_bind (.refl _) fun _ => within_bind (.refl _) fun _ => within_bind (.refl _) fun _ =>
    within_bind (within_malloc _ _ _) fun _ => .refl _

end Memory

/-- A request that is granted unless its size is negative. -/
theorem meets_granted {off n : ℤ} {k : ℕ} {e : TcfErr} {Q : Unit → Prop} :
    Meets (malloc (allGranted off k) n e) Q ↔ (0 ≤ n → Q ()) :=
  meets_malloc.trans (forall_prop_of_true rfl)

/-! ### Identities -/

section Ids

variable {b : Bytes} {op : ℤ}

theorem idHashLength_lt (header : Bytes) : idHashLength header < 2 ^ 32 - 65535 := by
  have h1 := netAt_lt header 2 2
  have h2 := netAt_lt header 4 2
  rw [idHashLength]
  calc netAt header 2 2 * (1 + netAt header 4 2) ≤ 65535 * 65536 := Nat.mul_le_mul (by omega) (by omega)
    _ < 2 ^ 32 - 65535 := by decide

/-- **One identity.** -/
theorem item_extractId (hb : b.length < 2 ^ 31) :
    Item (extractId allGranted b) (IdSafe b) (IdAccepted b) (idNext b) := by
  intro op Q
  have hhash := idHashLength_lt (idHeader b op)
  have hname : idNameLength (idHeader b op) < 256 := UInt8.toNat_lt _
  simp only [extractId, meets_bind, meets_read, meets_granted, meets_check, meets_copy, meets_pure,
    @inside_iff b op 6 (by decide)]
  rw [IdSafe, IdAccepted, idNext, idExtent, ← idHeader, and_assoc (a := 0 ≤ op ∧ _)]
  refine and_congr_right fun ⟨hop, hheader⟩ => ?_
  generalize idHashLength (idHeader b op) = p at *
  generalize idNameLength (idHeader b op) = n at *
  rcases Nat.lt_or_ge p (2 ^ 31) with hp | hp
  · have hlen : int32 p = p := int32_eq (by omega) (by omega)
    have hboth : int32 (op + p + n) > b.length ↔ b.length < op + p + n ∧ op + p + n < 2 ^ 31 :=
      int32_gt_iff (by omega) (by omega) (by omega) (by omega)
    have hhashes : int32 (op + p) > b.length ↔ b.length < op + p ∧ op + p < 2 ^ 31 :=
      int32_gt_iff (by omega) (by omega) (by omega) (by omega)
    have hextent : (↑p + ↑n + 6 : ℤ).toNat = 6 + p + n := by omega
    rw [hlen, hboth, hhashes, hextent]
    rcases le_or_gt (op + (6 + p + n : ℕ)) (b.length : ℤ) with hin | hout
    · have hnameIn : Inside b (op + 6 + p) n := by
        unfold Inside
        omega
      have hhashIn : Inside b (op + 6) p := by
        unfold Inside
        omega
      refine ⟨fun h => ⟨.inl hin, fun hacc => ?_⟩, fun h _ _ => ⟨⟨hnameIn, by omega⟩, fun _ _ => ?_⟩⟩
      · exact ((h (by omega) (by omega)).2 (by omega) (by omega)).2 (not_lt.mpr hacc.2)
      · exact ⟨⟨hhashIn, by omega⟩, fun hnext => h.2 ⟨hin, not_lt.mp hnext⟩⟩
    · constructor
      · intro h
        refine ⟨.inr (.inl ?_), fun hacc => absurd hacc.1 (not_le.mpr hout)⟩
        -- what passes both tests is read behind the buffer
        by_contra hpass
        obtain ⟨⟨hnameIn, -⟩, hrest⟩ := h (by omega) (by omega)
        rw [Inside] at hnameIn
        obtain ⟨⟨hhashIn, -⟩, -⟩ := hrest (by omega) (by omega)
        rw [Inside] at hhashIn
        omega
      · rintro ⟨hsafe, -⟩ - hpass
        omega
  · have hlen : int32 p = p - 2 ^ 32 := by
      rw [int32, Int.bmod_def]
      omega
    have hboth : ¬ int32 (op + (p - 2 ^ 32) + n) > b.length := by
      rw [int32, Int.bmod_def]
      omega
    rw [hlen]
    constructor
    · intro h
      obtain ⟨⟨hnameIn, -⟩, -⟩ := h (by omega) hboth
      rw [Inside] at hnameIn
      exact ⟨.inr (.inr ⟨hp, by omega⟩), fun hacc => by omega⟩
    · rintro ⟨hsafe, -⟩ - -
      have hnameIn : Inside b (op + 6 + (p - 2 ^ 32)) n := by
        unfold Inside
        omega
      exact ⟨⟨hnameIn, by omega⟩, fun hneg => by omega⟩

end Ids

/-! ### Roles -/

section Roles

variable {b : Bytes} {op : ℤ}

/-- **One member.** -/
theorem item_extractMember (hb : b.length < 2 ^ 31) :
    Item (extractMember allGranted b op ((roleMembersLength b op + roleName b op) % 2 ^ 32)) (MemberSafe b op)
      (MemberAccepted b op) (memberNext b op) := by
  intro memberOpt Q
  have hlength : memberLength b op memberOpt < 256 := UInt8.toNat_lt _
  simp only [extractMember, meets_bind, meets_read, meets_granted, meets_check, meets_copy, meets_pure,
    @inside_iff b (op + 12 + memberOpt) 1 (by decide)]
  rw [← memberLength, MemberSafe, MemberAccepted, memberNext, memberAfter,
    and_assoc (a := 0 ≤ op + 12 + memberOpt ∧ _)]
  refine and_congr_right fun ⟨hoff, hheader⟩ => ?_
  generalize memberLength b op memberOpt = n at *
  have htest : int32 (op + memberOpt + n) > b.length ↔
      b.length < op + memberOpt + n ∧ op + memberOpt + n < 2 ^ 31 :=
    int32_gt_iff (by omega) (by omega) (by omega) (by omega)
  rw [htest]
  rcases le_or_gt (op + 12 + (memberOpt + 1 + n)) (b.length : ℤ) with hin | hout
  · have hnameIn : Inside b (op + 12 + memberOpt + 1) n := by
      unfold Inside
      omega
    refine ⟨fun h => ⟨.inl hin, fun hacc => ?_⟩, fun h _ _ => ⟨⟨hnameIn, by omega⟩, fun htotal => ?_⟩⟩
    · exact (h (by omega) (by omega)).2 (not_lt.mpr hacc.2)
    · exact h.2 ⟨hin, not_lt.mp htotal⟩
  · constructor
    · intro h
      refine ⟨.inr ?_, fun hacc => absurd hacc.1 (not_le.mpr hout)⟩
      by_contra hpass
      obtain ⟨⟨hnameIn, -⟩, -⟩ := h (by omega) hpass
      rw [Inside] at hnameIn
      omega
    · rintro ⟨hsafe, -⟩ - hpass
      omega

/-- **One role.** -/
theorem item_extractRole (hb : b.length < 2 ^ 31) :
    Item (extractRole allGranted b) (RoleSafe b) (RoleAccepted b) (roleNext b) := by
  intro op Q
  have hname : roleName b op < 2 ^ 32 := netAt_lt _ _ _
  have hmembers : roleMembers b op < 2 ^ 32 := netAt_lt _ _ _
  simp only [extractRole, meets_bind, meets_read, meets_granted, meets_check, meets_copy, meets_pure,
    @inside_iff b op 12 (by decide)]
  rw [← roleName, ← roleMembers, ← roleMembersLength, RoleSafe, RoleAccepted, and_assoc (a := 0 ≤ op ∧ _)]
  refine and_congr_right fun hstart => ?_
  obtain ⟨hop, hheader⟩ := hstart
  rcases Nat.lt_or_ge (roleName b op) (2 ^ 31 - 1) with hsmall | hlarge
  · have hlen : int32 (roleName b op) = roleName b op := int32_eq (by omega) (by omega)
    have hroom : int32 ((roleName b op : ℤ) + 1) = roleName b op + 1 := int32_eq (by omega) (by omega)
    have htest : int32 (op + roleName b op) > b.length ↔
        b.length < op + roleName b op ∧ op + roleName b op < 2 ^ 31 :=
      int32_gt_iff (by omega) (by omega) (by omega) (by omega)
    rw [hlen, hroom, htest]
    rcases le_or_gt (op + 12 + roleName b op) (b.length : ℤ) with hin | hout
    · have hnameIn : Inside b (op + 12) (roleName b op) := by
        unfold Inside
        omega
      have hwalk := meets_decode (n := roleMembers b op) (s := (roleName b op : ℤ))
        (Q := fun memberOpt => ¬ int32 (op + alignInt (int32 (memberOpt + 12))) > b.length →
          Q (int32 (op + alignInt (int32 (memberOpt + 12))))) (@item_extractMember b op hb)
      have hnumber : 0 ≤ int32 (roleMembers b op) * 8 ↔ roleMembers b op < 2 ^ 31 := by
        rw [int32, Int.bmod_def]
        omega
      rw [hwalk, walks_iff, ← roleNext, hnumber]
      constructor
      · intro h
        obtain ⟨-, hrest⟩ := h (by omega) (by omega)
        exact ⟨.inl ⟨hin, fun hmn => (hrest hmn).1⟩,
          fun hacc => (hrest hacc.2.1).2 hacc.2.2.1 (not_lt.mpr hacc.2.2.2)⟩
      · rintro ⟨hsafe, hnext⟩ - -
        refine ⟨⟨hnameIn, by omega⟩, fun hmn => ⟨?_, fun hall hend => hnext ⟨hin, hmn, hall, not_lt.mp hend⟩⟩⟩
        rcases hsafe with ⟨-, hwalks⟩ | hrejected | hrefused
        · exact hwalks hmn
        · omega
        · omega
    · constructor
      · intro h
        refine ⟨.inr (.inl ?_), fun hacc => absurd hacc.1 (not_le.mpr hout)⟩
        by_contra hpass
        obtain ⟨⟨hnameIn, -⟩, -⟩ := h (by omega) hpass
        rw [Inside] at hnameIn
        omega
      · rintro ⟨hsafe, -⟩ - hpass
        omega
  · have hout : ¬ op + 12 + roleName b op ≤ b.length := by omega
    rcases Nat.lt_or_ge (roleName b op) (2 ^ 32 - 1) with hrefused | hwrapped
    -- the length with its terminator is negative
    · have hroom : ¬ 0 ≤ int32 (int32 (roleName b op) + 1) := by
        rw [int32, int32, Int.bmod_def, Int.bmod_def]
        omega
      exact iff_of_true (fun hpos => absurd hpos hroom) ⟨.inr (.inr ⟨hlarge, by omega⟩),
        fun hacc => absurd hacc.1 hout⟩
    -- the length is -1: no byte is asked for, and `memcpy` takes the length for a huge one
    · have hlen : int32 (roleName b op) = -1 := by
        rw [int32, Int.bmod_def]
        omega
      have hroom : int32 (-1 + 1) = 0 := by decide
      have htest : ¬ int32 (op + -1) > b.length := by
        rw [int32, Int.bmod_def]
        omega
      have hnameOut : ¬ Inside b (op + 12) (-1) := by
        unfold Inside
        omega
      rw [hlen, hroom]
      refine iff_of_false (fun h => hnameOut (h le_rfl htest).1.1) ?_
      rintro ⟨⟨hin, -⟩ | hrejected | hrefused, -⟩
      · exact hout hin
      · omega
      · omega

end Roles

/-! ### File protection -/

section FileProtection

variable {b : Bytes} {op : ℤ}

/-- **One privileged process.** -/
theorem item_extractPrivileged :
    Item (extractPrivileged allGranted b) (PrivilegedSafe b) (fun _ => True) fun cur => cur + 292 := by
  intro cur Q
  simp only [extractPrivileged, meets_bind, meets_read, meets_readText, meets_granted, meets_copy, meets_pure]
  rw [PrivilegedSafe, Inside, Inside]
  constructor
  · intro h
    obtain ⟨htype, hends, hrest⟩ := h (by omega)
    obtain ⟨⟨hhash, -⟩, hQ⟩ := hrest (by omega) (by omega)
    exact ⟨⟨by omega, by omega, hends⟩, fun _ => hQ⟩
  · rintro ⟨⟨hcur, hend, hends⟩, hQ⟩ -
    exact ⟨by omega, hends, fun _ _ => ⟨⟨by omega, le_rfl⟩, hQ trivial⟩⟩

/-- **One item.** -/
theorem item_extractFileProtect :
    Item (extractFileProtect allGranted b) (FileSafe b) (fun op => fileNext b op ≤ b.length) (fileNext b) := by
  intro op Q
  have hwalk (P : Prop) := meets_decode (n := fileProcesses b op) (s := op + 260) (Q := fun _ => P)
    (item_extractPrivileged (b := b))
  simp only [extractFileProtect, meets_bind, meets_read, meets_readText, meets_granted, meets_check, meets_pure,
    @inside_iff b op 4 (by decide)]
  rw [← fileProcesses, ← fileNext, hwalk, walks_iff, walks_true_iff, FileSafe, and_assoc (a := 0 ≤ op ∧ _),
    and_assoc (a := Ends b (op + 4))]
  refine and_congr_right fun _ => and_congr_right fun _ => ?_
  constructor
  · intro h
    obtain ⟨hall, hnext⟩ := h (by omega) (by omega)
    exact ⟨hall, fun hend => hnext allFit_true (not_lt.mpr hend)⟩
  · rintro ⟨hall, hnext⟩ - -
    exact ⟨hall, fun _ hend => hnext (not_lt.mp hend)⟩

end FileProtection

/-! ### Process measurement -/

section Dmeasure

variable {b : Bytes} {ops : ℤ}

/-- Where the next process item starts, as an `int`. -/
def dmeasureNext (b : Bytes) (ops : ℤ) : ℤ := int32 (ops + align4 (dmeasureExtent b ops))

def DmeasureAccepted (b : Bytes) (ops : ℤ) : Prop :=
  (0 ≤ ops ∧ ops + 10 < b.length) ∧ ops + dmeasureExtent b ops ≤ b.length

/-- **One process item:** the first test rejects it, or its fields are inside. -/
theorem item_extractDmeasure (hb : b.length < 2 ^ 31) :
    Item (extractDmeasure allGranted b) (fun ops => b.length ≤ sizeT (ops + 10) ∨ 0 ≤ ops ∧ ops + 10 < b.length)
      (DmeasureAccepted b) (dmeasureNext b) := by
  intro ops Q
  simp only [extractDmeasure, meets_bind, meets_read, meets_granted, meets_check, meets_copy, meets_pure]
  rw [inside_iff (by decide), dmeasureNext, DmeasureAccepted, dmeasureExtent]
  have hlen : netAt (fieldAt b ops.toNat 10) 8 2 < 65536 := netAt_lt _ _ _
  generalize netAt (fieldAt b ops.toNat 10) 8 2 = len at *
  rcases Nat.lt_or_ge (sizeT (ops + 10)) b.length with hpass | hrejected
  · constructor
    · intro h
      obtain ⟨hheader, hrest⟩ := h (by omega)
      rw [sizeT] at hpass
      refine ⟨.inr (by omega), fun hacc => (hrest ?_ (by omega)).2⟩
      rw [sizeT]
      omega
    · rintro ⟨hsafe, hnext⟩ -
      have hheader := hsafe.resolve_left (by omega)
      refine ⟨by omega, fun htest _ => ?_⟩
      have hin : ops + 10 + len ≤ b.length := by
        rw [sizeT] at htest
        omega
      refine ⟨⟨?_, le_rfl⟩, hnext ⟨hheader, by omega⟩⟩
      unfold Inside
      omega
  · refine iff_of_true (fun hpass => absurd hrejected hpass) ⟨.inl hrejected, fun hacc => ?_⟩
    rw [sizeT] at hrejected
    omega

/-- **No list of process items is read outside the buffer.** -/
theorem walks_dmeasure (hb : b.length < 2 ^ 31) (n : ℕ) :
    Walks (fun ops => b.length ≤ sizeT (ops + 10) ∨ 0 ≤ ops ∧ ops + 10 < b.length) (DmeasureAccepted b)
      (dmeasureNext b) (fun _ => True) n 0 := by
  -- an offset that has wrapped around is a negative `int` close to the least one
  refine walks_of_invariant (I := fun ops => 0 ≤ ops ∧ ops < 2 ^ 31 ∨ -2 ^ 31 ≤ ops ∧ ops < -2 ^ 31 + 4)
    (fun ops hops => ?_) (fun ops _ hacc => ?_) (.inl (by decide))
  · rw [sizeT]
    omega
  · obtain ⟨hheader, hin⟩ := hacc
    rw [dmeasureNext, int32, Int.bmod_def]
    unfold align4
    split_ifs <;> omega

end Dmeasure

/-! ### Boot references -/

section BootRefs

variable {b : Bytes} {op : ℤ}

theorem bootHashLength_le (b : Bytes) (op : ℤ) : bootHashLength b op ≤ 65535 * 65535 := by
  have h1 := netAt_lt (fieldAt b op.toNat 12) 0 2
  have h2 := netAt_lt (fieldAt b op.toNat 12) 6 2
  exact Nat.mul_le_mul (by omega) (by omega)

/-- The three parts are inside together. -/
theorem inside_parts {off : ℤ} {p e n : ℕ} (h₀ : 0 ≤ off) (hlen : off ≤ b.length) :
    (Inside b off p ∧ Inside b (off + p) e ∧ Inside b (off + p + e) n) ↔ off + (p + n + e : ℕ) ≤ b.length := by
  unfold Inside
  omega

/-- **One boot reference.** -/
theorem item_extractBootRef (hb : b.length < 2 ^ 31) :
    Item (extractBootRef allGranted b) (BootSafe b) (BootAccepted b) (bootNext b) := by
  intro op Q
  have hhash := bootHashLength_le b op
  have hname : netAt (fieldAt b op.toNat 12) 4 2 < 65536 := netAt_lt _ _ _
  have hextend : netAt (fieldAt b op.toNat 12) 10 2 < 65536 := netAt_lt _ _ _
  simp only [extractBootRef, meets_bind, meets_read, meets_granted, meets_check, meets_copy, meets_pure]
  rw [inside_iff (by decide), ← bootHashLength, BootSafe, BootAccepted, bootNext, bootDataLength]
  generalize netAt (fieldAt b op.toNat 12) 4 2 = n at *
  generalize netAt (fieldAt b op.toNat 12) 10 2 = e at *
  generalize bootHashLength b op = p at *
  rcases Nat.lt_or_ge (sizeT (op + 12)) b.length with hpass | hrejected
  · have hheader : 0 ≤ op ∧ op + (12 : ℕ) ≤ b.length ↔ 0 ≤ op ∧ op + 12 < b.length := by
      rw [sizeT] at hpass
      omega
    rw [forall_prop_of_true (not_le.mpr hpass), or_iff_right (not_le.mpr hpass), hheader,
      and_assoc (a := 0 ≤ op ∧ _)]
    refine and_congr_right fun hin => ?_
    rcases Nat.lt_or_ge p (2 ^ 31) with hp | hp
    · have hlen : int32 p = p := int32_eq (by omega) (by omega)
      rw [hlen]
      rcases Nat.lt_or_ge (p + n + e) (2 ^ 31) with hsum | hsum
      · have hroom : int32 ((p : ℤ) + n + e) = (p + n + e : ℕ) := int32_eq (by omega) (by omega)
        have hsize : sizeT (12 + p + n + e) = 12 + (p + n + e) := by
          rw [sizeT]
          omega
        have hnext : int32 (op + int32 (align4 (12 + (p + n + e)))) = int32 (op + align4 (12 + (p + n + e))) := by
          rw [int32, int32, int32, Int.add_bmod_bmod]
        have halign : 12 + (p + n + e) ≤ align4 (12 + (p + n + e)) ∧ align4 (12 + (p + n + e)) < 12 + (p + n + e) + 4 := by
          unfold align4
          split_ifs <;> omega
        have htest : int32 (op + align4 (12 + (p + n + e))) > b.length ↔
            b.length < op + align4 (12 + (p + n + e)) ∧ op + align4 (12 + (p + n + e)) < 2 ^ 31 :=
          int32_gt_iff (by omega) (by omega) (by omega) (by omega)
        have hparts := @inside_parts b (op + 12) p e n (by omega) (by omega)
        rw [hsize, hnext, hroom]
        rcases le_or_gt (op + (12 + (p + n + e) : ℕ)) (b.length : ℤ) with hfit | hout
        · obtain ⟨hhashIn, hextendIn, hnameIn⟩ := hparts.mpr (by omega)
          refine ⟨fun h => ⟨.inr (.inr (.inl hfit)), fun hacc => ?_⟩, fun h hend _ => ?_⟩
          · exact (h (not_lt.mpr hacc.2.2) (by omega)).2.2.2
          · exact ⟨⟨hhashIn, by omega⟩, ⟨hextendIn, by omega⟩, ⟨hnameIn, by omega⟩,
              h.2 ⟨hin, hfit, not_lt.mp hend⟩⟩
        · constructor
          · intro h
            refine ⟨.inr (.inr (.inr ?_)), fun hacc => absurd hacc.2.1 (not_le.mpr hout)⟩
            -- an end that has wrapped around passes the test
            by_contra hwraps
            obtain ⟨⟨hhashIn, -⟩, ⟨hextendIn, -⟩, ⟨hnameIn, -⟩, -⟩ := h (mt htest.mp fun hboth => hwraps hboth.2) (by omega)
            have hinside := hparts.mp ⟨hhashIn, hextendIn, hnameIn⟩
            omega
          · rintro ⟨hsafe, -⟩ hend -
            exact absurd (htest.mpr (by omega)) hend
      · have hroom : ¬ 0 ≤ int32 ((p : ℤ) + n + e) := by
          rw [int32, Int.bmod_def]
          omega
        exact iff_of_true (fun _ hpos => absurd hpos hroom) ⟨.inr (.inl hsum), fun hacc => by omega⟩
    · have hroom : ¬ 0 ≤ int32 (int32 p + n + e) := by
        rw [int32, int32, Int.bmod_def, Int.bmod_def]
        omega
      exact iff_of_true (fun _ hpos => absurd hpos hroom) ⟨.inl hp, fun hacc => by omega⟩
  · refine iff_of_true (fun hpass => absurd hrejected hpass) ⟨.inl hrejected, fun hacc => ?_⟩
    rw [sizeT] at hrejected
    omega

end BootRefs

/-! ### Ptrace -/

section Ptrace

variable {b : Bytes} {ops : ℤ} {slots k : ℕ}

/-- **One name that fits** is copied exactly when it ends within its length. -/
theorem meets_extractPtraceName (hb : b.length < 2 ^ 31) (hops : 0 ≤ ops)
    (hfit : 16 + ops + 4 + ptraceNameLength b ops ≤ b.length) (hk : k < slots) (Q : ℤ × ℕ → Prop) :
    Meets (extractPtraceName allGranted b slots (ops, k)) (fun r => Q r.2) ↔
      NameEnds b ops ∧ Q (ptraceAfter b ops, k + 1) := by
  have hgranted {off n : ℤ} {k : ℕ} {Q : Unit → Prop} :
      Meets (malloc (allGranted off k) n ()) Q ↔ (0 ≤ n → Q ()) := meets_malloc.trans (forall_prop_of_true rfl)
  simp only [extractPtraceName, meets_bind, meets_read, meets_readText, hgranted, meets_check, meets_needs,
    meets_pure]
  rw [inside_iff (by decide), ← ptraceNameLength, ptraceAfter]
  have hends : Ends b (16 + ops + 4) ∧
      ((CStr.ofBytes (b.drop (16 + ops + 4).toNat)).strlen : ℤ) + 1 ≤ ptraceNameLength b ops ↔ NameEnds b ops := by
    rw [NameEnds, fieldAt, ← ends_within_iff, Ends, and_assoc, and_iff_right (by omega)]
    exact and_congr_right fun _ => by omega
  generalize ptraceNameLength b ops = n at *
  have hlen : int32 n = n := int32_eq (by omega) (by omega)
  have hpad : align4 n < n + 4 := by
    unfold align4
    split_ifs <;> omega
  have halign : alignInt n = align4 n := alignInt_eq (by omega)
  have hnext : int32 (ops + 4 + align4 n) = ops + 4 + align4 n := int32_eq (by omega) (by omega)
  have hfirst : ¬ sizeT (ops + 4) > b.length := by
    rw [sizeT]
    omega
  have hsecond : ¬ sizeT (ops + 4 + align4 n) > b.length := by
    rw [sizeT]
    omega
  rw [hlen, halign, hnext, forall_prop_of_true hfirst, forall_prop_of_true hsecond,
    forall_prop_of_true (Int.natCast_nonneg n), ← and_assoc (a := Ends b _), hends]
  exact ⟨fun h => h.2.2, fun h => ⟨by omega, hk, h⟩⟩

/-- **The names that fit** are copied exactly when each of them ends within its length. -/
theorem meets_ptraceNames (hb : b.length < 2 ^ 31) {n : ℕ} (hops : 0 ≤ ops)
    (hfit : AllFit (fun ops => 16 + ops + 4 + ptraceNameLength b ops ≤ b.length) (ptraceAfter b) n ops)
    (hk : k + n ≤ slots) (Q : ℤ × ℕ → Prop) :
    Meets (decode (extractPtraceName allGranted b slots) n (ops, k)) (fun r => Q r.2) ↔
      AllFit (NameEnds b) (ptraceAfter b) n ops ∧ Q ((ptraceAfter b)^[n] ops, k + n) := by
  induction n generalizing ops k with
  | zero => exact (and_iff_right trivial).symm
  | succ n ih =>
      obtain ⟨hname, hrest⟩ := hfit
      have hafter : 0 ≤ ptraceAfter b ops := by
        rw [ptraceAfter]
        omega
      have hnext := ih (k := k + 1) hafter hrest (by omega)
      have hstep := @meets_extractPtraceName b ops slots k hb hops hname (by omega)
        fun s => Meets (decode (extractPtraceName allGranted b slots) n s) fun r => Q r.2
      have htail (r : CStr × (ℤ × ℕ)) :
          Meets (decode (extractPtraceName allGranted b slots) n r.2 >>= fun rest => pure (r.1 :: rest.1, rest.2))
            (fun r => Q r.2) ↔ Meets (decode (extractPtraceName allGranted b slots) n r.2) fun r => Q r.2 := by
        rw [meets_bind]
        exact Iff.rfl
      rw [decode, meets_bind, meets_congr htail, hstep, hnext, AllFit, Function.iterate_succ_apply, and_assoc,
        Nat.add_right_comm, Nat.add_assoc]

end Ptrace

/-! ### The decoders -/

section Decoders

variable {b : Bytes} {op : ℤ}

theorem meets_ptraceExtract {g : Grants} {Q : Unit → Prop} :
    Meets (ptraceExtract g b >>= fun _ => pure ()) Q ↔ Meets (extractPtraceNames g b) (fun _ => True) ∧ Q () := by
  rw [ptraceExtract]
  cases extractPtraceNames g b with
  | ok policy => exact (and_iff_right trivial).symm
  | error e =>
      cases e with
      | error e => exact (and_iff_right trivial).symm
      | fault => exact iff_of_false id fun h => h.1

/-- **Without memory a decoder only stops earlier.** -/
theorem within_run (d : Decoder) (g : Grants) (b : Stored) (num : Int32) :
    Within (d.run g b num) (d.run allGranted b num) := by
  have hlist {β : Type} {item item' : ℤ → Except Fail (β × ℤ)} (h : ∀ op, Within (item op) (item' op)) (size : ℤ) :
      Within (malloc (g (-1) 0) size .nomem >>= fun _ => decode item num.toInt.toNat 0 >>= fun r => pure r.1)
        (malloc (allGranted (-1) 0) size .nomem >>= fun _ => decode item' num.toInt.toNat 0 >>= fun r => pure r.1) :=
    within_bind (within_malloc _ _ _) fun _ => within_bind (within_decode h) fun _ => .refl _
  cases d with
  | ids => exact within_bind (hlist (within_extractId g b.data) _) fun _ => .refl _
  | roles => exact within_bind (hlist (within_extractRole g b.data) _) fun _ => .refl _
  | fileProtect => exact within_bind (hlist (within_extractFileProtect g b.data) _) fun _ => .refl _
  | ptrace =>
      intro Q h
      rw [Decoder.run, meets_ptraceExtract] at h ⊢
      exact ⟨within_extractPtraceNames g b.data _ h.1, h.2⟩
  | dmeasure => exact within_bind (hlist (within_extractDmeasure g b.data) _) fun _ => .refl _
  | bootRefs => exact within_bind (hlist (within_extractBootRef g b.data) _) fun _ => .refl _

/-- So it is enough to look at the decoder with all its memory. -/
theorem decodes_iff_meets {d : Decoder} {b : Stored} {num : Int32} :
    Decodes d b num ↔ Meets (d.run allGranted b num) fun _ => d.Fits b.data num.toInt.toNat := by
  constructor
  · intro h
    exact meets_iff.mpr ⟨h.safe _, fun _ hok => h.reported _ hok⟩
  · intro h
    refine ⟨fun g => ?_, fun g => ?_⟩
    · exact (meets_iff.mp (within_run d g b num _ h)).1
    · exact (meets_iff.mp (within_run d g b num _ h)).2 ()

/-- A list of items behind the request for its array. -/
theorem meets_list {β : Type} {item : ℤ → Except Fail (β × ℤ)} {safe accepted fits : ℤ → Prop} {next after : ℤ → ℤ}
    (h : Item item safe accepted next)
    (hnext : ∀ s, safe s → accepted s → safe (next s) → fits s ∧ (accepted (next s) → next s = after s))
    (num size : ℤ) (hsize : 0 ≤ num → 0 ≤ size) :
    Meets ((malloc (allGranted (-1) 0) size .nomem >>= fun _ =>
        decode item num.toNat 0 >>= fun r => pure r.1) >>= fun _ => pure ())
      (fun _ => AllFit fits after num.toNat 0) ↔
    Walks (fun s => safe s ∧ (accepted s → fits s)) accepted next (fun _ => True) num.toNat 0 := by
  simp only [meets_bind, meets_granted, meets_pure]
  rw [meets_decode_fits h hnext]
  rcases lt_or_ge num 0 with hneg | hnum
  · rw [Int.toNat_of_nonpos hneg.le]
    exact iff_of_true (fun _ => trivial) trivial
  · exact forall_prop_of_true (hsize hnum)

theorem align4_bounds (n : ℕ) : n ≤ align4 n ∧ align4 n < n + 4 := by
  unfold align4
  split_ifs <;> omega

/-- An offset that has not become negative is what it should be. -/
theorem int32_eq_of_nonneg {z : ℤ} (h₀ : 0 ≤ z) (h₁ : z < 2 ^ 32) (h : 0 ≤ int32 z) : int32 z = z := by
  rw [int32, Int.bmod_def] at h ⊢
  omega

theorem ids_next (hb : b.length < 2 ^ 31) (op : ℤ) (hsafe : IdSafe b op) (hacc : IdAccepted b op)
    (hnext : IdSafe b (idNext b op)) :
    op + idExtent b op ≤ b.length ∧ (IdAccepted b (idNext b op) → idNext b op = op + align4 (idExtent b op)) := by
  have hpad := align4_bounds (idExtent b op)
  have hin := hacc.1
  have hop := hsafe.1.1
  exact ⟨hin, fun _ => int32_eq_of_nonneg (by omega) (by omega) hnext.1.1⟩

theorem boot_next (hb : b.length < 2 ^ 31) (op : ℤ) (hacc : BootAccepted b op) :
    op + (12 + bootDataLength b op : ℕ) ≤ b.length ∧
      (BootAccepted b (bootNext b op) → bootNext b op = op + align4 (12 + bootDataLength b op)) := by
  have hpad := align4_bounds (12 + bootDataLength b op)
  obtain ⟨⟨hop, -⟩, hin, -⟩ := hacc
  exact ⟨hin, fun hnext => int32_eq_of_nonneg (by omega) (by omega) hnext.1.1⟩

theorem dmeasure_next (hb : b.length < 2 ^ 31) (ops : ℤ) (hacc : DmeasureAccepted b ops) :
    ops + dmeasureExtent b ops ≤ b.length ∧
      (DmeasureAccepted b (dmeasureNext b ops) → dmeasureNext b ops = ops + align4 (dmeasureExtent b ops)) := by
  have hpad := align4_bounds (dmeasureExtent b ops)
  obtain ⟨⟨hops, -⟩, hin⟩ := hacc
  exact ⟨hin, fun hnext => int32_eq_of_nonneg (by omega) (by omega) hnext.1.1⟩

theorem alignInt_natCast (n : ℕ) : alignInt n = int32 (align4 n) := by
  have hmod : (n : ℤ).tmod 4 = (n % 4 : ℕ) := by
    rw [Int.tmod_eq_emod_of_nonneg (by omega)]
    rfl
  rw [alignInt, hmod, align4]
  rcases eq_or_ne (n % 4) 0 with hz | hz
  · rw [if_pos (by omega), if_pos hz]
  · have hcast : (n : ℤ) + 4 - (n % 4 : ℕ) = (n + 4 - n % 4 : ℕ) := by omega
    rw [if_neg (by omega), if_neg hz, hcast]

/-- The privileged processes end inside the buffer. -/
theorem privileged_end {n : ℕ} {cur : ℤ} (h : AllFit (PrivilegedSafe b) (fun cur => cur + 292) (n + 1) cur) :
    cur + 292 * (n + 1) ≤ b.length := by
  induction n generalizing cur with
  | zero =>
      have hlast := h.1.2.1
      omega
  | succ n ih =>
      have hrest : cur + 292 + 292 * (n + 1) ≤ b.length := ih h.2
      omega

theorem file_next (hb : b.length < 2 ^ 31) (op : ℤ) (hsafe : FileSafe b op) (hacc : fileNext b op ≤ b.length)
    (hnext : FileSafe b (fileNext b op)) :
    op + fileExtent b op ≤ b.length ∧ fileNext b op = align4 (op + fileExtent b op).toNat := by
  obtain ⟨⟨hop, hheader⟩, -, hall⟩ := hsafe
  have hpos := hnext.1.1
  rw [fileNext] at hacc hpos ⊢
  rw [fileExtent]
  generalize fileProcesses b op = n at *
  have hend : n = 0 ∨ op + 260 + 292 * n ≤ b.length := by
    cases n with
    | zero => exact .inl rfl
    | succ n =>
        have hlast := privileged_end hall
        omega
  rcases lt_or_ge (op + 260) (2 ^ 31) with hsmall | hlarge
  · have hfields : int32 (op + 260) = op + 260 := int32_eq (by omega) hsmall
    have hsum : int32 (op + 260 + 292 * n) = (op + (260 + 292 * n : ℕ)).toNat := by
      rw [int32_eq (by omega) (by omega)]
      omega
    rw [hfields, hsum, alignInt_natCast] at hacc hpos ⊢
    have hpad := align4_bounds (op + (260 + 292 * n : ℕ)).toNat
    rw [int32_eq_of_nonneg (by omega) (by omega) hpos] at hacc ⊢
    exact ⟨by omega, rfl⟩
  -- an item that ends behind every `int` leads to a negative offset
  · obtain rfl : n = 0 := by omega
    have hfields : int32 (int32 (op + 260) + 292 * (0 : ℕ)) = op + 260 - 2 ^ 32 := by
      rw [int32, int32, Int.bmod_def, Int.bmod_def]
      omega
    have hlow := Int.lt_tmod_of_pos (op + 260 - 2 ^ 32) (show (0 : ℤ) < 4 by decide)
    have hhigh := Int.tmod_lt_of_pos (op + 260 - 2 ^ 32) (show (0 : ℤ) < 4 by decide)
    rw [hfields, alignInt, int32, Int.bmod_def] at hpos
    split_ifs at hpos <;> omega

/-- The members that are accepted are where they should be. -/
theorem members_after (hb : b.length < 2 ^ 31) (hop : 0 ≤ op) {n : ℕ} {memberOpt : ℤ} (hmember : 0 ≤ memberOpt)
    (hstart : op + 12 + memberOpt ≤ b.length)
    (h : AllFit (MemberAccepted b op) (memberNext b op) n memberOpt) :
    AllFit (fun memberOpt => op + 12 + memberAfter b op memberOpt ≤ b.length) (memberAfter b op) n memberOpt ∧
      (memberNext b op)^[n] memberOpt = (memberAfter b op)^[n] memberOpt ∧
      0 ≤ (memberAfter b op)^[n] memberOpt ∧ op + 12 + (memberAfter b op)^[n] memberOpt ≤ b.length := by
  induction n generalizing memberOpt with
  | zero => exact ⟨trivial, rfl, hmember, hstart⟩
  | succ n ih =>
      obtain ⟨⟨hin, -⟩, hrest⟩ := h
      have hafter : 0 ≤ memberAfter b op memberOpt := by
        rw [memberAfter]
        omega
      have hnext : memberNext b op memberOpt = memberAfter b op memberOpt := int32_eq hafter (by omega)
      rw [hnext] at hrest
      obtain ⟨hall, heq, hend⟩ := ih hafter hin hrest
      rw [Function.iterate_succ_apply, Function.iterate_succ_apply, hnext]
      exact ⟨⟨hin, hall⟩, heq, hend⟩

theorem role_next (hb : b.length < 2 ^ 31) (op : ℤ) (hsafe : RoleSafe b op) (hacc : RoleAccepted b op) :
    (op + 12 + roleName b op ≤ b.length ∧
      AllFit (fun memberOpt => op + 12 + memberAfter b op memberOpt ≤ b.length) (memberAfter b op)
        (roleMembers b op) (roleName b op)) ∧
      (RoleSafe b (roleNext b op) → roleNext b op = op + align4 (roleExtent b op).toNat) := by
  obtain ⟨hin, -, hmembers, -⟩ := hacc
  have hop := hsafe.1.1
  obtain ⟨hall, heq, hend₀, hend⟩ := members_after hb hop (by omega) hin hmembers
  refine ⟨⟨hin, hall⟩, fun hnext => ?_⟩
  have hpos := hnext.1.1
  rw [roleNext, heq] at hpos ⊢
  rw [roleExtent]
  generalize (memberAfter b op)^[roleMembers b op] (roleName b op) = last at *
  have hsum : int32 (last + 12) = (12 + last).toNat := by
    rw [int32_eq (by omega) (by omega)]
    omega
  have hpad := align4_bounds (12 + last).toNat
  have hboth : int32 (op + int32 (align4 (12 + last).toNat)) = int32 (op + align4 (12 + last).toNat) := by
    rw [int32, int32, int32, Int.add_bmod_bmod]
  rw [hsum, alignInt_natCast, hboth] at hpos ⊢
  exact int32_eq_of_nonneg (by omega) (by omega) hpos

/-- The names of a ptrace policy that fits are not too many for their array. -/
theorem ptraceNumber_le {n : ℕ} {ops : ℤ} (hops : 16 + ops ≤ b.length + 3)
    (h : AllFit (fun ops => 16 + ops + 4 + ptraceNameLength b ops ≤ b.length) (ptraceAfter b) n ops) :
    16 + ops + 4 * n ≤ b.length + 3 := by
  induction n generalizing ops with
  | zero => omega
  | succ n ih =>
      have hname := h.1
      have hpad := align4_bounds (ptraceNameLength b ops)
      have hafter : 16 + ptraceAfter b ops ≤ b.length + 3 := by
        rw [ptraceAfter]
        omega
      have hrest := ih hafter h.2
      rw [ptraceAfter] at hrest
      omega

theorem ptraceAfter_iterate_nonneg (n : ℕ) : 0 ≤ (ptraceAfter b)^[n] 0 := by
  induction n with
  | zero => exact le_rfl
  | succ n ih =>
      rw [Function.iterate_succ_apply', ptraceAfter]
      omega

/-- **The ptrace policy that fits** is read safely exactly when every name ends. -/
theorem meets_extractPtraceNames (hb : b.length < 2 ^ 31) (hheader : 16 ≤ b.length)
    (hfit : AllFit (fun ops => 16 + ops + 4 + ptraceNameLength b ops ≤ b.length) (ptraceAfter b)
      (ptracerNumber b + nonTraceeNumber b) 0) :
    Meets (extractPtraceNames allGranted b) (fun _ => True) ↔
      AllFit (NameEnds b) (ptraceAfter b) (ptracerNumber b + nonTraceeNumber b) 0 := by
  have hgranted {off n : ℤ} {k : ℕ} {Q : Unit → Prop} :
      Meets (malloc (allGranted off k) n ()) Q ↔ (0 ≤ n → Q ()) := meets_malloc.trans (forall_prop_of_true rfl)
  have hnumber := ptraceNumber_le (by omega) hfit
  have hslots : (ptracerNumber b + nonTraceeNumber b) % 2 ^ 32 = ptracerNumber b + nonTraceeNumber b :=
    Nat.mod_eq_of_lt (by omega)
  obtain ⟨hptracers, hnonTracees⟩ := allFit_add.mp hfit
  have hlast : 0 ≤ (ptraceAfter b)^[ptracerNumber b] 0 := ptraceAfter_iterate_nonneg _
  have hsecond := @meets_ptraceNames b _ (ptracerNumber b + nonTraceeNumber b) (ptracerNumber b) hb _ hlast
    hnonTracees le_rfl fun _ => True
  have hfirst := @meets_ptraceNames b _ (ptracerNumber b + nonTraceeNumber b) 0 hb _ le_rfl hptracers (by omega)
    fun s => Meets (decode (extractPtraceName allGranted b (ptracerNumber b + nonTraceeNumber b))
      (nonTraceeNumber b) s) fun _ => True
  simp only [extractPtraceNames, meets_bind, meets_read, hgranted, meets_pure]
  rw [inside_iff (by decide), Int.toNat_zero, ← ptracerNumber, ← nonTraceeNumber, hslots,
    forall_prop_of_true (Int.natCast_nonneg _), and_iff_right (by omega), hfirst, Nat.zero_add, hsecond,
    and_iff_left trivial,
    allFit_add]

end Decoders

/-- The 4 bytes of an identity file that has been cut off. -/
def cutIdentity : Stored := ⟨[3, 0, 0, 0], by decide⟩

end Extract
end Tcf
end TsbAgent
