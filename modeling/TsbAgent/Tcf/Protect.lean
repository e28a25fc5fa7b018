/-
# The ptrace policy

`tss-main/tcf/src/tcf_protect.c`: a switch and two lists of names are packed into an update
and read again from what the TCS has stored.

```
 0       52        56      60            64               68
| update | total   | flag  | ptracers    | non-tracees    | names ...
```

A name takes 4 bytes for its length and the aligned name with its terminator.  The fixed part
of 16 bytes is in all three lengths: in the size of the buffer and in the output length
because `sizeof (struct ptrace_protect_update)` holds one `struct ptrace_protect`, and in
`be_data_length`.  The reader measures offsets from behind it, so its tests are too lenient
by 16 bytes and reject nothing that was written.

What goes wrong is the size of the buffer, `68 + 255 * number` in 32 bits: some numbers make
it wrap around to less than 68 (`PtraceProtectUser.SizeFits`).  A length of a name is an
`int` too.
-/

import TsbAgent.Tcf.Basic

namespace TsbAgent
namespace Tcf

open Libc Word Codec FileIntegrity

/-- `struct ptrace_protect_user`; the numbers are the lengths of the lists. -/
structure PtraceProtectUser where
  isPtraceProtect : Int32
  ptracerNames : List (Option CStr)
  nonTraceeNames : List (Option CStr)
  ptracerNumber_lt : ptracerNames.length < 2 ^ 32
  nonTraceeNumber_lt : nonTraceeNames.length < 2 ^ 32

/-- The names in the order in which both loops take them. -/
def PtraceProtectUser.names (x : PtraceProtectUser) : List (Option CStr) := x.ptracerNames ++ x.nonTraceeNames

/-- `MAX_NAME_LENGTH * (items->ptracer_number + items->non_tracee_number)`, an `unsigned int`. -/
def PtraceProtectUser.maxNames (x : PtraceProtectUser) : ℕ :=
  255 * ((x.ptracerNames.length + x.nonTraceeNames.length) % 2 ^ 32) % 2 ^ 32

/-- `item_max_len`. -/
def PtraceProtectUser.itemMaxLen (x : PtraceProtectUser) : ℤ := int32 (68 + x.maxNames : ℕ)

/-- `name_length`. -/
def nameLength (name : CStr) : ℤ := int32 (name.strlen + 1 : ℕ)

/-- What a name takes. -/
def nameSize (name : CStr) : ℕ := 4 + (alignInt (nameLength name)).toNat

/-- The two loops, which have one body and go on with one offset: the names, or why they are
not written.  A `memcpy` of a negative length leaves the buffer. -/
def checkPtraceNames (bound : ℕ) : ℕ → List (Option CStr) → Except Fail (List CStr)
  | _, [] => .ok []
  | _, none :: _ => .error (.error .badData)
  | ops, some name :: names =>
      if sizeT (ops + 4 + alignInt (nameLength name)) > bound then .error (.error .nomem)
      else if nameLength name < 0 then .error .fault
      else (checkPtraceNames bound (ops + nameSize name) names).map (name :: ·)

/-- `struct process_name`. -/
def encodePtraceName (name : CStr) : Bytes :=
  netBytes 4 (nameLength name).toNat ++ (name.bytes ++ [0]).take (nameLength name).toNat

/-- An update: the buffer, `*olen`, and what is written behind its 52 bytes of fields. -/
structure PtraceProtectUpdate where
  alloc : ℤ
  olen : ℤ
  action : UInt32
  replayCounter : UInt64
  dataLength : UInt32
  tpcmId : Bytes
  data : Bytes

/-- `tcf_prepare_ptrace_protect_policy`. -/
def tcfPreparePtraceProtectPolicy (items : PtraceProtectUser) (tpcmId : Bytes) (action : UInt32)
    (replayCounter : UInt64) : Except Fail PtraceProtectUpdate :=
  if tpcmId.length > FileIntegrity.maxTpcmIdSize then .error (.error .inputExceed)
  else if items.itemMaxLen < 0 then .error (.error .nomem)
  -- the fixed part is written before any test
  else if items.itemMaxLen < 68 then .error .fault
  else
    match checkPtraceNames (items.itemMaxLen - 68).toNat 0 items.names with
    | .error e => .error e
    | .ok names =>
        let ops := (names.map nameSize).sum
        .ok
          { alloc := items.itemMaxLen
            olen := int32 (68 + ops : ℕ)
            action := action
            replayCounter := replayCounter
            dataLength := UInt32.ofNat (16 + ops)
            tpcmId := tpcmId
            data := netBytes 4 ops ++ (netBytes 4 items.isPtraceProtect.toUInt32.toNat ++
              (netBytes 4 items.ptracerNames.length ++ (netBytes 4 items.nonTraceeNames.length ++
                pack (fun _ => 0) encodePtraceName nameSize 0 names))) }

/-- One round of `tcf_get_ptrace_protect_policy`.  An error makes it free what it has and return
0, with nothing filled in. -/
def readPtraceName (length : ℤ) (ops : ℕ) (p : Bytes) : Except (Failure Unit) (CStr × ℕ) :=
  let nameLength := int32 (netAt p 0 4 : ℕ)
  if ops + 4 > sizeT length then .error (.error ())
  else if p.length < 4 then .error .fault
  else if sizeT (ops + 4 + alignInt nameLength) > sizeT length then .error (.error ())
  else if nameLength < 0 then .error (.error ())
  -- `strcpy` takes the name up to its terminator, into `name_length` bytes
  else if (0 : UInt8) ∉ p.drop 4 ∨ nameLength < (CStr.ofBytes (p.drop 4)).strlen + 1 then .error .fault
  else .ok (CStr.ofBytes (p.drop 4), 4 + (alignInt nameLength).toNat)

/-- What is filled in. -/
structure PtraceProtect where
  isPtraceProtect : Int32
  ptracerNames : List CStr
  nonTraceeNames : List CStr
deriving DecidableEq

/-- `tcf_get_ptrace_protect_policy`, for what the TCS has stored; the two loops again go on with
one offset. -/
def tcfGetPtraceProtectPolicy (policy : Bytes) (length : ℤ) : Except (Failure Unit) PtraceProtect :=
  if policy.length < 16 then .error .fault
  else
    (unpack (readPtraceName length) (netAt policy 8 4 + netAt policy 12 4) 0 (policy.drop 16)).map fun names =>
      { isPtraceProtect := (UInt32.ofNat (netAt policy 4 4)).toInt32
        ptracerNames := names.take (netAt policy 8 4)
        nonTraceeNames := names.drop (netAt policy 8 4) }

/-- **The policy round-trips:** an update is made inside its buffer, its output length is that of
the header and the data, and the switch and the two lists are read back. -/
def PtraceProtectUser.RoundTrips (x : PtraceProtectUser) (o : Except Fail PtraceProtectUpdate) : Prop :=
  ∃ u, o = .ok u ∧ 52 + u.data.length ≤ u.alloc ∧ u.olen = 52 + u.dataLength.toNat ∧
    u.dataLength.toNat = u.data.length ∧
    ∃ r, tcfGetPtraceProtectPolicy u.data (int32 u.dataLength.toNat) = .ok r ∧
      r.isPtraceProtect = x.isPtraceProtect ∧ r.ptracerNames.map some = x.ptracerNames ∧
      r.nonTraceeNames.map some = x.nonTraceeNames

/-- **The condition:** the size of the buffer does not wrap around to less than the fixed part,
and the length of every name is an `int`. -/
structure PtraceProtectUser.SizeFits (x : PtraceProtectUser) : Prop where
  size : x.maxNames < 2 ^ 32 - 68
  names : ∀ name, some name ∈ x.names → name.strlen + 1 < 2 ^ 31

section Names

variable {name : CStr} {names : List CStr} {xs : List (Option CStr)} {bound ops len : ℕ}

theorem nameLength_eq (h : name.strlen + 1 < 2 ^ 31) : nameLength name = (name.strlen + 1 : ℕ) :=
  int32_eq (by omega) (by omega)

theorem nameLength_lt (name : CStr) : nameLength name < 2 ^ 31 := int32_lt _

/-- A length that passes the test is aligned inside the buffer. -/
theorem align_of_test (hbound : bound < 2 ^ 31 - 68) (hops : ops ≤ bound)
    (htest : ¬ sizeT (ops + 4 + alignInt (nameLength name)) > bound) (hpos : ¬ nameLength name < 0) :
    (nameLength name).toNat ≤ (alignInt (nameLength name)).toNat ∧ ops + nameSize name ≤ bound := by
  obtain ⟨n, hn⟩ := Int.eq_ofNat_of_zero_le (not_lt.mp hpos)
  have hlt := nameLength_lt name
  have hle := le_align4 n
  have hge := align4_le n
  rw [nameSize]
  rw [hn] at hlt htest ⊢
  by_cases hint : align4 n < 2 ^ 31
  · rw [alignInt_eq hint, sizeT] at htest
    rw [alignInt_eq hint]
    omega
  · exfalso
    -- the aligned length is the first that an `int` does not hold
    have hwrap : alignInt (n : ℤ) = -2 ^ 31 := by
      have hmod : (n : ℤ).tmod 4 = (n % 4 : ℕ) := by
        rw [Int.tmod_eq_emod_of_nonneg (by omega)]
        rfl
      have hvalue : (n : ℤ) + 4 - (n % 4 : ℕ) = 2 ^ 31 := by
        unfold align4 at hint
        split_ifs at hint <;> omega
      unfold align4 at hint
      split_ifs at hint with hz
      · omega
      · rw [alignInt, hmod, if_neg (by omega), hvalue]
        rfl
    rw [hwrap, sizeT] at htest
    omega

/-- **The names that are written end inside the buffer.** -/
theorem names_of_check (hbound : bound < 2 ^ 31 - 68) (hops : ops ≤ bound)
    (h : checkPtraceNames bound ops xs = .ok names) :
    names.map some = xs ∧ ops + (names.map nameSize).sum ≤ bound ∧
      ∀ name ∈ names, (encodePtraceName name).length ≤ nameSize name := by
  induction xs generalizing ops names with
  | nil =>
      obtain rfl := Except.ok.inj h
      exact ⟨rfl, hops, nofun⟩
  | cons x xs ih =>
      cases x with
      | none => exact absurd h (by simp [checkPtraceNames])
      | some name =>
          rw [checkPtraceNames] at h
          split_ifs at h with htest hpos
          obtain ⟨halign, hle⟩ := align_of_test hbound hops htest hpos
          cases hrec : checkPtraceNames bound (ops + nameSize name) xs with
          | error e =>
              rw [hrec] at h
              exact absurd h (by simp [Except.map])
          | ok rest =>
              rw [hrec] at h
              obtain rfl : name :: rest = names := Except.ok.inj h
              obtain ⟨rfl, hsum, hfits⟩ := ih hle hrec
              refine ⟨rfl, ?_, List.forall_mem_cons.mpr ⟨?_, hfits⟩⟩
              · rw [List.map_cons, List.sum_cons]
                omega
              · rw [encodePtraceName, List.length_append, length_netBytes, List.length_take, nameSize]
                omega

theorem nameSize_eq (hname : name.strlen + 1 < 2 ^ 31) (hfits : (encodePtraceName name).length ≤ nameSize name) :
    (nameSize name : ℤ) = 4 + alignInt (nameLength name) ∧ 5 ≤ nameSize name := by
  have hnat : (nameLength name).toNat = name.strlen + 1 := by
    rw [nameLength_eq hname]
    rfl
  have htake : ((name.bytes ++ [0]).take (name.strlen + 1)).length = name.strlen + 1 := by
    simp [CStr.strlen]
  rw [encodePtraceName, hnat, List.length_append, length_netBytes, htake] at hfits
  rw [nameSize] at hfits ⊢
  omega

/-- What faults is a name whose length is not an `int`. -/
theorem long_of_check (h : checkPtraceNames bound ops xs = .error .fault) :
    ∃ name, some name ∈ xs ∧ 2 ^ 31 ≤ name.strlen + 1 := by
  induction xs generalizing ops with
  | nil => exact absurd h (by simp [checkPtraceNames])
  | cons x xs ih =>
      cases x with
      | none => exact absurd h (by simp [checkPtraceNames])
      | some name =>
          rw [checkPtraceNames] at h
          split_ifs at h with htest hneg
          · exact absurd h (by simp)
          · refine ⟨name, List.mem_cons_self, ?_⟩
            by_contra hlt
            rw [nameLength_eq (by omega)] at hneg
            exact absurd hneg (not_lt.mpr (Int.natCast_nonneg _))
          · cases hrec : checkPtraceNames bound (ops + nameSize name) xs with
            | error e =>
                rw [hrec] at h
                obtain rfl : e = .fault := Except.error.inj h
                obtain ⟨long, hmem, hlong⟩ := ih hrec
                exact ⟨long, List.mem_cons_of_mem _ hmem, hlong⟩
            | ok rest =>
                rw [hrec] at h
                exact absurd h (by simp [Except.map])

/-- **A name reads back,** when its length is an `int`. -/
theorem readsBack_encodePtraceName {total : ℕ} (htotal : total < 2 ^ 31) (hlen : len ≤ total)
    (hname : name.strlen + 1 < 2 ^ 31) (hfits : (encodePtraceName name).length ≤ nameSize name) :
    ReadsBack (readPtraceName total) len encodePtraceName nameSize id name := by
  intro op pad tail hop _
  obtain ⟨hsize, hfive⟩ := nameSize_eq hname hfits
  have hsizeT : sizeT (total : ℤ) = total := sizeT_eq (by omega)
  have hsizes : sizeT (op + 4 + alignInt (nameLength name)) = op + nameSize name := by
    have hsum : (op : ℤ) + 4 + alignInt (nameLength name) = (op + nameSize name : ℕ) := by
      push_cast
      rw [hsize]
      ring
    rw [hsum, sizeT_eq (by omega)]
  have hops : ¬ op + 4 > total := by omega
  have hend : ¬ op + nameSize name > total := by omega
  have hpos : ¬ nameLength name < 0 := by
    rw [nameLength_eq hname]
    exact not_lt.mpr (Int.natCast_nonneg _)
  have hnat : (nameLength name).toNat = name.strlen + 1 := by
    rw [nameLength_eq hname]
    rfl
  have hshape : encodePtraceName name ++ (pad ++ tail) =
      netBytes 4 (name.strlen + 1) ++ (name.bytes ++ 0 :: (pad ++ tail)) := by
    have htake : (name.bytes ++ [0]).take (name.strlen + 1) = name.bytes ++ [0] :=
      List.take_of_length_le (by simp [CStr.strlen])
    rw [encodePtraceName, hnat, htake, List.append_assoc, List.append_assoc]
    rfl
  have hdrop : (encodePtraceName name ++ (pad ++ tail)).drop 4 = name.bytes ++ 0 :: (pad ++ tail) := by
    rw [hshape]
    exact List.drop_left' (length_netBytes _ _)
  have hlt : name.strlen + 1 < 256 ^ 4 := lt_trans hname (by decide)
  have hread : int32 (netAt (encodePtraceName name ++ (pad ++ tail)) 0 4 : ℕ) = nameLength name := by
    rw [hshape, netAt_head, Nat.mod_eq_of_lt hlt]
    rfl
  have hlong : ¬ (encodePtraceName name ++ (pad ++ tail)).length < 4 := by
    rw [hshape, List.length_append, length_netBytes]
    omega
  have hcopy : ¬ ((0 : UInt8) ∉ name.bytes ++ 0 :: (pad ++ tail) ∨ nameLength name < (name.strlen : ℤ) + 1) := by
    rw [nameLength_eq hname]
    simp
  unfold readPtraceName
  dsimp only
  rw [hread, hsizeT, hdrop, CStr.ofBytes_terminated, if_neg hops, if_neg hlong, hsizes,
    if_neg hend, if_neg hpos, if_neg hcopy, ← nameSize, id]

/-- A name that was read is shorter than the buffer. -/
theorem strlen_of_read {length : ℤ} {p : Bytes} {s : ℕ} (h : readPtraceName length ops p = .ok (name, s)) :
    name.strlen < p.length := by
  unfold readPtraceName at h
  dsimp only at h
  split_ifs at h with h1 h2 h3 h4 h5
  obtain ⟨rfl, -⟩ := Prod.mk.inj (Except.ok.inj h)
  have hle : (CStr.ofBytes (p.drop 4)).strlen ≤ (p.drop 4).length := (List.takeWhile_prefix _).length_le
  rw [List.length_drop] at hle
  omega

end Names

section Policy

variable {x : PtraceProtectUser} {names : List CStr}

/-- The data of the update. -/
def ptraceData (x : PtraceProtectUser) (names : List CStr) : Bytes :=
  netBytes 4 (names.map nameSize).sum ++ (netBytes 4 x.isPtraceProtect.toUInt32.toNat ++
    (netBytes 4 x.ptracerNames.length ++ (netBytes 4 x.nonTraceeNames.length ++
      pack (fun _ => 0) encodePtraceName nameSize 0 names)))

theorem length_ptraceData (hfits : ∀ name ∈ names, (encodePtraceName name).length ≤ nameSize name) :
    (ptraceData x names).length = 16 + (names.map nameSize).sum := by
  rw [ptraceData]
  simp only [List.length_append, length_netBytes, length_pack hfits]
  omega

/-- What the reader finds in the fixed part. -/
theorem ptraceData_fields :
    (UInt32.ofNat (netAt (ptraceData x names) 4 4)).toInt32 = x.isPtraceProtect ∧
      netAt (ptraceData x names) 8 4 = x.ptracerNames.length ∧
      netAt (ptraceData x names) 12 4 = x.nonTraceeNames.length ∧
      (ptraceData x names).drop 16 = pack (fun _ => 0) encodePtraceName nameSize 0 names := by
  have hflag : x.isPtraceProtect.toUInt32.toNat < 256 ^ 4 := x.isPtraceProtect.toUInt32.toNat_lt
  have hptracers : x.ptracerNames.length < 256 ^ 4 := x.ptracerNumber_lt
  have htracees : x.nonTraceeNames.length < 256 ^ 4 := x.nonTraceeNumber_lt
  refine ⟨?_, ?_, ?_, ?_⟩
  · rw [ptraceData, netAt_skip, netAt_head, Nat.mod_eq_of_lt hflag, UInt32.ofNat_toNat]
    rfl
  · rw [ptraceData, netAt_skip, netAt_skip, netAt_head, Nat.mod_eq_of_lt hptracers]
  · rw [ptraceData, netAt_skip, netAt_skip, netAt_skip, netAt_head, Nat.mod_eq_of_lt htracees]
  · rw [ptraceData, ← List.append_assoc, ← List.append_assoc, ← List.append_assoc]
    exact List.drop_left' (by simp)

/-- The two lists are read back exactly when the length of every name is an `int`. -/
theorem readBack_iff (hnames : names.map some = x.names) (hsum : 16 + (names.map nameSize).sum < 2 ^ 31)
    (hfits : ∀ name ∈ names, (encodePtraceName name).length ≤ nameSize name) :
    (∃ r, tcfGetPtraceProtectPolicy (ptraceData x names) (16 + (names.map nameSize).sum : ℕ) = .ok r ∧
      r.isPtraceProtect = x.isPtraceProtect ∧ r.ptracerNames.map some = x.ptracerNames ∧
      r.nonTraceeNames.map some = x.nonTraceeNames) ↔ ∀ name ∈ names, name.strlen + 1 < 2 ^ 31 := by
  obtain ⟨hflag, hptracers, htracees, hdrop⟩ := @ptraceData_fields x names
  have hlength := @length_ptraceData x names hfits
  have hcount : x.ptracerNames.length + x.nonTraceeNames.length = names.length := by
    have hlen := congrArg List.length hnames
    rw [List.length_map, PtraceProtectUser.names, List.length_append] at hlen
    exact hlen.symm
  unfold tcfGetPtraceProtectPolicy
  rw [if_neg (by omega), hflag, hptracers, htracees, hdrop, hcount]
  constructor
  · rintro ⟨r, hr, -, hp, ht⟩ name hname
    cases hread : unpack (readPtraceName (16 + (names.map nameSize).sum : ℕ)) names.length 0
        (pack (fun _ => 0) encodePtraceName nameSize 0 names) with
    | error e =>
        rw [hread] at hr
        exact absurd hr (by simp [Except.map])
    | ok read =>
        rw [hread] at hr
        obtain rfl := Except.ok.inj hr
        -- the names that were read are the names that were given
        have hback : read.map some = names.map some := by
          rw [hnames, PtraceProtectUser.names, ← hp, ← ht, ← List.map_append, List.take_append_drop]
        have hmem : name ∈ read := by
          have := List.mem_map_of_mem (f := some) hname
          rw [← hback] at this
          simpa using this
        have hshort := unpack_forall (q := fun name => name.strlen + 1 < 2 ^ 31)
          (fun op p' name s hp hread => by
            have hlt := strlen_of_read hread
            rw [length_pack hfits] at hp
            omega) hread
        exact hshort name hmem
  · intro hint
    have hread := @unpack_pack _ _ _ (fun _ => 0) _ _ 0 0 _ _ [] _ _ hfits
      (fun name hname => readsBack_encodePtraceName hsum (Nat.le_add_left _ 16) (hint name hname) (hfits name hname))
      (by rw [Nat.zero_add])
    rw [List.append_nil] at hread
    rw [hread, List.map_id]
    refine ⟨_, rfl, rfl, ?_, ?_⟩
    · dsimp only
      rw [List.map_take, hnames, PtraceProtectUser.names, List.take_left' rfl]
    · dsimp only
      rw [List.map_drop, hnames, PtraceProtectUser.names, List.drop_left' rfl]

end Policy

/-- **The policy round-trips exactly when the sizes fit,** for every policy that is not refused. -/
theorem ptrace_round_trip_iff {x : PtraceProtectUser} {tpcmId : Bytes} {action : UInt32} {replayCounter : UInt64}
    (h : ∀ e, tcfPreparePtraceProtectPolicy x tpcmId action replayCounter ≠ .error (.error e)) :
    x.RoundTrips (tcfPreparePtraceProtectPolicy x tpcmId action replayCounter) ↔ x.SizeFits := by
  have hmax : x.itemMaxLen < 2 ^ 31 := int32_lt _
  have hlt : x.maxNames < 2 ^ 32 := Nat.mod_lt _ (by decide)
  unfold tcfPreparePtraceProtectPolicy at h ⊢
  split_ifs at h ⊢ with hid hneg hsmall
  · exact absurd rfl (h _)
  · exact absurd rfl (h _)
  · refine iff_of_false (fun hr => ?_) (fun hr => ?_)
    · obtain ⟨u, hu, -⟩ := hr
      exact absurd hu (by simp)
    · have hsize := hr.size
      rw [PtraceProtectUser.itemMaxLen, int32, Int.bmod_def] at hneg hsmall
      omega
  · have hsize : x.maxNames < 2 ^ 32 - 68 := by
      rw [PtraceProtectUser.itemMaxLen, int32, Int.bmod_def] at hsmall
      omega
    cases hcheck : checkPtraceNames (x.itemMaxLen - 68).toNat 0 x.names with
    | error e =>
        rw [hcheck] at h
        cases e with
        | error e => exact absurd rfl (h e)
        | fault =>
            refine iff_of_false (fun hr => ?_) (fun hr => ?_)
            · obtain ⟨u, hu, -⟩ := hr
              exact absurd hu (by simp)
            · obtain ⟨name, hmem, hlong⟩ := long_of_check hcheck
              exact absurd (hr.names name hmem) (by omega)
    | ok names =>
        obtain ⟨hnames, hsum, hfits⟩ := names_of_check (by omega) (Nat.zero_le _) hcheck
        have hbound : 68 + (names.map nameSize).sum ≤ x.itemMaxLen := by omega
        have hdata : (UInt32.ofNat (16 + (names.map nameSize).sum)).toNat = 16 + (names.map nameSize).sum :=
          UInt32.toNat_ofNat_of_lt' (show _ < 2 ^ 32 by omega)
        have hlength := @length_ptraceData x names hfits
        have hback := readBack_iff hnames (by omega) hfits
        constructor
        · rintro ⟨u, hu, -, -, -, r, hr, hsame⟩
          obtain rfl := Except.ok.inj hu
          dsimp only at hr
          rw [hdata, int32_eq (by omega) (by omega)] at hr
          have hshort := hback.mp ⟨r, hr, hsame⟩
          refine ⟨hsize, fun name hmem => hshort name ?_⟩
          rw [← hnames] at hmem
          simpa using hmem
        · intro hr
          have hshort : ∀ name ∈ names, name.strlen + 1 < 2 ^ 31 := by
            intro name hmem
            exact hr.names name (hnames ▸ List.mem_map_of_mem hmem)
          obtain ⟨r, hread, hsame⟩ := hback.mpr hshort
          refine ⟨_, rfl, ?_, ?_, ?_, r, ?_, hsame⟩
          · have := hlength
            rw [ptraceData] at this
            dsimp only
            omega
          · dsimp only
            rw [hdata, int32_eq (by omega) (by omega)]
            push_cast
            ring
          · rw [ptraceData] at hlength
            dsimp only
            rw [hdata, hlength]
          · dsimp only
            rw [hdata, int32_eq (by omega) (by omega)]
            exact hread

/-- One ptracer and two non-tracees. -/
def samplePtrace : PtraceProtectUser where
  isPtraceProtect := 1
  ptracerNames := [some ⟨[103, 100, 98], by decide⟩]
  nonTraceeNames := [some ⟨[105, 110, 105, 116], by decide⟩, some CStr.empty]
  ptracerNumber_lt := by decide
  nonTraceeNumber_lt := by decide

theorem ptrace_round_trip_iff_sample :
    samplePtrace.RoundTrips (tcfPreparePtraceProtectPolicy samplePtrace [9] 0 5) := by
  have hcheck : checkPtraceNames (samplePtrace.itemMaxLen - 68).toNat 0 samplePtrace.names =
      .ok [⟨[103, 100, 98], by decide⟩, ⟨[105, 110, 105, 116], by decide⟩, CStr.empty] := by
    decide +kernel
  refine (ptrace_round_trip_iff fun e => ?_).mpr ⟨by decide, ?_⟩
  · rw [tcfPreparePtraceProtectPolicy, if_neg (by decide), if_neg (by decide +kernel),
      if_neg (by decide +kernel), hcheck]
    exact fun h => nomatch h
  · intro name hmem
    have hmem' : name = ⟨[103, 100, 98], by decide⟩ ∨ name = ⟨[105, 110, 105, 116], by decide⟩ ∨
        name = CStr.empty := by
      simpa [samplePtrace, PtraceProtectUser.names] using hmem
    obtain rfl | rfl | rfl := hmem' <;> decide

/-- `n` ptracers of one name. -/
def samePtracers (n : ℕ) (hn : n < 2 ^ 32) : PtraceProtectUser where
  isPtraceProtect := 1
  ptracerNames := List.replicate n (some (CStr.ofBytes [97]))
  nonTraceeNames := []
  ptracerNumber_lt := by rwa [List.length_replicate]
  nonTraceeNumber_lt := by decide

theorem itemMaxLen_samePtracers {n : ℕ} (hn : n < 2 ^ 32) :
    (samePtracers n hn).itemMaxLen = int32 (68 + 255 * n % 2 ^ 32 : ℕ) := by
  rw [PtraceProtectUser.itemMaxLen, PtraceProtectUser.maxNames, samePtracers, List.length_replicate,
    List.length_nil, Nat.add_zero, Nat.mod_eq_of_lt hn]

/-- **The fixed part is written outside a buffer of 67 bytes,** which is what 16843009 names ask for. -/
theorem wrapped_leaves_buffer :
    ∃ x : PtraceProtectUser, x.names.length = 16843009 ∧ x.itemMaxLen = 67 ∧
      tcfPreparePtraceProtectPolicy x [9] 0 5 = .error .fault ∧
      ¬ x.RoundTrips (tcfPreparePtraceProtectPolicy x [9] 0 5) := by
  have hn : 16843009 < 2 ^ 32 := by decide
  have hnames : (samePtracers 16843009 hn).names.length = 16843009 := by
    rw [PtraceProtectUser.names, samePtracers, List.append_nil, List.length_replicate]
  have hlen : (samePtracers 16843009 hn).itemMaxLen = 67 := by
    rw [itemMaxLen_samePtracers]
    decide +kernel
  generalize samePtracers 16843009 hn = x at hnames hlen
  have hfault : tcfPreparePtraceProtectPolicy x [9] 0 5 = .error .fault := by
    rw [tcfPreparePtraceProtectPolicy, if_neg (by decide), hlen, if_neg (by decide), if_pos (by decide)]
  refine ⟨x, hnames, hlen, hfault, fun hr => ?_⟩
  obtain ⟨u, hu, -⟩ := hr
  rw [hfault] at hu
  exact absurd hu (by simp)

end Tcf
end TsbAgent
