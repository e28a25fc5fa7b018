/-
# The two interfaces to the identity of a process

Callers of `process_identity.c` ask for the name of a process (`get_process_identity`,
`is_role_member`) or about a name (`tsb_verify_process_taskp`), and take either answer for the other.
`TsbAgent.ProcessIdentity.Verify` has both functions.

For a process whose first executable mapping is its main executable, and under the rule for policies,
the first function is right (`getProcessIdentity_iff`).  The second looks at the first item of the name
alone, and finds the main executable anywhere in its list.  So the two agree on a name for every
process with a given main hash exactly when that first item lists the main hash only if an item of
the name begins with it, and then lists what that item lists (`interfaces_agree_iff`).
-/

import TsbAgent.ProcessIdentity.Verify

namespace TsbAgent
namespace ProcessIdentity

open Libc

section VerifyWalk

variable {V : Verifier} {x : ProcessIdentityUser} {i : ℕ} {v : Vma} {vs rest : List Vma} {path : CStr}

/-- A library that the item lets pass. -/
def Verifier.Passes (V : Verifier) (x : ProcessIdentityUser) (h : Digest) : Prop :=
  if V.mode = .refLib then V.whitelisted h = true else x.lists h = true

theorem verifyWalk_notCode (hc : v.isCode = false)
    (hf : v.vmFile = none ∨ ∃ path, v.vmFile = some (some path)) :
    verifyWalk V x i (v :: vs) = verifyWalk V x i vs := by
  rcases hf with hf | ⟨path, hf⟩
  · rw [verifyWalk, hf]
  · have hno : ¬ (v.exec = true ∧ ¬ v.write = true) := by rw [← isCode_iff hf, hc]; decide
    rw [verifyWalk, hf]
    exact if_neg hno

/-- The first mapping is compared with the list of the item. -/
theorem verifyWalk_first_iff (hf : v.vmFile = some (some path)) (hcode : v.isCode = true) :
    verifyWalk V x 0 (v :: vs) = .ok () ↔ ∃ h, v.memHash = some h ∧ x.lists h = true ∧
      (V.mode = .noLib ∨ verifyWalk V x 1 vs = .ok ()) := by
  rw [verifyWalk, hf]
  simp only [if_pos ((isCode_iff hf).mp hcode)]
  cases hh : v.memHash with
  | none => simp
  | some h =>
      by_cases hno : V.mode = .noLib
      · cases hl : x.lists h <;> simp [hno, hl]
      · cases hl : x.lists h <;> simp [hno, hl]

/-- The others must pass. -/
theorem verifyWalk_next_iff (hi : 0 < i) (hmode : V.mode ≠ .noLib) (hf : v.vmFile = some (some path))
    (hcode : v.isCode = true) : verifyWalk V x i (v :: vs) = .ok () ↔
      (∃ h, v.memHash = some h ∧ V.Passes x h) ∧ verifyWalk V x (i + 1) vs = .ok () := by
  rw [verifyWalk, hf]
  simp only [if_pos ((isCode_iff hf).mp hcode)]
  unfold Verifier.Passes
  cases hh : v.memHash with
  | none => simp
  | some h =>
      by_cases href : V.mode = .refLib
      · cases hw : V.whitelisted h <;> simp [href, hi, hw]
      · cases hl : x.lists h <;> simp [href, hmode, hl]

/-- **The walk of `tsb_verify_process_taskp`** behind the first mapping. -/
theorem verifyWalk_later_iff (hi : 0 < i) (hmode : V.mode ≠ .noLib) (hnamed : Named vs) :
    verifyWalk V x i vs = .ok () ↔
      ∀ v ∈ vs.filter Vma.isCode, ∃ h, v.memHash = some h ∧ V.Passes x h := by
  induction vs generalizing i with
  | nil => simp [verifyWalk]
  | cons v vs ih =>
      have hrest : Named vs := fun w hw => hnamed w (List.mem_cons_of_mem _ hw)
      rcases vma_cases v with hf | ⟨hc, hf⟩ | ⟨hc, path, hf⟩
      · exact absurd hf (hnamed v List.mem_cons_self)
      · rw [verifyWalk_notCode hc hf, List.filter_cons_of_neg (by simp [hc]), ih hi hrest]
      · rw [verifyWalk_next_iff hi hmode hf hc, List.filter_cons_of_pos hc, List.forall_mem_cons,
          ih (Nat.succ_pos i) hrest]

/-- **The whole walk,** where there is code. -/
theorem verifyWalk_iff (hnamed : Named vs) (hcode : vs.filter Vma.isCode = v :: rest) :
    verifyWalk V x 0 vs = .ok () ↔ ∃ h, v.memHash = some h ∧ x.lists h = true ∧
      (V.mode = .noLib ∨ ∀ w ∈ rest, ∃ d, w.memHash = some d ∧ V.Passes x d) := by
  induction vs with
  | nil => cases hcode
  | cons w vs ih =>
      have hrest : Named vs := fun u hu => hnamed u (List.mem_cons_of_mem _ hu)
      rcases vma_cases w with hf | ⟨hc, hf⟩ | ⟨hc, path, hf⟩
      · exact absurd hf (hnamed w List.mem_cons_self)
      · rw [List.filter_cons_of_neg (by simp [hc])] at hcode
        rw [verifyWalk_notCode hc hf, ih hrest hcode]
      · rw [List.filter_cons_of_pos hc] at hcode
        obtain ⟨rfl, rfl⟩ := List.cons.inj hcode
        rw [verifyWalk_first_iff hf hc]
        refine exists_congr fun h => and_congr_right fun _ => and_congr_right fun _ => ?_
        by_cases hmode : V.mode = .noLib
        · simp [hmode]
        · simp only [hmode, false_or, verifyWalk_later_iff Nat.one_pos hmode hrest]

end VerifyWalk

/-- A process whose first executable mapping is its main executable, with the hash `exe`; both
functions see the same hashes. -/
structure Task.Plain (task : Task) (special : Bool) (exe : Digest) (v : Vma) (rest : List Vma) : Prop where
  named : Named task.mmap
  code : task.code = v :: rest
  main : v.vmFile = some task.exeFile
  notSo : v.isSo = false
  hashes : ∀ w ∈ task.code, w.hash special = w.memHash
  exe : v.hash special = some exe

section Agreement

variable {V : Verifier} {special : Bool} {task : Task} {exe : Digest} {n : CStr} {v : Vma} {rest : List Vma}

theorem Task.Plain.mainFirst (h : task.Plain special exe v rest) (mode : VerifyMode) :
    task.MainFirst mode v rest := by
  have hwalked : task.walked = task.code := by
    rw [Task.walked, h.code]
    exact List.dropWhile_cons_of_neg (by simp [h.notSo])
  exact ⟨hwalked.trans h.code, h.main, .inr hwalked⟩

theorem Task.Plain.mmap_ne_nil (h : task.Plain special exe v rest) : task.mmap ≠ [] := by
  intro hnil
  have hcode := h.code
  rw [Task.code, hnil] at hcode
  cases hcode

theorem Task.Plain.exeFile (h : task.Plain special exe v rest) : task.exeFile.isNone = false := by
  have hv : v ∈ task.mmap := (List.mem_filter.mp (h.code ▸ List.mem_cons_self : v ∈ task.code)).1
  have hne := h.named v hv
  rw [h.main] at hne
  cases hf : task.exeFile with
  | none => exact absurd (congrArg some hf) hne
  | some path => rfl

/-- What the mode asks of the libraries of a process, for an item. -/
def Verifier.LibsPass (V : Verifier) (special : Bool) (x : ProcessIdentityUser) (rest : List Vma) : Prop :=
  V.mode = .noLib ∨ ∀ w ∈ rest, ∃ d, w.hash special = some d ∧ V.Passes x d

theorem libsPass_congr {x y : ProcessIdentityUser} (h : V.mode = .allLib → ∀ g, x.lists g = y.lists g) :
    V.LibsPass special x rest ↔ V.LibsPass special y rest := by
  unfold Verifier.LibsPass Verifier.Passes
  cases hmode : V.mode with
  | noLib => simp
  | refLib => simp
  | allLib => simp [h hmode]

/-- **`tsb_verify_process_taskp`** is about the first item of the name. -/
theorem verify_iff (h : task.Plain special exe v rest) : tsbVerifyProcessTaskp V task n = .ok () ↔
    ∃ x, qureyName V.policy n = some x ∧ x.lists exe = true ∧ V.LibsPass special x rest := by
  have hv : v ∈ task.code := h.code ▸ List.mem_cons_self
  have hmem : v.memHash = some exe := (h.hashes v hv).symm.trans h.exe
  unfold tsbVerifyProcessTaskp
  cases hq : qureyName V.policy n with
  | none => simp
  | some x =>
      have hwalk := @verifyWalk_iff V x v task.mmap rest h.named h.code
      simp only [h.exeFile, Bool.false_eq_true, if_false, if_neg h.mmap_ne_nil, hwalk, hmem,
        Option.some.injEq, exists_eq_left']
      refine and_congr_right fun _ => or_congr_right ?_
      refine forall₂_congr fun w hw => ?_
      rw [h.hashes w (by rw [h.code]; exact List.mem_cons_of_mem _ hw)]

/-- The identity of such a process, item by item. -/
theorem identified_iff (h : task.Plain special exe v rest) : Identified V special task n ↔
    ∃ x ∈ V.policy, x.name = n ∧ x.FirstHash exe ∧ V.LibsPass special x rest := by
  have hmain := (h.mainFirst V.mode).mainMapping
  unfold Identified Verifier.LibsPass Verifier.Passes
  constructor
  · rintro ⟨x, hx, hname, w, g, hw, hg, hfirst, hall, href⟩
    obtain rfl := Option.some.inj (hmain.symm.trans hw)
    obtain rfl := Option.some.inj (h.exe.symm.trans hg)
    refine ⟨x, hx, hname, hfirst, ?_⟩
    cases hmode : V.mode with
    | noLib => exact .inl rfl
    | refLib =>
        refine .inr fun u hu => ?_
        simpa using href hmode u (by rw [h.code, List.erase_cons_head]; exact hu)
    | allLib =>
        refine .inr fun u hu => ?_
        obtain ⟨d, hd, hhas⟩ := hall hmode u (by rw [h.code]; exact List.mem_cons_of_mem _ hu)
        exact ⟨d, hd, by simpa using (hasHash_iff.mp hhas).2⟩
  · rintro ⟨x, hx, hname, hfirst, hlibs⟩
    obtain ⟨hwhole, hbegins⟩ := firstHash_iff.mp hfirst
    refine ⟨x, hx, hname, v, exe, hmain, h.exe, hfirst, fun hmode u hu => ?_, fun hmode u hu => ?_⟩
    · rw [h.code] at hu
      rcases List.mem_cons.mp hu with rfl | hu
      · exact ⟨exe, h.exe, hasHash_iff.mpr ⟨hwhole, lists_of_begins hbegins⟩⟩
      · obtain ⟨d, hd, hpass⟩ := hlibs.resolve_left (by rw [hmode]; decide) u hu
        exact ⟨d, hd, hasHash_iff.mpr ⟨hwhole, by simpa [hmode] using hpass⟩⟩
    · rw [h.code, List.erase_cons_head] at hu
      obtain ⟨d, hd, hpass⟩ := hlibs.resolve_left (by rw [hmode]; decide) u hu
      exact ⟨d, hd, by simpa [hmode] using hpass⟩

/-- A process that an item identifies is given some name. -/
theorem getProcessIdentity_isSome {x : ProcessIdentityUser} (h : task.Plain special exe v rest)
    (hx : x ∈ V.policy) (hbegins : x.begins exe = true) (hlibs : V.LibsPass special x rest) :
    ∃ m, getProcessIdentity V special task = some m := by
  have hsome : (qureyHashFromProcessIdentityPolicy V.policy exe exe).isSome :=
    qurey_isSome.mpr ⟨x, hx, hbegins, lists_of_begins hbegins⟩
  obtain ⟨m, hm⟩ := Option.isSome_iff_exists.mp hsome
  have hget : getProcessIdentity V special task =
      getWalk V (Vma.hash special) 0 Digest.zero CStr.empty task.mmap := by
    rw [getProcessIdentity, if_neg (by simp [h.exeFile]), if_neg h.mmap_ne_nil]
  have hfront : Front V (Vma.hash special) Digest.zero CStr.empty task.mmap := getWalk_front _
  have hwalked := (h.mainFirst V.mode).walked
  rcases hfront with ⟨-, hno⟩ | ⟨hnil, -⟩ | ⟨w, vs, hcode, hsuffix, heq⟩
  · exact absurd h.named hno
  · exact absurd (hwalked.symm.trans hnil) (List.cons_ne_nil _ _)
  · obtain ⟨rfl, rfl⟩ := List.cons.inj (hwalked.symm.trans hcode)
    rw [hget, heq, h.exe, Option.bind_some, hm, Option.bind_some]
    by_cases hmode : V.mode = .noLib
    · exact ⟨m, if_pos hmode⟩
    · rw [if_neg hmode]
      have hnamed : Named vs := fun u hu => h.named u (hsuffix.subset hu)
      have hall : ∀ u ∈ vs.filter Vma.isCode, ∃ d, u.hash special = some d ∧ V.Accepts exe d := by
        intro u hu
        obtain ⟨d, hd, hpass⟩ := hlibs.resolve_left hmode u hu
        refine ⟨d, hd, ?_⟩
        unfold Verifier.Passes at hpass
        unfold Verifier.Accepts
        split_ifs at hpass ⊢ with href
        · exact hpass
        · exact ⟨x, hx, hbegins, hpass⟩
      obtain ⟨j, m', -, hend⟩ : ∃ j m', 0 < j ∧ getWalk V (Vma.hash special) 1 exe m (vs ++ []) =
          getWalk V (Vma.hash special) j exe m' [] := getWalk_append Nat.one_pos hmode hnamed hall []
      rw [List.append_nil] at hend
      exact ⟨m', hend⟩

/-- **`get_process_identity`** is right about such a process, under the rule for policies. -/
theorem getProcessIdentity_iff (hrule : Rule V.policy) (h : task.Plain special exe v rest) :
    getProcessIdentity V special task = some n ↔ Identified V special task n := by
  have hsound : ∀ m, getProcessIdentity V special task = some m → Identified V special task m :=
    fun m hm => identified_of_covers (covers_of_rule hrule V.mode) (h.mainFirst V.mode) hm
  constructor
  · exact hsound n
  · intro hid
    obtain ⟨x, hx, rfl, hfirst, hlibs⟩ := (identified_iff h).mp hid
    have hbegins := (firstHash_iff.mp hfirst).2
    obtain ⟨m, hm⟩ := getProcessIdentity_isSome h hx hbegins hlibs
    obtain ⟨y, hy, hname, hyfirst, -⟩ := (identified_iff h).mp (hsound m hm)
    obtain rfl := hrule.distinct y hy x hx exe (firstHash_iff.mp hyfirst).2 hbegins
    rw [hm, hname]

theorem isRoleMember_iff {roles : List ProcessRoleUser} {r : CStr}
    (h : getProcessIdentity V special task = some n) : isRoleMember V roles special task r = 1 ↔
      ∃ role ∈ roles, role.name = r ∧ n ∈ role.members := by
  unfold isRoleMember
  rw [h]
  simp only [strcmp_eq_zero]
  split_ifs with hany
  · simpa using hany
  · simpa using hany

/-- **The two interfaces agree** on the name: both say what the policy says, and so does
`is_role_member`. -/
structure Agree (V : Verifier) (roles : List ProcessRoleUser) (special : Bool) (task : Task) (n : CStr) :
    Prop where
  verify : tsbVerifyProcessTaskp V task n = .ok () ↔ getProcessIdentity V special task = some n
  identified : getProcessIdentity V special task = some n ↔ Identified V special task n
  role : getProcessIdentity V special task = some n → ∀ r, isRoleMember V roles special task r = 1 ↔
    ∃ role ∈ roles, role.name = r ∧ n ∈ role.members

/-- **The first item of the name** lists the main hash exactly when an item of the name begins with it,
and then, where all libraries are verified, lists what that item lists. -/
def NameMet (policy : List ProcessIdentityUser) (mode : VerifyMode) (exe : Digest) (n : CStr) : Prop :=
  ∀ x, qureyName policy n = some x →
    (x.lists exe = true ↔ ∃ y ∈ policy, y.name = n ∧ y.FirstHash exe) ∧
    (mode = .allLib → ∀ y ∈ policy, y.name = n → y.FirstHash exe → ∀ h, x.lists h = y.lists h)

/-- The first item of a name has the name. -/
theorem qureyName_spec {policy : List ProcessIdentityUser} {x : ProcessIdentityUser}
    (h : qureyName policy n = some x) : x ∈ policy ∧ x.name = n := by
  have hcmp : strcmp n.bytes x.name.bytes = 0 := by simpa using List.find?_some h
  exact ⟨List.mem_of_find?_eq_some h, (strcmp_eq_zero.mp hcmp).symm⟩

theorem qureyName_isSome {policy : List ProcessIdentityUser} {y : ProcessIdentityUser} (hy : y ∈ policy)
    (hname : y.name = n) : ∃ x, qureyName policy n = some x := by
  refine Option.isSome_iff_exists.mp ?_
  rw [qureyName, List.find?_isSome]
  exact ⟨y, hy, by simp [strcmp_eq_zero, hname]⟩

theorem plain_sampleTask {libs : List Digest} : (sampleTask exe libs).Plain special exe
    (text (CStr.ofBytes [47, 97]) exe) (libs.map (text (CStr.ofBytes [47, 98]))) := by
  have hso : isSo (CStr.ofBytes [47, 97]) = false := by decide
  refine ⟨fun v hv => ?_, code_sampleTask, rfl, hso, fun w hw => ?_, hash_text⟩
  · rcases List.mem_cons.mp hv with rfl | hv
    · exact Option.some_ne_none _ ∘ Option.some.inj
    · exact named_map_text v hv
  · rw [code_sampleTask] at hw
    rcases List.mem_cons.mp hw with rfl | hw
    · exact hash_text
    · obtain ⟨d, -, rfl⟩ := List.mem_map.mp hw
      exact hash_text

/-- **When the two interfaces agree:** under the rule for policies, on the name `n` for every process with
the main hash `exe` exactly when `NameMet`. -/
theorem interfaces_agree_iff (V : Verifier) (roles : List ProcessRoleUser) (special : Bool) (exe : Digest)
    (n : CStr) (hrule : Rule V.policy) :
    (∀ task v rest, task.Plain special exe v rest → Agree V roles special task n) ↔
      NameMet V.policy V.mode exe n := by
  constructor
  · intro hagree x hx
    have hboth : ∀ libs : List Digest, (x.lists exe = true ∧
        V.LibsPass special x (libs.map (text (CStr.ofBytes [47, 98])))) ↔
          ∃ y ∈ V.policy, y.name = n ∧ y.FirstHash exe ∧
            V.LibsPass special y (libs.map (text (CStr.ofBytes [47, 98]))) := by
      intro libs
      have ha := hagree _ _ _ (@plain_sampleTask special exe libs)
      have hv := ha.verify.trans ha.identified
      rw [verify_iff plain_sampleTask, identified_iff plain_sampleTask, hx] at hv
      simpa using hv
    have hnone : ∀ y, V.LibsPass special y [] := fun y => .inr (by simp)
    have hmain : x.lists exe = true ↔ ∃ y ∈ V.policy, y.name = n ∧ y.FirstHash exe := by
      simpa [hnone] using hboth []
    refine ⟨hmain, fun hmode y hy hname hfirst h => ?_⟩
    have hone : ∀ z, V.LibsPass special z ([h].map (text (CStr.ofBytes [47, 98]))) ↔ z.lists h = true := by
      intro z
      have hpass : V.Passes z h ↔ z.lists h = true := by simp [Verifier.Passes, hmode]
      rw [Verifier.LibsPass, List.map_singleton, List.forall_mem_singleton, hash_text]
      simp only [hmode, reduceCtorEq, false_or, Option.some.injEq, exists_eq_left', hpass]
    have hh := hboth [h]
    rw [hone, and_iff_right (hmain.mpr ⟨y, hy, hname, hfirst⟩)] at hh
    rw [Bool.eq_iff_iff, hh]
    constructor
    · rintro ⟨z, hz, -, hzfirst, hzlibs⟩
      obtain rfl := hrule.distinct z hz y hy exe (firstHash_iff.mp hzfirst).2 (firstHash_iff.mp hfirst).2
      exact (hone z).mp hzlibs
    · intro hl
      exact ⟨y, hy, hname, hfirst, (hone y).mpr hl⟩
  · intro hmet task v rest h
    have hget := @getProcessIdentity_iff V special task exe n v rest hrule h
    refine ⟨?_, hget, fun hn r => isRoleMember_iff hn⟩
    rw [hget, verify_iff h, identified_iff h]
    constructor
    · rintro ⟨x, hx, hlists, hlibs⟩
      obtain ⟨hmain, hsame⟩ := hmet x hx
      obtain ⟨y, hy, hname, hfirst⟩ := hmain.mp hlists
      exact ⟨y, hy, hname, hfirst, (libsPass_congr fun hm => hsame hm y hy hname hfirst).mp hlibs⟩
    · rintro ⟨y, hy, hname, hfirst, hlibs⟩
      obtain ⟨x, hx⟩ := qureyName_isSome hy hname
      obtain ⟨hmain, hsame⟩ := hmet x hx
      exact ⟨x, hx, hmain.mpr ⟨y, hy, hname, hfirst⟩,
        (libsPass_congr fun hm => hsame hm y hy hname hfirst).mpr hlibs⟩

end Agreement

/-- The policy of the item `a` alone keeps the rule. -/
theorem rule_itemA : Rule [itemA] where
  whole := by
    intro x hx
    rw [List.mem_singleton.mp hx]
    rfl
  distinct := by
    intro x hx y hy _ _ _
    rw [List.mem_singleton.mp hx, List.mem_singleton.mp hy]

theorem nameMet_itemA : NameMet [itemA] .allLib Digest.ones (CStr.ofBytes [97]) := by
  have hfirst : itemA.FirstHash Digest.ones := by unfold ProcessIdentityUser.FirstHash; decide +kernel
  intro x hx
  obtain rfl : x = itemA := List.mem_singleton.mp (qureyName_spec hx).1
  refine ⟨⟨fun _ => ⟨itemA, List.mem_singleton_self _, rfl, hfirst⟩, fun _ => by decide +kernel⟩, ?_⟩
  intro _ y hy _ _ h
  rw [List.mem_singleton.mp hy]

/-- Asked about `a`, which has the role `r`, the process with the main hash and the library of the item
is treated alike. -/
theorem interfaces_agree_itemA : Rule [itemA] ∧
    Agree ⟨[itemA], .allLib, fun _ => false⟩ [⟨CStr.ofBytes [114], [CStr.ofBytes [97]]⟩] false
      (sampleTask Digest.ones [Digest.zero]) (CStr.ofBytes [97]) :=
  ⟨rule_itemA, (interfaces_agree_iff ⟨[itemA], .allLib, fun _ => false⟩ _ false Digest.ones _
    rule_itemA).mpr nameMet_itemA _ _ _ plain_sampleTask⟩

/-- A second version of `a`, for the main hash `22…`. -/
def itemA2 : ProcessIdentityUser where
  name := CStr.ofBytes [97]
  specificLibs := 0
  hashLength := lenHash
  libNumber := 0
  hash := twos.1
  length_hash := twos.2
  strlen_name := itemA.strlen_name

/-- **The interfaces differ:** a process whose executable is the library of `a` is verified as `a` and has
no name; the second version of `a` has the name and is not verified. -/
theorem interfaces_differ :
    (tsbVerifyProcessTaskp ⟨[itemA], .allLib, fun _ => false⟩ (sampleTask Digest.zero []) (CStr.ofBytes [97]) =
        .ok () ∧
      getProcessIdentity ⟨[itemA], .allLib, fun _ => false⟩ false (sampleTask Digest.zero []) = none) ∧
    tsbVerifyProcessTaskp ⟨[itemA, itemA2], .allLib, fun _ => false⟩ (sampleTask twos []) (CStr.ofBytes [97]) =
        .error .measureFaile ∧
      getProcessIdentity ⟨[itemA, itemA2], .allLib, fun _ => false⟩ false (sampleTask twos []) =
        some (CStr.ofBytes [97]) := by
  decide +kernel

end ProcessIdentity
end TsbAgent
