/-
# Reloading the file protection policy

`ioctl_reload_file_protect_policy` of `tsb/kernel/accessctl/policy/list_fac.c` clears the list of the
kernel and then loads the file, whatever comes of that:

* a file that does not open, a failing `vmalloc` or a short read leave the list empty;
* a failing `kzalloc` is not noticed, and the structure is filled in all the same;
* what the items of the file are is not looked at before the list is cleared.

The expressions among the paths are compiled when a path is asked for, not here.  `reload_atomic_iff`
says when a reload does what it should: the list is afterwards what the new file says (`Installs`), or
still what it was before.
-/

import TsbAgent.Fac.FacBounds

namespace TsbAgent
namespace Fac

open Libc Word

/-! ### The reload -/

/-- The `n` times from the `k`-th on that `kzalloc` is called it succeeds. -/
def Allocated (kzalloc : ℕ → Bool) (k n : ℕ) : Prop := ∀ j < n, kzalloc (k + j) = true

instance (kzalloc : ℕ → Bool) (k n : ℕ) : Decidable (Allocated kzalloc k n) :=
  inferInstanceAs (Decidable (∀ j < n, kzalloc (k + j) = true))

/-- The walk of `load_fac_policy`, where `kzalloc k` says whether the `k`-th `kzalloc` succeeds.  None: a
structure was filled in that was not allocated. -/
def installWalk (kzalloc : ℕ → Bool) : ℕ → ℕ → List MacPolicy → Bytes → Option (List MacPolicy)
  | 0, _, list, _ => some list
  | fuel + 1, k, list, p =>
      if p.length = 0 then some list
      else if isExistMacPolicy list (pathOf p) then
        installWalk kzalloc fuel k list (p.drop (macStride p))
      -- one for the item, and one for each of its processes
      else if Allocated kzalloc k (netAt p 2 2 + 1) then
        installWalk kzalloc fuel (k + (netAt p 2 2 + 1)) (list ++ [loadMac p]) (p.drop (macStride p))
      else none

/-- `load_fac_policy`: the list afterwards and what is returned.  None: the kernel faults, or has read
what is not in the file. -/
def loadFac (env : FacEnv) (kzalloc : ℕ → Bool) (content : Bytes) (list : List MacPolicy) :
    Option (List MacPolicy × ℤ) :=
  match facBuffer env content with
  | .error ret => some (list, ret)
  | .ok buf =>
      if Safe (facAccesses buf.length buf.length 8 list (buf.drop 8)) then
        (installWalk kzalloc buf.length 0 list (buf.drop 8)).map (·, 0)
      else none

/-- `clean_list_fac`. -/
def cleanListFac (_ : List MacPolicy) : List MacPolicy := []

/-- `ioctl_reload_file_protect_policy`. -/
def ioctlReload (env : FacEnv) (kzalloc : ℕ → Bool) (content : Bytes) (list : List MacPolicy) :
    Option (List MacPolicy × ℤ) :=
  (loadFac env kzalloc content (cleanListFac list)).map fun r => (r.1, 0)

/-! ### What a file says -/

/-- The list is `ms`, where items may be left out whose path has an earlier one. -/
def Installs (ms l : List MacPolicy) : Prop :=
  l.Sublist ms ∧ ∀ name, l.find? (fun m => m.objName = name) = ms.find? (fun m => m.objName = name)

/-- The items of a content, as they are loaded. -/
def macsOf (content : Bytes) : List MacPolicy := (facItems content).map loadMac

/-- The list is what the file says, whose items fill it. -/
def InstallsFile (env : FacEnv) (content : Bytes) (l : List MacPolicy) : Prop :=
  env.opens = true ∧ facTail content = [] ∧ Installs (macsOf content) l

/-- The items whose path, up to its zero byte, is not that of an earlier one. -/
def newItems : List CStr → List Bytes → List Bytes
  | _, [] => []
  | names, p :: items =>
      if pathOf p ∈ names then newItems names items else p :: newItems (names ++ [nameOf p]) items

/-- What the new items of these bytes say. -/
def policyOf (buf : Bytes) : List MacPolicy := (newItems [] (facItems buf)).map loadMac

/-- The structures that items take. -/
def structsOf (items : List Bytes) : ℕ := (items.map fun p => netAt p 2 2 + 1).sum

section Walk

variable {kzalloc : ℕ → Bool} {fuel k : ℕ} {list : List MacPolicy} {p : Bytes} {items : List Bytes}
  {names : List CStr}

theorem newItems_sublist : (newItems names items).Sublist items := by
  induction items generalizing names with
  | nil => exact List.Sublist.slnil
  | cons p items ih =>
      rw [newItems]
      split_ifs with h
      · exact ih.cons p
      · exact ih.cons_cons p

theorem allocated_zero : Allocated kzalloc k 0 := fun _ h => absurd h (Nat.not_lt_zero _)

theorem allocated_add {n a : ℕ} :
    Allocated kzalloc k (n + a) ↔ Allocated kzalloc k n ∧ Allocated kzalloc (k + n) a := by
  constructor
  · intro h
    refine ⟨fun j hj => h j (by omega), fun j hj => ?_⟩
    rw [Nat.add_assoc]
    exact h (n + j) (by omega)
  · rintro ⟨hlow, hhigh⟩ j hj
    rcases Nat.lt_or_ge j n with hjn | hjn
    · exact hlow j hjn
    · have hj' := hhigh (j - n) (by omega)
      rwa [show k + n + (j - n) = k + j by omega] at hj'

theorem installWalk_nil : installWalk kzalloc fuel k list [] = some list := by
  cases fuel with
  | zero => rfl
  | succ fuel => rw [installWalk, if_pos List.length_nil]

/-- **The walk appends the new items**, when their structures are allocated. -/
theorem installWalk_eq (hfuel : p.length ≤ fuel) (hnames : ∀ m ∈ list, m.objName.strlen ≤ 256)
    (htail : (facCut fuel p).2 = [] ∨
      pathOf (facCut fuel p).2 ∈ list.map MacPolicy.objName ++ (facCut fuel p).1.map nameOf) :
    installWalk kzalloc fuel k list p =
      if Allocated kzalloc k (structsOf (newItems (list.map MacPolicy.objName) (facCut fuel p).1)) then
        some (list ++ (newItems (list.map MacPolicy.objName) (facCut fuel p).1).map loadMac)
      else none := by
  -- nothing is appended
  have hnone (l : List MacPolicy) (j : ℕ) : some l =
      if Allocated kzalloc j (structsOf []) then some (l ++ [].map loadMac) else none := by
    rw [structsOf, List.map_nil, List.sum_nil, if_pos allocated_zero, List.map_nil, List.append_nil]
  induction fuel generalizing k list p with
  | zero =>
      obtain rfl : p = [] := List.length_eq_zero_iff.mp (by omega)
      exact hnone list k
  | succ fuel ih =>
      by_cases hnil : p.length = 0
      · obtain rfl : p = [] := List.length_eq_zero_iff.mp hnil
        rw [installWalk_nil, facCut_nil]
        exact hnone list k
      have hstride : 260 ≤ macStride p := Nat.le_add_right _ _
      have hdrop : (p.drop (macStride p)).length = p.length - macStride p := List.length_drop
      have hfuel' : (p.drop (macStride p)).length ≤ fuel := by omega
      by_cases hshort : p.length < macStride p
      · -- what is left is taken for an item that is there
        have hne : p ≠ [] := fun h => hnil (by rw [h, List.length_nil])
        rw [facCut, if_pos hshort] at htail ⊢
        have hmem := htail.resolve_left hne
        rw [List.map_nil, List.append_nil] at hmem
        rw [installWalk, if_neg hnil, if_pos (isExist_iff_mem.mpr hmem),
          List.drop_eq_nil_of_le (by omega), installWalk_nil]
        exact hnone list k
      rw [installWalk, if_neg hnil]
      rw [facCut, if_neg hshort] at htail ⊢
      by_cases hexist : isExistMacPolicy list (pathOf p) = true
      · have hmem := isExist_iff_mem.mp hexist
        have hname := nameOf_mem hnames hmem
        rw [List.map_cons, mem_insert_name' hname] at htail
        rw [if_pos hexist, newItems, if_pos hmem]
        exact ih hfuel' hnames htail
      · have hmem : pathOf p ∉ list.map MacPolicy.objName := fun h => hexist (isExist_iff_mem.mpr h)
        have hnext : (list ++ [loadMac p]).map MacPolicy.objName = list.map MacPolicy.objName ++ [nameOf p] :=
          List.map_append
        have htail' : (facCut fuel (p.drop (macStride p))).2 = [] ∨
            pathOf (facCut fuel (p.drop (macStride p))).2 ∈ (list ++ [loadMac p]).map MacPolicy.objName ++
              (facCut fuel (p.drop (macStride p))).1.map nameOf := by
          rw [hnext, ← List.append_cons]
          exact htail
        have hstructs (rest : List Bytes) : structsOf (p :: rest) = netAt p 2 2 + 1 + structsOf rest :=
          List.sum_cons
        rw [if_neg hexist, newItems, if_neg hmem, ih hfuel' (strlen_append_loadMac hnames) htail', hnext,
          hstructs, List.map_cons, ← List.append_cons]
        by_cases halloc : Allocated kzalloc k (netAt p 2 2 + 1)
        · rw [if_pos halloc]
          exact if_congr (by rw [allocated_add, and_iff_right halloc]) rfl rfl
        · rw [if_neg halloc, if_neg fun h => halloc (allocated_add.mp h).1]

theorem find?_name_cons (m : MacPolicy) (l : List MacPolicy) (name : CStr) :
    (m :: l).find? (fun x => x.objName = name) =
      if m.objName = name then some m else l.find? fun x => x.objName = name := by
  rw [List.find?_cons]
  rcases eq_or_ne m.objName name with h | h
  · rw [if_pos h, decide_eq_true h]
  · rw [if_neg h, decide_eq_false h]

/-- What the walk leaves out has its path in the list. -/
theorem find?_newItems (hnames : ∀ s ∈ names, s.strlen ≤ 256) {name : CStr} (hname : name ∉ names) :
    ((newItems names items).map loadMac).find? (fun m => m.objName = name) =
      (items.map loadMac).find? (fun m => m.objName = name) := by
  induction items generalizing names with
  | nil => rfl
  | cons p items ih =>
      rw [newItems, List.map_cons, find?_name_cons]
      split_ifs with hmem heq heq
      · have hname' : nameOf p ∈ names := by
          rw [nameOf_eq_pathOf (hnames _ hmem)]
          exact hmem
        exact absurd (heq ▸ hname') hname
      · exact ih hnames hname
      · rw [List.map_cons, find?_name_cons, if_pos heq]
      · have hnames' : ∀ s ∈ names ++ [nameOf p], s.strlen ≤ 256 := by
          intro s hs
          rcases List.mem_append.mp hs with h | h
          · exact hnames s h
          · exact List.mem_singleton.mp h ▸ strlen_nameOf_le p
        have hname' : name ∉ names ++ [nameOf p] := by
          rw [List.mem_append, List.mem_singleton]
          exact fun h => h.elim hname fun h' => heq h'.symm
        rw [List.map_cons, find?_name_cons, if_neg heq, ih hnames' hname']

/-- **The load makes of the bytes read what their items say.** -/
theorem installs_policyOf (buf : Bytes) : Installs (macsOf buf) (policyOf buf) :=
  ⟨newItems_sublist.map loadMac, fun _ =>
    find?_newItems (fun _ h => absurd h List.not_mem_nil) List.not_mem_nil⟩

end Walk

section Installs

variable {ms ms' l : List MacPolicy} {m : MacPolicy}

/-- No path is lost. -/
theorem Installs.mem_names (h : Installs ms l) (hm : m ∈ ms) : m.objName ∈ l.map MacPolicy.objName := by
  have hsome : (l.find? fun x => x.objName = m.objName).isSome = true := by
    rw [h.2, List.find?_isSome]
    exact ⟨m, hm, decide_eq_true rfl⟩
  obtain ⟨x, hx, heq⟩ := List.find?_isSome.mp hsome
  exact List.mem_map.mpr ⟨x, hx, of_decide_eq_true heq⟩

theorem Installs.names_iff (h : Installs ms l) (s : CStr) :
    s ∈ l.map MacPolicy.objName ↔ s ∈ ms.map MacPolicy.objName := by
  constructor
  · exact fun hs => (h.1.map _).subset hs
  · intro hs
    obtain ⟨x, hx, rfl⟩ := List.mem_map.mp hs
    exact h.mem_names hx

/-- Items whose paths are there add nothing. -/
theorem Installs.append (h : Installs ms l) (hnames : ∀ m ∈ ms', m.objName ∈ ms.map MacPolicy.objName) :
    Installs (ms ++ ms') l := by
  refine ⟨h.1.trans (List.sublist_append_left ms ms'), fun name => ?_⟩
  rw [h.2, List.find?_append]
  cases hfind : ms.find? fun x => x.objName = name with
  | some x => rfl
  | none =>
      symm
      rw [Option.none_or, List.find?_eq_none]
      intro x hx heq
      obtain ⟨y, hy, hxy⟩ := List.mem_map.mp (hnames x hx)
      exact List.find?_eq_none.mp hfind y hy (decide_eq_true (hxy.trans (of_decide_eq_true heq)))

/-- Nothing is what no items say. -/
theorem installs_nil_iff : Installs ms [] ↔ ms = [] := by
  constructor
  · intro h
    cases ms with
    | nil => rfl
    | cons m ms => exact absurd (h.mem_names List.mem_cons_self) List.not_mem_nil
  · rintro rfl
    exact ⟨List.Sublist.slnil, fun _ => rfl⟩

end Installs

/-! ### A file of which a part is read -/

section Take

variable {p : Bytes} {n off w k fuel fuel' : ℕ}

theorem fieldAt_take (h : off + w ≤ n) : fieldAt (p.take n) off w = fieldAt p off w := by
  rw [fieldAt, fieldAt, List.drop_take, List.take_take, Nat.min_eq_left (by omega)]

theorem netAt_take (h : off + w ≤ n) : netAt (p.take n) off w = netAt p off w := by
  rw [netAt, netAt, fieldAt_take h]

theorem digestAt_take (h : off + lenHash ≤ n) : digestAt (p.take n) off = digestAt p off := by
  apply Subtype.ext
  show (fieldAt (p.take n) off lenHash ++ _).take lenHash = _
  rw [fieldAt_take h]
  rfl

theorem loadDacs_take (h : 292 * k ≤ n) : loadDacs k (p.take n) = loadDacs k p := by
  induction k generalizing p n with
  | zero => rfl
  | succ k ih =>
      have hdac : loadDac (p.take n) = loadDac p := by
        have hhash : 260 + lenHash ≤ n := by
          rw [lenHash]
          omega
        rw [loadDac, loadDac, netAt_take (by omega), digestAt_take hhash, fieldAt_take (by omega)]
      rw [loadDacs, loadDacs, hdac, List.drop_take, ih (by omega)]

theorem macStride_take (h : 4 ≤ n) : macStride (p.take n) = macStride p := by
  rw [macStride, macStride, netAt_take h]

theorem getD_take {i : ℕ} (h : i < n) : (p.take n).getD i 0 = p.getD i 0 := by
  rw [List.getD_eq_getElem?_getD, List.getD_eq_getElem?_getD, List.getElem?_take_of_lt h]

theorem loadMac_take (h : macStride p ≤ n) : loadMac (p.take n) = loadMac p := by
  have hstride : 260 + netAt p 2 2 * 292 ≤ n := h
  rw [loadMac, loadMac, getD_take (by omega), getD_take (by omega), netAt_take (by omega),
    fieldAt_take (by omega), List.drop_take, loadDacs_take (by omega)]

/-- The complete items of a part of the file are the first ones of the file. -/
theorem macs_facCut_take (hfuel : fuel ≤ fuel') :
    (facCut fuel (p.take n)).1.map loadMac <+: (facCut fuel' p).1.map loadMac := by
  induction fuel generalizing fuel' p n with
  | zero => exact List.nil_prefix
  | succ fuel ih =>
      obtain ⟨fuel', rfl⟩ : ∃ f, fuel' = f + 1 := ⟨fuel' - 1, by omega⟩
      rw [facCut]
      by_cases hshort : (p.take n).length < macStride (p.take n)
      · rw [if_pos hshort]
        exact List.nil_prefix
      have hlen : (p.take n).length = min n p.length := List.length_take
      have hge : 260 ≤ macStride (p.take n) := Nat.le_add_right _ _
      have hstride : macStride (p.take n) = macStride p := macStride_take (by omega)
      rw [if_neg hshort, facCut, if_neg (by omega), hstride, List.drop_take, List.map_cons, List.map_cons,
        loadMac_take (by omega), List.prefix_cons_inj]
      exact ih (by omega)

theorem macsOf_take (content : Bytes) (n : ℕ) : macsOf (content.take n) <+: macsOf content := by
  have hlen : (content.take n).length ≤ content.length := List.length_take_le' _ _
  rw [macsOf, macsOf, facItems, facItems, List.drop_take]
  exact macs_facCut_take hlen

/-- Without items nothing is cut off. -/
theorem facCut_tail_of_items_nil (h : (facCut fuel p).1 = []) : (facCut fuel p).2 = p := by
  cases fuel with
  | zero => rfl
  | succ fuel =>
      by_cases hshort : p.length < macStride p
      · rw [facCut, if_pos hshort]
      · rw [facCut, if_neg hshort] at h
        exact absurd h (List.cons_ne_nil _ _)

end Take

/-! ### Whether the reload is atomic -/

section Reload

variable {env : FacEnv} {kzalloc : ℕ → Bool} {content buf : Bytes} {old : List MacPolicy}

/-- The reads of the load stay in the bytes read. -/
def ReadsEnd (buf : Bytes) : Prop :=
  PathsEnd [] (facItems buf) ∧ (facTail buf = [] ∨
    ((0 : UInt8) ∈ (facTail buf).drop 4 ∧ pathOf (facTail buf) ∈ (facItems buf).map nameOf))

theorem facBuffer_ok (h : facBuffer env content = .ok buf) :
    env.opens = true ∧ ∃ n, buf = content.take n := by
  dsimp only [facBuffer] at h
  split_ifs at h with hopens
  exact ⟨by simpa using hopens, _, (Except.ok.inj h).symm⟩

/-- A reload without the bytes of the file. -/
theorem ioctlReload_error {ret : ℤ} (h : facBuffer env content = .error ret) :
    ioctlReload env kzalloc content old = some ([], 0) := by
  rw [ioctlReload, loadFac, h]
  rfl

/-- A reload of the bytes read. -/
theorem ioctlReload_ok (h : facBuffer env content = .ok buf) (r : List MacPolicy × ℤ) :
    ioctlReload env kzalloc content old = some r ↔
      ReadsEnd buf ∧ Allocated kzalloc 0 (structsOf (newItems [] (facItems buf))) ∧ r = (policyOf buf, 0) := by
  rw [ioctlReload, loadFac, h, cleanListFac]
  dsimp only
  by_cases hsafe : ReadsEnd buf
  · have hshort : facTail buf = [] ∨ pathOf (facTail buf) ∈ [] ++ (facItems buf).map nameOf :=
      hsafe.2.imp_right And.right
    have hfuel : (buf.drop 8).length ≤ buf.length := by
      rw [List.length_drop]
      omega
    have hwalk : installWalk kzalloc buf.length 0 [] (buf.drop 8) =
        if Allocated kzalloc 0 (structsOf (newItems [] (facItems buf))) then some (policyOf buf) else none :=
      installWalk_eq hfuel (fun _ hm => absurd hm List.not_mem_nil) hshort
    rw [if_pos ((safe_facAccesses_buffer buf).mpr hsafe), hwalk, and_iff_right hsafe]
    by_cases halloc : Allocated kzalloc 0 (structsOf (newItems [] (facItems buf)))
    · rw [if_pos halloc, and_iff_right halloc]
      exact Option.some_inj.trans eq_comm
    · rw [if_neg halloc]
      exact iff_of_false (fun hr => by cases hr) fun hr => halloc hr.1
  · rw [if_neg fun hs => hsafe ((safe_facAccesses_buffer buf).mp hs)]
    exact iff_of_false (fun hr => by cases hr) fun hr => hsafe hr.1

/-- **After the reload the kernel has what the file says, or what it had.** -/
def ReloadAtomic (env : FacEnv) (kzalloc : ℕ → Bool) (content : Bytes) (old : List MacPolicy) : Prop :=
  ∃ l ret, ioctlReload env kzalloc content old = some (l, ret) ∧ (l = old ∨ InstallsFile env content l)

/-- Without the bytes of the file: there was no item before, or there is none in the file.  With them:
the reads stay in them, the structures of the new items are allocated, and the items were what the kernel
had, or they fill the file and have all its paths. -/
def Reloadable (env : FacEnv) (kzalloc : ℕ → Bool) (content : Bytes) (old : List MacPolicy) : Prop :=
  match facBuffer env content with
  | .error _ => old = [] ∨ (env.opens = true ∧ content.drop 8 = [])
  | .ok buf =>
      ReadsEnd buf ∧ Allocated kzalloc 0 (structsOf (newItems [] (facItems buf))) ∧
        (old = policyOf buf ∨ (facTail content = [] ∧
          ∀ m ∈ macsOf content, m.objName ∈ (macsOf buf).map MacPolicy.objName))

end Reload

/-- **When a reload is atomic.**  For every file, every failure of its reading and of an allocation, and
every list before. -/
theorem reload_atomic_iff (env : FacEnv) (kzalloc : ℕ → Bool) (content : Bytes) (old : List MacPolicy) :
    ReloadAtomic env kzalloc content old ↔ Reloadable env kzalloc content old := by
  rw [ReloadAtomic, Reloadable]
  cases hbuf : facBuffer env content with
  | error ret =>
      have hnone : InstallsFile env content [] ↔ env.opens = true ∧ content.drop 8 = [] := by
        rw [InstallsFile, installs_nil_iff, macsOf, List.map_eq_nil_iff]
        refine and_congr_right fun _ => ⟨fun h => ?_, fun h => ?_⟩
        · exact (facCut_tail_of_items_nil h.2).symm.trans h.1
        · rw [facTail, facItems, h, facCut_nil]
          exact ⟨rfl, rfl⟩
      rw [ioctlReload_error hbuf, ← hnone, eq_comm (a := old)]
      constructor
      · rintro ⟨l, r, heq, h⟩
        obtain ⟨rfl, -⟩ := Prod.mk.inj (Option.some.inj heq)
        exact h
      · exact fun h => ⟨[], 0, rfl, h⟩
  | ok buf =>
      obtain ⟨hopens, n, hn⟩ := facBuffer_ok hbuf
      obtain ⟨rest, hrest⟩ : macsOf buf <+: macsOf content := hn ▸ macsOf_take content n
      have hinst : InstallsFile env content (policyOf buf) ↔ facTail content = [] ∧
          ∀ m ∈ macsOf content, m.objName ∈ (macsOf buf).map MacPolicy.objName := by
        rw [InstallsFile, and_iff_right hopens]
        refine and_congr_right fun _ => ⟨fun h m hm => ?_, fun h => ?_⟩
        · exact ((installs_policyOf buf).names_iff _).mp (h.mem_names hm)
        · rw [← hrest]
          exact (installs_policyOf buf).append fun m hm => h m (hrest ▸ List.mem_append_right _ hm)
      dsimp only
      rw [← hinst, eq_comm (a := old)]
      constructor
      · rintro ⟨l, r, heq, h⟩
        obtain ⟨hreads, halloc, hr⟩ := (ioctlReload_ok hbuf _).mp heq
        obtain ⟨rfl, -⟩ := Prod.mk.inj hr
        exact ⟨hreads, halloc, h⟩
      · rintro ⟨hreads, halloc, h⟩
        exact ⟨policyOf buf, 0, (ioctlReload_ok hbuf _).mpr ⟨hreads, halloc, rfl⟩, h⟩

/-- A policy for one path. -/
def loadedMac : MacPolicy := ⟨1, 2, 0, CStr.ofBytes [47, 97], []⟩

/-- The file does not open: the list that protected a path is empty. -/
theorem reload_empties :
    ioctlReload ⟨false, true, 0⟩ (fun _ => true) [] [loadedMac] = some ([], 0) ∧
      ¬ ReloadAtomic ⟨false, true, 0⟩ (fun _ => true) [] [loadedMac] := by
  have hempty {l : List MacPolicy} : ioctlReload ⟨false, true, 0⟩ (fun _ => true) [] l = some ([], 0) :=
    ioctlReload_error rfl
  refine ⟨hempty, ?_⟩
  rintro ⟨l, ret, heq, h⟩
  obtain ⟨rfl, -⟩ := Prod.mk.inj (Option.some.inj (hempty.symm.trans heq))
  rcases h with h | h
  · exact List.cons_ne_nil _ _ h.symm
  · exact Bool.false_ne_true h.1

end Fac
end TsbAgent
