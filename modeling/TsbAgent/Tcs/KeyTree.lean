/-
# Export and import of a key tree

`tcs_utils_export_keytree_dirlocked` and `tcs_utils_import_keytree_dirlocked` of
`tss-main/tcs/tcsapi/tcsu/tcs_key.c`.  A key path `s://a/b` names a directory under the root of the shared or
of the private keys.  Export packs it with `tar`, in the directory above, and returns

| bytes | |
| --- | --- |
| `path_length` | 8 |
| the path | `path_length` |
| the archive | the rest |

and import unpacks the rest of such a buffer in the directory above its own key path.  Five things are asked
of the two, and each has its own condition:

| | goes wrong |
| --- | --- |
| what was exported is restored | more than 512 names, or a path name of more than 511 bytes is cut and something else is removed |
| only the recorded path is accepted | `memcmp` over `path_length` bytes: a prefix will do, and the empty path |
| the archive is unpacked | not where the directory has to be made |
| the buffer and the work areas are not overrun | `path_length` is compared with the whole length, and with no area |
| the archive does not stay | export removes a file that is named after the key |

`keytree_iff` states them together.  `tar`, `chdir`, `mkdir`, `rm` and the file functions do what they are
documented to do (`TsbAgent.Lib.FileTree`), and memory is there; a run that overruns an area has no outcome.
-/

import TsbAgent.Lib.Access
import TsbAgent.Lib.FileTree
import TsbAgent.Lib.Word

namespace TsbAgent
namespace KeyTree

open Libc Word FileTree

def tssErrParameter : ℤ := 1024
def tssErrInputExceed : ℤ := 1027
def tssErrFile : ℤ := 1034
def tssErrRead : ℤ := 1035
def tssErrWrite : ℤ := 1036
def tssErrShell : ℤ := 1038

/-- `CMD_DEFAULT_ALLOC_SIZE`. -/
def cmdDefaultAllocSize : ℕ := 8192

/-- `"/usr/local/httcsec/conf/tcmkeytree/"`. -/
def sharepath : Bytes :=
  [47, 117, 115, 114, 47, 108, 111, 99, 97, 108, 47, 104, 116, 116, 99, 115, 101, 99, 47, 99, 111, 110, 102, 47,
    116, 99, 109, 107, 101, 121, 116, 114, 101, 101, 47]

/-- `"/httctss/tcmkeytree/"`, after the value of `HOME`. -/
def privatePath : Bytes :=
  [47, 104, 116, 116, 99, 116, 115, 115, 47, 116, 99, 109, 107, 101, 121, 116, 114, 101, 101, 47]

/-- `"keytree.tar.gz"`. -/
def keytreeTarGz : Bytes := [107, 101, 121, 116, 114, 101, 101, 46, 116, 97, 114, 46, 103, 122]

/-- `".key"`. -/
def dotKey : Bytes := [46, 107, 101, 121]

/-- `"(null)"`, what is printed for a null pointer. -/
def nullName : Bytes := [40, 110, 117, 108, 108, 41]

/-- What the functions meet: `HOME`, `tar` with its archives, and whether the keys above a key can be loaded
into the TCM. -/
structure Host where
  home : Bytes
  pack : Tree → Bytes
  unpack : Bytes → Option Tree
  load : Bytes → List Bytes → ℤ

/-! ### The key path -/

/-- `ispunct`. -/
def isPunct (c : UInt8) : Bool :=
  (33 ≤ c && c ≤ 47) || (58 ≤ c && c ≤ 64) || (91 ≤ c && c ≤ 96) || (123 ≤ c && c ≤ 126)

/-- The loop of `tcs_utils_analysis_keypath`: `name` has been read since the last slash.  The last name keeps a
slash at its end. -/
def analysisLoop : Bytes → List Bytes → Bytes → List Bytes × ℤ
  | _, names, [] => (names, 0)
  | name, names, c :: rest =>
      if (isPunct c = true ∧ c ≠ 47) ∨ c = 32 then (names, tssErrParameter)
      else if c = 47 ∨ rest = [] then
        if rest = [] then
          if 128 < (name ++ [c]).length ∨ (name ++ [c]).head? = some 47 then (names, tssErrParameter)
          else analysisLoop [] (names ++ [name ++ [c]]) rest
        else if name = [] ∨ 128 < name.length then (names, tssErrParameter)
        else analysisLoop [] (names ++ [name]) rest
      else analysisLoop (name ++ [c]) names rest

/-- What `tcs_utils_analysis_keypath` leaves. -/
structure Analysis where
  fs : Tree
  root : Bytes
  names : List Bytes
  ret : ℤ

/-- `tcs_utils_analysis_keypath` for the keys under `root`. -/
def analysisUnder (fs : Tree) (root : Bytes) (keypath : CStr) : Analysis :=
  if cmdDefaultAllocSize - root.length - 160 < keypath.strlen then ⟨fs, root, [], tssErrInputExceed⟩
  else
    let r := analysisLoop [] [] (keypath.bytes.drop 4)
    ⟨makeDirs fs (components root), root, r.1, r.2⟩

/-- `tcs_utils_analysis_keypath`. -/
def analysisKeypath (h : Host) (fs : Tree) (keypath : CStr) : Analysis :=
  if keypath.bytes.take 4 = [115, 58, 47, 47] then analysisUnder fs sharepath keypath
  else if keypath.bytes.take 4 = [112, 58, 47, 47] then analysisUnder fs (h.home ++ privatePath) keypath
  else ⟨fs, [], [], tssErrParameter⟩

/-- The directory above the key, as a string with a slash at its end. -/
def dirString (root : Bytes) (names : List Bytes) : Bytes := root ++ names.dropLast.flatMap (· ++ [47])

def lastName (names : List Bytes) : Bytes := names.getLast?.getD []

/-- The path that export records. -/
def pathString (root : Bytes) (names : List Bytes) : Bytes := dirString root names ++ lastName names

/-- `path_name`, an array of 512 bytes; the return value of `snprintf` does not tell that the name was cut. -/
def pathName (cur : Bytes) : Path := components ((cur ++ keytreeTarGz).take 511)

/-! ### Export -/

/-- `*` leaves out names that start with a dot, and `tar` its own archive. -/
def inGlob (q : Path) : Bool :=
  match q with
  | [] => false
  | x :: _ => x.head? ≠ some 46 && q ≠ [keytreeTarGz]

/-- What is packed, by its path from the directory above. -/
def packs (names : List Bytes) (q : Path) : Bool :=
  if names = [] then inGlob q else components (lastName names) <+: q

/-- `tar` finds the key, or `*` something. -/
def Packable (fs : Tree) (d : Path) (names : List Bytes) : Prop :=
  lookup fs (d ++ [keytreeTarGz]) ≠ some .dir ∧ (names = [] → below fs d inGlob ≠ []) ∧
    (names ≠ [] → lookup fs (d ++ components (lastName names)) ≠ none)

instance (fs : Tree) (d : Path) (names : List Bytes) : Decidable (Packable fs d names) :=
  inferInstanceAs (Decidable (_ ∧ (_ → _) ∧ (_ → _)))

/-- `httc_util_file_read_full` of the archive. -/
def readFull (content : Bytes) : Option Bytes :=
  if content = [] ∨ 1024 * 1024 * 100 < content.length then none else some content

structure ExportRun where
  fs : Tree
  ret : ℤ
  buffer : Option Bytes

/-- `tcs_utils_export_keytree_dirlocked`.  `key_name` has room for 512 pointers before `pwd` starts. -/
def exportKeytree (h : Host) (fs : Tree) (keypath : CStr) : Option ExportRun :=
  let a := analysisKeypath h fs keypath
  let dir := dirString a.root a.names
  let d := components dir
  let content := h.pack (below a.fs d (packs a.names))
  let written := put a.fs (d ++ [keytreeTarGz]) (.file content)
  if 1024 < a.names.length then none
  else if a.ret ≠ 0 then some ⟨a.fs, a.ret, none⟩
  else if 512 < a.names.length then none
  else if lookup a.fs d ≠ some .dir then some ⟨a.fs, tssErrShell, none⟩
  else if ¬ Packable a.fs d a.names then some ⟨written, tssErrShell, none⟩
  else
    match readFull content with
    | none => some ⟨remove written (pathName dir), tssErrRead, none⟩
    | some tree =>
        let path := dir ++ lastName a.names
        some ⟨remove written (pathName path), 0, some (hostBytes 8 path.length ++ path ++ tree)⟩

/-! ### Import -/

/-- `n` bytes from `off` on. -/
def bytesAt (mem : ℕ → UInt8) (off n : ℕ) : Bytes := (List.range n).map fun i => mem (off + i)

/-- `path_length`, from the first bytes of the buffer. -/
def pathLength (mem : ℕ → UInt8) : ℕ := ofHost (bytesAt mem 0 8)

/-- The path in the buffer. -/
def recorded (mem : ℕ → UInt8) : Bytes := bytesAt mem 8 (pathLength mem)

/-- The rest of the buffer. -/
def archivePart (mem : ℕ → UInt8) (bufLen : ℕ) : Bytes :=
  bytesAt mem (8 + pathLength mem) (bufLen - (8 + pathLength mem))

/-- `cur_key_path` of the import. -/
def importCur (root : Bytes) (names : List Bytes) : Bytes :=
  pathString root names ++ if names = [] then [] else [47]

/-- `key_file`.  Without a name `key_name[-1]` lies in the area that has just been set to zero. -/
def keyFile (names : List Bytes) : Bytes :=
  let k := if names = [] then nullName else lastName names
  k ++ 47 :: (k ++ dotKey)

structure ImportRun where
  fs : Tree
  ret : ℤ
  /-- Where something has been unpacked, and what. -/
  unpacked : Option (Path × Tree)

/-- The import from `getcwd` on, in `dir`. -/
def unpackIn (h : Host) (fs : Tree) (dir : Bytes) (names : List Bytes) (tree : Bytes) : ImportRun :=
  let d := components dir
  if lookup fs d = none then
    -- the function returns after `mkdir`
    if lookup fs d.dropLast = some .dir then ⟨put fs d .dir, 0, none⟩ else ⟨fs, tssErrFile, none⟩
  else if lookup fs d ≠ some .dir then ⟨fs, tssErrShell, none⟩
  else if lookup fs (components (dir ++ keyFile names)) ≠ none then ⟨fs, tssErrParameter, none⟩
  else if lookup fs (d ++ [keytreeTarGz]) = some .dir then ⟨fs, tssErrWrite, none⟩
  else
    let written := put fs (d ++ [keytreeTarGz]) (.file tree)
    match h.unpack tree with
    | none => ⟨remove written (pathName dir), tssErrShell, none⟩
    | some l => ⟨remove (extract written d l) (pathName dir), 0, some (d, l)⟩

/-- `tcs_utils_import_keytree_dirlocked`: its accesses, and its outcome unless one of them is out of bounds. -/
def importKeytree (h : Host) (fs : Tree) (keypath : CStr) (mem : ℕ → UInt8) (bufLen : ℕ) (pathCheck : Bool) :
    List Access × Option ImportRun :=
  let a := analysisKeypath h fs keypath
  let cur := importCur a.root a.names
  let len := pathLength mem
  let names : Access := ⟨0, 8 * a.names.length, cmdDefaultAllocSize⟩
  let header : Access := ⟨0, 8, bufLen⟩
  let source : Access := ⟨8, len, bufLen⟩
  let treePath : Access := ⟨0, len, cmdDefaultAllocSize⟩
  if ¬ names.InBounds then ([names], none)
  else if a.ret ≠ 0 then ([names], some ⟨a.fs, a.ret, none⟩)
  else if 1 < a.names.length ∧ h.load a.root a.names.dropLast ≠ 0 then
    ([names], some ⟨a.fs, h.load a.root a.names.dropLast, none⟩)
  else if ¬ header.InBounds then ([names, header], none)
  else if bufLen ≤ len then ([names, header], some ⟨a.fs, tssErrParameter, none⟩)
  else if ¬ source.InBounds ∨ ¬ treePath.InBounds then ([names, header, source, treePath], none)
  else if memcmp len (recorded mem) cur ≠ 0 ∧ pathCheck = true then
    ([names, header, source, treePath], some ⟨a.fs, tssErrParameter, none⟩)
  else
    let dir := if a.names = [] then cur else cur.take (cur.length - (lastName a.names).length - 1)
    ([names, header, source, treePath], some (unpackIn h a.fs dir a.names (archivePart mem bufLen)))

/-! ### What is asked of the two functions -/

namespace Analysis

variable (a : Analysis)

/-- The directory above the key. -/
def dir : Path := components (dirString a.root a.names)

/-- The directory of the key. -/
def tree : Path := components (pathString a.root a.names)

/-- The temporary archive. -/
def archive : Path := a.dir ++ [keytreeTarGz]

/-- The key path is well formed, and the keys above the key can be loaded. -/
def Ready (h : Host) : Prop := a.ret = 0 ∧ (1 < a.names.length → h.load a.root a.names.dropLast = 0)

/-- Nothing stands in the way of the archive: the directory is there, and no key. -/
def Open : Prop :=
  lookup a.fs a.dir = some .dir ∧ lookup a.fs (components (dirString a.root a.names ++ keyFile a.names)) = none

end Analysis

/-- The buffer and the recorded path stay inside their areas. -/
def Fits (a : Analysis) (mem : ℕ → UInt8) (bufLen : ℕ) : Prop :=
  a.names.length ≤ 1024 ∧ 8 + pathLength mem ≤ bufLen ∧ pathLength mem ≤ cmdDefaultAllocSize

/-- The import gets past its checks, with the comparison of the paths or without. -/
structure Accepted (h : Host) (a : Analysis) (mem : ℕ → UInt8) (bufLen : ℕ) (pathCheck : Bool) : Prop where
  ready : a.Ready h
  fits : Fits a mem bufLen
  path : pathCheck = true → memcmp (pathLength mem) (recorded mem) (importCur a.root a.names) = 0

section Import

variable {h : Host} {fs : Tree} {keypath : CStr} {mem : ℕ → UInt8} {bufLen : ℕ} {pathCheck : Bool} {a : Analysis}

/-- The cut after the comparison leaves the directory above. -/
theorem import_dir (root : Bytes) (names : List Bytes) :
    (if names = [] then importCur root names
      else (importCur root names).take ((importCur root names).length - (lastName names).length - 1)) =
      dirString root names := by
  by_cases hn : names = []
  · rw [if_pos hn, importCur, if_pos hn, pathString, hn, List.append_nil]
    exact List.append_nil _
  · rw [if_neg hn, importCur, if_neg hn, pathString]
    have hlen : (dirString root names ++ lastName names ++ [47]).length - (lastName names).length - 1 =
        (dirString root names).length := by
      simp only [List.length_append, List.length_singleton]
      omega
    rw [hlen, List.append_assoc, List.take_left]

theorem names_inBounds_iff :
    Access.InBounds ⟨0, 8 * a.names.length, cmdDefaultAllocSize⟩ ↔ a.names.length ≤ 1024 := by
  rw [Access.InBounds, cmdDefaultAllocSize]
  dsimp only
  omega

theorem header_inBounds_iff : Access.InBounds ⟨0, 8, bufLen⟩ ↔ 8 ≤ bufLen := by
  rw [Access.InBounds, Nat.zero_add]

theorem area_inBounds_iff :
    Access.InBounds ⟨0, pathLength mem, cmdDefaultAllocSize⟩ ↔ pathLength mem ≤ cmdDefaultAllocSize := by
  rw [Access.InBounds, Nat.zero_add]

/-- **The bounds of the import.** -/
theorem import_safe_iff (ha : analysisKeypath h fs keypath = a) :
    Safe (importKeytree h fs keypath mem bufLen pathCheck).1 ↔
      a.names.length ≤ 1024 ∧
        (a.Ready h →
          8 ≤ bufLen ∧ (pathLength mem < bufLen →
            8 + pathLength mem ≤ bufLen ∧ pathLength mem ≤ cmdDefaultAllocSize)) := by
  rw [importKeytree, ha, Analysis.Ready]
  dsimp only
  by_cases h1 : a.names.length ≤ 1024
  swap
  · rw [if_pos fun hin => h1 (names_inBounds_iff.mp hin)]
    exact iff_of_false (fun hs => h1 (names_inBounds_iff.mp (hs _ List.mem_cons_self))) fun hc => h1 hc.1
  have hsafe : Safe [⟨0, 8 * a.names.length, cmdDefaultAllocSize⟩] :=
    safe_cons.mpr ⟨names_inBounds_iff.mpr h1, safe_nil⟩
  rw [if_neg (not_not.mpr (names_inBounds_iff.mpr h1)), and_iff_right h1]
  by_cases h2 : a.ret ≠ 0
  · rw [if_pos h2]
    exact iff_of_true hsafe fun hr => absurd hr.1 h2
  rw [if_neg h2]
  by_cases h3 : 1 < a.names.length ∧ h.load a.root a.names.dropLast ≠ 0
  · rw [if_pos h3]
    exact iff_of_true hsafe fun hr => absurd (hr.2 h3.1) h3.2
  have hready : a.ret = 0 ∧ (1 < a.names.length → h.load a.root a.names.dropLast = 0) :=
    ⟨not_not.mp h2, fun hlt => not_not.mp fun hne => h3 ⟨hlt, hne⟩⟩
  rw [if_neg h3, forall_prop_of_true hready]
  by_cases h4 : 8 ≤ bufLen
  swap
  · rw [if_pos fun hin => h4 (header_inBounds_iff.mp hin)]
    refine iff_of_false (fun hs => h4 (header_inBounds_iff.mp (hs _ ?_))) fun hc => h4 hc.1
    exact List.mem_cons_of_mem _ List.mem_cons_self
  have hsafe' : Safe [⟨0, 8 * a.names.length, cmdDefaultAllocSize⟩, ⟨0, 8, bufLen⟩] :=
    safe_cons.mpr ⟨names_inBounds_iff.mpr h1, safe_cons.mpr ⟨header_inBounds_iff.mpr h4, safe_nil⟩⟩
  rw [if_neg (not_not.mpr (header_inBounds_iff.mpr h4)), and_iff_right h4]
  by_cases h5 : bufLen ≤ pathLength mem
  · rw [if_pos h5]
    exact iff_of_true hsafe' fun hlt => absurd hlt (not_lt.mpr h5)
  rw [if_neg h5, forall_prop_of_true (not_le.mp h5)]
  have hall : Safe [⟨0, 8 * a.names.length, cmdDefaultAllocSize⟩, ⟨0, 8, bufLen⟩, ⟨8, pathLength mem, bufLen⟩,
      ⟨0, pathLength mem, cmdDefaultAllocSize⟩] ↔
        8 + pathLength mem ≤ bufLen ∧ pathLength mem ≤ cmdDefaultAllocSize := by
    rw [safe_cons, safe_cons, safe_cons, safe_cons, ← area_inBounds_iff]
    exact ⟨fun hs => ⟨hs.2.2.1, hs.2.2.2.1⟩,
      fun hs => ⟨names_inBounds_iff.mpr h1, header_inBounds_iff.mpr h4, hs.1, hs.2, safe_nil⟩⟩
  rw [← hall]
  split_ifs <;> exact Iff.rfl

theorem importKeytree_of_accepted (ha : analysisKeypath h fs keypath = a)
    (hacc : Accepted h a mem bufLen pathCheck) :
    (importKeytree h fs keypath mem bufLen pathCheck).2 =
      some (unpackIn h a.fs (dirString a.root a.names) a.names (archivePart mem bufLen)) := by
  rw [importKeytree, ha]
  obtain ⟨⟨hret, hload⟩, ⟨hnames, hbuf, harea⟩, hpath⟩ := hacc
  have h1 := names_inBounds_iff.mpr hnames
  have h2 := header_inBounds_iff.mpr (le_trans (Nat.le_add_right 8 _) hbuf)
  have h3 : Access.InBounds ⟨8, pathLength mem, bufLen⟩ := hbuf
  have h4 := area_inBounds_iff.mpr harea
  dsimp only
  rw [if_neg (not_not.mpr h1), if_neg (not_not.mpr hret), if_neg fun hno => hno.2 (hload hno.1),
    if_neg (not_not.mpr h2), if_neg (by omega), if_neg fun hno => hno.elim (fun hn => hn h3) fun hn => hn h4,
    if_neg fun hno => hno.1 (hpath hno.2), import_dir]

/-- An import that is not accepted returns an error, and leaves the tree as it is. -/
theorem importKeytree_of_not_accepted {r : ImportRun} (ha : analysisKeypath h fs keypath = a)
    (hacc : ¬ Accepted h a mem bufLen pathCheck)
    (hr : (importKeytree h fs keypath mem bufLen pathCheck).2 = some r) :
    r.ret ≠ 0 ∧ r.fs = a.fs := by
  rw [importKeytree, ha] at hr
  dsimp only at hr
  have hparam : tssErrParameter ≠ 0 := by decide
  by_cases h1 : Access.InBounds ⟨0, 8 * a.names.length, cmdDefaultAllocSize⟩
  swap
  · rw [if_pos h1] at hr
    cases hr
  rw [if_neg (not_not.mpr h1)] at hr
  by_cases h2 : a.ret ≠ 0
  · rw [if_pos h2] at hr
    exact Option.some.inj hr ▸ ⟨h2, rfl⟩
  rw [if_neg h2] at hr
  by_cases h3 : 1 < a.names.length ∧ h.load a.root a.names.dropLast ≠ 0
  · rw [if_pos h3] at hr
    exact Option.some.inj hr ▸ ⟨h3.2, rfl⟩
  rw [if_neg h3] at hr
  by_cases h4 : Access.InBounds ⟨0, 8, bufLen⟩
  swap
  · rw [if_pos h4] at hr
    cases hr
  rw [if_neg (not_not.mpr h4)] at hr
  by_cases h5 : bufLen ≤ pathLength mem
  · rw [if_pos h5] at hr
    exact Option.some.inj hr ▸ ⟨hparam, rfl⟩
  rw [if_neg h5] at hr
  by_cases h6 : ¬ Access.InBounds ⟨8, pathLength mem, bufLen⟩ ∨
      ¬ Access.InBounds ⟨0, pathLength mem, cmdDefaultAllocSize⟩
  · rw [if_pos h6] at hr
    cases hr
  rw [if_neg h6] at hr
  by_cases h7 : memcmp (pathLength mem) (recorded mem) (importCur a.root a.names) ≠ 0 ∧ pathCheck = true
  · rw [if_pos h7] at hr
    exact Option.some.inj hr ▸ ⟨hparam, rfl⟩
  -- all checks have been passed
  rw [not_or, not_not, not_not] at h6
  refine absurd ⟨⟨not_not.mp h2, ?_⟩, ⟨names_inBounds_iff.mp h1, h6.1, area_inBounds_iff.mp h6.2⟩, ?_⟩ hacc
  · exact fun hlt => not_not.mp fun hne => h3 ⟨hlt, hne⟩
  · exact fun hcheck => not_not.mp fun hne => h7 ⟨hne, hcheck⟩

/-- What has to hold for the part after the checks to return `0`, and what it has done then. -/
theorem unpackIn_ret_eq_zero {dir : Bytes} {names : List Bytes} {tree : Bytes}
    (hret : (unpackIn h fs dir names tree).ret = 0) :
    (lookup fs (components dir) = none ∧ lookup fs (components dir).dropLast = some .dir) ∨
      ∃ l, lookup fs (components dir) = some .dir ∧ lookup fs (components (dir ++ keyFile names)) = none ∧
        lookup fs (components dir ++ [keytreeTarGz]) ≠ some .dir ∧ h.unpack tree = some l ∧
          (unpackIn h fs dir names tree).unpacked = some (components dir, l) := by
  rw [unpackIn] at hret ⊢
  dsimp only at hret ⊢
  split_ifs at hret ⊢ with h1 h2 h3 h4 h5
  · exact Or.inl ⟨h1, h2⟩
  · exact absurd hret (show ¬ tssErrFile = 0 by decide)
  · exact absurd hret (show ¬ tssErrShell = 0 by decide)
  · exact absurd hret (show ¬ tssErrParameter = 0 by decide)
  · exact absurd hret (show ¬ tssErrWrite = 0 by decide)
  · cases hun : h.unpack tree with
    | none =>
        rw [hun] at hret
        exact absurd hret (show ¬ tssErrShell = 0 by decide)
    | some l => exact Or.inr ⟨l, not_not.mp h3, not_not.mp h4, h5, rfl, rfl⟩

theorem unpackIn_of_missing {dir : Bytes} {names : List Bytes} {tree : Bytes}
    (h1 : lookup fs (components dir) = none) (h2 : lookup fs (components dir).dropLast = some .dir) :
    unpackIn h fs dir names tree = ⟨put fs (components dir) .dir, 0, none⟩ := by
  rw [unpackIn]
  dsimp only
  rw [if_pos h1, if_pos h2]

/-- The directory is there and free: the archive is written, unpacked and removed. -/
theorem unpackIn_of_open {dir : Bytes} {names : List Bytes} {tree : Bytes}
    (h1 : lookup fs (components dir) = some .dir) (h2 : lookup fs (components (dir ++ keyFile names)) = none)
    (h3 : lookup fs (components dir ++ [keytreeTarGz]) ≠ some .dir) :
    unpackIn h fs dir names tree =
      match h.unpack tree with
      | none => ⟨remove (put fs (components dir ++ [keytreeTarGz]) (.file tree)) (pathName dir), tssErrShell, none⟩
      | some l =>
          ⟨remove (extract (put fs (components dir ++ [keytreeTarGz]) (.file tree)) (components dir) l)
            (pathName dir), 0, some (components dir, l)⟩ := by
  rw [unpackIn]
  dsimp only
  rw [h1, if_neg (Option.some_ne_none _), if_neg (not_not.mpr rfl), if_neg (not_not.mpr h2), if_neg h3]

/-- With the comparison of the paths, success means that the recorded path is the path of the import and that
the archive has been unpacked above it. -/
def ImportExact (h : Host) (fs : Tree) (keypath : CStr) (mem : ℕ → UInt8) (bufLen : ℕ) : Prop :=
  ∀ r, (importKeytree h fs keypath mem bufLen true).2 = some r → r.ret = 0 →
    components (recorded mem) = (analysisKeypath h fs keypath).tree ∧
      ∃ l, h.unpack (archivePart mem bufLen) = some l ∧
        r.unpacked = some ((analysisKeypath h fs keypath).dir, l)

/-- **What the import accepts.** -/
theorem import_exact_iff (ha : analysisKeypath h fs keypath = a) :
    ImportExact h fs keypath mem bufLen ↔
      (Accepted h a mem bufLen true →
        ¬ (lookup a.fs a.dir = none ∧
            lookup a.fs a.dir.dropLast = some .dir) ∧
        (a.Open →
          lookup a.fs a.archive ≠ some .dir →
            h.unpack (archivePart mem bufLen) ≠ none →
              components (recorded mem) = a.tree)) := by
  rw [ImportExact, ha]
  constructor
  · intro hexact hacc
    have hrun := importKeytree_of_accepted ha hacc
    constructor
    · rintro ⟨hnone, hparent⟩
      rw [unpackIn_of_missing hnone hparent] at hrun
      obtain ⟨-, l, -, hl⟩ := hexact _ hrun rfl
      exact absurd hl.symm (Option.some_ne_none _)
    · rintro ⟨hdir, hkey⟩ harch hvalid
      obtain ⟨l, hl⟩ := Option.ne_none_iff_exists'.mp hvalid
      rw [unpackIn_of_open hdir hkey harch, hl] at hrun
      exact (hexact _ hrun rfl).1
  · intro hcond r hr hret
    by_cases hacc : Accepted h a mem bufLen true
    · obtain ⟨hmkdir, hpath⟩ := hcond hacc
      rw [importKeytree_of_accepted ha hacc] at hr
      obtain rfl := Option.some.inj hr
      rcases unpackIn_ret_eq_zero hret with hmissing | ⟨l, hdir, hkey, harch, hl, hun⟩
      · exact absurd hmissing hmkdir
      · exact ⟨hpath ⟨hdir, hkey⟩ harch (by rw [hl]; exact Option.some_ne_none l), l, hl, hun⟩
    · exact absurd hret (importKeytree_of_not_accepted ha hacc hr).1

theorem dir_ne_archive (a : Analysis) : a.dir ≠ a.archive := by
  intro heq
  have hlen := congrArg List.length heq
  rw [Analysis.archive, List.length_append] at hlen
  exact absurd hlen (by simp)

/-- Where the archive is written, it stays unless it lies under `path_name`. -/
theorem unpackIn_leaves {tree : Bytes} (hopen : a.Open) (hplace : lookup a.fs a.archive ≠ some .dir) :
    lookup (unpackIn h a.fs (dirString a.root a.names) a.names tree).fs a.archive = none ↔
      pathName (dirString a.root a.names) <+: a.archive := by
  have hwritten : lookup (put a.fs a.archive (.file tree)) a.archive = some (.file tree) := by
    rw [lookup_put, if_pos rfl]
  rw [unpackIn_of_open hopen.1 hopen.2 hplace]
  cases h.unpack tree with
  | none =>
      refine lookup_remove_eq_none ?_
      exact fun hno => absurd (hwritten.symm.trans hno) (Option.some_ne_none _)
  | some l =>
      refine lookup_remove_eq_none ?_
      show lookup (extract (put a.fs a.archive (.file tree)) a.dir l) (a.dir ++ [keytreeTarGz]) ≠ none
      rw [lookup_extract]
      intro hno
      exact absurd (hwritten.symm.trans (Option.or_eq_none_iff.mp hno).2) (Option.some_ne_none _)

/-- Where it is not written, nothing changes there. -/
theorem unpackIn_of_not_open {tree : Bytes} (hno : ¬ a.Open) :
    lookup (unpackIn h a.fs (dirString a.root a.names) a.names tree).fs a.archive = lookup a.fs a.archive := by
  rw [unpackIn]
  dsimp only
  split_ifs with h1 h2 h3 h4 h5
  · rw [lookup_put]
    exact if_neg (dir_ne_archive a)
  · rfl
  · rfl
  · rfl
  · rfl
  · exact absurd ⟨not_not.mp h3, not_not.mp h4⟩ hno

/-- **When the import leaves no archive**, where there was none. -/
theorem import_leaves_iff (ha : analysisKeypath h fs keypath = a) (hbefore : lookup a.fs a.archive = none) :
    (∀ r, (importKeytree h fs keypath mem bufLen pathCheck).2 = some r → lookup r.fs a.archive = none) ↔
      (Accepted h a mem bufLen pathCheck → a.Open → pathName (dirString a.root a.names) <+: a.archive) := by
  have hplace : lookup a.fs a.archive ≠ some .dir := by
    rw [hbefore]
    exact fun hno => absurd hno.symm (Option.some_ne_none _)
  constructor
  · intro hleaves hacc hopen
    exact (unpackIn_leaves hopen hplace).mp (hleaves _ (importKeytree_of_accepted ha hacc))
  · intro hcond r hr
    by_cases hacc : Accepted h a mem bufLen pathCheck
    · rw [importKeytree_of_accepted ha hacc] at hr
      obtain rfl := Option.some.inj hr
      by_cases hopen : a.Open
      · exact (unpackIn_leaves hopen hplace).mpr (hcond hacc hopen)
      · rw [unpackIn_of_not_open hopen, hbefore]
    · rw [(importKeytree_of_not_accepted ha hacc hr).2, hbefore]

end Import

/-! ### The names of a key path -/

section Names

variable {h : Host} {fs : Tree} {keypath : CStr} {a : Analysis}

/-- The names with the slashes between them are what was read. -/
theorem analysisLoop_join {name rest : Bytes} {names names' : List Bytes} (hrest : rest ≠ [])
    (hr : analysisLoop name names rest = (names', 0)) :
    names'.dropLast.flatMap (· ++ [47]) ++ lastName names' = names.flatMap (· ++ [47]) ++ name ++ rest := by
  induction rest generalizing name names with
  | nil => exact absurd rfl hrest
  | cons c rest ih =>
      have herr : ∀ l : List Bytes, (l, tssErrParameter) ≠ (names', 0) := by
        intro l heq
        exact absurd (congrArg Prod.snd heq) (show ¬ tssErrParameter = 0 by decide)
      rw [analysisLoop] at hr
      split_ifs at hr with h1 h2 h3 h4 h5
      · exact absurd hr (herr _)
      · exact absurd hr (herr _)
      · subst h3
        obtain rfl : names ++ [name ++ [c]] = names' := congrArg Prod.fst hr
        rw [List.dropLast_concat, lastName, List.getLast?_concat, Option.getD_some, List.append_assoc]
      · exact absurd hr (herr _)
      · obtain rfl : c = 47 := h2.resolve_right h3
        rw [ih h3 hr, List.flatMap_append, List.flatMap_singleton]
        simp only [List.append_assoc, List.singleton_append]
      · rw [not_or] at h2
        rw [ih h2.2 hr]
        simp only [List.append_assoc, List.singleton_append]

/-- A name has no dot, and starts with something that is no slash. -/
def Named (k : Bytes) : Prop := (46 : UInt8) ∉ k ∧ ∃ c s, k = c :: s ∧ c ≠ 47

/-- The names of a key path are names. -/
theorem analysisLoop_names {name rest : Bytes} {names names' : List Bytes}
    (hr : analysisLoop name names rest = (names', 0)) (hslash : (47 : UInt8) ∉ name) (hdot : (46 : UInt8) ∉ name)
    (hnames : ∀ k ∈ names, Named k) : ∀ k ∈ names', Named k := by
  induction rest generalizing name names with
  | nil =>
      obtain rfl : names = names' := congrArg Prod.fst hr
      exact hnames
  | cons c rest ih =>
      have herr : ∀ l : List Bytes, (l, tssErrParameter) ≠ (names', 0) := by
        intro l heq
        exact absurd (congrArg Prod.snd heq) (show ¬ tssErrParameter = 0 by decide)
      have happend : ∀ k₀ : Bytes, Named k₀ → ∀ k ∈ names ++ [k₀], Named k := by
        intro k₀ hk₀ k hk
        rcases List.mem_append.mp hk with hk | hk
        · exact hnames k hk
        · rw [List.mem_singleton.mp hk]
          exact hk₀
      rw [analysisLoop] at hr
      split_ifs at hr with h1 h2 h3 h4 h5
      · exact absurd hr (herr _)
      · exact absurd hr (herr _)
      · have hc : (46 : UInt8) ∉ name ++ [c] := by
          rw [List.mem_append, not_or, List.mem_singleton]
          refine ⟨hdot, ?_⟩
          rintro rfl
          exact h1 (Or.inl (by decide))
        refine ih hr List.not_mem_nil List.not_mem_nil (happend _ ⟨hc, ?_⟩)
        rw [not_or] at h4
        cases hk : name ++ [c] with
        | nil => exact absurd hk (List.append_ne_nil_of_right_ne_nil _ (List.cons_ne_nil _ _))
        | cons x s =>
            rw [hk] at h4
            exact ⟨x, s, rfl, fun hx => h4.2 (congrArg some hx)⟩
      · exact absurd hr (herr _)
      · refine ih hr List.not_mem_nil List.not_mem_nil (happend _ ⟨hdot, ?_⟩)
        rw [not_or] at h5
        cases name with
        | nil => exact absurd rfl h5.1
        | cons x s => exact ⟨x, s, rfl, fun hx => hslash (hx ▸ List.mem_cons_self)⟩
      · rw [not_or] at h2
        refine ih hr ?_ ?_ hnames
        · rw [List.mem_append, not_or, List.mem_singleton]
          exact ⟨hslash, fun hc => h2.1 hc.symm⟩
        · rw [List.mem_append, not_or, List.mem_singleton]
          refine ⟨hdot, ?_⟩
          rintro rfl
          exact h1 (Or.inl (by decide))

/-- What a key path that is well formed has become. -/
structure Analysis.Good (a : Analysis) (h : Host) (fs : Tree) (keypath : CStr) : Prop where
  again : ∀ t, analysisKeypath h t keypath = ⟨makeDirs t (components a.root), a.root, a.names, 0⟩
  fs_eq : a.fs = makeDirs fs (components a.root)
  slash : ∃ s, a.root = s ++ [47]
  root_ne : components a.root ≠ []
  length : (pathString a.root a.names).length ≤ cmdDefaultAllocSize
  names : ∀ k ∈ a.names, Named k

/-- The path that is recorded is the root and what follows the scheme. -/
theorem pathString_eq {root tail : Bytes} {names : List Bytes} (hr : analysisLoop [] [] tail = (names, 0)) :
    pathString root names = root ++ tail := by
  cases tail with
  | nil =>
      obtain rfl : [] = names := congrArg Prod.fst hr
      simp [pathString, dirString, lastName]
  | cons c tail =>
      rw [pathString, dirString, List.append_assoc, analysisLoop_join (List.cons_ne_nil c tail) hr]
      rfl

theorem analysisUnder_good {root : Bytes} (hslash : ∃ s, root = s ++ [47]) (hne : components root ≠ [])
    (hpos : 0 < keypath.strlen) (ha : analysisUnder fs root keypath = a) (hret : a.ret = 0)
    (hagain : ∀ t, analysisKeypath h t keypath = analysisUnder t root keypath) : a.Good h fs keypath := by
  rw [analysisUnder] at ha
  split_ifs at ha with hlong
  · subst ha
    exact absurd hret (show ¬ tssErrInputExceed = 0 by decide)
  · subst ha
    have hloop : analysisLoop [] [] (keypath.bytes.drop 4) =
        ((analysisLoop [] [] (keypath.bytes.drop 4)).1, 0) := Prod.ext rfl hret
    refine ⟨fun t => ?_, rfl, hslash, hne, ?_, ?_⟩
    · rw [hagain, analysisUnder, if_neg hlong]
      dsimp only
      rw [show (analysisLoop [] [] (keypath.bytes.drop 4)).2 = 0 from hret]
    · show (pathString root (analysisLoop [] [] (keypath.bytes.drop 4)).1).length ≤ cmdDefaultAllocSize
      rw [pathString_eq hloop, List.length_append, List.length_drop]
      rw [CStr.strlen] at hlong hpos
      rw [cmdDefaultAllocSize] at hlong ⊢
      omega
    · exact analysisLoop_names hloop List.not_mem_nil List.not_mem_nil fun k hk => absurd hk List.not_mem_nil

theorem analysis_good (ha : analysisKeypath h fs keypath = a) (hret : a.ret = 0) : a.Good h fs keypath := by
  have hpos : ∀ l : Bytes, l ≠ [] → keypath.bytes.take 4 = l → 0 < keypath.strlen := by
    intro l hl htake
    rw [CStr.strlen, List.length_pos_iff]
    intro hnil
    rw [hnil] at htake
    exact hl htake.symm
  by_cases hshared : keypath.bytes.take 4 = [115, 58, 47, 47]
  · have hagain : ∀ t, analysisKeypath h t keypath = analysisUnder t sharepath keypath := by
      intro t
      rw [analysisKeypath, if_pos hshared]
    refine analysisUnder_good ⟨sharepath.dropLast, by decide⟩ (by decide)
      (hpos _ (List.cons_ne_nil _ _) hshared) ?_ hret hagain
    rw [← hagain, ha]
  · by_cases hprivate : keypath.bytes.take 4 = [112, 58, 47, 47]
    · have hagain : ∀ t, analysisKeypath h t keypath = analysisUnder t (h.home ++ privatePath) keypath := by
        intro t
        rw [analysisKeypath, if_neg hshared, if_pos hprivate]
      refine analysisUnder_good ⟨h.home ++ privatePath.dropLast, by rw [List.append_assoc]; rfl⟩ ?_
        (hpos _ (List.cons_ne_nil _ _) hprivate) ?_ hret hagain
      · rw [privatePath, components_append]
        exact List.append_ne_nil_of_right_ne_nil _ (by decide)
      · rw [← hagain, ha]
    · rw [analysisKeypath, if_neg hshared, if_neg hprivate] at ha
      subst ha
      exact absurd hret (show ¬ tssErrParameter = 0 by decide)

theorem dirString_slash {root : Bytes} (hslash : ∃ s, root = s ++ [47]) (names : List Bytes) :
    ∃ s, dirString root names = s ++ [47] := by
  rcases List.eq_nil_or_concat names.dropLast with hnil | ⟨l, k, hl⟩
  · obtain ⟨s, hs⟩ := hslash
    refine ⟨s, ?_⟩
    rw [dirString, hnil, hs]
    exact List.append_nil _
  · refine ⟨root ++ l.flatMap (· ++ [47]) ++ k, ?_⟩
    rw [dirString, hl, List.concat_eq_append, List.flatMap_append, List.flatMap_singleton, List.append_assoc,
      List.append_assoc]

theorem Analysis.dir_eq_root (hnil : a.names = []) : a.dir = components a.root := by
  rw [Analysis.dir, hnil, dirString]
  exact congrArg components (List.append_nil _)

namespace Analysis.Good

variable (hgood : a.Good h fs keypath)

include hgood

theorem tree_eq : a.tree = a.dir ++ components (lastName a.names) :=
  components_slash (dirString_slash hgood.slash a.names)

theorem tree_eq_dir (hnil : a.names = []) : a.tree = a.dir := by
  rw [hgood.tree_eq, hnil]
  exact List.append_nil _

theorem root_prefix : components a.root <+: a.dir := by
  rw [Analysis.dir, dirString, components_slash hgood.slash]
  exact List.prefix_append _ _

theorem named_lastName (hne : a.names ≠ []) : Named (lastName a.names) := by
  rw [lastName, List.getLast?_eq_some_getLast hne]
  exact hgood.names _ (List.getLast_mem hne)

theorem components_lastName (hne : a.names ≠ []) : components (lastName a.names) ≠ [] := by
  obtain ⟨-, c, s, hlast, hc⟩ := hgood.named_lastName hne
  rw [hlast]
  exact components_ne_nil hc s

theorem not_prefix_dir (hne : a.names ≠ []) : ¬ a.tree <+: a.dir := by
  intro hpre
  have hlen := hpre.length_le
  have hpos := List.length_pos_iff.mpr (hgood.components_lastName hne)
  rw [hgood.tree_eq, List.length_append] at hlen
  omega

/-- Under the directory above the key nothing is on the way to the root. -/
theorem not_prefix_root {q : Path} (hq : q ≠ []) : ¬ a.dir ++ q <+: components a.root := by
  intro hpre
  have h1 := hpre.length_le
  have h2 := hgood.root_prefix.length_le
  have h3 := List.length_pos_iff.mpr hq
  rw [List.length_append] at h1
  omega

theorem lookup_makeDirs {t : Tree} {q : Path} (hq : q ≠ []) :
    lookup (makeDirs t (components a.root)) (a.dir ++ q) = lookup t (a.dir ++ q) :=
  lookup_makeDirs_of_not_prefix (hgood.not_prefix_root hq)

theorem tree_ne_archive : a.tree ≠ a.archive := by
  intro heq
  rw [hgood.tree_eq] at heq
  have hlast : components (lastName a.names) = [keytreeTarGz] := List.append_cancel_left heq
  by_cases hnil : a.names = []
  · rw [hnil] at hlast
    exact absurd hlast.symm (List.cons_ne_nil _ _)
  · refine (hgood.named_lastName hnil).1 (mem_of_mem_components (x := keytreeTarGz) ?_ (by decide))
    rw [hlast]
    exact List.mem_cons_self

/-- The file of the key lies in the tree. -/
theorem keyFile_place :
    ∃ q, q ≠ [] ∧ components (dirString a.root a.names ++ keyFile a.names) = a.dir ++ q ∧ a.tree <+: a.dir ++ q := by
  by_cases hnil : a.names = []
  · refine ⟨components (keyFile a.names), ?_, components_slash (dirString_slash hgood.slash a.names), ?_⟩
    · rw [hnil]
      decide
    · rw [hgood.tree_eq_dir hnil]
      exact List.prefix_append _ _
  · have hpath : dirString a.root a.names ++ keyFile a.names =
        pathString a.root a.names ++ 47 :: (lastName a.names ++ dotKey) := by
      rw [keyFile, if_neg hnil, pathString, List.append_assoc]
    refine ⟨components (lastName a.names) ++ components (lastName a.names ++ dotKey), ?_, ?_, ?_⟩
    · exact List.append_ne_nil_of_left_ne_nil (hgood.components_lastName hnil) _
    · rw [hpath, components_append, ← List.append_assoc, ← hgood.tree_eq]
      rfl
    · rw [← List.append_assoc, ← hgood.tree_eq]
      exact List.prefix_append _ _

/-- Where export removes the directory above the key, or something above that, the import removes the same. -/
theorem cut_dir (hne : a.names ≠ []) (hcut : pathName (pathString a.root a.names) <+: a.dir) :
    pathName (dirString a.root a.names) <+: a.tree := by
  by_cases hlong : 511 ≤ (dirString a.root a.names).length
  · have heq : pathName (pathString a.root a.names) = pathName (dirString a.root a.names) := by
      rw [pathName, pathName, pathString, List.append_assoc, List.take_append_of_le_length hlong,
        List.take_append_of_le_length hlong]
    rw [← heq, hgood.tree_eq]
    exact hcut.trans (List.prefix_append _ _)
  · obtain ⟨-, c, s, hlast, hc⟩ := hgood.named_lastName hne
    obtain ⟨m, hm⟩ : ∃ m, 511 = (dirString a.root a.names).length + (m + 1) :=
      ⟨511 - (dirString a.root a.names).length - 1, by omega⟩
    rw [pathName, pathString, List.append_assoc, hm, List.take_length_add_append, hlast, List.cons_append,
      List.take_succ_cons, components_slash (dirString_slash hgood.slash a.names)] at hcut
    have hlen := hcut.length_le
    have hpos := List.length_pos_iff.mpr (components_ne_nil hc ((s ++ keytreeTarGz).take m))
    rw [List.length_append, Analysis.dir] at hlen
    omega

end Analysis.Good

end Names

/-! ### The round trip -/

/-- A name that starts with a dot. -/
def hidden : Path → Bool
  | [] => false
  | x :: _ => x.head? = some 46

/-- What export packs. -/
def Analysis.packed (a : Analysis) : Tree := below a.fs a.dir (packs a.names)

/-- There is a tree to export: its place, its content, an archive of a size that is read, which `tar` unpacks to
what it has packed, and the keys above can be loaded for the import. -/
structure Exportable (h : Host) (fs : Tree) (a : Analysis) : Prop where
  ready : a.Ready h
  dir : lookup a.fs a.dir = some .dir
  tree : lookup fs a.tree ≠ none
  packable : Packable a.fs a.dir a.names
  size : readFull (h.pack a.packed) = some (h.pack a.packed)
  unpack : h.unpack (h.pack a.packed) = some a.packed

/-- Export, deletion of the tree and import of the buffer succeed, and everything in the tree is as before, the
place of the temporary archive apart. -/
def Restores (h : Host) (fs : Tree) (keypath : CStr) : Prop :=
  let a := analysisKeypath h fs keypath
  ∃ r b r', exportKeytree h fs keypath = some r ∧ r.ret = 0 ∧ r.buffer = some b ∧
    (importKeytree h (remove r.fs a.tree) keypath (fun i => b.getD i 0) b.length true).2 = some r' ∧ r'.ret = 0 ∧
      ∀ p, a.tree <+: p → p ≠ a.archive → lookup r'.fs p = lookup fs p

section RoundTrip

variable {h : Host} {fs : Tree} {keypath : CStr} {a : Analysis}

/-- The buffer of an export. -/
def Analysis.buffer (a : Analysis) (content : Bytes) : Bytes :=
  hostBytes 8 (pathString a.root a.names).length ++ pathString a.root a.names ++ content

theorem exportKeytree_ok (ha : analysisKeypath h fs keypath = a) (hexp : Exportable h fs a)
    (hnames : a.names.length ≤ 512) :
    exportKeytree h fs keypath =
      some ⟨remove (put a.fs a.archive (.file (h.pack a.packed))) (pathName (pathString a.root a.names)), 0,
        some (a.buffer (h.pack a.packed))⟩ := by
  have hsize : readFull (h.pack (below a.fs (components (dirString a.root a.names)) (packs a.names))) =
      some (h.pack a.packed) := hexp.size
  have hdir : lookup a.fs (components (dirString a.root a.names)) = some .dir := hexp.dir
  have hpack : Packable a.fs (components (dirString a.root a.names)) a.names := hexp.packable
  rw [exportKeytree, ha]
  dsimp only
  rw [if_neg (by omega), if_neg (not_not.mpr hexp.ready.1), if_neg (by omega), if_neg (not_not.mpr hdir),
    if_neg (not_not.mpr hpack), hsize]
  rfl

theorem bytesAt_getD (x y z : Bytes) {m n : ℕ} (hm : x.length = m) (hn : y.length = n) :
    bytesAt (fun i => (x ++ y ++ z).getD i 0) m n = y := by
  refine List.ext_getElem? fun i => ?_
  rw [bytesAt, List.getElem?_map]
  by_cases hi : i < n
  · rw [List.getElem?_range hi, Option.map_some, List.getD_eq_getElem?_getD, List.append_assoc,
      List.getElem?_append_right (by omega), List.getElem?_append_left (by omega),
      show m + i - x.length = i by omega, List.getElem?_eq_getElem (by omega)]
    rfl
  · rw [List.getElem?_eq_none (by rw [List.length_range]; omega), List.getElem?_eq_none (by omega)]
    rfl

section Buffer

variable (content : Bytes) (hlen : (pathString a.root a.names).length ≤ cmdDefaultAllocSize)

include hlen

theorem pathLength_buffer :
    pathLength (fun i => (a.buffer content).getD i 0) = (pathString a.root a.names).length := by
  have hbytes := bytesAt_getD (m := 0) [] (hostBytes 8 (pathString a.root a.names).length)
    (pathString a.root a.names ++ content) rfl (length_hostBytes 8 _)
  rw [List.nil_append, ← List.append_assoc] at hbytes
  rw [pathLength, Analysis.buffer, hbytes, ofHost_hostBytes_of_lt]
  rw [cmdDefaultAllocSize] at hlen
  omega

theorem recorded_buffer :
    recorded (fun i => (a.buffer content).getD i 0) = pathString a.root a.names := by
  rw [recorded, pathLength_buffer content hlen]
  exact bytesAt_getD _ _ _ (length_hostBytes 8 _) rfl

theorem archivePart_buffer :
    archivePart (fun i => (a.buffer content).getD i 0) (a.buffer content).length = content := by
  have hbytes :=
    bytesAt_getD (hostBytes 8 (pathString a.root a.names).length ++ pathString a.root a.names) content []
    (by rw [List.length_append, length_hostBytes]) rfl
  rw [List.append_nil] at hbytes
  rw [archivePart, pathLength_buffer content hlen]
  rw [show (a.buffer content).length - (8 + (pathString a.root a.names).length) = content.length by
    rw [Analysis.buffer, List.length_append, List.length_append, length_hostBytes]
    omega]
  exact hbytes

end Buffer

/-- The analysis of the same key path at the import. -/
def Analysis.at (a : Analysis) (t : Tree) : Analysis := ⟨makeDirs t (components a.root), a.root, a.names, 0⟩

/-- The buffer of an export is accepted at the same key path. -/
theorem accepted_buffer (hgood : a.Good h fs keypath) (hready : a.Ready h) (hnames : a.names.length ≤ 512)
    (t : Tree) (content : Bytes) :
    Accepted h (a.at t) (fun i => (a.buffer content).getD i 0) (a.buffer content).length true := by
  have hbuf : (a.buffer content).length = 8 + (pathString a.root a.names).length + content.length := by
    rw [Analysis.buffer, List.length_append, List.length_append, length_hostBytes]
  refine ⟨⟨rfl, hready.2⟩, ⟨?_, ?_, ?_⟩, fun _ => ?_⟩
  · show a.names.length ≤ 1024
    omega
  · rw [pathLength_buffer content hgood.length, hbuf]
    omega
  · rw [pathLength_buffer content hgood.length]
    exact hgood.length
  · rw [pathLength_buffer content hgood.length, recorded_buffer content hgood.length]
    have hle : (pathString a.root a.names).length ≤ (importCur a.root a.names).length := by
      rw [importCur, List.length_append]
      omega
    refine (memcmp_eq_zero le_rfl hle).mpr ?_
    show _ = (pathString a.root a.names ++ _).take (pathString a.root a.names).length
    rw [List.take_length, List.take_left]

/-- What lies in the tree after the import has unpacked the archive and removed `path_name`. -/
theorem lookup_restored (hgood : a.Good h fs keypath) (hexp : Exportable h fs a) {t : Tree} {content : Bytes}
    (hgone : ∀ p, a.tree <+: p → lookup t p = none) {p : Path} (hp : a.tree <+: p) (hne : p ≠ a.archive) :
    lookup (remove (extract (put (a.at t).fs a.archive (.file content)) a.dir a.packed)
        (pathName (dirString a.root a.names))) p =
      if pathName (dirString a.root a.names) <+: p ∨ (a.names = [] ∧ hidden (p.drop a.dir.length) = true) then none
      else lookup fs p := by
  obtain ⟨q, rfl⟩ : ∃ q, p = a.dir ++ q := by
    obtain ⟨s, rfl⟩ := hp
    exact ⟨_, by rw [hgood.tree_eq, List.append_assoc]⟩
  have hlast : components (lastName a.names) <+: q := by
    rw [hgood.tree_eq] at hp
    exact (List.prefix_append_right_inj a.dir).mp hp
  rw [List.drop_left]
  by_cases hcut : pathName (dirString a.root a.names) <+: a.dir ++ q
  · rw [if_pos (Or.inl hcut), lookup_remove_of_removed hcut]
  have harch : ¬ a.archive = a.dir ++ q := fun heq => hne heq.symm
  rw [lookup_remove_of_kept hcut, lookup_extract, Analysis.packed, lookup_below, lookup_put, if_neg harch]
  have hfs : ∀ q : Path, q ≠ [] → lookup (a.at t).fs (a.dir ++ q) = lookup t (a.dir ++ q) ∧
      lookup a.fs (a.dir ++ q) = lookup fs (a.dir ++ q) := by
    intro q hq
    refine ⟨hgood.lookup_makeDirs hq, ?_⟩
    rw [hgood.fs_eq]
    exact hgood.lookup_makeDirs hq
  have hnone : lookup t (a.dir ++ q) = none := hgone _ hp
  by_cases hnil : a.names = []
  · cases q with
    | nil =>
        -- the root itself, which the import has made again
        have hroot := Analysis.dir_eq_root hnil
        have htree : a.tree = a.dir := hgood.tree_eq_dir hnil
        rw [List.append_nil] at hnone hcut ⊢
        have hmade : lookup (a.at t).fs a.dir = some .dir := by
          rw [hroot] at hnone ⊢
          exact lookup_makeDirs_self hgood.root_ne hnone
        have hdir : lookup fs a.dir = some .dir := by
          rw [← hexp.dir, hgood.fs_eq]
          exact (lookup_makeDirs_of_ne_none (htree ▸ hexp.tree)).symm
        rw [packs, if_pos hnil, if_neg (show ¬ inGlob [] = true by decide), hmade, hdir,
          if_neg]
        · rfl
        · rintro (hno | ⟨-, hno⟩)
          · exact hcut hno
          · exact Bool.false_ne_true hno
    | cons x q =>
        obtain ⟨hat, hbefore⟩ := hfs (x :: q) (List.cons_ne_nil x q)
        have htar : x :: q ≠ [keytreeTarGz] := fun heq => hne (congrArg (a.dir ++ ·) heq)
        rw [hat, hbefore, hnone, Option.or_none, packs, if_pos hnil]
        by_cases hdot : x.head? = some 46
        · rw [if_pos (Or.inr ⟨hnil, decide_eq_true hdot⟩), if_neg]
          simp [inGlob, hdot]
        · rw [if_pos (by simp [inGlob, hdot, htar]), if_neg]
          rintro (hno | ⟨-, hno⟩)
          · exact hcut hno
          · exact hdot (of_decide_eq_true hno)
  · have hq : q ≠ [] := by
      rintro rfl
      exact hgood.components_lastName hnil (List.prefix_nil.mp hlast)
    obtain ⟨hat, hbefore⟩ := hfs q hq
    have hpacks : packs a.names q = true := by
      rw [packs, if_neg hnil]
      exact decide_eq_true hlast
    rw [hat, hbefore, hnone, Option.or_none, if_pos hpacks, if_neg]
    rintro (hno | ⟨hno, -⟩)
    · exact hcut hno
    · exact hnil hno

/-- The tree after export and deletion. -/
def Analysis.deleted (a : Analysis) (content : Bytes) : Tree :=
  remove (remove (put a.fs a.archive (.file content)) (pathName (pathString a.root a.names))) a.tree

theorem lookup_deleted_archive (a : Analysis) (content : Bytes) :
    lookup (a.deleted content) a.archive ≠ some .dir := by
  have hfile : lookup (put a.fs a.archive (.file content)) a.archive = some (.file content) := by
    rw [lookup_put, if_pos rfl]
  intro hdir
  by_cases h1 : a.tree <+: a.archive
  · rw [Analysis.deleted, lookup_remove_of_removed h1] at hdir
    exact absurd hdir.symm (Option.some_ne_none _)
  by_cases h2 : pathName (pathString a.root a.names) <+: a.archive
  · rw [Analysis.deleted, lookup_remove_of_kept h1, lookup_remove_of_removed h2] at hdir
    exact absurd hdir.symm (Option.some_ne_none _)
  · rw [Analysis.deleted, lookup_remove_of_kept h1, lookup_remove_of_kept h2, hfile] at hdir
    exact Node.noConfusion (Option.some.inj hdir)

/-- At the import the directory above is there, unless export has removed it. -/
theorem lookup_deleted_dir (hgood : a.Good h fs keypath) (hexp : Exportable h fs a) (content : Bytes)
    (hcut : a.names ≠ [] → ¬ pathName (pathString a.root a.names) <+: a.dir) :
    lookup (a.at (a.deleted content)).fs a.dir = some .dir := by
  by_cases hnil : a.names = []
  · have hroot := Analysis.dir_eq_root hnil
    have hgone : lookup (a.deleted content) (components a.root) = none := by
      refine lookup_remove_of_removed ?_
      rw [hgood.tree_eq_dir hnil, hroot]
    rw [hroot]
    exact lookup_makeDirs_self hgood.root_ne hgone
  · have hdir : lookup (a.deleted content) a.dir = some .dir := by
      rw [Analysis.deleted, lookup_remove_of_kept (hgood.not_prefix_dir hnil), lookup_remove_of_kept (hcut hnil),
        lookup_put, if_neg fun heq => dir_ne_archive a heq.symm, hexp.dir]
    rw [← hdir]
    exact lookup_makeDirs_of_ne_none (by rw [hdir]; exact Option.some_ne_none _)

theorem open_deleted (hgood : a.Good h fs keypath) (hexp : Exportable h fs a) (content : Bytes)
    (hcut : a.names ≠ [] → ¬ pathName (pathString a.root a.names) <+: a.dir) :
    (a.at (a.deleted content)).Open := by
  refine ⟨lookup_deleted_dir hgood hexp content hcut, ?_⟩
  obtain ⟨q, hq, hplace, htree⟩ := hgood.keyFile_place
  show lookup (a.at (a.deleted content)).fs (components (dirString a.root a.names ++ keyFile a.names)) = none
  rw [hplace]
  exact (hgood.lookup_makeDirs hq).trans (lookup_remove_of_removed htree)

/-- The import after export and deletion. -/
theorem import_deleted (hgood : a.Good h fs keypath) (hready : a.Ready h) (hnames : a.names.length ≤ 512)
    (content : Bytes) :
    (importKeytree h (a.deleted content) keypath (fun i => (a.buffer content).getD i 0) (a.buffer content).length
        true).2 =
      some (unpackIn h (a.at (a.deleted content)).fs (dirString a.root a.names) a.names content) := by
  have hacc := accepted_buffer hgood hready hnames (a.deleted content) content
  have hrun := importKeytree_of_accepted (hgood.again (a.deleted content)) hacc
  rw [archivePart_buffer content hgood.length] at hrun
  exact hrun

theorem unpackIn_deleted (hgood : a.Good h fs keypath) (hexp : Exportable h fs a)
    (hopen : (a.at (a.deleted (h.pack a.packed))).Open) :
    unpackIn h (a.at (a.deleted (h.pack a.packed))).fs (dirString a.root a.names) a.names (h.pack a.packed) =
      ⟨remove (extract (put (a.at (a.deleted (h.pack a.packed))).fs a.archive (.file (h.pack a.packed))) a.dir
        a.packed) (pathName (dirString a.root a.names)), 0, some (a.dir, a.packed)⟩ := by
  have hplace : lookup (a.at (a.deleted (h.pack a.packed))).fs a.archive ≠ some .dir := by
    show lookup (makeDirs _ _) (a.dir ++ [keytreeTarGz]) ≠ _
    rw [hgood.lookup_makeDirs (List.cons_ne_nil _ _)]
    exact lookup_deleted_archive a _
  refine (unpackIn_of_open hopen.1 hopen.2 hplace).trans ?_
  rw [hexp.unpack]
  rfl

/-- **When a tree is restored.**  The names fit in front of `pwd`, and nothing that was in the tree lies under the
path that the import removes at its end, or is left out by `*`. -/
theorem restores_iff (ha : analysisKeypath h fs keypath = a) (hexp : Exportable h fs a) :
    Restores h fs keypath ↔
      a.names.length ≤ 512 ∧ ∀ p, a.tree <+: p → p ≠ a.archive → lookup fs p ≠ none →
        ¬ pathName (dirString a.root a.names) <+: p ∧ (a.names = [] → hidden (p.drop a.dir.length) = false) := by
  have hgood := analysis_good ha hexp.ready.1
  rw [Restores, ha]
  by_cases hnames : a.names.length ≤ 512
  swap
  · refine iff_of_false ?_ fun hc => hnames hc.1
    rintro ⟨r, b, r', hr, -⟩
    rw [exportKeytree, ha] at hr
    dsimp only at hr
    rw [if_neg (not_not.mpr hexp.ready.1), if_pos (not_le.mp hnames), ite_self] at hr
    exact absurd hr.symm (Option.some_ne_none _)
  rw [and_iff_right hnames, exportKeytree_ok ha hexp hnames]
  have hrun := import_deleted hgood hexp.ready hnames (h.pack a.packed)
  have hgone : ∀ p, a.tree <+: p → lookup (a.deleted (h.pack a.packed)) p = none :=
    fun p hp => lookup_remove_of_removed hp
  constructor
  · rintro ⟨r, b, r', hr, -, hb, hr', hret', hrestored⟩
    obtain rfl := Option.some.inj hr
    obtain rfl := Option.some.inj hb
    obtain rfl := Option.some.inj (hrun.symm.trans hr')
    rcases unpackIn_ret_eq_zero hret' with ⟨hmissing, hparent⟩ | ⟨l, hdir, hkey, -, -, -⟩
    · -- the directory was made, and nothing unpacked
      have hne : a.names ≠ [] := by
        intro hnil
        have hdir := lookup_deleted_dir hgood hexp (h.pack a.packed) fun hno => absurd hnil hno
        exact absurd (hmissing.symm.trans hdir).symm (Option.some_ne_none _)
      have htree : lookup (a.at (a.deleted (h.pack a.packed))).fs a.tree = none := by
        rw [hgood.tree_eq]
        refine (hgood.lookup_makeDirs (hgood.components_lastName hne)).trans ?_
        rw [← hgood.tree_eq]
        exact hgone _ (List.prefix_refl _)
      have hkept := hrestored a.tree (List.prefix_refl _) hgood.tree_ne_archive
      rw [unpackIn_of_missing hmissing hparent] at hkept
      have hne' : ¬ a.dir = a.tree := fun heq => hgood.not_prefix_dir hne (heq ▸ List.prefix_refl _)
      exact absurd ((lookup_put.trans (if_neg hne')).trans htree ▸ hkept).symm hexp.tree
    · intro p hp hne hthere
      have hkept := hrestored p hp hne
      rw [unpackIn_deleted hgood hexp ⟨hdir, hkey⟩, lookup_restored hgood hexp hgone hp hne] at hkept
      split_ifs at hkept with hno
      · exact absurd hkept.symm hthere
      · rw [not_or, not_and, Bool.not_eq_true] at hno
        exact hno
  · intro hcond
    have htree := (hcond a.tree (List.prefix_refl _) hgood.tree_ne_archive hexp.tree).1
    have hopen := open_deleted hgood hexp (h.pack a.packed) fun hne hcut => htree (hgood.cut_dir hne hcut)
    rw [unpackIn_deleted hgood hexp hopen] at hrun
    refine ⟨_, _, _, rfl, rfl, rfl, hrun, rfl, fun p hp hne => ?_⟩
    rw [lookup_restored hgood hexp hgone hp hne]
    by_cases hthere : lookup fs p = none
    · rw [hthere, ite_self]
    · rw [if_neg]
      obtain ⟨hcut, hshown⟩ := hcond p hp hne hthere
      rintro (hno | ⟨hnil, hno⟩)
      · exact hcut hno
      · exact Bool.false_ne_true ((hshown hnil).symm.trans hno)

end RoundTrip

section Leaves

variable {h : Host} {fs : Tree} {keypath : CStr} {a : Analysis}

/-- The path name that export removes at its end, or when it could not read the archive. -/
def Analysis.removes (a : Analysis) (h : Host) : Path :=
  pathName (if readFull (h.pack a.packed) = none then dirString a.root a.names else pathString a.root a.names)

/-- **When export leaves no archive**, where there was none: it did not get to pack one, or it has packed the key and
the archive lies under what it removes. -/
theorem export_leaves_iff (ha : analysisKeypath h fs keypath = a) (hbefore : lookup a.fs a.archive = none) :
    (∀ r, exportKeytree h fs keypath = some r → lookup r.fs a.archive = none) ↔
      (a.ret = 0 → a.names.length ≤ 512 → lookup a.fs a.dir = some .dir →
        Packable a.fs a.dir a.names ∧ a.removes h <+: a.archive) := by
  have hwritten : ∀ content, lookup (put a.fs a.archive (.file content)) a.archive ≠ none := by
    intro content
    rw [lookup_put, if_pos rfl]
    exact Option.some_ne_none _
  have hstart : exportKeytree h fs keypath =
      if 1024 < a.names.length then none
      else if a.ret ≠ 0 then some ⟨a.fs, a.ret, none⟩
      else if 512 < a.names.length then none
      else if lookup a.fs a.dir ≠ some .dir then some ⟨a.fs, tssErrShell, none⟩
      else if ¬ Packable a.fs a.dir a.names then
        some ⟨put a.fs a.archive (.file (h.pack a.packed)), tssErrShell, none⟩
      else
        match readFull (h.pack a.packed) with
        | none => some ⟨remove (put a.fs a.archive (.file (h.pack a.packed))) (pathName (dirString a.root a.names)),
            tssErrRead, none⟩
        | some tree => some ⟨remove (put a.fs a.archive (.file (h.pack a.packed)))
            (pathName (pathString a.root a.names)), 0, some (a.buffer tree)⟩ := by
    rw [exportKeytree, ha]
    rfl
  rw [hstart, Analysis.removes]
  have hvacuous : ∀ r : ExportRun, none = some r → lookup r.fs a.archive = none :=
    fun r hr => absurd hr.symm (Option.some_ne_none r)
  have hsame : ∀ ret r, some ⟨a.fs, ret, none⟩ = some (r : ExportRun) → lookup r.fs a.archive = none := by
    intro ret r hr
    obtain rfl := Option.some.inj hr
    exact hbefore
  by_cases h1 : 1024 < a.names.length
  · rw [if_pos h1]
    exact iff_of_true hvacuous fun _ hn => absurd hn (by omega)
  rw [if_neg h1]
  by_cases h2 : a.ret ≠ 0
  · rw [if_pos h2]
    exact iff_of_true (hsame _) fun hret => absurd hret h2
  rw [if_neg h2]
  by_cases h3 : 512 < a.names.length
  · rw [if_pos h3]
    exact iff_of_true hvacuous fun _ hn => absurd hn (by omega)
  rw [if_neg h3]
  by_cases h4 : lookup a.fs a.dir ≠ some .dir
  · rw [if_pos h4]
    exact iff_of_true (hsame _) fun _ _ hdir => absurd hdir h4
  rw [if_neg h4, forall_prop_of_true (not_not.mp h2), forall_prop_of_true (not_lt.mp h3),
    forall_prop_of_true (not_not.mp h4)]
  by_cases h5 : Packable a.fs a.dir a.names
  · rw [if_neg (not_not.mpr h5), and_iff_right h5]
    cases hread : readFull (h.pack a.packed) with
    | none =>
        rw [if_pos rfl]
        dsimp only
        rw [← lookup_remove_eq_none (hwritten (h.pack a.packed))]
        exact ⟨fun hall => hall _ rfl, fun hnone r hr => Option.some.inj hr ▸ hnone⟩
    | some tree =>
        rw [if_neg (Option.some_ne_none tree)]
        dsimp only
        rw [← lookup_remove_eq_none (hwritten (h.pack a.packed))]
        exact ⟨fun hall => hall _ rfl, fun hnone r hr => Option.some.inj hr ▸ hnone⟩
  · rw [if_pos h5]
    exact iff_of_false (fun hall => hwritten _ (hall _ rfl)) fun hc => h5 hc.1

/-- **Export leaves the archive of every key but the root**, where no path name is cut. -/
theorem removes_prefix_iff (hgood : a.Good h fs keypath) (hread : readFull (h.pack a.packed) ≠ none)
    (hshort : (pathString a.root a.names ++ keytreeTarGz).length ≤ 511) :
    a.removes h <+: a.archive ↔ a.names = [] := by
  have hname : components keytreeTarGz = [keytreeTarGz] := by decide
  have hremoves : a.removes h = a.dir ++ components (lastName a.names ++ keytreeTarGz) := by
    rw [Analysis.removes, if_neg hread, pathName, List.take_of_length_le hshort, pathString, List.append_assoc]
    exact components_slash (dirString_slash hgood.slash a.names)
  rw [hremoves, Analysis.archive, List.prefix_append_right_inj]
  constructor
  · intro hpre
    by_contra hne
    obtain ⟨-, c, s, hlast, hc⟩ := hgood.named_lastName hne
    rw [hlast] at hpre
    exact not_components_prefix hc (by decide) (by decide) hpre
  · intro hnil
    rw [hnil]
    show components ([] ++ keytreeTarGz) <+: [keytreeTarGz]
    rw [List.nil_append, hname]

end Leaves

/-- `"s://a"`. -/
def keyA : CStr := CStr.ofBytes [115, 58, 47, 47, 97]

/-- The key `a`, an empty directory under the root of the shared keys. -/
def treeA : Tree := [(components sharepath ++ [[97]], .dir), (components sharepath, .dir)]

/-- A host where `tar` packs that directory. -/
def hostA : Host where
  home := []
  pack := fun _ => [31, 139]
  unpack := fun _ => some [([[97]], .dir)]
  load := fun _ _ => 0

theorem exportable_keyA : Exportable hostA treeA (analysisKeypath hostA treeA keyA) where
  ready := ⟨by decide, fun _ => rfl⟩
  dir := by decide
  tree := by decide
  packable := by decide
  size := by decide
  unpack := by decide

/-- A buffer whose first byte is `n` and whose other bytes are zero. -/
def firstByte (n : UInt8) : ℕ → UInt8 := fun i => if i = 0 then n else 0

end KeyTree
end TsbAgent
