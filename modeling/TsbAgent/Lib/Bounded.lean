/-
# Decoders that are watched at their bounds

A decoder reads a buffer at offsets that are machine integers, copies parts of it into memory
that it has just been given, and tests what it reads.  It stops with an error that it reports,
or with a `fault` when an access is not inside the buffer or a copy does not fit.

`Meets x Q` says that `x` has no fault and that what it returns satisfies `Q`.  Each step has a
rule that is an equivalence, so the rules turn a decoder into the arithmetic of its offsets.
`Within x y` says that `x` does what `y` does, or stops earlier with an error: a request for
memory that is not granted takes nothing away from the safety of a decoder.

`Walks` is what the loop over the items comes to (`meets_decode`), when a round is known by
where it is `safe`, where it is `accepted` and what the `next` state is.  A list `fits` when each
of its items does; `meets_decode_fits` is for a decoder that must not accept any other list.
-/

import TsbAgent.Lib.Codec
import TsbAgent.Lib.Word
import Mathlib.Logic.Relation

namespace TsbAgent
namespace Bounded

open Libc Word Codec

variable {α β σ ε : Type}

/-! ### The steps -/

/-- `n` bytes from `off` on lie inside the buffer. -/
def Inside (b : Bytes) (off n : ℤ) : Prop := n = 0 ∨ 0 ≤ off ∧ 0 ≤ n ∧ off + n ≤ b.length

instance (b : Bytes) (off n : ℤ) : Decidable (Inside b off n) := inferInstanceAs (Decidable (_ ∨ _))

/-- A text from `off` on ends inside the buffer. -/
def Ends (b : Bytes) (off : ℤ) : Prop := 0 ≤ off ∧ (0 : UInt8) ∈ b.drop off.toNat

instance (b : Bytes) (off : ℤ) : Decidable (Ends b off) := inferInstanceAs (Decidable (_ ∧ _))

/-- Reading a field of `n` bytes. -/
def read (b : Bytes) (off : ℤ) (n : ℕ) : Except (Failure ε) Bytes :=
  if Inside b off n then .ok (fieldAt b off.toNat n) else .error .fault

/-- `memcpy` of `n` bytes into `room` bytes; a negative `n` is huge. -/
def copy (b : Bytes) (off n room : ℤ) : Except (Failure ε) Bytes :=
  if Inside b off n ∧ n ≤ room then .ok (fieldAt b off.toNat n.toNat) else .error .fault

/-- Reading a text up to its terminator. -/
def readText (b : Bytes) (off : ℤ) : Except (Failure ε) CStr :=
  if Ends b off then .ok (CStr.ofBytes (b.drop off.toNat)) else .error .fault

/-- `malloc`, when the system grants it; a negative size is huge. -/
def malloc (granted : Bool) (n : ℤ) (e : ε) : Except (Failure ε) Unit :=
  if granted = true ∧ 0 ≤ n then .ok () else .error (.error e)

/-- A test of the code. -/
def check (bad : Prop) [Decidable bad] (e : ε) : Except (Failure ε) Unit :=
  if bad then .error (.error e) else .ok ()

/-- What the code needs without testing it. -/
def needs (good : Prop) [Decidable good] : Except (Failure ε) Unit := if good then .ok () else .error .fault

/-- `n` items, from the state `s` on, and the state after them. -/
def decode (item : σ → Except (Failure ε) (β × σ)) : ℕ → σ → Except (Failure ε) (List β × σ)
  | 0, s => .ok ([], s)
  | n + 1, s => do
      let first ← item s
      let rest ← decode item n first.2
      pure (first.1 :: rest.1, rest.2)

/-! ### What they meet -/

/-- No fault, and the result satisfies `Q`. -/
def Meets (x : Except (Failure ε) α) (Q : α → Prop) : Prop :=
  match x with
  | .ok a => Q a
  | .error (.error _) => True
  | .error .fault => False

section Rules

variable {b : Bytes} {off n room : ℤ} {x y : Except (Failure ε) α} {Q Q' : α → Prop}

theorem meets_pure (a : α) : Meets (pure a : Except (Failure ε) α) Q ↔ Q a := Iff.rfl

theorem meets_bind (x : Except (Failure ε) β) (f : β → Except (Failure ε) α) :
    Meets (x >>= f) Q ↔ Meets x fun a => Meets (f a) Q := by
  cases x with
  | ok a => exact Iff.rfl
  | error e =>
      cases e with
      | error e => exact Iff.rfl
      | fault => exact Iff.rfl

theorem meets_mono (hQ : ∀ a, Q a → Q' a) (h : Meets x Q) : Meets x Q' := by
  match x, h with
  | .ok a, h => exact hQ a h
  | .error (.error _), _ => exact trivial

theorem meets_congr (hQ : ∀ a, Q a ↔ Q' a) : Meets x Q ↔ Meets x Q' :=
  ⟨meets_mono fun a => (hQ a).mp, meets_mono fun a => (hQ a).mpr⟩

/-- What it says, without the cases. -/
theorem meets_iff : Meets x Q ↔ x ≠ .error .fault ∧ ∀ a, x = .ok a → Q a := by
  cases x with
  | ok a => exact ⟨fun h => ⟨by simp, fun a' ha => Except.ok.inj ha ▸ h⟩, fun h => h.2 a rfl⟩
  | error e =>
      cases e with
      | error e => exact iff_of_true trivial ⟨by simp, fun a ha => by cases ha⟩
      | fault => exact iff_of_false id fun h => h.1 rfl

theorem meets_read {k : ℕ} {Q : Bytes → Prop} :
    Meets (read b off k : Except (Failure ε) Bytes) Q ↔ Inside b off k ∧ Q (fieldAt b off.toNat k) := by
  rw [read]
  split_ifs with h
  · exact (and_iff_right h).symm
  · exact iff_of_false id fun hboth => h hboth.1

theorem meets_copy {Q : Bytes → Prop} : Meets (copy b off n room : Except (Failure ε) Bytes) Q ↔
    (Inside b off n ∧ n ≤ room) ∧ Q (fieldAt b off.toNat n.toNat) := by
  rw [copy]
  split_ifs with h
  · exact (and_iff_right h).symm
  · exact iff_of_false id fun hboth => h hboth.1

theorem meets_readText {Q : CStr → Prop} : Meets (readText b off : Except (Failure ε) CStr) Q ↔
    Ends b off ∧ Q (CStr.ofBytes (b.drop off.toNat)) := by
  rw [readText]
  split_ifs with h
  · exact (and_iff_right h).symm
  · exact iff_of_false id fun hboth => h hboth.1

theorem meets_malloc {granted : Bool} {e : ε} {Q : Unit → Prop} :
    Meets (malloc granted n e) Q ↔ (granted = true → 0 ≤ n → Q ()) := by
  rw [malloc]
  split_ifs with h
  · exact ⟨fun hq _ _ => hq, fun hq => hq h.1 h.2⟩
  · exact iff_of_true trivial fun hgranted hn => absurd ⟨hgranted, hn⟩ h

theorem meets_check {bad : Prop} [Decidable bad] {e : ε} {Q : Unit → Prop} :
    Meets (check bad e) Q ↔ (¬ bad → Q ()) := by
  rw [check]
  split_ifs with h
  · exact iff_of_true trivial fun hnot => absurd h hnot
  · exact ⟨fun hq _ => hq, fun hq => hq h⟩

theorem meets_needs {good : Prop} [Decidable good] {Q : Unit → Prop} :
    Meets (needs good : Except (Failure ε) Unit) Q ↔ good ∧ Q () := by
  rw [needs]
  split_ifs with h
  · exact (and_iff_right h).symm
  · exact iff_of_false id fun hboth => h hboth.1

theorem inside_iff {k : ℕ} (hk : k ≠ 0) : Inside b off k ↔ 0 ≤ off ∧ off + k ≤ b.length := by
  unfold Inside
  omega

/-- A text ends within its first `n` bytes. -/
theorem ends_within_iff {p : Bytes} {n : ℕ} :
    (0 : UInt8) ∈ p ∧ (CStr.ofBytes p).strlen + 1 ≤ n ↔ (0 : UInt8) ∈ p.take n := by
  induction p generalizing n with
  | nil => simp
  | cons c p ih =>
      cases n with
      | zero => simp
      | succ n =>
          rw [List.take_succ_cons, List.mem_cons, List.mem_cons, ← ih]
          show _ ∧ (cstr (c :: p)).length + 1 ≤ n + 1 ↔ _ ∨ _ ∧ (cstr p).length + 1 ≤ n
          rw [cstr_cons]
          rcases eq_or_ne c 0 with rfl | hc
          · simp
          · rw [if_neg hc, or_iff_right hc.symm, or_iff_right hc.symm, List.length_cons, Nat.add_le_add_iff_right]

/-- A test of an `int` against the length also passes what has wrapped around. -/
theorem int32_gt_iff {z len : ℤ} (h₀ : 0 ≤ len) (hlen : len < 2 ^ 31) (hz : -2 ^ 31 ≤ z) (hle : z ≤ len + 2 ^ 32) :
    int32 z > len ↔ len < z ∧ z < 2 ^ 31 := by
  rw [int32, Int.bmod_def]
  omega

end Rules

/-! ### Stopping earlier -/

/-- `x` does what `y` does, or stops with an error before. -/
def Within (x y : Except (Failure ε) α) : Prop := ∀ Q : α → Prop, Meets y Q → Meets x Q

section Within

variable {x y : Except (Failure ε) α} {n : ℕ} {s : σ}

theorem Within.refl (x : Except (Failure ε) α) : Within x x := fun _ h => h

theorem within_bind {u v : Except (Failure ε) β} {f k : β → Except (Failure ε) α} (huv : Within u v)
    (hfk : ∀ a, Within (f a) (k a)) : Within (u >>= f) (v >>= k) := by
  intro Q h
  rw [meets_bind] at h ⊢
  exact huv _ (meets_mono (fun a => hfk a Q) h)

theorem within_malloc (granted : Bool) (n : ℤ) (e : ε) : Within (malloc granted n e) (malloc true n e) := by
  intro Q h
  rw [meets_malloc] at h ⊢
  exact fun _ => h rfl

theorem within_decode {item item' : σ → Except (Failure ε) (β × σ)} (h : ∀ s, Within (item s) (item' s)) :
    Within (decode item n s) (decode item' n s) := by
  induction n generalizing s with
  | zero => exact .refl _
  | succ n ih => exact within_bind (h s) fun first => within_bind ih fun _ => .refl _

end Within

/-! ### The loop -/

/-- Every state that is reached is `safe`, and where all are accepted `Q` holds at the end. -/
def Walks (safe accepted : σ → Prop) (next : σ → σ) (Q : σ → Prop) : ℕ → σ → Prop
  | 0, s => Q s
  | n + 1, s => safe s ∧ (accepted s → Walks safe accepted next Q n (next s))

/-- All the items, each of which comes `after` the one before, satisfy `fits`. -/
def AllFit (fits : σ → Prop) (after : σ → σ) : ℕ → σ → Prop
  | 0, _ => True
  | n + 1, s => fits s ∧ AllFit fits after n (after s)

/-- The item is known by where it is safe, where it is accepted and what comes next. -/
def Item (item : σ → Except (Failure ε) (β × σ)) (safe accepted : σ → Prop) (next : σ → σ) : Prop :=
  ∀ s (Q : σ → Prop), Meets (item s) (fun r => Q r.2) ↔ safe s ∧ (accepted s → Q (next s))

section Loop

variable {item : σ → Except (Failure ε) (β × σ)} {safe accepted fits : σ → Prop} {next after : σ → σ}
  {Q : σ → Prop} {n : ℕ} {s : σ}

/-- The end of a walk, apart from its steps. -/
theorem walks_iff : Walks safe accepted next Q n s ↔
    Walks safe accepted next (fun _ => True) n s ∧ (AllFit accepted next n s → Q (next^[n] s)) := by
  induction n generalizing s with
  | zero => exact ⟨fun h => ⟨trivial, fun _ => h⟩, fun h => h.2 trivial⟩
  | succ n ih =>
      rw [Walks, Walks, AllFit, Function.iterate_succ_apply, ih, imp_and, and_imp, and_assoc]

/-- Where everything is accepted a walk is about all the items. -/
theorem walks_true_iff : Walks safe (fun _ => True) next (fun _ => True) n s ↔ AllFit safe next n s := by
  induction n generalizing s with
  | zero => exact Iff.rfl
  | succ n ih => rw [Walks, AllFit, ih, forall_true_left]

theorem allFit_true : AllFit (fun _ => True) next n s := by
  induction n generalizing s with
  | zero => trivial
  | succ n ih => exact ⟨trivial, ih⟩

/-- Two parts of a list. -/
theorem allFit_add {m : ℕ} :
    AllFit fits after (m + n) s ↔ AllFit fits after m s ∧ AllFit fits after n (after^[m] s) := by
  induction m generalizing s with
  | zero => rw [Nat.zero_add]; exact (and_iff_right trivial).symm
  | succ m ih => rw [Nat.succ_add, AllFit, AllFit, Function.iterate_succ_apply, ih, and_assoc]

theorem walks_congr {safe' : σ → Prop} (h : ∀ s, safe s ↔ safe' s) :
    Walks safe accepted next Q n s ↔ Walks safe' accepted next Q n s := by
  induction n generalizing s with
  | zero => exact Iff.rfl
  | succ n ih => rw [Walks, Walks, h, ih]

/-- Where an invariant makes every state safe the walk is. -/
theorem walks_of_invariant {I : σ → Prop} (hsafe : ∀ s, I s → safe s)
    (hnext : ∀ s, I s → accepted s → I (next s)) (hs : I s) :
    Walks safe accepted next (fun _ => True) n s := by
  induction n generalizing s with
  | zero => trivial
  | succ n ih => exact ⟨hsafe s hs, fun hacc => ih (hnext s hs hacc)⟩

/-- **The loop is a walk.** -/
theorem meets_decode (h : Item item safe accepted next) :
    Meets (decode item n s) (fun r => Q r.2) ↔ Walks safe accepted next Q n s := by
  induction n generalizing s with
  | zero => exact Iff.rfl
  | succ n ih =>
      rw [decode, meets_bind, Walks, ← ih]
      have hrest (r : β × σ) :
          Meets (decode item n r.2 >>= fun rest => pure (r.1 :: rest.1, rest.2)) (fun r => Q r.2) ↔
          Meets (decode item n r.2) fun r => Q r.2 := by
        rw [meets_bind]
        exact Iff.rfl
      rw [meets_congr hrest]
      exact h s fun s' => Meets (decode item n s') fun r => Q r.2

theorem meets_decode_succ (h : Item item safe accepted next) (P : Prop) :
    Meets (decode item (n + 1) s) (fun _ => P) ↔
      safe s ∧ (accepted s → Meets (decode item n (next s)) fun _ => P) := by
  rw [meets_decode (Q := fun _ => P) h, Walks, meets_decode (Q := fun _ => P) h]

/-- **A decoder must not accept a list that does not fit:** this is so exactly when every item
that is reached is safe, and fits where it is accepted.  An item that does not fit must not have a
safe one behind it, and one that is not where it should be must not be accepted. -/
theorem meets_decode_fits (h : Item item safe accepted next)
    (hnext : ∀ s, safe s → accepted s → safe (next s) → fits s ∧ (accepted (next s) → next s = after s)) :
    Meets (decode item n s) (fun _ => AllFit fits after n s) ↔
      Walks (fun s => safe s ∧ (accepted s → fits s)) accepted next (fun _ => True) n s := by
  induction n generalizing s with
  | zero => exact Iff.rfl
  | succ n ih =>
      rw [meets_decode_succ h, Walks, AllFit, ← ih, and_assoc, ← imp_and]
      refine and_congr_right fun hsafe => imp_congr_right fun hacc => ?_
      cases n with
      | zero => exact Iff.rfl
      | succ n =>
          rw [meets_decode_succ h, meets_decode_succ h]
          constructor
          · rintro ⟨hgood, hrest⟩
            obtain ⟨hfits, heq⟩ := hnext s hsafe hacc hgood
            refine ⟨hfits, hgood, fun hacc' => ?_⟩
            rw [heq hacc'] at hrest ⊢
            exact meets_mono (fun _ hall => hall.2) (hrest (heq hacc' ▸ hacc'))
          · rintro ⟨hfits, hgood, hrest⟩
            obtain ⟨-, heq⟩ := hnext s hsafe hacc hgood
            refine ⟨hgood, fun hacc' => ?_⟩
            rw [heq hacc'] at hrest ⊢
            exact meets_mono (fun _ hall => ⟨hfits, hall⟩) (hrest (heq hacc' ▸ hacc'))

end Loop

/-! ### A loop on a condition -/

/-- `while (cond) body`, for up to `n` rounds. -/
def repeatWhile (cond : σ → Prop) [DecidablePred cond] (body : σ → Except (Failure ε) σ) :
    ℕ → σ → Except (Failure ε) σ
  | 0, s => pure s
  | n + 1, s => if cond s then body s >>= repeatWhile cond body n else pure s

/-- The round is known by where it is safe, where it is accepted and what comes next. -/
def Round (body : σ → Except (Failure ε) σ) (safe accepted : σ → Prop) (next : σ → σ) : Prop :=
  ∀ s (Q : σ → Prop), Meets (body s) Q ↔ safe s ∧ (accepted s → Q (next s))

/-- The states that the loop comes to. -/
def Comes (cond accepted : σ → Prop) (next : σ → σ) : σ → σ → Prop :=
  Relation.ReflTransGen fun s t => cond s ∧ accepted s ∧ t = next s

section While

variable {cond : σ → Prop} [DecidablePred cond] {body : σ → Except (Failure ε) σ}
  {safe accepted : σ → Prop} {next : σ → σ} {s : σ}

/-- One round and the rest. -/
theorem meets_repeatWhile_succ (h : Round body safe accepted next) {n : ℕ} {Q : σ → Prop} :
    Meets (repeatWhile cond body (n + 1) s) Q ↔
      (cond s → safe s ∧ (accepted s → Meets (repeatWhile cond body n (next s)) Q)) ∧ (¬ cond s → Q s) := by
  rw [repeatWhile]
  rcases em (cond s) with hc | hc
  · rw [if_pos hc, meets_bind, h]
    exact ⟨fun hboth => ⟨fun _ => hboth, fun hn => absurd hc hn⟩, fun hboth => hboth.1 hc⟩
  · rw [if_neg hc]
    exact ⟨fun hq => ⟨fun hp => absurd hp hc, fun _ => hq⟩, fun hboth => hboth.2 hc⟩

/-- **The loop stays in bounds when every state that it comes to is safe,** for any number of rounds. -/
theorem meets_repeatWhile (h : Round body safe accepted next) :
    (∀ n, Meets (repeatWhile cond body n s) fun _ => True) ↔
      ∀ t, Comes cond accepted next s t → cond t → safe t := by
  constructor
  · intro hall t hcomes
    induction hcomes using Relation.ReflTransGen.head_induction_on with
    | refl => exact fun hc => (((meets_repeatWhile_succ h).mp (hall 1)).1 hc).1
    | head hstep _ ih =>
        obtain ⟨hc, hacc, rfl⟩ := hstep
        exact ih fun n => (((meets_repeatWhile_succ h).mp (hall (n + 1))).1 hc).2 hacc
  · intro hsafe n
    induction n generalizing s with
    | zero => trivial
    | succ n ih =>
        refine (meets_repeatWhile_succ h).mpr ⟨fun hc => ⟨hsafe s .refl hc, fun hacc => ?_⟩, fun _ => trivial⟩
        exact ih fun t hcomes => hsafe t (.head ⟨hc, hacc, rfl⟩ hcomes)

end While

end Bounded
end TsbAgent
