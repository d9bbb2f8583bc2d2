import Mathlib.Data.List.Basic

/-!
# Length-prefixed frames

A stream of byte strings in which each is preceded by its length, in four bytes, most
significant first.  A reader takes one frame at a time; a stream that was cut off
somewhere reads as the frames before the cut, followed by a torn rest.

* `getUint32_putUint32` — the header.
* `nextFrame_frame`, `nextFrame_torn` — a whole frame, and a part of one.
* `exists_cut` — where a cut falls.
-/

namespace Framing

/-- Lengths below this have a header. -/
def frameLimit : Nat := 0x100000000

/-- A number as four bytes, most significant first. -/
def putUint32 (n : Nat) : List UInt8 :=
  [UInt8.ofNat (n / 0x1000000), UInt8.ofNat (n / 0x10000), UInt8.ofNat (n / 0x100), UInt8.ofNat n]

/-- The number four bytes stand for. -/
def getUint32 (a b c d : UInt8) : Nat :=
  a.toNat * 0x1000000 + b.toNat * 0x10000 + c.toNat * 0x100 + d.toNat

theorem getUint32_putUint32 {n : Nat} (h : n < frameLimit) :
    getUint32 (UInt8.ofNat (n / 0x1000000)) (UInt8.ofNat (n / 0x10000)) (UInt8.ofNat (n / 0x100))
      (UInt8.ofNat n) = n := by
  unfold frameLimit at h
  unfold getUint32
  simp only [UInt8.toNat_ofNat']
  omega

/-- A byte string with its length in front. -/
def frame (payload : List UInt8) : List UInt8 := putUint32 payload.length ++ payload

@[simp] theorem length_frame (payload : List UInt8) :
    (frame payload).length = 4 + payload.length := by
  simp [frame, putUint32]
  omega

/-- What a reader finds at the start of a stream. -/
inductive Next where
  | eof
  | torn
  | whole (payload rest : List UInt8)
  deriving DecidableEq, Repr

/-- Read one frame. -/
def nextFrame : List UInt8 → Next
  | [] => .eof
  | a :: b :: c :: d :: rest =>
      if rest.length < getUint32 a b c d then .torn
      else .whole (rest.take (getUint32 a b c d)) (rest.drop (getUint32 a b c d))
  | _ => .torn

theorem length_rest {bytes payload rest : List UInt8}
    (h : nextFrame bytes = .whole payload rest) : rest.length < bytes.length := by
  unfold nextFrame at h
  split at h
  · exact absurd h (by simp)
  · split at h
    · exact absurd h (by simp)
    · injection h with _ hrest
      rw [← hrest]
      simp
      omega
  · exact absurd h (by simp)

theorem nextFrame_frame {payload : List UInt8} (h : payload.length < frameLimit)
    (rest : List UInt8) : nextFrame (frame payload ++ rest) = .whole payload rest := by
  unfold frame putUint32
  simp only [List.cons_append, List.nil_append, nextFrame]
  rw [getUint32_putUint32 h, if_neg (by simp), List.take_left, List.drop_left]

/-- A part of a frame is not taken for a whole one. -/
theorem nextFrame_torn {payload t : List UInt8} (h : payload.length < frameLimit)
    (ht : t <+: frame payload) (hne : t ≠ []) (hlt : t.length < (frame payload).length) :
    nextFrame t = .torn := by
  obtain ⟨k, rfl⟩ : ∃ k, t = (frame payload).take k := ⟨_, List.prefix_iff_eq_take.1 ht⟩
  rw [length_frame, List.length_take, length_frame] at hlt
  unfold frame putUint32 at hne ⊢
  rcases k with _ | _ | _ | _ | k
  · exact absurd rfl hne
  · rfl
  · rfl
  · rfl
  · simp only [List.cons_append, List.nil_append, List.take_succ_cons, nextFrame]
    rw [getUint32_putUint32 h, if_pos (by rw [List.length_take]; omega)]

/-- **Where a cut falls**: a sequence of chunks that is cut off after `k` elements consists of
the chunks that are whole, as many as fit, and a part of the next one. -/
theorem exists_cut {α β : Type} (f : α → List β) (xs : List α) (k : Nat) :
    ∃ j t, j ≤ xs.length ∧ (xs.flatMap f).take k = (xs.take j).flatMap f ++ t ∧
      ((xs.take j).flatMap f).length ≤ k ∧
      (j < xs.length → k < ((xs.take (j + 1)).flatMap f).length) ∧
      (t = [] ∨ ∃ x ∈ xs, t <+: f x ∧ t.length < (f x).length) := by
  induction xs generalizing k with
  | nil => exact ⟨0, [], Nat.le_refl _, by simp, by simp, by simp, Or.inl rfl⟩
  | cons x xs ih =>
      rcases Nat.lt_or_ge k (f x).length with hlt | hge
      · refine ⟨0, (f x).take k, Nat.zero_le _, ?_, by simp, fun _ => by simpa using hlt,
          Or.inr ⟨x, List.mem_cons_self .., List.take_prefix _ _, ?_⟩⟩
        · rw [List.flatMap_cons, List.take_append_of_le_length (Nat.le_of_lt hlt)]
          simp
        · rw [List.length_take]
          omega
      · obtain ⟨j, t, hj, hcut, hfit, hmax, ht⟩ := ih (k - (f x).length)
        refine ⟨j + 1, t, by simpa using hj, ?_, ?_, fun hlt => ?_, ?_⟩
        · rw [List.flatMap_cons, List.take_append, List.take_of_length_le hge, hcut,
            List.take_succ_cons, List.flatMap_cons, List.append_assoc]
        · rw [List.take_succ_cons, List.flatMap_cons, List.length_append]
          omega
        · rw [List.take_succ_cons, List.flatMap_cons, List.length_append]
          have := hmax (by simpa using hlt)
          omega
        · refine ht.imp_right ?_
          rintro ⟨y, hy, hrest⟩
          exact ⟨y, List.mem_cons_of_mem x hy, hrest⟩

end Framing
