import Mathlib.Data.List.DropRight

/-!
# Text, as Go's library reads and writes it

Text is a list of characters.  Here is what verifying a program needs of `strings`, `fmt` and
`net`: white space, network addresses, decimal numbers, and a scan for a number between two
literals.  A scan looks at the beginning of its input and does not care about the rest.

* `trimSpace` — `strings.TrimSpace`.
* `splitHostPort` — `net.SplitHostPort`.
* `decimal`, `scanUint64` — the verb `%d`, written and read.
* `sscanfUint64` — `fmt.Sscanf` with a format that has one such verb.
* `sscanfUint64_decimal` — what is written is read back, whatever follows it.
-/

namespace GoText

/-- `unicode.IsSpace`. -/
def isSpace (c : Char) : Bool :=
  (9 ≤ c.toNat && c.toNat ≤ 13) || c.toNat == 0x20 || c.toNat == 0x85 || c.toNat == 0xA0 ||
    c.toNat == 0x1680 || (0x2000 ≤ c.toNat && c.toNat ≤ 0x200a) || c.toNat == 0x2028 ||
    c.toNat == 0x2029 || c.toNat == 0x202f || c.toNat == 0x205f || c.toNat == 0x3000

/-- `strings.TrimSpace`. -/
def trimSpace (s : List Char) : List Char := (s.dropWhile isSpace).rdropWhile isSpace

/-- `net.AddrError`. -/
structure AddrError where
  err : String
  addr : List Char

/-- `bytealg.LastIndexByteString`. -/
def lastIndexOf (c : Char) (s : List Char) : Option Nat :=
  (s.reverse.idxOf? c).map fun k => s.length - 1 - k

/-- The host of `net.SplitHostPort`, with the positions from which on brackets are not allowed
any more; `i` is the position of the last colon. -/
def splitHost (hostport : List Char) (i : Nat) : Except AddrError (List Char × Nat × Nat) :=
  if hostport.head? = some '[' then
    -- the first `]` is expected just before the last colon
    match hostport.idxOf? ']' with
    | none => .error ⟨"missing ']' in address", hostport⟩
    | some stop =>
        if stop + 1 = hostport.length then .error ⟨"missing port in address", hostport⟩
        else if stop + 1 = i then .ok ((hostport.take stop).drop 1, 1, stop + 1)
        else if hostport[stop + 1]? = some ':' then
          .error ⟨"too many colons in address", hostport⟩
        else .error ⟨"missing port in address", hostport⟩
  else if ':' ∈ hostport.take i then .error ⟨"too many colons in address", hostport⟩
  else .ok (hostport.take i, 0, 0)

/-- `net.SplitHostPort`: the host and the port. -/
def splitHostPort (hostport : List Char) : Except AddrError (List Char × List Char) :=
  match lastIndexOf ':' hostport with
  | none => .error ⟨"missing port in address", hostport⟩
  | some i =>
      match splitHost hostport i with
      | .error e => .error e
      | .ok (host, j, k) =>
          if '[' ∈ hostport.drop j then .error ⟨"unexpected '[' in address", hostport⟩
          else if ']' ∈ hostport.drop k then .error ⟨"unexpected ']' in address", hostport⟩
          else .ok (host, hostport.drop (i + 1))

/-- A number in decimal, as `%d` writes it. -/
def decimal (n : Nat) : List Char := Nat.toDigits 10 n

/-- A literal of a format: what follows it, if the input starts with it. -/
def scanLiteral : List Char → List Char → Option (List Char)
  | [], s => some s
  | _ :: _, [] => none
  | c :: cs, d :: s => if c = d then scanLiteral cs s else none

/-- The verb `%d` for a `uint64`: the number, and what follows it.  Blanks before the number
are skipped, a line break is not. -/
def scanUint64 (s : List Char) : Option (Nat × List Char) :=
  let rest := s.dropWhile fun c => isSpace c && c.toNat != 10
  let digits := rest.takeWhile Char.isDigit
  if digits = [] ∨ UInt64.size ≤ Nat.ofDigitChars 10 digits 0 then none
  else some (Nat.ofDigitChars 10 digits 0, rest.dropWhile Char.isDigit)

/-- `fmt.Sscanf` with the literal `before`, the verb `%d` and the literal `after`. -/
def sscanfUint64 (before after s : List Char) : Option Nat :=
  (scanLiteral before s).bind fun s =>
    (scanUint64 s).bind fun r => (scanLiteral after r.2).map fun _ => r.1

theorem scanLiteral_append (l s : List Char) : scanLiteral l (l ++ s) = some s := by
  induction l with
  | nil => rfl
  | cons c l ih =>
      rw [List.cons_append, scanLiteral, if_pos rfl, ih]

theorem isDigit_of_mem_decimal {n : Nat} {c : Char} (h : c ∈ decimal n) : c.isDigit = true :=
  Nat.isDigit_of_mem_toDigits (by decide) (by decide) h

theorem isSpace_of_isDigit {c : Char} (h : c.isDigit = true) : isSpace c = false := by
  have hd : 48 ≤ c.toNat ∧ c.toNat ≤ 57 := by
    simp only [Char.isDigit, Bool.and_eq_true, decide_eq_true_eq] at h
    exact ⟨UInt32.le_iff_toNat_le.1 h.1, UInt32.le_iff_toNat_le.1 h.2⟩
  unfold isSpace
  simp only [Bool.or_eq_false_iff, Bool.and_eq_false_iff, decide_eq_false_iff_not,
    beq_eq_false_iff_ne]
  omega

/-- A number is read back, if no digit follows it. -/
theorem scanUint64_decimal {n : Nat} (hn : n < UInt64.size) {s : List Char}
    (hs : ∀ c ∈ s.head?, c.isDigit = false) : scanUint64 (decimal n ++ s) = some (n, s) := by
  have hdigits : ∀ c ∈ decimal n, c.isDigit = true := fun c hc => isDigit_of_mem_decimal hc
  obtain ⟨c, cs, hc⟩ : ∃ c cs, decimal n = c :: cs := List.exists_cons_of_ne_nil Nat.toDigits_ne_nil
  have hspace : (decimal n ++ s).dropWhile (fun c => isSpace c && c.toNat != 10) =
      decimal n ++ s := by
    have hfirst := isSpace_of_isDigit (hdigits c (by rw [hc]; exact List.mem_cons_self ..))
    rw [hc, List.cons_append, List.dropWhile_cons_of_neg (by simp [hfirst])]
  have hstop : s.takeWhile Char.isDigit = [] ∧ s.dropWhile Char.isDigit = s := by
    cases s with
    | nil => exact ⟨rfl, rfl⟩
    | cons d s =>
        have hd := hs d rfl
        exact ⟨List.takeWhile_cons_of_neg (by simp [hd]), List.dropWhile_cons_of_neg (by simp [hd])⟩
  have htake : (decimal n ++ s).takeWhile Char.isDigit = decimal n := by
    rw [List.takeWhile_append_of_pos hdigits, hstop.1, List.append_nil]
  have hdrop : (decimal n ++ s).dropWhile Char.isDigit = s := by
    rw [List.dropWhile_append_of_pos hdigits, hstop.2]
  have hvalue : Nat.ofDigitChars 10 (decimal n) 0 = n := Nat.ofDigitChars_ten_toDigits
  unfold scanUint64
  dsimp only
  rw [hspace, htake, hdrop, hvalue, if_neg]
  rintro (hnil | hle)
  · exact absurd hnil Nat.toDigits_ne_nil
  · omega

/-- What is read is a `uint64`. -/
theorem lt_size_of_scanUint64 {s : List Char} {r : Nat × List Char} (h : scanUint64 s = some r) :
    r.1 < UInt64.size := by
  unfold scanUint64 at h
  dsimp only at h
  by_cases hbad : (s.dropWhile fun c => isSpace c && c.toNat != 10).takeWhile Char.isDigit = [] ∨
      UInt64.size ≤ Nat.ofDigitChars 10
        ((s.dropWhile fun c => isSpace c && c.toNat != 10).takeWhile Char.isDigit) 0
  · rw [if_pos hbad] at h
    exact absurd h (by simp)
  · rw [if_neg hbad, Option.some.injEq] at h
    rw [← h]
    exact not_le.1 fun hle => hbad (Or.inr hle)

/-- **What is written is read back**, whatever follows it. -/
theorem sscanfUint64_decimal {n : Nat} (hn : n < UInt64.size) {before after : List Char}
    (hafter : ∃ c ∈ after.head?, c.isDigit = false) (rest : List Char) :
    sscanfUint64 before after (before ++ decimal n ++ after ++ rest) = some n := by
  obtain ⟨c, hc, hdigit⟩ := hafter
  have hhead : ∀ d ∈ (after ++ rest).head?, d.isDigit = false := by
    intro d hd
    rw [List.head?_append, hc, Option.some_or, Option.mem_some_iff] at hd
    exact hd ▸ hdigit
  unfold sscanfUint64
  rw [List.append_assoc, List.append_assoc, scanLiteral_append, Option.bind_some,
    scanUint64_decimal hn hhead, Option.bind_some, scanLiteral_append]
  rfl

/-- Numerals determine the number. -/
theorem decimal_inj {m n : Nat} (h : decimal m = decimal n) : m = n := by
  have := congrArg (fun l => Nat.ofDigitChars 10 l 0) h
  simpa [decimal] using this

end GoText
