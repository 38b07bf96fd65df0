import TolerantScript.Proofs.StringSize

/-!
Strings that operators build. Two strings put one after the other, and one string repeated, are
given in full where their bytes are within the limit and are a fault where they are not. A length
that is computed in 64 bits, and may overflow there, decides this as the exact one does.
-/

namespace TolerantScript

/-- A length that overflows is over every limit, and one that does not is the exact one. -/
theorem wordLength?_any_le (limit : UInt64) (bytes : Nat) :
    (wordLength? bytes).any (· ≤ limit) = true ↔ bytes ≤ limit.toNat := by
  have hlimit := limit.toNat_lt_size
  unfold wordLength?
  by_cases hword : bytes < UInt64.size
  · have hexact : (UInt64.ofNat bytes).toNat = bytes := UInt64.toNat_ofNat_of_lt' hword
    rw [if_pos hword, Option.any_some, decide_eq_true_iff, UInt64.le_iff_toNat_le, hexact]
  · rw [if_neg hword, Option.any_none]
    exact iff_of_false (by decide) (by omega)

/-! What a built string has to be. -/

/-- The text, which has so many bytes, where they are within the limit, and the fault of a string
that is too long where they are not. -/
structure IsCapped (limit : UInt64) (text : String) (bytes : Nat) (r : Except Fault Value) :
    Prop where
  size : text.utf8ByteSize = bytes
  value : r = .ok (.string text) ↔ bytes ≤ limit.toNat
  fault : r = .error (.stringTooLong limit.toNat) ↔ limit.toNat < bytes
  /-- Whether the text is given can be decided in 64 bits. -/
  checked : r = .ok (.string text) ↔ (wordLength? bytes).any (· ≤ limit) = true

structure IsRepetition (limit : UInt64) (s : String) (count : Int32) (r : Except Fault Value) :
    Prop where
  negative : count.toInt < 0 →
    r = .error (.badType s!"string repeat count must be non-negative, found {count.toInt}")
  capped : 0 ≤ count.toInt → IsCapped limit (String.join (List.replicate count.toInt.toNat s))
    (s.utf8ByteSize * count.toInt.toNat) r

variable {limit : UInt64}

theorem IsCapped.of_cases {text : String} {bytes : Nat} {r : Except Fault Value}
    (hsize : text.utf8ByteSize = bytes) (hvalue : bytes ≤ limit.toNat → r = .ok (.string text))
    (hfault : limit.toNat < bytes → r = .error (.stringTooLong limit.toNat)) :
    IsCapped limit text bytes r := by
  have hgiven : r = .ok (.string text) ↔ bytes ≤ limit.toNat := by
    by_cases hfits : bytes ≤ limit.toNat
    · exact iff_of_true (hvalue hfits) hfits
    · simp [hfault (by omega), hfits]
  have hrefused : r = .error (.stringTooLong limit.toNat) ↔ limit.toNat < bytes := by
    by_cases hfits : bytes ≤ limit.toNat
    · simp [hvalue hfits, hfits]
    · exact iff_of_true (hfault (by omega)) (by omega)
  exact ⟨hsize, hgiven, hrefused, hgiven.trans (wordLength?_any_le limit bytes).symm⟩

/-- A text that is given once its length has passed the check. A limit is a word itself, so that a
length within it has not overflowed. -/
theorem IsCapped.of_check {text : String} {bytes : Nat} (hsize : text.utf8ByteSize = bytes) :
    IsCapped limit text bytes
      ((checkLength limit.toNat (wordLength? bytes)).bind fun _ => .ok (.string text)) := by
  have hword := limit.toNat_lt_size
  rw [checkLength_wordLength?]
  refine .of_cases hsize ?_ ?_
  · intro hfits
    rw [if_pos ⟨by omega, hfits⟩]
    rfl
  · intro hover
    rw [if_neg (by omega)]
    rfl

theorem IsCapped.bind {part whole : String} {bytes total : Nat} {r : Except Fault Value}
    {rest : Value → Except Fault Value} (hpart : IsCapped limit part bytes r) (hle : bytes ≤ total)
    (hwhole : IsCapped limit whole total (rest (.string part))) :
    IsCapped limit whole total (r.bind rest) := by
  by_cases hfits : bytes ≤ limit.toNat
  · rw [hpart.value.mpr hfits]
    exact hwhole
  · rw [hpart.fault.mpr (by omega)]
    exact .of_cases hwhole.size (fun htotal => by omega) fun _ => rfl

theorem IsCapped.unique {text : String} {bytes : Nat} {r r' : Except Fault Value}
    (h : IsCapped limit text bytes r) (h' : IsCapped limit text bytes r') : r = r' := by
  by_cases hfits : bytes ≤ limit.toNat
  · rw [h.value.mpr hfits, h'.value.mpr hfits]
  · rw [h.fault.mpr (by omega), h'.fault.mpr (by omega)]

theorem join_replicate_succ (s : String) (n : Nat) :
    String.join (List.replicate (n + 1) s) = String.join (List.replicate n s) ++ s := by
  simp [List.replicate_succ']

theorem repeated_eq_join (s : String) (n : Nat) :
    repeated s n = String.join (List.replicate n s) := by
  unfold repeated
  induction n with
  | zero => simp [Nat.repeat]
  | succ n ih =>
    rw [join_replicate_succ, ← ih]
    split
    case isTrue hempty =>
      obtain rfl : s = "" := by simpa using hempty
      rfl
    case isFalse => rfl

namespace BinaryOp

theorem isCapped_join (limit : UInt64) (s t : String) :
    IsCapped limit (s ++ t) (s.utf8ByteSize + t.utf8ByteSize) (join limit.toNat s t) :=
  .of_check String.utf8ByteSize_append

theorem isRepetition_multiply (limit : UInt64) (s : String) (count : Int32) :
    IsRepetition limit s count (multiply limit.toNat s count) := by
  unfold multiply
  constructor
  · intro hnegative
    rw [if_pos hnegative]
  · intro hcount
    rw [if_neg (by omega), ← repeated_eq_join]
    exact .of_check (utf8ByteSize_repeated s _)

theorem apply_joining {op : BinaryOp} (hop : op ∈ [BinaryOp.add, .concat]) (limit : Nat)
    (s t : String) : op.apply limit (.string s) (.string t) = join limit s t := by
  simp only [List.mem_cons, List.not_mem_nil, or_false] at hop
  obtain rfl | rfl := hop <;> rfl

theorem isCapped_join_left (limit : UInt64) (s t u : String) {op : BinaryOp}
    (hop : op ∈ [BinaryOp.add, .concat]) :
    IsCapped limit (s ++ t ++ u) (s.utf8ByteSize + t.utf8ByteSize + u.utf8ByteSize)
      ((op.apply limit.toNat (.string s) (.string t)).bind fun v =>
        op.apply limit.toNat v (.string u)) := by
  rw [apply_joining hop]
  refine (isCapped_join limit s t).bind (Nat.le_add_right _ _) ?_
  rw [apply_joining hop, ← String.utf8ByteSize_append]
  exact isCapped_join limit (s ++ t) u

theorem isCapped_join_right (limit : UInt64) (s t u : String) {op : BinaryOp}
    (hop : op ∈ [BinaryOp.add, .concat]) :
    IsCapped limit (s ++ t ++ u) (s.utf8ByteSize + t.utf8ByteSize + u.utf8ByteSize)
      ((op.apply limit.toNat (.string t) (.string u)).bind fun v =>
        op.apply limit.toNat (.string s) v) := by
  rw [apply_joining hop, String.append_assoc, Nat.add_assoc]
  refine (isCapped_join limit t u).bind (Nat.le_add_left _ _) ?_
  rw [apply_joining hop, ← String.utf8ByteSize_append]
  exact isCapped_join limit s (t ++ u)

end BinaryOp

/-- Strings are built exactly, and refused exactly where they exceed the limit. Both operators that
join give the one string and then the other; a string and a count give, in either order, the string
so many times, or a type fault if the count is negative. That lengths are computed in 64 bits
changes nothing. Three strings come to the same whichever two are joined first, also where they are
too long. -/
theorem strings_built_within_limit (limit : UInt64) (s t u : String) (n : Int32) :
    (∀ op ∈ [BinaryOp.add, .concat],
      IsCapped limit (s ++ t) (s.utf8ByteSize + t.utf8ByteSize)
        (op.apply limit.toNat (.string s) (.string t))) ∧
    IsRepetition limit s n (BinaryOp.apply limit.toNat .mul (.string s) (.int n)) ∧
    IsRepetition limit s n (BinaryOp.apply limit.toNat .mul (.int n) (.string s)) ∧
    ∀ op ∈ [BinaryOp.add, .concat],
      ((op.apply limit.toNat (.string s) (.string t)).bind fun v =>
        op.apply limit.toNat v (.string u)) =
      ((op.apply limit.toNat (.string t) (.string u)).bind fun v =>
        op.apply limit.toNat (.string s) v) ∧
      IsCapped limit (s ++ t ++ u) (s.utf8ByteSize + t.utf8ByteSize + u.utf8ByteSize)
        ((op.apply limit.toNat (.string s) (.string t)).bind fun v =>
          op.apply limit.toNat v (.string u)) := by
  refine ⟨?_, BinaryOp.isRepetition_multiply limit s n, BinaryOp.isRepetition_multiply limit s n,
    ?_⟩
  · intro op hop
    rw [BinaryOp.apply_joining hop]
    exact BinaryOp.isCapped_join limit s t
  · intro op hop
    have hleft := BinaryOp.isCapped_join_left limit s t u hop
    exact ⟨hleft.unique (BinaryOp.isCapped_join_right limit s t u hop), hleft⟩

/-- Five bytes hold two of the accented letters and not a third, in whatever order they are
joined. -/
theorem strings_built_within_limit_accents :
    BinaryOp.concat ∈ [BinaryOp.add, .concat] ∧
    BinaryOp.apply 5 .concat (.string "é") (.string "è") = .ok (.string "éè") ∧
    ((BinaryOp.apply 5 .concat (.string "è") (.string "ê")).bind fun v =>
      BinaryOp.apply 5 .concat (.string "é") v) = .error (.stringTooLong 5) ∧
    BinaryOp.apply 5 .mul (.int 3) (.string "é") = .error (.stringTooLong 5) := by
  have hop : BinaryOp.concat ∈ [BinaryOp.add, .concat] := by decide
  obtain ⟨hjoin, -, htimes, hthree⟩ := strings_built_within_limit 5 "é" "è" "ê" 3
  obtain ⟨hsame, hleft⟩ := hthree .concat hop
  exact ⟨hop, (hjoin .concat hop).value.mpr (by decide),
    hsame.symm.trans (hleft.fault.mpr (by decide)),
    (htimes.capped (by decide)).fault.mpr (by decide)⟩

/-- However high the count, an empty string stays within every limit. -/
example : BinaryOp.apply 0 .mul (.string "") (.int 2147483647) = .ok (.string "") := rfl

end TolerantScript
