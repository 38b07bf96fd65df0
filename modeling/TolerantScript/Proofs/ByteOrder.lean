import Mathlib.Algebra.Group.Nat.Defs
import Mathlib.Tactic.SplitIfs

/-!
The order of texts. The first character in which two texts differ decides between them, and so does
the first byte in which their UTF-8 encodings differ: the encoding of the lesser character has the
lesser byte where the encodings of two characters part, and they part before either of them ends.
-/

namespace TolerantScript.Text

def bytes (s : String) : List UInt8 := s.toUTF8.data.toList

theorem bytes_eq_flatMap (s : String) : bytes s = s.toList.flatMap String.utf8EncodeChar := by
  rw [bytes, String.toUTF8_eq_toByteArray, ← String.utf8Encode_toList, List.utf8Encode,
    List.toList_data_toByteArray]

/-! The encoding of a character. -/

/-- A code point in base 64: the topmost digits with the mark of a first byte, then so many digits,
each with the mark of a byte that follows. -/
def spelled (mark : Nat) : Nat → Nat → List UInt8
  | 0, n => [UInt8.ofNat (mark + n)]
  | k + 1, n => spelled mark k (n / 64) ++ [UInt8.ofNat (n % 64 + 0x80)]

def shape (n : Nat) : Nat × Nat :=
  if n ≤ 0x7f then (0, 0)
  else if n ≤ 0x7ff then (0xc0, 1)
  else if n ≤ 0xffff then (0xe0, 2)
  else (0xf0, 3)

theorem toNat_val_lt (c : Char) : c.val.toNat < 0x110000 := by
  have hvalid := c.valid
  simp only [UInt32.isValidChar, Nat.isValidChar] at hvalid
  omega

theorem utf8EncodeChar_eq_spelled (c : Char) :
    String.utf8EncodeChar c = spelled (shape c.val.toNat).1 (shape c.val.toNat).2 c.val.toNat := by
  have hlt := toNat_val_lt c
  simp only [String.utf8EncodeChar, shape]
  generalize c.val.toNat = n at *
  have hthird : n / 4096 = n / 64 / 64 := by omega
  have hfourth : n / 262144 = n / 64 / 64 / 64 := by omega
  split_ifs with hone htwo hthree
  · simp only [spelled, Nat.zero_add]
  · rw [Nat.mod_eq_of_lt (show n / 64 < 32 by omega), Nat.add_comm (n / 64)]
    rfl
  · rw [Nat.mod_eq_of_lt (show n / 4096 < 16 by omega), Nat.add_comm (n / 4096), hthird]
    rfl
  · rw [Nat.mod_eq_of_lt (show n / 262144 < 8 by omega), Nat.add_comm (n / 262144), hthird, hfourth]
    rfl

theorem head_spelled (mark k n : Nat) :
    ∃ tail, spelled mark k n = UInt8.ofNat (mark + n / 64 ^ k) :: tail := by
  induction k generalizing n with
  | zero => exact ⟨[], by rw [Nat.pow_zero, Nat.div_one]; rfl⟩
  | succ k ih =>
    obtain ⟨tail, htail⟩ := ih (n / 64)
    refine ⟨tail ++ [UInt8.ofNat (n % 64 + 0x80)], ?_⟩
    rw [spelled, htail, Nat.div_div_eq_div_mul, Nat.pow_succ, Nat.mul_comm 64]
    rfl

theorem ofNat_lt_ofNat {m n : Nat} (h : m < n) (hn : n < 256) : UInt8.ofNat m < UInt8.ofNat n := by
  rw [UInt8.lt_iff_toNat_lt, UInt8.toNat_ofNat', UInt8.toNat_ofNat', Nat.mod_eq_of_lt (by omega),
    Nat.mod_eq_of_lt hn]
  exact h

/-- Of two code points of one shape, the encoding of the lesser comes first, whatever follows
them. -/
theorem spelled_lt {mark k m n : Nat} (h : m < n) (hfits : mark + n / 64 ^ k < 256)
    (cs ds : List UInt8) : spelled mark k m ++ cs < spelled mark k n ++ ds := by
  induction k generalizing m n cs ds with
  | zero =>
    rw [Nat.pow_zero, Nat.div_one] at hfits
    exact List.cons_lt_cons_iff.mpr (.inl (ofNat_lt_ofNat (by omega) hfits))
  | succ k ih =>
    rw [Nat.pow_succ, Nat.mul_comm, ← Nat.div_div_eq_div_mul] at hfits
    simp only [spelled, List.append_assoc]
    obtain hless | hsame : m / 64 < n / 64 ∨ m / 64 = n / 64 := by omega
    · exact ih hless hfits _ _
    · rw [hsame]
      refine List.append_left_lt (List.cons_lt_cons_iff.mpr (.inl ?_))
      exact ofNat_lt_ofNat (by omega) (by omega)

theorem first_lt {m n : Nat} (h : m < n) (hshape : shape m ≠ shape n) :
    (shape m).1 + m / 64 ^ (shape m).2 < (shape n).1 + n / 64 ^ (shape n).2 := by
  unfold shape at hshape ⊢
  split_ifs at hshape ⊢ <;> simp at hshape ⊢ <;> omega

theorem first_lt_size {n : Nat} (h : n < 0x110000) : (shape n).1 + n / 64 ^ (shape n).2 < 256 := by
  unfold shape
  split_ifs <;> simp <;> omega

theorem utf8EncodeChar_append_lt {c d : Char} (h : c < d) (cs ds : List UInt8) :
    String.utf8EncodeChar c ++ cs < String.utf8EncodeChar d ++ ds := by
  have hlt : c.val.toNat < d.val.toNat := h
  have hfits := first_lt_size (toNat_val_lt d)
  rw [utf8EncodeChar_eq_spelled, utf8EncodeChar_eq_spelled]
  by_cases hshape : shape c.val.toNat = shape d.val.toNat
  · rw [hshape]
    exact spelled_lt hlt hfits cs ds
  · obtain ⟨ctail, hc⟩ := head_spelled (shape c.val.toNat).1 (shape c.val.toNat).2 c.val.toNat
    obtain ⟨dtail, hd⟩ := head_spelled (shape d.val.toNat).1 (shape d.val.toNat).2 d.val.toNat
    rw [hc, hd]
    exact List.cons_lt_cons_iff.mpr (.inl (ofNat_lt_ofNat (first_lt hlt hshape) hfits))

/-! Texts. -/

theorem flatMap_lt {cs ds : List Char} (h : cs < ds) :
    cs.flatMap String.utf8EncodeChar < ds.flatMap String.utf8EncodeChar := by
  induction cs generalizing ds with
  | nil =>
    cases ds with
    | nil => exact absurd h (List.lt_irrefl [])
    | cons d ds =>
      obtain ⟨tail, hd⟩ := head_spelled (shape d.val.toNat).1 (shape d.val.toNat).2 d.val.toNat
      rw [List.flatMap_cons, utf8EncodeChar_eq_spelled, hd]
      exact List.nil_lt_cons _ _
  | cons c cs ih =>
    cases ds with
    | nil => exact absurd h (List.not_lt_nil _)
    | cons d ds =>
      rw [List.flatMap_cons, List.flatMap_cons]
      obtain hless | ⟨rfl, hrest⟩ := List.cons_lt_cons_iff.mp h
      · exact utf8EncodeChar_append_lt hless _ _
      · exact List.append_left_lt (ih hrest)

theorem bytes_lt {s t : String} (h : s < t) : bytes s < bytes t := by
  rw [bytes_eq_flatMap, bytes_eq_flatMap]
  exact flatMap_lt h

/-- Texts stand in the order of their encodings. -/
theorem bytes_lt_iff (s t : String) : bytes s < bytes t ↔ s < t := by
  refine ⟨fun h => ?_, bytes_lt⟩
  by_cases hle : t ≤ s
  · by_cases hsame : s = t
    · exact absurd h (hsame ▸ List.lt_irrefl _)
    · have hback : t < s := by
        refine Decidable.byContradiction fun hn => hsame (String.le_antisymm ?_ hle)
        exact String.not_lt.mp hn
      exact absurd (bytes_lt hback) (List.lt_asymm h)
  · exact String.not_le.mp hle

theorem bytes_inj (s t : String) : bytes s = bytes t ↔ s = t := by
  constructor
  · intro h
    refine String.le_antisymm (String.not_lt.mp fun hlt => ?_) (String.not_lt.mp fun hlt => ?_)
    · exact List.lt_irrefl _ (h ▸ bytes_lt hlt)
    · exact List.lt_irrefl _ (h ▸ bytes_lt hlt)
  · exact congrArg bytes

end TolerantScript.Text
