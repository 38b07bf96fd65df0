/-! Blank characters, and text without the blanks at its two ends. -/

namespace TolerantScript.Text

/-- The code points with the Unicode property White_Space. -/
def isBlank (c : Char) : Bool :=
  let n := c.toNat
  (0x09 ≤ n && n ≤ 0x0D) || n == 0x20 || n == 0x85 || n == 0xA0 || n == 0x1680 ||
    (0x2000 ≤ n && n ≤ 0x200A) || n == 0x2028 || n == 0x2029 || n == 0x202F || n == 0x205F ||
    n == 0x3000

def trim (cs : List Char) : List Char :=
  ((cs.dropWhile isBlank).reverse.dropWhile isBlank).reverse

theorem head_trim_not_blank (c : Char) (cs rest : List Char) (h : trim cs = c :: rest) :
    isBlank c = false := by
  unfold trim at h
  generalize hd : cs.dropWhile isBlank = ds at h
  cases ds with
  | nil => simp at h
  | cons d ds =>
    have hb : isBlank d = false := by
      have := List.head?_dropWhile_not isBlank cs
      simpa [hd] using this
    have hlast : (ds.reverse ++ [d]).dropWhile isBlank =
        ds.reverse.dropWhile isBlank ++ [d] := by
      rw [List.dropWhile_append]
      split
      · next h' => simp [List.isEmpty_iff.mp h', hb]
      · rfl
    rw [List.reverse_cons, hlast] at h
    have hc : d = c := by simpa using congrArg List.head? h
    exact hc ▸ hb

end TolerantScript.Text
