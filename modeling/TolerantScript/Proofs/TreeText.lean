import TolerantScript.Proofs.JsonNesting
import TolerantScript.Proofs.TreeRewording
import TolerantScript.Tree.Reader

/-!
Programs written as text and read again. The reader takes statements from the text one by one and
decodes each before it goes on; on the text of a program this comes to reading the whole value.
-/

namespace TolerantScript

open Json

namespace Stmt

/-! A statement of the program. -/

theorem readKind_quoted (k : Kind) (tail : List Char) :
    readKind (' ' :: quoted k.tag tail) = .ok (k, tail) := by
  obtain ⟨cs, hquoted, hread⟩ := Quoted.read_quoted k.tag tail
  have hskip : skipSpace (' ' :: '"' :: cs) = '"' :: cs := rfl
  rw [hquoted, readKind, hskip]
  simp only [hread, ReadError.ok_bind]
  rw [Kind.find?_tag]
  rfl

theorem readMember_kind (most indent : Nat) (k : Kind) (tail : List Char) :
    readMember (readPart most) (none, []) (memberText indent ("kind", .string k.tag) tail) =
      .ok ((some k, []), tail) := by
  rw [readMember_memberText, readPart, if_pos rfl, readColon_colon, write]
  simp only [Option.isSome_none, Bool.false_eq_true, if_false, ReadError.ok_bind, readKind_quoted]
  rfl

theorem takes_part {most : Nat} {m : String × Json} (hkey : m.1 ≠ "kind") (hexact : Exact m.2)
    (indent : Nat) :
    Takes '}' most stmtLevels (fun m => m.2.nesting) (fun acc m => (acc.1, m :: acc.2))
      (memberText indent) (readMember (readPart most)) m := by
  refine (hexact.recovers most).takes_member hexact indent fun acc cs => ?_
  rw [readPart, if_neg hkey, readColon_colon]
  rfl

theorem foldl_parts (k : Option Kind) (parts acc : List (String × Json)) :
    parts.foldl (fun acc m => (acc.1, m :: acc.2)) (k, acc) = (k, parts.reverse ++ acc) := by
  induction parts generalizing acc with
  | nil => rfl
  | cons m parts ih =>
    rw [List.foldl_cons, ih, List.reverse_cons, List.append_assoc, List.singleton_append]

theorem ofParts_members {stmt : Stmt}
    (h : highest (fun m => m.2.nesting) stmt.members ≤ stmtLevels) :
    ofParts stmt.kind (.object stmt.members) = .ok stmt := by
  rw [ofParts, stmt.decodes stmtLevels (highest_le_iff.mp h), shaped]

theorem readItems_members {most indent : Nat} {stmt : Stmt} {tail : List Char}
    (hmost : (enclosed indent (memberText (indent + 1)) '}' tail
      (("kind", .string stmt.kind.tag) :: stmt.members)).length < most) :
    readItems '}' (readMember (readPart most)) most true (none, [])
        (enclosed indent (memberText (indent + 1)) '}' tail
          (("kind", .string stmt.kind.tag) :: stmt.members)) =
      if highest (fun m => m.2.nesting) stmt.members ≤ stmtLevels then
        .ok ((some stmt.kind, stmt.members.reverse), tail)
      else .error .malformed := by
  obtain ⟨k, rfl⟩ : ∃ k, most = k + 1 := ⟨most - 1, by omega⟩
  have htakes : ∀ m ∈ stmt.members, Takes '}' (k + 1) stmtLevels (fun m => m.2.nesting)
      (fun acc m => (acc.1, m :: acc.2)) (memberText (indent + 1))
      (readMember (readPart (k + 1))) m :=
    fun m hm => takes_part (key_of_mem_members hm) (stmt.exact_members m hm) (indent + 1)
  have hlength : (following (indent + 1) (memberText (indent + 1)) (newLine indent ('}' :: tail))
      stmt.members).length < (enclosed indent (memberText (indent + 1)) '}' tail
        (("kind", .string stmt.kind.tag) :: stmt.members)).length :=
    length_following_lt_enclosed fun tail =>
      length_le_memberText (length_le_write (.string stmt.kind.tag) (indent + 1) tail)
  have hrest := readItems_following (by decide) (by decide) htakes (indent + 1) indent tail k
    (some stmt.kind, []) (by omega) (by omega)
  rw [foldl_parts, List.append_nil] at hrest
  rw [readItems_enclosed_cons (opens_memberText (indent + 1) _), readMember_kind]
  exact hrest

/-- The statement itself is one level, and its members have the rest. -/
theorem read_toJson (stmt : Stmt) {most indent : Nat} {tail : List Char}
    (hmost : (stmt.toJson.write indent tail).length < most) :
    read most (stmt.toJson.write indent tail) =
      if stmt.toJson.nesting ≤ stmtLevels + 1 then .ok (stmt, tail) else .error .malformed := by
  rw [toJson_eq, Kind.node, write_object] at hmost ⊢
  have hitems := readItems_members (Nat.lt_of_succ_lt hmost)
  simp only [read, skipSpace_brace, hitems, nesting_node, Nat.add_le_add_iff_right]
  by_cases h : highest (fun m => m.2.nesting) stmt.members ≤ stmtLevels
  · simp [h, shaped, ofParts_members h]
  · simp [h]

/-! All statements of the program. -/

theorem takes_stmt (most indent : Nat) (stmt : Stmt) :
    Takes ']' most (stmtLevels + 1) (fun stmt => stmt.toJson.nesting) (fun acc stmt => stmt :: acc)
      (fun stmt cs => stmt.toJson.write indent cs)
      (fun acc cs => do
        let (stmt, rest) ← read most cs
        return (stmt :: acc, rest)) stmt where
  opens := opens_write stmt.toJson indent
  longer := length_le_write stmt.exact_toJson indent
  read acc tail _ hbound := by
    rw [read_toJson stmt hbound]
    split <;> rfl

theorem readAll_toJson (stmts : List Stmt) {most indent : Nat} {tail : List Char}
    (hmost : ((array (stmts.map toJson)).write indent tail).length < most) :
    readAll most (' ' :: (array (stmts.map toJson)).write indent tail) =
      if highest (fun stmt => stmt.toJson.nesting) stmts ≤ stmtLevels + 1 then .ok (stmts, tail)
      else .error .malformed := by
  have hskip : ∀ cs, skipSpace (' ' :: '[' :: cs) = '[' :: cs := fun _ => rfl
  rw [write_array, enclosed_map] at hmost ⊢
  have hread := readItems_enclosed (by decide) (by decide)
    (fun stmt (_ : stmt ∈ stmts) => takes_stmt most (indent + 1) stmt) indent tail []
    (Nat.lt_of_succ_lt hmost)
  simp only [readAll, hskip, hread]
  split <;> simp

end Stmt

namespace Program

theorem toJson_eq (p : Program) :
    p.toJson = .object [("stmts", .array (p.stmts.map Stmt.toJson))] := by
  rw [toJson, Stmt.listToJson_eq]

theorem exact_toJson (p : Program) : Exact p.toJson := by
  rw [toJson_eq]
  refine .object _ ?_
  simpa using exact_array_map fun stmt _ => stmt.exact_toJson

theorem nesting_toJson (p : Program) :
    p.toJson.nesting = highest (fun stmt => stmt.toJson.nesting) p.stmts + 2 := by
  rw [toJson_eq, nesting_object, highest, highest, nesting_array, highest_map, Nat.max_zero]

theorem readMember_stmts (p : Program) {most indent : Nat} {tail : List Char}
    (hmost : ((array (p.stmts.map Stmt.toJson)).write indent tail).length < most) :
    readMember (readPart most) none
        (memberText indent ("stmts", .array (p.stmts.map Stmt.toJson)) tail) =
      if p.toJson.nesting ≤ maxOpen then .ok (some p.stmts, tail) else .error .malformed := by
  -- The object of the program and the array in it are the first two things open.
  have hlevels : p.toJson.nesting ≤ maxOpen ↔
      highest (fun stmt => stmt.toJson.nesting) p.stmts ≤ stmtLevels + 1 := by
    rw [nesting_toJson]
    simp only [maxOpen, stmtLevels]
    omega
  rw [readMember_memberText, readPart, if_pos rfl, readColon_colon]
  simp only [Option.isSome_none, Bool.false_eq_true, if_false, ReadError.ok_bind,
    Stmt.readAll_toJson p.stmts hmost, hlevels]
  split <;> simp

theorem readFront_toJson (p : Program) {most : Nat} (hmost : (p.toJson.write 0 []).length < most) :
    readFront most (p.toJson.write 0 []) =
      if p.toJson.nesting ≤ maxOpen then .ok (p, []) else .error .malformed := by
  have hwrite : p.toJson.write 0 [] = '{' :: enclosed 0 (memberText 1) '}' []
      [("stmts", .array (p.stmts.map Stmt.toJson))] := by
    rw [toJson_eq, write_object]
  have hvalue : ((array (p.stmts.map Stmt.toJson)).write 1 (newLine 0 ['}'])).length <
      (memberText 1 ("stmts", .array (p.stmts.map Stmt.toJson)) (newLine 0 ['}'])).length :=
    length_lt_memberText 1 ("stmts", .array (p.stmts.map Stmt.toJson)) (newLine 0 ['}'])
  have hline := length_lt_newLine (0 + 1)
    (memberText 1 ("stmts", .array (p.stmts.map Stmt.toJson)) (newLine 0 ['}']))
  have hclosed : next '}' false (newLine 0 ['}']) = .ok (.closed []) := by
    rw [next_newLine, next_closed (by decide)]
  rw [hwrite, List.length_cons, enclosed, following] at hmost
  obtain ⟨k, rfl⟩ : ∃ k, most = k + 2 := ⟨most - 2, by omega⟩
  rw [hwrite]
  simp only [readFront, skipSpace_brace]
  rw [readItems_enclosed_cons (opens_memberText 1 _), following, readMember_stmts p (by omega)]
  by_cases h : p.toJson.nesting ≤ maxOpen
  · rw [if_pos h, if_pos h]
    simp only [ReadError.ok_bind, readItems_closed hclosed k (some p.stmts)]
    rfl
  · rw [if_neg h, if_neg h]
    rfl

/-- Reading the text of a program gives the program back if the text has at most 127 arrays and
objects open at once, and fails if it has more. -/
theorem text_reads_back (p : Program) :
    read p.text = if mostOpen .outside 0 p.text.toList ≤ 127 then .ok p else .error .malformed := by
  have hfront := p.readFront_toJson (Nat.lt_succ_self _)
  rw [text, p.exact_toJson.mostOpen_text, Json.text, read, String.toList_ofList]
  simp only [hfront, maxOpen]
  by_cases h : p.toJson.nesting ≤ 127
  · simp only [h, if_true]
    rfl
  · simp only [h, if_false]
    rfl

end Program

end TolerantScript
