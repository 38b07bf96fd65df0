import TolerantScript.Proofs.Node
import TolerantScript.Proofs.Task

/-! How deep trees are: one level for every statement and every expression on the longest path. -/

namespace TolerantScript

def Expr.height : Expr → Nat
  | .literal .. | .var .. => 1
  | .binary _ l r _ => max l.height r.height + 1
  | .unary _ e _ | .paren e _ => e.height + 1

theorem Expr.height_pos (e : Expr) : 0 < e.height := by
  cases e <;> simp [height]

theorem Expr.height_of_mem_nodes {e n : Expr} {d k : Nat} (h : (k, n) ∈ e.nodes d) :
    k + n.height ≤ d + e.height := by
  induction e generalizing d with
  | literal l p | var name p =>
    simp only [nodes, List.mem_cons, List.not_mem_nil, or_false, Prod.mk.injEq] at h
    obtain ⟨rfl, rfl⟩ := h
    exact Nat.le_refl _
  | binary op l r p ihl ihr =>
    simp only [nodes, List.mem_cons, List.mem_append, Prod.mk.injEq] at h
    obtain ⟨rfl, rfl⟩ | h | h := h
    · exact Nat.le_refl _
    · have := ihl h
      rw [height]
      omega
    · have := ihr h
      rw [height]
      omega
  | unary op e p ih | paren e p ih =>
    simp only [nodes, List.mem_cons, Prod.mk.injEq] at h
    obtain ⟨rfl, rfl⟩ | h := h
    · exact Nat.le_refl _
    · have := ih h
      rw [height]
      omega

def Task.height : Task → Nat
  | .start => 1
  | .give e | .test e | .assign _ e => e.height
  | .declare .. => 0

namespace Stmt

mutual

def height : Stmt → Nat
  | .expr e | .assign _ e => e.height + 1
  | .declare .. | .empty _ => 1
  | .block stmts _ => heightAll stmts + 1
  | .branch cond yes no _ => max cond.height (max (height yes) (heightElse no)) + 1
  | .whileDo cond body _ | .doWhile body cond _ => max cond.height (height body) + 1

def heightAll : List Stmt → Nat
  | [] => 0
  | stmt :: rest => max (height stmt) (heightAll rest)

def heightElse : Option Stmt → Nat
  | none => 0
  | some stmt => height stmt

end

theorem height_of_mem_pair {d k : Nat} {task own : Task}
    (h : (k, task) ∈ [(d, Task.start), (d + 1, own)]) : k + task.height ≤ d + (own.height + 1) := by
  simp only [List.mem_cons, Prod.mk.injEq, List.not_mem_nil, or_false] at h
  obtain ⟨rfl, rfl⟩ | ⟨rfl, rfl⟩ := h <;> simp only [Task.height] <;> omega

mutual

theorem height_of_mem_tasks : (stmt : Stmt) → (d k : Nat) → (task : Task) →
    (k, task) ∈ stmt.tasks d → k + task.height ≤ d + stmt.height
  | .expr _, _, _, _, h | .declare .., _, _, _, h | .assign .., _, _, _, h =>
    height_of_mem_pair h
  | .block stmts _, d, k, task, h => by
    simp only [tasks, List.mem_cons, Prod.mk.injEq] at h
    simp only [height]
    obtain ⟨rfl, rfl⟩ | h := h
    · simp only [Task.height]; omega
    · have := height_of_mem_tasksAll stmts (d + 1) k task h
      omega
  | .branch cond yes no _, d, k, task, h => by
    simp only [tasks, List.mem_cons, Prod.mk.injEq, List.mem_append] at h
    simp only [height]
    obtain ⟨rfl, rfl⟩ | ⟨rfl, rfl⟩ | h | h := h
    · simp only [Task.height]; omega
    · simp only [Task.height]; omega
    · have := height_of_mem_tasks yes (d + 1) k task h
      omega
    · have := height_of_mem_tasksElse no (d + 1) k task h
      omega
  | .whileDo cond body _, d, k, task, h => by
    simp only [tasks, List.mem_cons, Prod.mk.injEq] at h
    simp only [height]
    obtain ⟨rfl, rfl⟩ | ⟨rfl, rfl⟩ | h := h
    · simp only [Task.height]; omega
    · simp only [Task.height]; omega
    · have := height_of_mem_tasks body (d + 1) k task h
      omega
  | .doWhile body cond _, d, k, task, h => by
    simp only [tasks, List.mem_cons, Prod.mk.injEq, List.mem_append, List.not_mem_nil,
      or_false] at h
    simp only [height]
    obtain ⟨rfl, rfl⟩ | h | ⟨rfl, rfl⟩ := h
    · simp only [Task.height]; omega
    · have := height_of_mem_tasks body (d + 1) k task h
      omega
    · simp only [Task.height]; omega
  | .empty _, d, k, task, h => by
    simp only [tasks, List.mem_cons, Prod.mk.injEq, List.not_mem_nil, or_false] at h
    obtain ⟨rfl, rfl⟩ := h
    simp only [Task.height, height]; omega

theorem height_of_mem_tasksAll : (stmts : List Stmt) → (d k : Nat) → (task : Task) →
    (k, task) ∈ tasksAll d stmts → k + task.height ≤ d + heightAll stmts
  | [], d, k, task, h => by simp [tasksAll] at h
  | stmt :: rest, d, k, task, h => by
    simp only [tasksAll, List.mem_append] at h
    simp only [heightAll]
    obtain h | h := h
    · have := height_of_mem_tasks stmt d k task h
      omega
    · have := height_of_mem_tasksAll rest d k task h
      omega

theorem height_of_mem_tasksElse : (no : Option Stmt) → (d k : Nat) → (task : Task) →
    (k, task) ∈ tasksElse d no → k + task.height ≤ d + heightElse no
  | none, d, k, task, h => by simp [tasksElse] at h
  | some stmt, d, k, task, h => by
    simp only [tasksElse] at h
    exact height_of_mem_tasks stmt d k task h

end

end Stmt

def Program.height (p : Program) : Nat := Stmt.heightAll p.stmts

end TolerantScript
