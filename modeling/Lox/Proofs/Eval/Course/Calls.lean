import Lox.Proofs.Eval.Tasks

/-!
# The tasks of a rule, in order

A rule performs its tasks one after another, each on the machine that the one before it left, and it
may need what a task gave to know which one comes next (`Point.andThen`). The list of the points
that a point calls (`Point.calls`) holds those of the relation `Point.Calls`, in the order in which
they are called (`mem_calls_iff`).
-/

namespace Lox

namespace Point

/-- The point, and after it those at which it is gone on from there, if its task does not fail. -/
def andThen (x : Point) (further : x.task.Answer → Machine → List Point) : List Point :=
  x :: match x.task.run x.fuel x.machine with
    | .ok a m => further a m
    | .error .. => []

/-- The points that the rule for an expression calls, in order. -/
def callsOfExpr (n : Nat) (m : Machine) : Expr → List Point
  | .assign _ _ e | .get e _ | .grouping e | .unary _ _ e => [⟨n, .expr e, m⟩]
  | .binary _ _ left right => andThen ⟨n, .expr left, m⟩ fun _ m₁ => [⟨n, .expr right, m₁⟩]
  | .call callee paren arguments =>
    andThen ⟨n, .expr callee, m⟩ fun f m₁ =>
      andThen ⟨n, .exprs arguments, m₁⟩ fun vs m₂ => [⟨n, .apply f paren vs, m₂⟩]
  | .logical op _ left right =>
    andThen ⟨n, .expr left, m⟩ fun v m₁ =>
      if op.decides v then [] else [⟨n, .expr right, m₁⟩]
  | .set object _ value => andThen ⟨n, .expr value, m⟩ fun _ m₁ => [⟨n, .expr object, m₁⟩]
  | .literal _ | .super .. | .this .. | .variable .. => []

/-- The points that the rule for a statement calls, in order. -/
def callsOfStmt (n : Nat) (m : Machine) : Stmt → List Point
  | .block body => [⟨n, .stmts body, m.enter m.current⟩]
  | .expression e | .print e | .returning _ (some e) | .varDecl _ (some e) => [⟨n, .expr e, m⟩]
  | .ifThen condition thenBranch =>
    andThen ⟨n, .expr condition, m⟩ fun v m₁ =>
      if v.isTruthy then [⟨n, .stmt thenBranch, m₁⟩] else []
  | .ifElse condition thenBranch elseBranch =>
    andThen ⟨n, .expr condition, m⟩ fun v m₁ =>
      if v.isTruthy then [⟨n, .stmt thenBranch, m₁⟩] else [⟨n, .stmt elseBranch, m₁⟩]
  | .while condition body => [⟨n, .loop condition body, m⟩]
  | .classDecl .. | .function _ | .returning _ none | .varDecl _ none => []

/-- What follows a statement of a body or of a loop, unless the statement returns. -/
def unlessReturned (further : Machine → List Point) : Flow → Machine → List Point
  | .normal, m => further m
  | .returned _, _ => []

/-- The points that a point calls, in order. -/
def calls : Point → List Point
  | ⟨0, _, _⟩ => []
  | ⟨n + 1, .expr e, m⟩ => callsOfExpr n m e
  | ⟨_ + 1, .exprs [], _⟩ => []
  | ⟨n + 1, .exprs (e :: es), m⟩ => andThen ⟨n, .expr e, m⟩ fun _ m₁ => [⟨n, .exprs es, m₁⟩]
  | ⟨n + 1, .apply (.function f) _ vs, m⟩ =>
    if f.arity ≤ vs.length then [⟨n, .call f vs, m⟩] else []
  | ⟨n + 1, .apply (.class c) _ vs, m⟩ =>
    if c.arity ≤ vs.length then [⟨n, .make c vs, m⟩] else []
  | ⟨_ + 1, .apply .., _⟩ => []
  | ⟨n + 1, .call f vs, m⟩ => [⟨n, .stmts f.decl.body, m.activate f vs⟩]
  | ⟨n + 1, .make c vs, m⟩ =>
    let made : Machine := { m with heap := m.heap.pushInstance }
    match c.initializer? with
    | some f => [⟨n, .call (f.boundBy made) vs, made.afterBinding f ⟨m.heap.fields.size, c⟩⟩]
    | none => []
  | ⟨n + 1, .stmt s, m⟩ => callsOfStmt n m s
  | ⟨_ + 1, .stmts [], _⟩ => []
  | ⟨n + 1, .stmts (s :: ss), m⟩ =>
    andThen ⟨n, .stmt s, m⟩ (unlessReturned fun m₁ => [⟨n, .stmts ss, m₁⟩])
  | ⟨n + 1, .loop condition body, m⟩ =>
    andThen ⟨n, .expr condition, m⟩ fun v m₁ =>
      if v.isTruthy then
        andThen ⟨n, .stmt body, m₁⟩ (unlessReturned fun m₂ => [⟨n, .loop condition body, m₂⟩])
      else []

section
variable {x y : Point}

theorem mem_andThen {further : x.task.Answer → Machine → List Point} :
    y ∈ x.andThen further ↔
      y = x ∨ ∃ a m, x.task.run x.fuel x.machine = .ok a m ∧ y ∈ further a m := by
  rw [andThen, List.mem_cons]
  refine or_congr_right ?_
  cases x.task.run x.fuel x.machine with
  | ok a m =>
    refine ⟨fun h => ⟨a, m, rfl, h⟩, ?_⟩
    rintro ⟨_, _, ⟨⟩, h⟩
    exact h
  | error s m => exact iff_of_false List.not_mem_nil fun ⟨_, _, e, _⟩ => nomatch e

theorem first_mem_andThen {further : x.task.Answer → Machine → List Point} :
    x ∈ x.andThen further :=
  mem_andThen.mpr (.inl rfl)

theorem Calls.mem_calls (h : x.Calls y) : y ∈ x.calls := by
  cases h with
  | assign | getObject | grouping | unary | body | block | expression | print | returning | varDecl
    | «while» => exact List.mem_singleton_self _
  | binaryLeft | callee | logicalLeft | setValue | firstOf | ifThenCondition | ifElseCondition
    | firstStmt | loopCondition => exact first_mem_andThen
  | binaryRight h | arguments h | setObject h | restOf h =>
    exact mem_andThen.mpr (.inr ⟨_, _, h, List.mem_cons_self⟩)
  | apply h h' =>
    exact mem_andThen.mpr (.inr ⟨_, _, h, mem_andThen.mpr
      (.inr ⟨_, _, h', List.mem_singleton_self _⟩)⟩)
  | logicalRight h undecided =>
    refine mem_andThen.mpr (.inr ⟨_, _, h, ?_⟩)
    rw [undecided]
    exact List.mem_singleton_self _
  | function enough | «class» enough =>
    rw [calls, if_pos enough]
    exact List.mem_singleton_self _
  | initializer found made =>
    cases made
    simp only [calls, found]
    exact List.mem_singleton_self _
  | ifThen h holds | ifElseThen h holds =>
    refine mem_andThen.mpr (.inr ⟨_, _, h, ?_⟩)
    rw [holds]
    exact List.mem_singleton_self _
  | ifElse h fails =>
    refine mem_andThen.mpr (.inr ⟨_, _, h, ?_⟩)
    rw [fails]
    exact List.mem_singleton_self _
  | restStmts h => exact mem_andThen.mpr (.inr ⟨_, _, h, List.mem_singleton_self _⟩)
  | loopBody h holds =>
    refine mem_andThen.mpr (.inr ⟨_, _, h, ?_⟩)
    rw [holds]
    exact first_mem_andThen
  | loopAgain h holds h' =>
    refine mem_andThen.mpr (.inr ⟨_, _, h, ?_⟩)
    rw [holds]
    exact mem_andThen.mpr (.inr ⟨_, _, h', List.mem_singleton_self _⟩)

theorem calls_of_mem_expr {n : Nat} {m : Machine} {e : Expr} (h : y ∈ callsOfExpr n m e) :
    Calls ⟨n + 1, .expr e, m⟩ y := by
  cases e with
  | assign id name value =>
    cases List.mem_singleton.mp h
    exact .assign
  | binary op mark left right =>
    obtain rfl | ⟨a, m₁, e, h⟩ := mem_andThen.mp h
    · exact .binaryLeft
    · cases List.mem_singleton.mp h
      exact .binaryRight e
  | call callee paren arguments =>
    obtain rfl | ⟨f, m₁, e, h⟩ := mem_andThen.mp h
    · exact .callee
    obtain rfl | ⟨vs, m₂, e', h⟩ := mem_andThen.mp h
    · exact .arguments e
    · cases List.mem_singleton.mp h
      exact .apply e e'
  | get object name =>
    cases List.mem_singleton.mp h
    exact .getObject
  | grouping inner =>
    cases List.mem_singleton.mp h
    exact .grouping
  | logical op mark left right =>
    obtain rfl | ⟨v, m₁, e, h⟩ := mem_andThen.mp h
    · exact .logicalLeft
    · split at h
      · cases h
      · cases List.mem_singleton.mp h
        exact .logicalRight e (Bool.eq_false_iff.mpr ‹_›)
  | set object name value =>
    obtain rfl | ⟨v, m₁, e, h⟩ := mem_andThen.mp h
    · exact .setValue
    · cases List.mem_singleton.mp h
      exact .setObject e
  | unary op mark right =>
    cases List.mem_singleton.mp h
    exact .unary
  | literal _ | «super» _ _ _ | this _ _ | «variable» _ _ => cases h

theorem calls_of_mem_stmt {n : Nat} {m : Machine} {s : Stmt} (h : y ∈ callsOfStmt n m s) :
    Calls ⟨n + 1, .stmt s, m⟩ y := by
  cases s with
  | block body =>
    cases List.mem_singleton.mp h
    exact .block
  | expression e =>
    cases List.mem_singleton.mp h
    exact .expression
  | ifThen condition thenBranch =>
    obtain rfl | ⟨v, m₁, e, h⟩ := mem_andThen.mp h
    · exact .ifThenCondition
    · split at h
      · cases List.mem_singleton.mp h
        exact .ifThen e ‹_›
      · cases h
  | ifElse condition thenBranch elseBranch =>
    obtain rfl | ⟨v, m₁, e, h⟩ := mem_andThen.mp h
    · exact .ifElseCondition
    · split at h
      · cases List.mem_singleton.mp h
        exact .ifElseThen e ‹_›
      · cases List.mem_singleton.mp h
        exact .ifElse e (Bool.eq_false_iff.mpr ‹_›)
  | print e =>
    cases List.mem_singleton.mp h
    exact .print
  | returning keyword value =>
    cases value with
    | none => cases h
    | some value =>
      cases List.mem_singleton.mp h
      exact .returning
  | varDecl name initializer =>
    cases initializer with
    | none => cases h
    | some initializer =>
      cases List.mem_singleton.mp h
      exact .varDecl
  | «while» condition body =>
    cases List.mem_singleton.mp h
    exact .while
  | classDecl _ _ _ | function _ => cases h

theorem calls_of_mem (h : y ∈ x.calls) : x.Calls y := by
  obtain ⟨_ | n, t, m⟩ := x
  · cases h
  cases t with
  | expr e => exact calls_of_mem_expr h
  | exprs es =>
    cases es with
    | nil => cases h
    | cons e es =>
      obtain rfl | ⟨v, m₁, e, h⟩ := mem_andThen.mp h
      · exact .firstOf
      · cases List.mem_singleton.mp h
        exact .restOf e
  | apply f paren vs =>
    cases f with
    | function f =>
      rw [calls] at h
      split at h
      · cases List.mem_singleton.mp h
        exact .function ‹_›
      · cases h
    | «class» c =>
      rw [calls] at h
      split at h
      · cases List.mem_singleton.mp h
        exact .class ‹_›
      · cases h
    | _ => cases h
  | call f vs =>
    cases List.mem_singleton.mp h
    exact .body
  | make c vs =>
    dsimp only [calls] at h
    split at h
    · rename_i found
      cases List.mem_singleton.mp h
      exact .initializer found rfl
    · cases h
  | stmt s => exact calls_of_mem_stmt h
  | stmts ss =>
    cases ss with
    | nil => cases h
    | cons s ss =>
      obtain rfl | ⟨flow, m₁, e, h⟩ := mem_andThen.mp h
      · exact .firstStmt
      · cases flow with
        | normal =>
          cases List.mem_singleton.mp h
          exact .restStmts e
        | returned v => cases h
  | loop condition body =>
    obtain rfl | ⟨v, m₁, e, h⟩ := mem_andThen.mp h
    · exact .loopCondition
    split at h
    · obtain rfl | ⟨flow, m₂, e', h⟩ := mem_andThen.mp h
      · exact .loopBody e ‹_›
      · cases flow with
        | normal =>
          cases List.mem_singleton.mp h
          exact .loopAgain e ‹_› e'
        | returned v => cases h
    · cases h

/-- The list holds the points that are called, and no others. -/
theorem mem_calls_iff : y ∈ x.calls ↔ x.Calls y :=
  ⟨calls_of_mem, Calls.mem_calls⟩

end
end Point

end Lox
