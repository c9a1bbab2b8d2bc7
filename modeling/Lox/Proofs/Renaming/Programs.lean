import Mathlib
import Lox.Run
import Lox.Proofs.Renaming.Survey
import Lox.Proofs.Renaming.Run

/-!
# A renamed program means the same

Scoping is static: if a variable or parameter of one scope gets a new name, together with exactly
the references that were resolved to this scope, then the program is accepted as before, each
reference lies as many scopes out, and every run prints the same and ends in the same way
(`renaming_keeps_meaning`).
-/

namespace Lox

/-! ## Runs -/

namespace Twins

variable {R : Renaming} {t : Twins R}

theorem simulates_topLevel (fuel : Nat) {ss ss' : List Stmt} (stands : t.At [])
    (renamed : Stmt.RenamedList R [] ss ss') :
    t.Simulates (Eval.topLevel fuel ss) (Eval.topLevel fuel ss') fun _ _ _ => True := by
  induction ss generalizing ss' t with
  | nil =>
    cases renamed
    exact simulates_pure trivial
  | cons s ss ih =>
    cases renamed with
    | cons first later =>
      refine ((Simulated.all fuel).stmt stands first).bind fun u _ _ follows _ => ?_
      exact ih (stands.follows follows) later

/-- Two new machines. -/
def start (R : Renaming) (host : Host) : Twins R where
  machine := { Machine.start host with distances := R.distances }
  marked _ := false
  heap' := (Machine.start host).heap
  distances := rfl
  renames :=
    { inside := Nat.zero_lt_one
      outermost := rfl
      unmarked := rfl
      size := rfl
      link := fun _ => rfl
      bindings := fun f name => by
        rw [R.swap_false]
        dsimp only
        cases e : (Machine.start host).heap.lookup? f name with
        | none => exact .none
        | some v => exact .some (.plain (Machine.isPlain_of_start e))
      instances := rfl
      fields := fun _ _ => .none }

end Twins

/-- The renamed program prints the same as the program, and ends in the same way. -/
theorem Stmt.ofResult_renamed {R : Renaming} {ss ss' : List Stmt}
    (renamed : Stmt.RenamedList R [] ss ss') (fuel : Nat) (host : Host) :
    Outcome.ofResult (Eval.program fuel ss' R.distances (Machine.start host)) =
      Outcome.ofResult (Eval.program fuel ss R.distances (Machine.start host)) := by
  have stands : (Twins.start R host).At [] := .nil
  have ends : (Twins.start R host).Simulates (Eval.topLevel fuel ss >>= fun _ => Eval.flush)
      (Eval.topLevel fuel ss' >>= fun _ => Eval.flush) fun _ _ _ => True :=
    (Twins.simulates_topLevel fuel stands renamed).bind fun _ _ _ _ _ => Twins.simulates_flush
  have first : Eval.program fuel ss R.distances (Machine.start host) =
      (Eval.topLevel fuel ss >>= fun _ => Eval.flush) (Twins.start R host).machine := rfl
  have second : Eval.program fuel ss' R.distances (Machine.start host) =
      (Eval.topLevel fuel ss' >>= fun _ => Eval.flush) (Twins.start R host).other := rfl
  unfold Twins.Simulates at ends
  rw [← first, ← second] at ends
  generalize Eval.program fuel ss R.distances (Machine.start host) = r at ends ⊢
  generalize Eval.program fuel ss' R.distances (Machine.start host) = r' at ends ⊢
  cases ends with
  | ok u _ _ => rfl
  | @error stop m m' printed => cases stop <;> simp only [Outcome.ofResult, printed]

/-! ## Sources -/

theorem Source.check_of_statements {source : String} {ss : List Stmt} {distances : Distances}
    (read : Source.statements source = .ok ss) (located : distancesOf ss = .ok distances) :
    Source.check source = .ok ⟨ss, distances⟩ := by
  obtain ⟨lexical, read⟩ := Source.statements_eq_ok.mp read
  obtain ⟨noErrors, same⟩ := Program.statements?_eq_ok read
  exact Source.check_of_distancesOf lexical noErrors same located

/-- In an accepted program, let the old name be a variable or parameter of a local scope, and let
the new name not occur. If the old name is renamed in its declaration there, and in exactly the
references that were resolved to this scope, the program is accepted with the same distances, and
its runs print the same and end in the same way, with the same error if there is one. -/
theorem renaming_keeps_meaning {source : String} {p : Checked}
    (accepted : Source.check source = .ok p) {R : Renaming} (distances : R.distances = p.distances)
    (fresh : ∀ t ∈ tokensOf source, t.lexeme ≠ R.new) {statements : List Stmt}
    (renamed : Stmt.RenamesOneOf R p.statements statements) :
    distancesOf statements = .ok p.distances ∧
      (∀ fuel host,
        Outcome.ofResult (Eval.program fuel statements p.distances (Machine.start host)) =
          Outcome.ofResult (Eval.program fuel p.statements p.distances (Machine.start host))) ∧
      ∀ source', Source.statements source' = .ok statements →
        Source.check source' = .ok ⟨statements, p.distances⟩ ∧
          ∀ fuel host, run fuel host source' = run fuel host source := by
  obtain ⟨original, D⟩ := p
  obtain rfl : R.distances = D := distances
  have wf : Stmt.WellFormedList R.Fresh original :=
    (Source.read_of_check accepted fun t h => ⟨spelt_of_mem_tokensOf h, fresh t h⟩).1
  have located := Source.located_of_check accepted
  have noMarks : Unmarked [] := fun _ => rfl
  have inSome := Stmt.renamedList_of_renamesOne original statements noMarks wf located renamed
  have after := Stmt.distancesOf_renamed wf located (Source.check_eq_ok accepted).2.2.2 inSome
  have ends := Stmt.ofResult_renamed inSome
  refine ⟨after, ends, fun source' read => ?_⟩
  have accepted' := Source.check_of_statements read after
  refine ⟨accepted', fun fuel host => ?_⟩
  unfold run
  rw [accepted, accepted']
  exact ends fuel host

/-- In the block of this program, the references before the declaration of the variable are to the
global one, and those after it to its own. -/
theorem local_variable_is_renamed :
    ∃ p statements, Source.check "var a; \x7b a = a; var a; a = a; \x7d" = .ok p ∧
      Source.statements "var a; \x7b a = a; var b; b = b; \x7d" = .ok statements ∧
      Source.check "var a; \x7b a = a; var b; b = b; \x7d" = .ok ⟨statements, p.distances⟩ ∧
      ∀ fuel host, run fuel host "var a; \x7b a = a; var b; b = b; \x7d" =
        run fuel host "var a; \x7b a = a; var a; a = a; \x7d" := by
  obtain ⟨p, R, statements, accepted, distances, tokens, renamed, read⟩ :
      ∃ (p : Checked) (R : Renaming) (statements : List Stmt),
        Source.check "var a; \x7b a = a; var a; a = a; \x7d" = .ok p ∧
        R.distances = p.distances ∧
        (∀ t ∈ tokensOf "var a; \x7b a = a; var a; a = a; \x7d", t.lexeme ≠ R.new) ∧
        Stmt.RenamesOneOf R p.statements statements ∧
        Source.statements "var a; \x7b a = a; var b; b = b; \x7d" = .ok statements := by
    refine ⟨⟨[.varDecl ⟨"a", 1⟩ none, .block [
        .expression (.assign 2 ⟨"a", 1⟩ (.variable 1 ⟨"a", 1⟩)), .varDecl ⟨"a", 1⟩ none,
        .expression (.assign 5 ⟨"a", 1⟩ (.variable 4 ⟨"a", 1⟩))]],
      ((∅ : Distances).insert 4 0).insert 5 0⟩,
      ⟨((∅ : Distances).insert 4 0).insert 5 0, "a", "b", fun k => by cases k <;> decide,
        fun k => by cases k <;> decide⟩, _, by cbv, rfl, ?_,
      .later (.first (.block (by decide))), by cbv⟩
    rw [show tokensOf "var a; \x7b a = a; var a; a = a; \x7d" = _ by cbv]
    decide
  obtain ⟨-, -, same⟩ := renaming_keeps_meaning accepted distances tokens renamed
  obtain ⟨accepted', runs⟩ := same _ read
  exact ⟨p, statements, accepted, read, accepted', runs⟩

end Lox
