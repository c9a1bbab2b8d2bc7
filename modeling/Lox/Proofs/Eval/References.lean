import Mathlib
import Lox.Proofs.Eval.Ready

/-!
# References lead to bindings

Wherever a reference with a distance is evaluated in the run of an accepted source, that many links
lead outward to a local frame in which its name is bound (`Machine.Finds`). An assignment may come
before the binding only in the initializer of the variable that it assigns
(`references_are_bound`).
-/

namespace Lox

/-- The frame exactly that many links out from the current one is not the global frame and binds
the name. So the walk outward does not stop before that frame, and what is found is that value. -/
def Machine.Finds (m : Machine) (distance : Nat) (name : String) : Prop :=
  ∃ f v, m.heap.outward? m.current distance = some f ∧ f ≠ m.globals ∧
    m.heap.lookup? f name = some v ∧ m.heap.ancestor m.current distance = f ∧
    m.heap.getAt m.current distance name = v

namespace Machine.At

variable {m : Machine} {Γ : Context} {name : String} {d : Nat}

theorem finds_defined (stands : m.At Γ) {scope : Scope} (there : Γ.scopes[d]? = some scope)
    (defined : scope[name]? = some .defined) : m.Finds d name := by
  obtain ⟨f, outward, isLocal, bound⟩ := stands.mirrors.outward? there
  obtain ⟨v, e⟩ := Option.isSome_iff_exists.mp (bound name defined)
  exact ⟨f, v, outward, isLocal, e, Heap.ancestor_of_outward? outward,
    Heap.getAt_of_outward? outward e⟩

theorem finds (stands : m.At Γ) (proper : Γ.Proper) (readable : ¬ Γ.Pending name)
    (e : Γ.distance? name = some d) : m.Finds d name := by
  obtain ⟨scope, there, defined⟩ := proper.defined_of_not_pending readable e
  exact stands.finds_defined there defined

theorem finds_keyword (stands : m.At Γ) (proper : Γ.Proper) {k : Keyword}
    (e : Γ.distance? k.text = some d) : m.Finds d k.text := by
  obtain ⟨scope, there, defined⟩ := proper.defined_keyword e
  exact stands.finds_defined there defined

end Machine.At

/-- At every point of every run of an accepted source, the distance of a variable, of `this`, of
`super` or of a superclass leads to a local frame that binds its name, `this` being bound one link
inside `super`. The distance of an assignment leads to a local frame that binds its name too, unless
the assignment is evaluated inside the initializer of the variable that will be bound there. -/
theorem references_are_bound {source : String} {p : Checked}
    (accepted : Source.check source = .ok p) {host : Host} {fuel n : Nat} {t : Task} {m : Machine}
    (reached : Reached p host fuel ⟨n, t, m⟩) :
    m.distances = p.distances ∧
    (∀ id name d, t = .expr (.variable id name) → p.distances[id]? = some d →
      m.Finds d name.text) ∧
    (∀ id keyword d, t = .expr (.this id keyword) → p.distances[id]? = some d →
      m.Finds d keyword.text) ∧
    (∀ id keyword method d, t = .expr (.super id keyword method) → p.distances[id]? = some d →
      1 ≤ d ∧ m.Finds d "super" ∧ m.Finds (d - 1) "this") ∧
    (∀ name c methods d m', t = .stmt (.classDecl name (some c) methods) →
      p.distances[c.id]? = some d → Eval.declare name m = .ok () m' → m'.Finds d c.name.text) ∧
    ∀ k id name value d v m', n = k + 1 → t = .expr (.assign id name value) →
      p.distances[id]? = some d → Eval.expr k value m = .ok v m' →
      ∃ f, m'.heap.outward? m'.current d = some f ∧ f ≠ m'.globals ∧
        m'.heap.ancestor m'.current d = f ∧
        ((m'.heap.lookup? f name.text).isSome ∨
          f = m.current ∧ Initializing p host fuel name.text ⟨n, t, m⟩) := by
  obtain ⟨Γ, ⟨sound, ready⟩, pending⟩ := reached.ready accepted
  refine ⟨sound.distances, ?_, ?_, ?_, ?_, ?_⟩
  · rintro id name d rfl known
    obtain ⟨proper, stands, readable, e⟩ := ready
    exact stands.finds proper readable (e.symm.trans known)
  · rintro id keyword d rfl known
    obtain ⟨proper, stands, -, isThis, e⟩ := ready
    rw [isThis]
    exact stands.finds_keyword (k := .this) proper (e.symm.trans known)
  · rintro id keyword method d rfl known
    obtain ⟨proper, stands, derived, e⟩ := ready
    obtain ⟨d', this, super⟩ := proper.super derived
    obtain rfl : d = d' + 1 := Option.some.inj ((known.symm.trans e).trans super)
    exact ⟨Nat.succ_pos d', stands.finds_keyword (k := .super) proper super,
      stands.finds_keyword (k := .this) proper this⟩
  · rintro name c methods d m' rfl known declared
    obtain ⟨settled, stands, isName, refers, -⟩ := ready
    obtain ⟨-, -, stands⟩ := Eval.ensures_declare sound stands isName _ _ declared
    obtain ⟨readable, e⟩ := refers c rfl
    exact stands.finds (settled.bind isName).proper readable (e.symm.trans known)
  · rintro k id name value d v m' rfl rfl known evaluated
    obtain ⟨proper, stands, located, isName, e⟩ := ready
    have inner : Point.Ready p.distances Γ ⟨k, .expr value, m⟩ := ⟨sound, proper, stands, located⟩
    obtain ⟨-, grows, -⟩ := (Eval.safe_task inner).answer _ _ evaluated
    obtain ⟨scope, there, status⟩ := proper.defined_or_pending (e.symm.trans known)
    obtain ⟨f, outward, isLocal, bound⟩ := (stands.grows grows).mirrors.outward? there
    refine ⟨f, outward, isLocal, Heap.ancestor_of_outward? outward, ?_⟩
    rcases status with defined | ⟨rfl, isPending⟩
    · exact .inl (bound _ defined)
    · exact .inr ⟨(Option.some.inj outward).symm.trans grows.current, pending _ isPending⟩

/-- The variable that the inner block of this program reads is bound one link out. -/
theorem outer_variable_is_bound :
    ∃ p m, Source.check "\x7b var a; \x7b a = a; \x7d \x7d" = .ok p ∧
      Reached p ⟨fun _ => 0, none, false⟩ 8 ⟨1, .expr (.variable 1 ⟨"a", 1⟩), m⟩ ∧
      p.distances[1]? = some 1 ∧ m.Finds 1 "a" := by
  obtain ⟨p, m, accepted, reached, known⟩ : ∃ p m,
      Source.check "\x7b var a; \x7b a = a; \x7d \x7d" = .ok p ∧
      Reached p ⟨fun _ => 0, none, false⟩ 8 ⟨1, .expr (.variable 1 ⟨"a", 1⟩), m⟩ ∧
      p.distances[1]? = some 1 :=
    ⟨⟨[.block [.varDecl ⟨"a", 1⟩ none,
        .block [.expression (.assign 2 ⟨"a", 1⟩ (.variable 1 ⟨"a", 1⟩))]]],
      ((∅ : Distances).insert 1 1).insert 2 1⟩, _, by cbv,
      ⟨_, _, .first, .head .block (.head (.restStmts rfl) (.head .firstStmt
        (.head .block (.head .firstStmt (.head .expression (.single .assign))))))⟩, rfl⟩
  exact ⟨p, m, accepted, reached, known,
    (references_are_bound accepted reached).2.1 1 ⟨"a", 1⟩ 1 rfl known⟩

end Lox
