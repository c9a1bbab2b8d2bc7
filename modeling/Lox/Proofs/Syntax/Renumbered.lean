import Mathlib.Data.List.GetD
import Mathlib.Data.List.Nodup
import Lox.Proofs.Syntax.Relabel

/-!
# The same tree with other numbers

Two trees that are the same but for the numbers of their nodes are so by one renumbering, as long as
the numbers of the first tree differ (`Stmt.relabelList_of_numberless`). Labels that are given one
after the other are given at once (`Stmt.relabel_relabel`).
-/

namespace Lox

namespace Relabelling

/-- First the labels `R`, then the labels `R'`. -/
def andThen (R R' : Relabelling) : Relabelling :=
  ⟨R'.id ∘ R.id, R'.line ∘ R.line⟩

/-- Other numbers on the same lines. -/
def renumber (π : ExprId → ExprId) : Relabelling :=
  ⟨π, fun line => line⟩

/-- The same number at every node. -/
def numberless : Relabelling :=
  renumber fun _ => 0

end Relabelling

/-! ## Labels of labels -/

section
variable (R R' : Relabelling)

mutual

theorem Expr.relabel_relabel : ∀ e : Expr, (e.relabel R).relabel R' = e.relabel (R.andThen R')
  | .assign _ _ value => by
    rw [Expr.relabel, Expr.relabel, value.relabel_relabel]; rfl
  | .binary _ _ left right | .logical _ _ left right => by
    rw [Expr.relabel, Expr.relabel, left.relabel_relabel, right.relabel_relabel]; rfl
  | .call callee _ arguments => by
    rw [Expr.relabel, Expr.relabel, callee.relabel_relabel, Expr.relabelList_relabelList]; rfl
  | .get object _ => by rw [Expr.relabel, Expr.relabel, object.relabel_relabel]; rfl
  | .grouping inner => by rw [Expr.relabel, Expr.relabel, inner.relabel_relabel]; rfl
  | .literal _ | .super _ _ _ | .this _ _ | .variable _ _ => rfl
  | .set object _ value => by
    rw [Expr.relabel, Expr.relabel, object.relabel_relabel, value.relabel_relabel]; rfl
  | .unary _ _ right => by rw [Expr.relabel, Expr.relabel, right.relabel_relabel]; rfl

theorem Expr.relabelList_relabelList : ∀ es : List Expr,
    Expr.relabelList R' (Expr.relabelList R es) = Expr.relabelList (R.andThen R') es
  | [] => rfl
  | e :: es => by
    rw [Expr.relabelList, Expr.relabelList, e.relabel_relabel, Expr.relabelList_relabelList es]; rfl

end

mutual

theorem Stmt.relabel_relabel : ∀ s : Stmt, (s.relabel R).relabel R' = s.relabel (R.andThen R')
  | .block body => by rw [Stmt.relabel, Stmt.relabel, Stmt.relabelList_relabelList body]; rfl
  | .classDecl _ superclass methods => by
    rw [Stmt.relabel, Stmt.relabel, FunctionDecl.relabelList_relabelList methods,
      Option.map_map]
    rfl
  | .expression e | .print e => by rw [Stmt.relabel, Stmt.relabel, e.relabel_relabel]; rfl
  | .function decl => by rw [Stmt.relabel, Stmt.relabel, decl.relabel_relabel]; rfl
  | .ifThen condition thenBranch => by
    rw [Stmt.relabel, Stmt.relabel, condition.relabel_relabel, thenBranch.relabel_relabel]; rfl
  | .ifElse condition thenBranch elseBranch => by
    rw [Stmt.relabel, Stmt.relabel, condition.relabel_relabel, thenBranch.relabel_relabel,
      elseBranch.relabel_relabel]; rfl
  | .returning _ none | .varDecl _ none => rfl
  | .returning _ (some e) | .varDecl _ (some e) => by
    rw [Stmt.relabel, Stmt.relabel, Option.map_some, Option.map_some, e.relabel_relabel]; rfl
  | .while condition body => by
    rw [Stmt.relabel, Stmt.relabel, condition.relabel_relabel, body.relabel_relabel]; rfl

theorem Stmt.relabelList_relabelList : ∀ ss : List Stmt,
    Stmt.relabelList R' (Stmt.relabelList R ss) = Stmt.relabelList (R.andThen R') ss
  | [] => rfl
  | s :: ss => by
    rw [Stmt.relabelList, Stmt.relabelList, s.relabel_relabel, Stmt.relabelList_relabelList ss]; rfl

theorem FunctionDecl.relabel_relabel : ∀ decl : FunctionDecl,
    (decl.relabel R).relabel R' = decl.relabel (R.andThen R')
  | ⟨_, params, body⟩ => by
    rw [FunctionDecl.relabel, FunctionDecl.relabel, Stmt.relabelList_relabelList body,
      List.map_map]; rfl

theorem FunctionDecl.relabelList_relabelList : ∀ methods : List FunctionDecl,
    FunctionDecl.relabelList R' (FunctionDecl.relabelList R methods) =
      FunctionDecl.relabelList (R.andThen R') methods
  | [] => rfl
  | method :: methods => by
    rw [FunctionDecl.relabelList, FunctionDecl.relabelList, method.relabel_relabel,
      FunctionDecl.relabelList_relabelList methods]; rfl

end

/-! ## Numbers -/

mutual

theorem Expr.ids_relabel : ∀ e : Expr, (e.relabel R).ids = e.ids.map R.id
  | .assign _ _ value => by
    rw [Expr.relabel, Expr.ids, value.ids_relabel, Expr.ids, List.map_append]; rfl
  | .binary _ _ left right | .logical _ _ left right => by
    rw [Expr.relabel, Expr.ids, left.ids_relabel, right.ids_relabel, Expr.ids, List.map_append]
  | .call callee _ arguments => by
    rw [Expr.relabel, Expr.ids, callee.ids_relabel, Expr.idsList_relabelList, Expr.ids,
      List.map_append]
  | .get object _ => object.ids_relabel
  | .grouping inner => inner.ids_relabel
  | .literal _ | .super _ _ _ | .this _ _ | .variable _ _ => rfl
  | .set object _ value => by
    rw [Expr.relabel, Expr.ids, object.ids_relabel, value.ids_relabel, Expr.ids, List.map_append]
  | .unary _ _ right => right.ids_relabel

theorem Expr.idsList_relabelList : ∀ es : List Expr,
    Expr.idsList (Expr.relabelList R es) = (Expr.idsList es).map R.id
  | [] => rfl
  | e :: es => by
    rw [Expr.relabelList, Expr.idsList, e.ids_relabel, Expr.idsList_relabelList es, Expr.idsList,
      List.map_append]

end

mutual

theorem Stmt.ids_relabel : ∀ s : Stmt, (s.relabel R).ids = s.ids.map R.id
  | .block body => Stmt.idsList_relabelList body
  | .classDecl _ superclass methods => by
    rw [Stmt.relabel, Stmt.ids, FunctionDecl.idsList_relabelList methods, Stmt.ids, List.map_append]
    cases superclass <;> rfl
  | .expression e | .print e => e.ids_relabel R
  | .function decl => decl.ids_relabel
  | .ifThen condition thenBranch => by
    rw [Stmt.relabel, Stmt.ids, condition.ids_relabel, thenBranch.ids_relabel, Stmt.ids,
      List.map_append]
  | .ifElse condition thenBranch elseBranch => by
    rw [Stmt.relabel, Stmt.ids, condition.ids_relabel, thenBranch.ids_relabel,
      elseBranch.ids_relabel, Stmt.ids, List.map_append, List.map_append]
  | .returning _ none | .varDecl _ none => rfl
  | .returning _ (some e) | .varDecl _ (some e) => e.ids_relabel R
  | .while condition body => by
    rw [Stmt.relabel, Stmt.ids, condition.ids_relabel, body.ids_relabel, Stmt.ids, List.map_append]

theorem Stmt.idsList_relabelList : ∀ ss : List Stmt,
    Stmt.idsList (Stmt.relabelList R ss) = (Stmt.idsList ss).map R.id
  | [] => rfl
  | s :: ss => by
    rw [Stmt.relabelList, Stmt.idsList, s.ids_relabel, Stmt.idsList_relabelList ss, Stmt.idsList,
      List.map_append]

theorem FunctionDecl.ids_relabel : ∀ decl : FunctionDecl, (decl.relabel R).ids = decl.ids.map R.id
  | ⟨_, _, body⟩ => Stmt.idsList_relabelList body

theorem FunctionDecl.idsList_relabelList : ∀ methods : List FunctionDecl,
    FunctionDecl.idsList (FunctionDecl.relabelList R methods) =
      (FunctionDecl.idsList methods).map R.id
  | [] => rfl
  | method :: methods => by
    rw [FunctionDecl.relabelList, FunctionDecl.idsList, method.ids_relabel,
      FunctionDecl.idsList_relabelList methods, FunctionDecl.idsList, List.map_append]

end

end

/-! ## One renumbering -/

section
variable {π : ExprId → ExprId}

/-- Lists that are as long as each other end where each other ends. -/
theorem map_append_eq {a b a' b' : List ExprId} (sizes : a'.length = a.length)
    (h : (a ++ b).map π = a' ++ b') : a.map π = a' ∧ b.map π = b' := by
  rw [List.map_append] at h
  exact List.append_inj h (by rw [List.length_map, sizes])

theorem Expr.length_ids_of_numberless {e e' : Expr}
    (h : e'.relabel .numberless = e.relabel .numberless) : e'.ids.length = e.ids.length := by
  have := congrArg (fun e => e.ids.length) h
  simpa only [Expr.ids_relabel, List.length_map] using this

mutual

theorem Expr.relabel_of_numberless : ∀ {e e' : Expr},
    e'.relabel .numberless = e.relabel .numberless → e.ids.map π = e'.ids →
      e.relabel (.renumber π) = e'
  | .assign _ _ value, .assign _ _ value', h, ids => by
    injection h with _ name same
    obtain ⟨inner, own⟩ := map_append_eq (length_ids_of_numberless same) ids
    injection own with own
    subst own
    rw [Expr.relabel, relabel_of_numberless same inner]
    exact congrArg (Expr.assign _ · value') name.symm
  | .binary op _ left right, .binary op' _ left' right', h, ids => by
    injection h with op mark same same'
    obtain ⟨inner, inner'⟩ := map_append_eq (length_ids_of_numberless same) ids
    rw [Expr.relabel, relabel_of_numberless same inner, relabel_of_numberless same' inner', op]
    exact congrArg (Expr.binary _ · left' right') mark.symm
  | .logical op _ left right, .logical op' _ left' right', h, ids => by
    injection h with op mark same same'
    obtain ⟨inner, inner'⟩ := map_append_eq (length_ids_of_numberless same) ids
    rw [Expr.relabel, relabel_of_numberless same inner, relabel_of_numberless same' inner', op]
    exact congrArg (Expr.logical _ · left' right') mark.symm
  | .call callee _ arguments, .call callee' _ arguments', h, ids => by
    injection h with same paren same'
    obtain ⟨inner, inner'⟩ := map_append_eq (length_ids_of_numberless same) ids
    rw [Expr.relabel, relabel_of_numberless same inner, relabelList_of_numberless same' inner']
    exact congrArg (Expr.call callee' · arguments') paren.symm
  | .get object _, .get object' _, h, ids => by
    injection h with same name
    rw [Expr.relabel, relabel_of_numberless same ids]
    exact congrArg (Expr.get object') name.symm
  | .grouping inner, .grouping inner', h, ids => by
    injection h with same
    rw [Expr.relabel, relabel_of_numberless same ids]
  | .literal _, .literal _, h, _ => h.symm
  | .set object _ value, .set object' _ value', h, ids => by
    injection h with same name same'
    obtain ⟨inner, inner'⟩ := map_append_eq (length_ids_of_numberless same) ids
    rw [Expr.relabel, relabel_of_numberless same inner, relabel_of_numberless same' inner']
    exact congrArg (Expr.set object' · value') name.symm
  | .super _ _ _, .super _ _ _, h, ids => by
    injection h with _ keyword method
    injection ids with own
    exact congr (congr (congrArg Expr.super own) keyword.symm) method.symm
  | .this _ _, .this _ _, h, ids => by
    injection h with _ keyword
    injection ids with own
    exact congr (congrArg Expr.this own) keyword.symm
  | .unary _ _ right, .unary _ _ right', h, ids => by
    injection h with op mark same
    rw [Expr.relabel, relabel_of_numberless same ids, op]
    exact congrArg (Expr.unary _ · right') mark.symm
  | .variable _ _, .variable _ _, h, ids => by
    injection h with _ name
    injection ids with own
    exact congr (congrArg Expr.variable own) name.symm

theorem Expr.relabelList_of_numberless : ∀ {es es' : List Expr},
    relabelList .numberless es' = relabelList .numberless es → (idsList es).map π = idsList es' →
      relabelList (.renumber π) es = es'
  | [], [], _, _ => rfl
  | e :: es, e' :: es', h, ids => by
    injection h with same same'
    obtain ⟨inner, inner'⟩ := map_append_eq (length_ids_of_numberless same) ids
    rw [relabelList, relabel_of_numberless same inner, relabelList_of_numberless same' inner']

end

theorem Stmt.length_ids_of_numberless {s s' : Stmt}
    (h : s'.relabel .numberless = s.relabel .numberless) : s'.ids.length = s.ids.length := by
  have := congrArg (fun s => s.ids.length) h
  simpa only [Stmt.ids_relabel, List.length_map] using this

theorem FunctionDecl.length_ids_of_numberless {decl decl' : FunctionDecl}
    (h : decl'.relabel .numberless = decl.relabel .numberless) :
    decl'.ids.length = decl.ids.length := by
  have := congrArg (fun decl => decl.ids.length) h
  simpa only [FunctionDecl.ids_relabel, List.length_map] using this

/-- The lexemes of a list are on the same lines. -/
theorem Lexeme.map_relabel_of_numberless {ls ls' : List Lexeme}
    (h : ls'.map (relabel .numberless) = ls.map (relabel .numberless)) :
    ls.map (relabel (.renumber π)) = ls' := by
  have kept (π : ExprId → ExprId) (ls : List Lexeme) : ls.map (relabel (.renumber π)) = ls :=
    List.map_id ls
  rw [kept]
  exact ((kept _ ls').symm.trans (h.trans (kept _ ls))).symm

theorem Superclass.relabel_of_numberless {c c' : Option Superclass} {ids ids' : List ExprId}
    (h : c'.map (relabel .numberless) = c.map (relabel .numberless))
    (labelled :
      ((c.map Superclass.id).toList ++ ids).map π = (c'.map Superclass.id).toList ++ ids') :
    c.map (relabel (.renumber π)) = c' ∧ ids.map π = ids' := by
  cases c with
  | none =>
    obtain rfl := Option.map_eq_none_iff.mp h
    exact ⟨rfl, labelled⟩
  | some c =>
    obtain ⟨c', rfl, same⟩ := Option.map_eq_some_iff.mp h
    injection same with _ name
    injection labelled with own rest
    exact ⟨congrArg some (congr (congrArg Superclass.mk own) name.symm), rest⟩

theorem Expr.map_relabel_of_numberless {e e' : Option Expr}
    (h : e'.map (relabel .numberless) = e.map (relabel .numberless))
    (labelled : (e.elim [] Expr.ids).map π = e'.elim [] Expr.ids) :
    e.map (relabel (.renumber π)) = e' := by
  cases e with
  | none => exact (Option.map_eq_none_iff.mp h).symm
  | some e =>
    obtain ⟨e', rfl, same⟩ := Option.map_eq_some_iff.mp h
    exact congrArg some (relabel_of_numberless same labelled)

mutual

theorem Stmt.relabel_of_numberless : ∀ {s s' : Stmt},
    s'.relabel .numberless = s.relabel .numberless → s.ids.map π = s'.ids →
      s.relabel (.renumber π) = s'
  | .block body, .block body', h, ids => by
    injection h with same
    rw [Stmt.relabel, Stmt.relabelList_of_numberless same ids]
  | .classDecl _ superclass methods, .classDecl _ superclass' methods', h, ids => by
    injection h with name above same
    obtain ⟨above', inner⟩ := Superclass.relabel_of_numberless above ids
    rw [Stmt.relabel, above', FunctionDecl.relabelList_of_numberless same inner]
    exact congrArg (Stmt.classDecl · superclass' methods') name.symm
  | .expression _, .expression _, h, ids => by
    injection h with same
    rw [Stmt.relabel, Expr.relabel_of_numberless same ids]
  | .function _, .function _, h, ids => by
    injection h with same
    rw [Stmt.relabel, FunctionDecl.relabel_of_numberless same ids]
  | .ifThen _ thenBranch, .ifThen _ thenBranch', h, ids => by
    injection h with same same'
    obtain ⟨inner, inner'⟩ := map_append_eq (Expr.length_ids_of_numberless same) ids
    rw [Stmt.relabel, Expr.relabel_of_numberless same inner,
      Stmt.relabel_of_numberless same' inner']
  | .ifElse _ thenBranch elseBranch, .ifElse _ thenBranch' elseBranch', h, ids => by
    injection h with same same' same''
    obtain ⟨inner, branches⟩ := map_append_eq (Expr.length_ids_of_numberless same) ids
    obtain ⟨inner', inner''⟩ := map_append_eq (Stmt.length_ids_of_numberless same') branches
    rw [Stmt.relabel, Expr.relabel_of_numberless same inner,
      Stmt.relabel_of_numberless same' inner', Stmt.relabel_of_numberless same'' inner'']
  | .print _, .print _, h, ids => by
    injection h with same
    rw [Stmt.relabel, Expr.relabel_of_numberless same ids]
  | .returning _ value, .returning _ value', h, ids => by
    injection h with keyword same
    have ids' : (value.elim [] Expr.ids).map π = value'.elim [] Expr.ids := by
      cases value <;> cases value' <;> exact ids
    rw [Stmt.relabel, Expr.map_relabel_of_numberless same ids']
    exact congrArg (Stmt.returning · value') keyword.symm
  | .varDecl _ value, .varDecl _ value', h, ids => by
    injection h with name same
    have ids' : (value.elim [] Expr.ids).map π = value'.elim [] Expr.ids := by
      cases value <;> cases value' <;> exact ids
    rw [Stmt.relabel, Expr.map_relabel_of_numberless same ids']
    exact congrArg (Stmt.varDecl · value') name.symm
  | .while _ body, .while _ body', h, ids => by
    injection h with same same'
    obtain ⟨inner, inner'⟩ := map_append_eq (Expr.length_ids_of_numberless same) ids
    rw [Stmt.relabel, Expr.relabel_of_numberless same inner,
      Stmt.relabel_of_numberless same' inner']

/-- Statements that are the same but for the numbers of their nodes have got the numbers `π`, if
these are the right ones one by one. -/
theorem Stmt.relabelList_of_numberless : ∀ {ss ss' : List Stmt},
    Stmt.relabelList .numberless ss' = Stmt.relabelList .numberless ss →
      (Stmt.idsList ss).map π = Stmt.idsList ss' → Stmt.relabelList (.renumber π) ss = ss'
  | [], [], _, _ => rfl
  | s :: ss, s' :: ss', h, ids => by
    injection h with same same'
    obtain ⟨inner, inner'⟩ := map_append_eq (Stmt.length_ids_of_numberless same) ids
    rw [Stmt.relabelList, Stmt.relabel_of_numberless same inner,
      Stmt.relabelList_of_numberless same' inner']

theorem FunctionDecl.relabel_of_numberless : ∀ {decl decl' : FunctionDecl},
    decl'.relabel .numberless = decl.relabel .numberless → decl.ids.map π = decl'.ids →
      decl.relabel (.renumber π) = decl'
  | ⟨_, params, body⟩, ⟨_, params', body'⟩, h, ids => by
    injection h with name kept same
    rw [FunctionDecl.relabel, Lexeme.map_relabel_of_numberless kept,
      Stmt.relabelList_of_numberless same ids]
    exact congrArg (FunctionDecl.mk · params' body') name.symm

theorem FunctionDecl.relabelList_of_numberless : ∀ {decls decls' : List FunctionDecl},
    FunctionDecl.relabelList .numberless decls' = FunctionDecl.relabelList .numberless decls →
      (FunctionDecl.idsList decls).map π = FunctionDecl.idsList decls' →
        FunctionDecl.relabelList (.renumber π) decls = decls'
  | [], [], _, _ => rfl
  | decl :: decls, decl' :: decls', h, ids => by
    injection h with same same'
    obtain ⟨inner, inner'⟩ := map_append_eq (FunctionDecl.length_ids_of_numberless same) ids
    rw [FunctionDecl.relabelList, FunctionDecl.relabel_of_numberless same inner,
      FunctionDecl.relabelList_of_numberless same' inner']

end

end

/-- Statements whose numbers differ have got others by one renumbering, if nothing else is
different. -/
theorem Stmt.exists_renumbering {ss ss' : List Stmt}
    (h : Stmt.relabelList .numberless ss' = Stmt.relabelList .numberless ss)
    (differ : (Stmt.idsList ss).Nodup) (differ' : (Stmt.idsList ss').Nodup) :
    ∃ π : ExprId → ExprId, (∀ i ∈ Stmt.idsList ss, ∀ j ∈ Stmt.idsList ss, π i = π j → i = j) ∧
      ss' = Stmt.relabelList (.renumber π) ss := by
  have sizes : (Stmt.idsList ss').length = (Stmt.idsList ss).length := by
    have := congrArg (fun ss => (Stmt.idsList ss).length) h
    simpa only [Stmt.idsList_relabelList, List.length_map] using this
  let π : ExprId → ExprId := fun i => (Stmt.idsList ss').getD ((Stmt.idsList ss).idxOf i) 0
  have labelled : (Stmt.idsList ss).map π = Stmt.idsList ss' := by
    refine List.ext_getElem (by rw [List.length_map, sizes]) fun n inside inside' => ?_
    have inside'' : n < (Stmt.idsList ss).length := by rwa [List.length_map] at inside
    rw [List.getElem_map]
    show (Stmt.idsList ss').getD ((Stmt.idsList ss).idxOf (Stmt.idsList ss)[n]) 0 = _
    rw [differ.idxOf_getElem, List.getD_eq_getElem]
  refine ⟨π, ?_, (Stmt.relabelList_of_numberless h labelled).symm⟩
  rw [← labelled] at differ'
  intro i inside j inside' same
  exact List.inj_on_of_nodup_map differ' inside inside' same

end Lox
