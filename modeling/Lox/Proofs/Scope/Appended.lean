import Lox.Proofs.Scope.Exact
import Lox.Proofs.Syntax.Relabel

/-!
# The survey of programs one after another

Outside all scopes, the statements of a program lie past the declarations before them, and nowhere
else. So the sites of a program that is put after another one are its own with other labels
(`Stmt.sites_relabel`). The rules are broken at none of them if they are not broken at its own, and
the nodes of both programs have the distances that they have in the one or the other
(`Stmt.distancesOf_append`).
-/

namespace Lox

/-! ## Places after declarations -/

namespace Path

/-- The path leads past declarations only. -/
def Flat (p : Path) : Prop :=
  ∀ way ∈ p, ∃ name, way = .past name

namespace Flat

theorem nil : Path.Flat [] :=
  nofun

theorem past {p : Path} (h : p.Flat) (name : String) : Path.Flat (.past name :: p) :=
  List.forall_mem_cons.mpr ⟨⟨name, rfl⟩, h⟩

theorem passList {p : Path} (h : p.Flat) (ss : List Stmt) : (Stmt.passList ss p).Flat := by
  induction ss generalizing p with
  | nil => exact h
  | cons s ss ih =>
    refine ih (p := s.pass p) ?_
    unfold Stmt.pass
    split
    · exact h.past _
    · exact h

theorem known {base : Path} (h : base.Flat) :
    base.scopes = [] ∧ base.body = .none ∧ base.enclosingClass = .none := by
  induction base with
  | nil => exact ⟨rfl, rfl, rfl⟩
  | cons way base ih =>
    obtain ⟨⟨name, rfl⟩, later⟩ := List.forall_mem_cons.mp h
    obtain ⟨scopes, body, enclosingClass⟩ := ih later
    refine ⟨?_, body, enclosingClass⟩
    rw [Path.scopes, scopes, addName]

variable {base : Path} (h : base.Flat)
include h

theorem scopes_append (p : Path) : Path.scopes (p ++ base) = p.scopes := by
  induction p with
  | nil => exact h.known.1
  | cons way p ih =>
    cases way with
    | methods derived => cases derived <;> simp only [List.cons_append, Path.scopes, ih]
    | _ => simp only [List.cons_append, Path.scopes, ih]

theorem body_append (p : Path) : Path.body (p ++ base) = p.body := by
  induction p with
  | nil => exact h.known.2.1
  | cons way p ih => cases way <;> simp only [List.cons_append, Path.body, ih]

theorem enclosingClass_append (p : Path) :
    Path.enclosingClass (p ++ base) = p.enclosingClass := by
  induction p with
  | nil => exact h.known.2.2
  | cons way p ih => cases way <;> simp only [List.cons_append, Path.enclosingClass, ih]

theorem globals_append {p : Path} {name : String} (inside : name ∈ p.globals) :
    name ∈ Path.globals (p ++ base) := by
  induction p with
  | nil => cases inside
  | cons way p ih =>
    cases way with
    | past other =>
      rw [List.cons_append, Path.globals, h.scopes_append]
      rw [Path.globals] at inside
      split at inside
      · rename_i outside
        rw [if_pos outside]
        exact List.mem_cons.mpr ((List.mem_cons.mp inside).imp_right ih)
      · rename_i isLocal
        rw [if_neg isLocal]
        exact ih inside
    | _ => exact ih inside

/-- What can be read can be read after other declarations. -/
theorem pending_of_append {p : Path} {name : String} (pending : Path.Pending (p ++ base) name) :
    p.Pending name := by
  obtain ⟨first, unknown⟩ := pending
  cases p with
  | nil =>
    obtain ⟨other, e⟩ := h _ (List.mem_of_mem_head? first)
    cases e
  | cons way p =>
    refine ⟨first, fun isGlobal inside => unknown ?_ (h.globals_append inside)⟩
    rw [h.scopes_append]
    exact isGlobal

end Flat

end Path

/-! ## Sites -/

/-- The mention with other labels. -/
def Mention.relabel (R : Relabelling) : Mention → Mention
  | .declares name => .declares (name.relabel R)
  | .inherits name superclass => .inherits (name.relabel R) (superclass.relabel R)
  | .reads id name => .reads (R.id id) (name.relabel R)
  | .assigns id name => .assigns (R.id id) (name.relabel R)
  | .this id keyword => .this (R.id id) (keyword.relabel R)
  | .super id keyword => .super (R.id id) (keyword.relabel R)
  | .returns keyword withValue => .returns (keyword.relabel R) withValue

/-- The site with other labels, after the place `base`. -/
def Site.relabel (R : Relabelling) (base : Path) (site : Site) : Site :=
  ⟨site.place ++ base, site.mention.relabel R⟩

section
variable (R : Relabelling) (base : Path)

mutual

theorem Expr.sites_relabel : ∀ (e : Expr) (p : Path),
    (e.relabel R).sites (p ++ base) = (e.sites p).map (Site.relabel R base)
  | .assign _ _ value, p => by
    rw [Expr.relabel, Expr.sites, value.sites_relabel, Expr.sites, List.map_append]; rfl
  | .binary _ _ left right, p | .logical _ _ left right, p => by
    rw [Expr.relabel, Expr.sites, left.sites_relabel, right.sites_relabel, Expr.sites,
      List.map_append]
  | .call callee _ arguments, p => by
    rw [Expr.relabel, Expr.sites, callee.sites_relabel, Expr.sitesList_relabel arguments,
      Expr.sites, List.map_append]
  | .get object _, p => object.sites_relabel p
  | .grouping inner, p => inner.sites_relabel p
  | .literal _, _ => rfl
  | .set object _ value, p => by
    rw [Expr.relabel, Expr.sites, object.sites_relabel, value.sites_relabel, Expr.sites,
      List.map_append]
  | .super _ _ _, _ => rfl
  | .this _ _, _ => rfl
  | .unary _ _ right, p => right.sites_relabel p
  | .variable _ _, _ => rfl

theorem Expr.sitesList_relabel : ∀ (es : List Expr) (p : Path),
    Expr.sitesList (Expr.relabelList R es) (p ++ base) =
      (Expr.sitesList es p).map (Site.relabel R base)
  | [], _ => rfl
  | e :: es, p => by
    rw [Expr.relabelList, Expr.sitesList, e.sites_relabel, Expr.sitesList_relabel es,
      Expr.sitesList, List.map_append]

end

theorem Stmt.pass_relabel (s : Stmt) (p : Path) :
    (s.relabel R).pass (p ++ base) = s.pass p ++ base := by
  unfold Stmt.pass
  rw [s.declared?_relabel]
  split <;> rfl

theorem FunctionDecl.methodBody_relabel (decl : FunctionDecl) :
    (decl.relabel R).methodBody = decl.methodBody := by
  cases decl
  rfl

theorem Lexeme.pass_relabel (params : List Lexeme) (p : Path) :
    Lexeme.pass (params.map (Lexeme.relabel R)) (p ++ base) = Lexeme.pass params p ++ base := by
  induction params generalizing p with
  | nil => rfl
  | cons param params ih => exact ih (.past param.text :: p)

theorem Lexeme.sites_relabel (params : List Lexeme) (p : Path) :
    Lexeme.sites (params.map (Lexeme.relabel R)) (p ++ base) =
      (Lexeme.sites params p).map (Site.relabel R base) := by
  induction params generalizing p with
  | nil => rfl
  | cons param params ih => exact congrArg (_ :: ·) (ih (.past param.text :: p))

theorem Superclass.sites_relabel (name : Lexeme) (c : Option Superclass) (p : Path) :
    Superclass.sites (name.relabel R) (c.map (Superclass.relabel R)) (p ++ base) =
      (Superclass.sites name c p).map (Site.relabel R base) := by
  cases c <;> rfl

mutual

theorem Stmt.sites_relabel : ∀ (s : Stmt) (p : Path),
    (s.relabel R).sites (p ++ base) = (s.sites p).map (Site.relabel R base)
  | .block body, p => Stmt.sitesList_relabel body (.block :: p)
  | .classDecl name superclass methods, p => by
    rw [Stmt.relabel, Stmt.sites, Option.isSome_map, Stmt.sites, List.map_cons, List.map_append,
      ← Superclass.sites_relabel, ← FunctionDecl.sitesMethods_relabel methods]
    rfl
  | .expression e, p | .print e, p => e.sites_relabel R base p
  | .function decl, p => by
    obtain ⟨name, params, body⟩ := decl
    exact congrArg (_ :: ·)
      (FunctionDecl.sites_relabel ⟨name, params, body⟩ .function (.past name.text :: p))
  | .ifThen condition thenBranch, p => by
    rw [Stmt.relabel, Stmt.sites, condition.sites_relabel, thenBranch.sites_relabel, Stmt.sites,
      List.map_append]
  | .ifElse condition thenBranch elseBranch, p => by
    rw [Stmt.relabel, Stmt.sites, condition.sites_relabel, thenBranch.sites_relabel,
      elseBranch.sites_relabel, Stmt.sites, List.map_append, List.map_append]
  | .returning _ none, _ => rfl
  | .returning _ (some value), p => congrArg (_ :: ·) (value.sites_relabel R base p)
  | .varDecl _ none, _ => rfl
  | .varDecl name (some initializer), p =>
    congrArg (_ :: ·) (initializer.sites_relabel R base (.initializer name.text :: p))
  | .while condition body, p => by
    rw [Stmt.relabel, Stmt.sites, condition.sites_relabel, body.sites_relabel, Stmt.sites,
      List.map_append]

theorem Stmt.sitesList_relabel : ∀ (ss : List Stmt) (p : Path),
    Stmt.sitesList (Stmt.relabelList R ss) (p ++ base) =
      (Stmt.sitesList ss p).map (Site.relabel R base)
  | [], _ => rfl
  | s :: ss, p => by
    rw [Stmt.relabelList, Stmt.sitesList, s.sites_relabel, s.pass_relabel,
      Stmt.sitesList_relabel ss, Stmt.sitesList, List.map_append]

theorem FunctionDecl.sites_relabel : ∀ (decl : FunctionDecl) (kind : BodyKind) (p : Path),
    (decl.relabel R).sites kind (p ++ base) = (decl.sites kind p).map (Site.relabel R base)
  | ⟨name, params, body⟩, kind, p => by
    rw [FunctionDecl.relabel, FunctionDecl.sites, FunctionDecl.sites, List.map_append,
      ← Lexeme.sites_relabel, ← Stmt.sitesList_relabel body, ← Lexeme.pass_relabel]
    rfl

theorem FunctionDecl.sitesMethods_relabel : ∀ (methods : List FunctionDecl) (p : Path),
    FunctionDecl.sitesMethods (FunctionDecl.relabelList R methods) (p ++ base) =
      (FunctionDecl.sitesMethods methods p).map (Site.relabel R base)
  | [], _ => rfl
  | method :: methods, p => by
    rw [FunctionDecl.relabelList, FunctionDecl.sitesMethods, FunctionDecl.methodBody_relabel,
      method.sites_relabel, FunctionDecl.sitesMethods_relabel methods, FunctionDecl.sitesMethods,
      List.map_append]

end

end

namespace Site

variable {R : Relabelling} {base : Path} {site : Site}

/-- No rule is broken after other declarations that is not broken before them. -/
theorem breach?_relabel (h : base.Flat) (ok : site.breach? = none) :
    (site.relabel R base).breach? = none := by
  obtain ⟨p, mention⟩ := site
  cases mention with
  | assigns id name => rfl
  | this id keyword | super id keyword =>
    simp only [relabel, breach?, Mention.relabel, h.enclosingClass_append] at ok ⊢
    revert ok
    cases p.enclosingClass <;> first | exact fun _ => rfl | rintro ⟨⟩
  | returns keyword withValue =>
    simp only [relabel, breach?, Mention.relabel, h.body_append] at ok ⊢
    revert ok
    cases p.body <;> cases withValue <;> first | exact fun _ => rfl | rintro ⟨⟩
  | _ =>
    simp only [relabel, breach?, Mention.relabel, Lexeme.relabel, h.scopes_append, ite_eq_right_iff,
      reduceCtorEq, imp_false] at ok ⊢
    first
      | exact ok
      | exact fun pending => ok (h.pending_of_append pending)

/-- No name is declared further out after other declarations. -/
theorem note?_relabel (h : base.Flat) :
    (site.relabel R base).note? = site.note?.map (Prod.map R.id id) := by
  have distance (p : Path) (name : String) :
      Path.distance? (p ++ base) name = p.distance? name := by
    rw [Path.distance?, h.scopes_append, Path.distance?]
  obtain ⟨p, mention⟩ := site
  cases mention with
  | reads id name | assigns id name =>
    simp only [relabel, note?, Mention.relabel, Lexeme.text_relabel, distance, Option.map_map]
    rfl
  | this id keyword | super id keyword =>
    simp only [relabel, note?, Mention.relabel, Lexeme.text_relabel, distance,
      h.enclosingClass_append]
    split
    all_goals first | rfl | (rw [Option.map_map]; rfl)
  | declares _ | inherits _ _ | returns _ _ => rfl

end Site

/-! ## Programs -/

theorem Stmt.sitesList_append (ss ss' : List Stmt) (p : Path) :
    Stmt.sitesList (ss ++ ss') p =
      Stmt.sitesList ss p ++ Stmt.sitesList ss' (Stmt.passList ss p) := by
  induction ss generalizing p with
  | nil => rfl
  | cons s ss ih =>
    rw [List.cons_append, Stmt.sitesList, ih, Stmt.sitesList, List.append_assoc]
    rfl

/-- Only nodes of the program have distances. -/
theorem Stmt.lt_of_distance {T : Token → Prop} {ss : List Stmt} {hi : Nat}
    (read : Stmt.ReadList T 0 ss hi) {distances : Distances} (ok : distancesOf ss = .ok distances)
    {id : ExprId} {n : Nat} (entry : distances[id]? = some n) : id < hi := by
  obtain ⟨-, -, exact⟩ := Stmt.distancesOf_exact read.1 read.2.nodup
  obtain ⟨site, inside, note⟩ := (exact distances ok id n).mp entry
  have node := List.mem_filterMap.mpr ⟨site, inside, Site.node?_of_note? note⟩
  rw [Site.all, Stmt.nodes_sitesList] at node
  exact (read.2.bounds id node).2

/-- Two programs that the survey accepts, one after the other, are accepted too, and the nodes of
both have the distances that they had. -/
theorem Stmt.distancesOf_append {T : Token → Prop} {ss ss' : List Stmt} {lines k k' hi : Nat}
    (read : Stmt.ReadList T 0 ss k) (read' : Stmt.ReadList T 0 ss' k')
    (whole : Stmt.ReadList T 0 (ss ++ Stmt.relabelList (.after lines k) ss') hi)
    {distances distances' : Distances} (ok : distancesOf ss = .ok distances)
    (ok' : distancesOf ss' = .ok distances') :
    ∃ joined, distancesOf (ss ++ Stmt.relabelList (.after lines k) ss') = .ok joined ∧
      (∀ id < k, joined[id]? = distances[id]?) ∧ ∀ id, joined[id + k]? = distances'[id]? := by
  obtain ⟨-, accepted, exact⟩ := Stmt.distancesOf_exact read.1 read.2.nodup
  obtain ⟨-, accepted', exact'⟩ := Stmt.distancesOf_exact read'.1 read'.2.nodup
  obtain ⟨-, accepted'', exact''⟩ := Stmt.distancesOf_exact whole.1 whole.2.nodup
  have flat : (Stmt.passList ss []).Flat := Path.Flat.nil.passList ss
  have sites : Site.all (ss ++ Stmt.relabelList (.after lines k) ss') =
      Site.all ss ++ (Site.all ss').map (Site.relabel (.after lines k) (Stmt.passList ss [])) := by
    rw [Site.all, Stmt.sitesList_append, Site.all, Site.all, ← Stmt.sitesList_relabel]
    rfl
  have unbroken : breachesOf (ss ++ Stmt.relabelList (.after lines k) ss') = [] := by
    rw [breachesOf, sites, List.filterMap_append, List.append_eq_nil_iff]
    refine ⟨accepted.mp ⟨distances, ok⟩, List.filterMap_eq_nil_iff.mpr fun site inside => ?_⟩
    obtain ⟨site', inside', rfl⟩ := List.mem_map.mp inside
    exact site'.breach?_relabel flat
      (List.filterMap_eq_nil_iff.mp (accepted'.mp ⟨distances', ok'⟩) site' inside')
  obtain ⟨joined, found⟩ := accepted''.mpr unbroken
  have entries (i n : Nat) : joined[i]? = some n ↔
      distances[i]? = some n ∨ ∃ id, id + k = i ∧ distances'[id]? = some n := by
    rw [exact'' joined found, sites]
    constructor
    · rintro ⟨site, inside, note⟩
      obtain inside | inside := List.mem_append.mp inside
      · exact .inl ((exact distances ok i n).mpr ⟨site, inside, note⟩)
      · obtain ⟨site', inside', rfl⟩ := List.mem_map.mp inside
        rw [Site.note?_relabel flat, Option.map_eq_some_iff] at note
        obtain ⟨⟨id, n'⟩, note, e⟩ := note
        cases e
        exact .inr ⟨id, rfl, (exact' distances' ok' id n').mpr ⟨site', inside', note⟩⟩
    · rintro (entry | ⟨id, rfl, entry⟩)
      · obtain ⟨site, inside, note⟩ := (exact distances ok i n).mp entry
        exact ⟨site, List.mem_append_left _ inside, note⟩
      · obtain ⟨site, inside, note⟩ := (exact' distances' ok' id n).mp entry
        refine ⟨_, List.mem_append_right _ (List.mem_map_of_mem inside), ?_⟩
        rw [Site.note?_relabel flat, note]
        rfl
  refine ⟨joined, found, fun id before => Option.ext fun n => ?_, fun id => Option.ext fun n => ?_⟩
  · rw [entries]
    refine ⟨fun entry => entry.resolve_right ?_, .inl⟩
    rintro ⟨id', rfl, -⟩
    exact absurd before (Nat.not_lt.mpr (Nat.le_add_left k id'))
  · rw [entries]
    constructor
    · rintro (entry | ⟨id', e, entry⟩)
      · -- The nodes of the first program have numbers below `k`.
        exact absurd (Stmt.lt_of_distance read ok entry) (Nat.not_lt.mpr (Nat.le_add_left k id))
      · rwa [Nat.add_right_cancel e] at entry
    · exact fun entry => .inr ⟨id, rfl, entry⟩

end Lox
