import Lox.Proofs.Scope.Words
import Lox.Proofs.Syntax.Soundness.Programs

/-!
# Where the words of a program stand

Where the line of each token is its place in the list of tokens (`Counted`), a tree that is read
from a part of the list has its words in that part, and in their order, but for the exchanges of
which the parts stand in the other order (`Placed`). These are the assignments to properties and the
loops that are written with `for` (`Exchange.Turned`). An expression is written with the tokens of
its slots (`Expr.placed`); for statements, and so for `for` loops, each rule is looked at
(`Rule.YieldsPlaced`).
-/

namespace Lox

/-! ## Places -/

/-- The word is that of the token at its place. -/
def Lexeme.StandsIn (tokens : List Token) (w : Lexeme) : Prop :=
  ∃ t, tokens[w.line]? = some t ∧ t.lexeme = w.text

/-- The list has its places as lines, and from the place `lo` on it has the tokens. -/
structure Counted (all : List Token) (lo : Nat) (tokens : List Token) : Prop where
  numbered : ∀ place (t : Token), all[place]? = some t → t.line = place
  behind : all.drop lo = tokens

namespace Counted

variable {all tokens : List Token} {lo : Nat} {t : Token}

theorem getElem? (h : Counted all lo (t :: tokens)) : all[lo]? = some t := by
  rw [← Nat.add_zero lo, ← List.getElem?_drop, h.behind]
  rfl

theorem line_eq (h : Counted all lo (t :: tokens)) : t.line = lo :=
  h.numbered lo t h.getElem?

theorem standsIn (h : Counted all lo (t :: tokens)) : Lexeme.StandsIn all ⟨t.lexeme, t.line⟩ :=
  ⟨t, h.line_eq ▸ h.getElem?, rfl⟩

theorem tail (h : Counted all lo (t :: tokens)) : Counted all (lo + 1) tokens := by
  refine ⟨h.numbered, ?_⟩
  rw [← List.drop_drop, h.behind]
  rfl

end Counted

/-- The tokens of a `for` loop up to its body, with an increment. -/
def Slot.loopHead (initializer : Option Stmt) (condition : Option Expr) (increment : Expr) :
    List Slot :=
  .keyword .for :: .symbol .leftParen :: (initializer.elim [.symbol .semicolon] Stmt.slots ++
    ((condition.elim [] Expr.slots ++ [.symbol .semicolon]) ++
      (increment.slots ++ [.symbol .rightParen])))

/-- Among the tokens, the parts stand in the other order. Those of an assignment always do, and
those of a loop if a `for` loop is written there with the increment in its head, and the body is
read behind it. -/
def Exchange.Turned (tokens : List Token) : Exchange → Prop
  | .assignment _ _ => True
  | .round body increment => ∃ place initializer condition behind,
    Spells (Slot.loopHead initializer condition increment) (tokens.drop place) behind ∧
      ∃ n c c', beforeEnd c.rest = behind ∧ Rule.statement n c = .ok body c'

/-- One word is of the part of a turned exchange that comes first in the survey, and the other of
the other part. -/
def TurnedRound (tokens : List Token) (exchanges : List Exchange) (a b : Lexeme) : Prop :=
  ∃ x ∈ exchanges, x.Turned tokens ∧ a ∈ x.first ∧ b ∈ x.later

/-- The first word stands before the second, or they are of two parts that are turned round. -/
def InOrder (tokens : List Token) (exchanges : List Exchange) (a b : Lexeme) : Prop :=
  a.line < b.line ∨ b.line < a.line ∧ TurnedRound tokens exchanges a b

/-- The words stand at places from `lo` up to `hi`, in order but for the exchanges. -/
structure Ordered (all : List Token) (lo hi : Nat) (words : List Lexeme)
    (exchanges : List Exchange) : Prop where
  le : lo ≤ hi
  bounds : ∀ w ∈ words, lo ≤ w.line ∧ w.line < hi
  known : ∀ w ∈ words, w.StandsIn all
  order : words.Pairwise (InOrder all exchanges)

theorem InOrder.mono {tokens : List Token} {exchanges exchanges' : List Exchange} {a b : Lexeme}
    (h : InOrder tokens exchanges a b) (sub : ∀ x ∈ exchanges, x ∈ exchanges') :
    InOrder tokens exchanges' a b :=
  h.imp_right fun ⟨before, x, inside, parts⟩ => ⟨before, x, sub x inside, parts⟩

namespace Ordered

variable {all : List Token} {lo mid hi : Nat} {words words' : List Lexeme}
  {exchanges exchanges' : List Exchange}

theorem nil (all : List Token) (lo : Nat) : Ordered all lo lo [] [] :=
  ⟨Nat.le_refl lo, nofun, nofun, .nil⟩

theorem mono (h : Ordered all lo hi words exchanges) (sub : ∀ x ∈ exchanges, x ∈ exchanges') :
    Ordered all lo hi words exchanges' :=
  ⟨h.le, h.bounds, h.known, h.order.imp fun inOrder => inOrder.mono sub⟩

/-- One place more before the words. -/
theorem skip (h : Ordered all (lo + 1) hi words exchanges) : Ordered all lo hi words exchanges :=
  ⟨Nat.le_of_succ_le h.le, fun w inside => ⟨Nat.le_of_succ_le (h.bounds w inside).1,
    (h.bounds w inside).2⟩, h.known, h.order⟩

/-- One word more before the words. -/
theorem keep {w : Lexeme} (here : w.line = lo) (known : w.StandsIn all)
    (h : Ordered all (lo + 1) hi words exchanges) : Ordered all lo hi (w :: words) exchanges := by
  have le := h.le
  refine ⟨Nat.le_of_succ_le le, List.forall_mem_cons.mpr ⟨by omega, fun w' inside => ?_⟩,
    List.forall_mem_cons.mpr ⟨known, h.known⟩,
    List.pairwise_cons.mpr ⟨fun w' inside => .inl ?_, h.order⟩⟩
  · have := h.bounds w' inside
    omega
  · have := h.bounds w' inside
    omega

/-- The words of two parts, as they are written. -/
theorem append (h : Ordered all lo mid words exchanges)
    (h' : Ordered all mid hi words' exchanges') :
    Ordered all lo hi (words ++ words') (exchanges ++ exchanges') := by
  have le := h.le
  have le' := h'.le
  refine ⟨by omega, List.forall_mem_append.mpr ⟨fun w inside => ?_, fun w inside => ?_⟩,
    List.forall_mem_append.mpr ⟨h.known, h'.known⟩, List.pairwise_append.mpr
      ⟨(h.mono fun _ => List.mem_append_left _).order,
        (h'.mono fun _ => List.mem_append_right _).order, fun a inside b inside' => .inl ?_⟩⟩
  · have := h.bounds w inside
    omega
  · have := h'.bounds w inside
    omega
  · have := h.bounds a inside
    have := h'.bounds b inside'
    omega

/-- The words of the two parts of an exchange that stand in the other order. -/
theorem turn {x : Exchange} (turned : x.Turned all) (h : Ordered all lo mid x.later exchanges)
    (h' : Ordered all mid hi x.first exchanges') :
    Ordered all lo hi (x.first ++ x.later) (x :: (exchanges' ++ exchanges)) := by
  have le := h.le
  have le' := h'.le
  refine ⟨by omega, List.forall_mem_append.mpr ⟨fun w inside => ?_, fun w inside => ?_⟩,
    List.forall_mem_append.mpr ⟨h'.known, h.known⟩, List.pairwise_append.mpr
      ⟨(h'.mono fun _ inside => List.mem_cons_of_mem _ (List.mem_append_left _ inside)).order,
        (h.mono fun _ inside => List.mem_cons_of_mem _ (List.mem_append_right _ inside)).order,
        fun a inside b inside' => .inr ⟨?_, x, List.mem_cons_self, turned, inside, inside'⟩⟩⟩
  · have := h'.bounds w inside
    omega
  · have := h.bounds w inside
    omega
  · have := h'.bounds a inside
    have := h.bounds b inside'
    omega

end Ordered

/-- The words are those of the tokens before `rest`: where these are counted, the words stand at
their places, in order but for the exchanges. -/
def Placed (all : List Token) (tokens rest : List Token) (words : List Lexeme)
    (exchanges : List Exchange) : Prop :=
  ∀ lo, Counted all lo tokens → ∃ hi, Counted all hi rest ∧ Ordered all lo hi words exchanges

namespace Placed

variable {all : List Token} {t : Token} {tokens mid rest : List Token}
  {words words' : List Lexeme} {exchanges exchanges' : List Exchange}

theorem refl (tokens : List Token) : Placed all tokens tokens [] [] :=
  fun lo counted => ⟨lo, counted, .nil all lo⟩

theorem mono (h : Placed all tokens rest words exchanges) (sub : ∀ x ∈ exchanges, x ∈ exchanges') :
    Placed all tokens rest words exchanges' := by
  intro lo counted
  obtain ⟨hi, counted', ordered⟩ := h lo counted
  exact ⟨hi, counted', ordered.mono sub⟩

theorem skip (h : Placed all tokens rest words exchanges) :
    Placed all (t :: tokens) rest words exchanges := by
  intro lo counted
  obtain ⟨hi, counted', ordered⟩ := h (lo + 1) counted.tail
  exact ⟨hi, counted', ordered.skip⟩

theorem keep (h : Placed all tokens rest words exchanges) :
    Placed all (t :: tokens) rest (⟨t.lexeme, t.line⟩ :: words) exchanges := by
  intro lo counted
  obtain ⟨hi, counted', ordered⟩ := h (lo + 1) counted.tail
  exact ⟨hi, counted', ordered.keep counted.line_eq counted.standsIn⟩

theorem append (h : Placed all tokens mid words exchanges)
    (h' : Placed all mid rest words' exchanges') :
    Placed all tokens rest (words ++ words') (exchanges ++ exchanges') := by
  intro lo counted
  obtain ⟨_, counted', ordered⟩ := h lo counted
  obtain ⟨hi, counted'', ordered'⟩ := h' _ counted'
  exact ⟨hi, counted'', ordered.append ordered'⟩

theorem turn {x : Exchange} (turned : x.Turned all) (h : Placed all tokens mid x.later exchanges)
    (h' : Placed all mid rest x.first exchanges') :
    Placed all tokens rest (x.first ++ x.later) (x :: (exchanges' ++ exchanges)) := by
  intro lo counted
  obtain ⟨_, counted', ordered⟩ := h lo counted
  obtain ⟨hi, counted'', ordered'⟩ := h' _ counted'
  exact ⟨hi, counted'', ordered.turn turned ordered'⟩

/-- Tokens that are no words follow. -/
theorem before (h : Placed all tokens mid words exchanges) (h' : Placed all mid rest [] []) :
    Placed all tokens rest words exchanges := by
  have := h.append h'
  rwa [List.append_nil, List.append_nil] at this

/-- Tokens that are no words go before. -/
theorem after (h : Placed all tokens mid [] []) (h' : Placed all mid rest words exchanges) :
    Placed all tokens rest words exchanges :=
  h.append h'

/-- The words that slots keep are in the order of the slots. -/
theorem of_spells {slots : List Slot} (h : Spells slots tokens rest) :
    Placed all tokens rest (slots.filterMap Slot.kept) [] := by
  induction slots generalizing tokens with
  | nil => exact (show tokens = rest from h) ▸ refl tokens
  | cons slot slots ih =>
    obtain ⟨t, ts, rfl, takes, h⟩ := h
    obtain ⟨kind, kept⟩ := slot
    cases kept with
    | none => exact (ih h).skip
    | some l =>
      obtain rfl := takes.kept l rfl
      exact (ih h).keep

end Placed

section
variable {all : List Token}

mutual

/-- The words of an expression are placed as its slots are. -/
theorem Expr.placed : ∀ (e : Expr) {tokens rest : List Token}, Spells e.slots tokens rest →
    Placed all tokens rest e.words e.exchanges
  | .assign _ name value, _, _, ⟨_, _, e, _, _, _, e', _, h⟩ => by
    subst e e'
    exact (value.placed h).skip.skip
  | .binary _ _ left right, _, _, spells | .logical _ _ left right, _, _, spells => by
    obtain ⟨_, h, _, _, rfl, -, h'⟩ := Spells.append.mp spells
    exact (left.placed h).append (right.placed h').skip
  | .call callee _ arguments, _, _, spells => by
    obtain ⟨_, h, _, _, rfl, -, rest⟩ := Spells.append.mp spells
    obtain ⟨_, h', _, _, rfl, -, rfl⟩ := Spells.append.mp rest
    exact (callee.placed h).append ((Expr.placedList arguments h').before (.skip (.refl _))).skip
  | .get object _, _, _, spells => by
    obtain ⟨_, h, _, _, rfl, -, _, _, rfl, -, rfl⟩ := Spells.append.mp spells
    exact (object.placed h).before (.skip (.skip (.refl _)))
  | .grouping inner, _, _, ⟨_, _, e, _, spells⟩ => by
    subst e
    obtain ⟨_, h, _, _, rfl, -, rfl⟩ := Spells.append.mp spells
    exact ((inner.placed h).before (.skip (.refl _))).skip
  | .literal _, _, _, ⟨_, _, e, _, e'⟩ => by
    subst e e'
    exact .skip (.refl _)
  | .set object _ value, _, _, spells => by
    obtain ⟨_, h, _, _, rfl, -, _, _, rfl, -, _, _, rfl, -, h'⟩ := Spells.append.mp spells
    exact .turn (x := .assignment value object) trivial (object.placed h)
      (value.placed h').skip.skip.skip
  | .super _ keyword _, _, _, h => by
    obtain ⟨_, _, rfl, takes, _, _, rfl, -, _, _, rfl, -, rfl⟩ := h
    obtain rfl := takes.kept keyword rfl
    exact .keep (.skip (.skip (.refl _)))
  | .this _ keyword, _, _, h => by
    obtain ⟨_, _, rfl, takes, rfl⟩ := h
    obtain rfl := takes.kept keyword rfl
    exact .keep (.refl _)
  | .unary _ _ right, _, _, ⟨_, _, e, _, h⟩ => by
    subst e
    exact (right.placed h).skip
  | .variable _ name, _, _, h => by
    obtain ⟨_, _, rfl, takes, rfl⟩ := h
    obtain rfl := takes.kept name rfl
    exact .keep (.refl _)

theorem Expr.placedList : ∀ (es : List Expr) {tokens rest : List Token},
    Spells (Expr.slotsList es) tokens rest →
    Placed all tokens rest (Expr.wordsList es) (Expr.exchangesList es)
  | [], _, _, e => by
    subst e
    exact .refl _
  | e :: es, _, _, h => by
    obtain ⟨_, h, h'⟩ := Spells.append.mp h
    exact (e.placed h).append (Expr.placedRest es h')

theorem Expr.placedRest : ∀ (es : List Expr) {tokens rest : List Token},
    Spells (Expr.slotsRest es) tokens rest →
    Placed all tokens rest (Expr.wordsList es) (Expr.exchangesList es)
  | [], _, _, e => by
    subst e
    exact .refl _
  | e :: es, _, _, ⟨_, _, eq, _, h⟩ => by
    subst eq
    obtain ⟨_, h, h'⟩ := Spells.append.mp h
    exact ((e.placed h).append (Expr.placedRest es h')).skip

end

end

/-! ## Statements -/

/-- The words of the statement are those of the tokens before `rest`. -/
abbrev Stmt.PlacedIn (all : List Token) (tokens : List Token) (s : Stmt) (rest : List Token) :
    Prop :=
  Placed all tokens rest s.words s.exchanges

/-- The words of the statements are those of the tokens before `rest`. -/
abbrev Stmt.PlacedList (all : List Token) (tokens : List Token) (ss : List Stmt)
    (rest : List Token) : Prop :=
  Placed all tokens rest (Stmt.wordsList ss) (Stmt.exchangesList ss)

/-- The words of the function and its name are those of the tokens before `rest`. -/
abbrev FunctionDecl.PlacedIn (all : List Token) (tokens : List Token) (decl : FunctionDecl)
    (rest : List Token) : Prop :=
  Placed all tokens rest (decl.name :: decl.words) decl.exchanges

/-- The words of the methods are those of the tokens before `rest`. -/
abbrev FunctionDecl.PlacedList (all : List Token) (tokens : List Token)
    (methods : List FunctionDecl) (rest : List Token) : Prop :=
  Placed all tokens rest (FunctionDecl.wordsList methods) (FunctionDecl.exchangesList methods)

section
variable {all : List Token} {tokens mid rest : List Token}

theorem Placed.tail {w : Lexeme} {words : List Lexeme} {exchanges : List Exchange}
    (h : Placed all tokens rest (w :: words) exchanges) :
    Placed all tokens rest words exchanges := by
  intro lo counted
  obtain ⟨hi, counted', ordered⟩ := h lo counted
  exact ⟨hi, counted', ordered.le, (List.forall_mem_cons.mp ordered.bounds).2,
    (List.forall_mem_cons.mp ordered.known).2, (List.pairwise_cons.mp ordered.order).2⟩

theorem Expr.placed_ended {e : Expr} {symbol : Symbol}
    (spells : Spells (e.slots ++ [.symbol symbol]) tokens rest) :
    Placed all tokens rest e.words e.exchanges := by
  obtain ⟨_, h, _, _, rfl, -, rfl⟩ := Spells.append.mp spells
  exact (e.placed h).before (.skip (.refl _))

theorem Expr.placed_optional {value : Option Expr} {symbol : Symbol}
    (h : Spells (value.elim [] Expr.slots ++ [.symbol symbol]) tokens rest) :
    Placed all tokens rest (value.elim [] Expr.words) (value.elim [] Expr.exchanges) := by
  cases value with
  | none => exact .of_spells h
  | some e => exact e.placed_ended h

theorem Slot.kept_names (params : List Lexeme) :
    (Slot.names params).filterMap Slot.kept = params := by
  cases params with
  | nil => rfl
  | cons param params =>
    refine congrArg (param :: ·) ?_
    induction params with
    | nil => rfl
    | cons param params ih => exact congrArg (param :: ·) ih

/-- A `while` loop as it is written. -/
theorem Stmt.placed_while {condition : Expr} {body : Stmt} {words : List Lexeme}
    {exchanges : List Exchange} (same : condition.words = words)
    (same' : condition.exchanges = exchanges) (h : Placed all tokens mid words exchanges)
    (h' : body.PlacedIn all mid rest) : (Stmt.while condition body).PlacedIn all tokens rest := by
  subst same same'
  refine (h.append h').mono fun x inside => ?_
  exact (List.mem_append.mp inside).elim (List.mem_append_left _)
    fun inside => List.mem_append_right _ (List.mem_append_right _ inside)

section
variable {initializer : Option Stmt} {condition increment : Option Expr} {body : Stmt}
  {mid₁ mid₂ mid₃ : List Token}

/-- A `for` loop behind its first semicolon, with the increment before the body. -/
theorem Stmt.placed_rounds (turned : ∀ e ∈ increment, (Exchange.round body e).Turned all)
    (hc : Placed all mid₁ mid₂ (condition.elim [] Expr.words) (condition.elim [] Expr.exchanges))
    (hn : Placed all mid₂ mid₃ (increment.elim [] Expr.words) (increment.elim [] Expr.exchanges))
    (hb : body.PlacedIn all mid₃ rest) :
    (Rule.loop none condition increment body).PlacedIn all mid₁ rest := by
  have words : (condition.getD (.literal .true)).words = condition.elim [] Expr.words := by
    cases condition <;> rfl
  have exchanges :
      (condition.getD (.literal .true)).exchanges = condition.elim [] Expr.exchanges := by
    cases condition <;> rfl
  cases increment with
  | none => exact Stmt.placed_while words exchanges hc (hn.after hb)
  | some increment =>
    have whole := hc.append (.turn (turned increment rfl) hn hb)
    simp only [Rule.loop, Stmt.PlacedIn, Stmt.words, Stmt.wordsList, Stmt.exchanges,
      Stmt.exchangesList, Stmt.round, words, exchanges, List.append_nil]
    exact whole

/-- A `for` loop. -/
theorem Stmt.placed_loop (turned : ∀ e ∈ increment, (Exchange.round body e).Turned all)
    (hi : Placed all tokens mid₁ (initializer.elim [] Stmt.words)
      (initializer.elim [] Stmt.exchanges))
    (hc : Placed all mid₁ mid₂ (condition.elim [] Expr.words) (condition.elim [] Expr.exchanges))
    (hn : Placed all mid₂ mid₃ (increment.elim [] Expr.words) (increment.elim [] Expr.exchanges))
    (hb : body.PlacedIn all mid₃ rest) :
    (Rule.loop initializer condition increment body).PlacedIn all tokens rest := by
  have rounds := Stmt.placed_rounds turned hc hn hb
  cases initializer with
  | none => exact hi.after rounds
  | some initializer =>
    have block : Rule.loop (some initializer) condition increment body =
        .block [initializer, Rule.loop none condition increment body] := rfl
    have whole := hi.append rounds
    simp only [block, Stmt.PlacedIn, Stmt.words, Stmt.wordsList, Stmt.exchanges,
      Stmt.exchangesList, List.append_nil]
    exact whole

end

end

namespace Rule

variable {all : List Token} {n : Nat}

theorem placed_varDecl (tokens : List Token) :
    Yields (varDecl n) tokens (Stmt.PlacedIn all tokens) := by
  refine yields_name fun name t ts eq named => ?_
  subst eq
  obtain rfl := named.kept name rfl
  refine yields_symbol? (fun t₁ ts₁ eq _ => ?_) ?_
  · subst eq
    refine yields_ended fun e _ rest _ spells => yields_pure ?_
    exact .keep (.skip (e.placed_ended spells))
  · refine yields_expect fun t₁ ts₁ eq _ => yields_pure ?_
    subst eq
    exact .keep (.skip (.refl _))

theorem placed_expressionStmt (tokens : List Token) :
    Yields (expressionStmt n) tokens (Stmt.PlacedIn all tokens) :=
  yields_ended fun e _ _ _ spells => yields_pure (e.placed_ended spells)

/-- What is done once before a loop is placed, and it is spelt, unlike statements in general. -/
theorem placed_forInitializer (all tokens : List Token) :
    Yields (forInitializer n) tokens fun s rest =>
      Spells (s.elim [.symbol .semicolon] Stmt.slots) tokens rest ∧
        Placed all tokens rest (s.elim [] Stmt.words) (s.elim [] Stmt.exchanges) := by
  refine yields_symbol? (fun t ts eq ends => ?_) ?_
  · subst eq
    exact yields_pure ⟨⟨t, ts, rfl, Slot.takes_of_kind ends, rfl⟩, .skip (.refl _)⟩
  · refine yields_keyword? (fun t ts eq isVar => ?_) fun _ => ?_
    · subst eq
      refine yields_bind (yields_and (yields_varDecl isVar) (placed_varDecl ts))
        fun s rest ⟨parsed, h⟩ => yields_pure ⟨parsed.spells, Placed.skip h⟩
    · exact yields_bind (yields_and (yields_expressionStmt tokens) (placed_expressionStmt tokens))
        fun s rest ⟨parsed, h⟩ => yields_pure ⟨parsed.spells, h⟩

/-- What the rules for statements read is placed where they read it, at the depth `n`. -/
structure YieldsPlaced (all : List Token) (n : Nat) : Prop where
  declaration : ∀ tokens, Yields (declaration n) tokens (Stmt.PlacedIn all tokens)
  classDecl : ∀ tokens, Yields (classDecl n) tokens (Stmt.PlacedIn all tokens)
  methods : ∀ tokens, Yields (methods n) tokens (FunctionDecl.PlacedList all tokens)
  function : ∀ routine tokens, Yields (function n routine) tokens (FunctionDecl.PlacedIn all tokens)
  block : ∀ tokens, Yields (block n) tokens (Stmt.PlacedList all tokens)
  statement : ∀ tokens, Yields (statement n) tokens (Stmt.PlacedIn all tokens)
  forStmt : ∀ t tokens, t.kind = .keyword .for →
    Yields (forStmt n) tokens (Stmt.PlacedIn all (t :: tokens))
  ifStmt : ∀ tokens, Yields (ifStmt n) tokens (Stmt.PlacedIn all tokens)

section
variable (ih : YieldsPlaced all n)
include ih

theorem placed_classDecl (tokens : List Token) :
    Yields (classDecl (n + 1)) tokens (Stmt.PlacedIn all tokens) := by
  refine yields_name fun name t ts eq named => ?_
  subst eq
  obtain rfl := named.kept name rfl
  refine yields_bind (yields_superclass ts) fun superclass mid spells => ?_
  refine yields_expect fun t₁ ts₁ eq _ => ?_
  subst eq
  refine yields_bind (ih.methods ts₁) fun methods rest h => yields_pure ?_
  have named : Placed all _ _ _ [] := .of_spells spells
  have words : (superclass.elim [] fun c => [.symbol .less, .name c.name]).filterMap Slot.kept =
      (superclass.map Superclass.name).toList := by
    cases superclass <;> rfl
  rw [words] at named
  exact (named.append (Placed.skip h)).keep

theorem placed_methods (tokens : List Token) :
    Yields (methods (n + 1)) tokens (FunctionDecl.PlacedList all tokens) := by
  refine yields_symbol? (fun t ts eq _ => yields_pure ?_) ?_
  · subst eq
    exact .skip (.refl _)
  · refine yields_atEnd (fun _ => yields_fail) ?_
    refine yields_bind (ih.function .method tokens) fun method mid h => ?_
    refine yields_bind (ih.methods mid) fun methods rest h' => yields_pure ?_
    exact (Placed.tail h).append h'

theorem placed_function (routine : Routine) (tokens : List Token) :
    Yields (function (n + 1) routine) tokens (FunctionDecl.PlacedIn all tokens) := by
  refine yields_name fun name t ts eq named => ?_
  subst eq
  obtain rfl := named.kept name rfl
  refine yields_expect fun t₁ ts₁ eq _ => ?_
  subst eq
  refine yields_bind (yields_parameters n ts₁) fun params mid ⟨_, spells⟩ => ?_
  refine yields_expect fun t₂ ts₂ eq _ => ?_
  subst eq
  refine yields_bind (ih.block ts₂) fun body rest h => yields_pure ?_
  have named : Placed all _ _ _ [] := .of_spells spells
  have words : (Slot.names params ++ [Slot.symbol .rightParen]).filterMap Slot.kept = params := by
    rw [List.filterMap_append, Slot.kept_names]
    exact List.append_nil params
  rw [words] at named
  exact (named.append (Placed.skip h)).skip.keep

theorem placed_block (tokens : List Token) :
    Yields (block (n + 1)) tokens (Stmt.PlacedList all tokens) := by
  refine yields_symbol? (fun t ts eq _ => yields_pure ?_) ?_
  · subst eq
    exact .skip (.refl _)
  · refine yields_atEnd (fun _ => yields_fail) ?_
    refine yields_bind (ih.declaration tokens) fun s mid h => ?_
    exact yields_bind (ih.block mid) fun ss rest h' => yields_pure (Placed.append h h')

/-- The loop is placed with its keyword, which is a part of what shows that it is turned. -/
theorem placed_forStmt {keyword : Token} (isFor : keyword.kind = .keyword .for)
    (tokens : List Token) :
    Yields (forStmt (n + 1)) tokens (Stmt.PlacedIn all (keyword :: tokens)) := by
  refine yields_expect fun t ts eq opening => ?_
  subst eq
  refine yields_bind (placed_forInitializer all ts) fun initializer mid₁ ⟨spells, hi⟩ => ?_
  refine yields_bind (yields_optionalExpression n _ mid₁) fun condition mid₂ ⟨_, hc⟩ => ?_
  refine yields_bind (yields_optionalExpression n _ mid₂) fun increment mid₃ ⟨_, hn⟩ => ?_
  refine yields_bind (yields_and (yields_run mid₃) (ih.statement mid₃))
    fun body rest ⟨run, hb⟩ => yields_pure fun lo counted => ?_
  have turned : ∀ e ∈ increment, (Exchange.round body e).Turned all := by
    rintro e ⟨⟩
    refine ⟨lo, initializer, condition, mid₃, ?_, n, run⟩
    rw [counted.behind]
    refine ⟨keyword, _, rfl, Slot.takes_of_kind isFor, t, ts, rfl, Slot.takes_of_kind opening, ?_⟩
    exact Spells.append.mpr ⟨mid₁, spells, Spells.append.mpr ⟨mid₂, hc, hn⟩⟩
  have placed := Stmt.placed_loop turned hi (Expr.placed_optional hc) (Expr.placed_optional hn) hb
  exact placed.skip.skip lo counted

theorem placed_ifStmt (tokens : List Token) :
    Yields (ifStmt (n + 1)) tokens (Stmt.PlacedIn all tokens) := by
  refine yields_expect fun t ts eq _ => ?_
  subst eq
  refine yields_ended fun condition _ mid _ spells => ?_
  have h : Placed all _ _ condition.words condition.exchanges := condition.placed_ended spells
  refine yields_bind (ih.statement mid) fun thenBranch mid' h' => ?_
  refine yields_keyword? (fun t₁ ts₁ eq _ => ?_) fun _ => ?_
  · subst eq
    refine yields_bind (ih.statement ts₁) fun elseBranch rest h'' => yields_pure ?_
    exact (h.append (Placed.append h' (Placed.skip h''))).skip
  · exact yields_pure (h.append h').skip

theorem placed_statement (tokens : List Token) :
    Yields (statement (n + 1)) tokens (Stmt.PlacedIn all tokens) := by
  refine yields_keyword? (fun t ts eq isFor => ?_) fun _ => ?_
  · subst eq
    exact ih.forStmt t ts isFor
  refine yields_keyword? (fun t ts eq _ => ?_) fun _ => ?_
  · subst eq
    exact yields_mono (ih.ifStmt ts) fun _ _ h => Placed.skip h
  refine yields_keyword? (fun t ts eq _ => ?_) fun _ => ?_
  · subst eq
    exact yields_ended fun e _ rest _ spells => yields_pure (.skip (e.placed_ended spells))
  refine yields_keyword? (fun t ts eq _ => ?_) fun _ => ?_
  · subst eq
    refine yields_bind (yields_optionalExpression n .returnEnd ts) fun value rest ⟨_, spells⟩ => ?_
    have h : Placed all _ _ (value.elim [] Expr.words) (value.elim [] Expr.exchanges) :=
      Expr.placed_optional spells
    cases value <;> exact yields_pure h.keep
  refine yields_keyword? (fun t ts eq _ => ?_) fun _ => ?_
  · subst eq
    refine yields_expect fun t₁ ts₁ eq _ => ?_
    subst eq
    refine yields_ended fun condition _ mid _ spells => ?_
    refine yields_bind (ih.statement mid) fun body rest h => yields_pure ?_
    exact (Stmt.placed_while rfl rfl (condition.placed_ended spells) h).skip.skip
  refine yields_symbol? (fun t ts eq _ => ?_) ?_
  · subst eq
    exact yields_bind (ih.block ts) fun body rest h => yields_pure (Placed.skip h)
  · exact placed_expressionStmt tokens

theorem placed_declaration (tokens : List Token) :
    Yields (declaration (n + 1)) tokens (Stmt.PlacedIn all tokens) := by
  refine yields_keyword? (fun t ts eq _ => ?_) fun _ => ?_
  · subst eq
    exact yields_mono (ih.classDecl ts) fun _ _ h => Placed.skip h
  refine yields_keyword? (fun t ts eq _ => ?_) fun _ => ?_
  · subst eq
    exact yields_bind (ih.function .function ts) fun decl rest h => yields_pure (Placed.skip h)
  refine yields_keyword? (fun t ts eq _ => ?_) fun _ => ?_
  · subst eq
    exact yields_mono (placed_varDecl ts) fun _ _ h => Placed.skip h
  exact ih.statement tokens

end

theorem yieldsPlaced (all : List Token) (n : Nat) : YieldsPlaced all n := by
  induction n with
  | zero => constructor <;> intros <;> exact yields_fail
  | succ n ih =>
    exact {
      declaration := placed_declaration ih
      classDecl := placed_classDecl ih
      methods := placed_methods ih
      function := placed_function ih
      block := placed_block ih
      statement := placed_statement ih
      forStmt := fun _ tokens isFor => placed_forStmt ih isFor tokens
      ifStmt := placed_ifStmt ih }

end Rule

/-- The words of a program that is read without errors are placed where its tokens are. -/
theorem Program.placed_readFrom (all : List Token) (depth rounds : Nat) {c : Cursor}
    (h : (readFrom depth rounds c).errors = []) : ∃ rest,
      Stmt.PlacedList all (beforeEnd c.rest) (readFrom depth rounds c).statements rest := by
  induction rounds generalizing c with
  | zero => exact ⟨_, .refl _⟩
  | succ rounds ih =>
    simp only [readFrom] at h ⊢
    split
    · exact ⟨_, .refl _⟩
    · rename_i more
      rw [if_neg more] at h
      split
      · rename_i s c' read
        rw [read] at h
        obtain ⟨rest, placed⟩ := ih h
        have first := (Rule.yieldsPlaced all depth).declaration _ c rfl s c' read
        exact ⟨rest, Placed.append first placed⟩
      · rename_i e c' failed
        rw [failed] at h
        cases h

end Lox
