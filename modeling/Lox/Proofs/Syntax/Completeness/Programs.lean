import Lox.Proofs.Syntax.Completeness.Expressions

/-!
# Every program of the grammar is read

Statements and declarations are read back from tokens that spell them (`ReadsStatements`), where
no `else` may follow a statement that ends in a choice without one. A list of statements is so read
to its end, because no statement begins with `else` or with a closing brace; the same goes for a
whole program (`program_is_read_back`).
-/

namespace Lox

/-! ## The first token of a statement -/

/-- What a statement never begins with. -/
structure TokenKind.Begins (kind : TokenKind) : Prop where
  notClosing : kind ≠ .symbol .rightBrace
  notElse : kind ≠ .keyword .else
  notEnd : kind ≠ .eof

theorem TokenKind.Opens.begins {kind : TokenKind} (h : kind.Opens) : kind.Begins :=
  ⟨h.ne rfl rfl, h.ne rfl rfl, h.ne rfl rfl⟩

theorem TokenKind.begins_keyword {k : Keyword} (h : k ≠ .else) : (TokenKind.keyword k).Begins :=
  ⟨nofun, fun e => h (TokenKind.keyword.inj e), nofun⟩

theorem Slot.length_le_names (params : List Lexeme) :
    params.length ≤ (Slot.names params).length := by
  cases params with
  | nil => exact Nat.le_refl 0
  | cons l ls =>
    rw [Slot.names, List.length_cons, List.length_cons, List.length_flatMap]
    induction ls with
    | nil => exact Nat.le_refl 1
    | cons l ls ih =>
      simp only [List.map_cons, List.sum_cons, List.length_cons, List.length_nil] at ih ⊢
      omega

theorem Slot.Takes.begins {s : Slot} {t : Token} (takes : s.Takes t) (h : s.kind.Begins) :
    t.kind.Begins :=
  takes.kind ▸ h

namespace Stmt

theorem Grammatical.begins {s : Stmt} (h : s.Grammatical) {tokens rest : List Token}
    (spells : Spells s.slots tokens rest) : ∃ t ts, tokens = t :: ts ∧ t.kind.Begins := by
  cases s with
  | expression e =>
    obtain ⟨mid, spells, -⟩ := Spells.append.mp spells
    obtain ⟨t, ts, rfl, opens, -⟩ := Expr.Grammatical.opens h spells
    exact ⟨t, ts, rfl, opens.begins⟩
  | block body =>
    obtain ⟨t, ts, rfl, takes, -⟩ := spells
    exact ⟨t, ts, rfl, takes.begins ⟨nofun, nofun, nofun⟩⟩
  | returning keyword value =>
    cases value <;>
    · obtain ⟨t, ts, rfl, takes, -⟩ := spells
      exact ⟨t, ts, rfl, takes.begins (TokenKind.begins_keyword nofun)⟩
  | varDecl name initializer =>
    cases initializer <;>
    · obtain ⟨t, ts, rfl, takes, -⟩ := spells
      exact ⟨t, ts, rfl, takes.begins (TokenKind.begins_keyword nofun)⟩
  | classDecl | function | ifThen | ifElse | print | «while» =>
    obtain ⟨t, ts, rfl, takes, -⟩ := spells
    exact ⟨t, ts, rfl, takes.begins (TokenKind.begins_keyword nofun)⟩

/-- A statement that declares nothing begins with no keyword of a declaration. -/
theorem Grammatical.avoids_declaring {s : Stmt} (h : s.Grammatical) (inner : s.declared? = none)
    {tokens rest : List Token} (spells : Spells s.slots tokens rest) :
    ∃ t ts, tokens = t :: ts ∧ ∀ k ∈ [Keyword.class, .fun, .var], t.kind ≠ .keyword k := by
  cases s with
  | classDecl | function | varDecl => cases inner
  | expression e =>
    obtain ⟨mid, spells, -⟩ := Spells.append.mp spells
    obtain ⟨t, ts, rfl, opens, -⟩ := Expr.Grammatical.opens h spells
    refine ⟨t, ts, rfl, ?_⟩
    simp only [List.forall_mem_cons]
    exact ⟨opens.ne rfl rfl, opens.ne rfl rfl, opens.ne rfl rfl, nofun⟩
  | returning keyword value =>
    cases value <;>
    · obtain ⟨t, ts, rfl, takes, -⟩ := spells
      exact ⟨t, ts, rfl, by simp [takes.kind]⟩
  | block | ifThen | ifElse | print | «while» =>
    obtain ⟨t, ts, rfl, takes, -⟩ := spells
    exact ⟨t, ts, rfl, by simp [takes.kind, Slot.keyword, Slot.symbol]⟩

theorem Grammatical.length_pos {s : Stmt} (h : s.Grammatical) : 1 ≤ s.slots.length := by
  obtain ⟨t, ts, eq, -⟩ := h.begins (Spells.map_token s.slots [])
  have len := congrArg List.length eq
  rw [List.append_nil, List.length_map, List.length_cons] at len
  omega

/-- After statements no `else` follows, unless one follows all of them. -/
theorem GrammaticalList.avoids_else {ss : List Stmt} (h : GrammaticalList ss)
    {tokens rest : List Token} (spells : Spells (slotsList ss) tokens rest)
    (avoids : Avoids (.keyword .else) rest) : Avoids (.keyword .else) tokens := by
  cases ss with
  | nil =>
    obtain rfl : tokens = rest := spells
    exact avoids
  | cons s ss =>
    obtain ⟨mid, spells, -⟩ := Spells.append.mp spells
    obtain ⟨t, ts, rfl, begins⟩ := h.1.begins spells
    exact avoids_cons rfl begins.notElse

end Stmt

namespace Rule

/-! ## Parts of statements -/

section
variable {n : Nat} {tokens rest : List Token}

/-- An expression and the symbol after it. -/
theorem take_expression {α β : Type} {e : Expr} {s : Slot} {slots : List Slot} (place : Place)
    {f : Expr → Lexeme → Rule α} {k : β → Rule α} {Q : β → Prop} (h : e.Grammatical)
    (spells : Spells (e.slots ++ s :: slots) tokens rest) (closes : s.kind = .symbol place.symbol)
    (ends : s.kind.binds? = none) (fits : 24 * e.slots.length ≤ n)
    (h' : ∀ e' l ts, e'.unnumbered = e.unnumbered → Spells slots ts rest →
      Leads (f e' l) ts rest k Q) :
    Leads (expression n >>= fun e => expect place >>= f e) tokens rest k Q := by
  obtain ⟨_, spellsExpr, t, ts, rfl, takes, spellsRest⟩ := Spells.append.mp spells
  have ends' : Ends 0 (t :: ts) := ends_cons_of_none takes.kind ends
  refine take ((readsExpressions n).expression h spellsExpr ends' fits) fun e' same => ?_
  exact take_expect (takes.kind.trans closes) (h' e' _ ts same spellsRest)

theorem reads_varDecl {name : Lexeme} {initializer : Option Expr} {t : Token}
    (h : (Stmt.varDecl name initializer).Grammatical)
    (spells : Spells (Stmt.varDecl name initializer).slots (t :: tokens) rest)
    (fits : 24 * (Stmt.varDecl name initializer).slots.length ≤ n + 24) :
    Reads (varDecl n) tokens rest (·.unnumbered = (Stmt.varDecl name initializer).unnumbered) := by
  cases initializer with
  | none =>
    obtain ⟨_, _, ⟨⟩, -, t₁, _, rfl, named, t₂, ts, rfl, ends, rfl⟩ := spells
    refine take_name named ?_
    refine skip_symbol? (avoids_cons ends.kind nofun) ?_
    exact take_expect ends.kind (leads_self rfl)
  | some e =>
    obtain ⟨_, _, ⟨⟩, -, t₁, _, rfl, named, t₂, ts, rfl, equal, spellsExpr⟩ := spells
    simp only [Stmt.slots, List.length_cons, List.length_append, List.length_nil] at fits
    refine take_name named ?_
    refine take_symbol? equal.kind ?_
    refine take_expression .variableEnd h spellsExpr rfl rfl (by omega) ?_
    rintro e' _ ts same rfl
    refine leads_self ?_
    simp only [Stmt.unnumbered, Option.map_some, same]

theorem reads_parametersFrom {count : Nat} {l : Lexeme} {ls : List Lexeme} {t : Token}
    {ts : List Token} (few : count + (l :: ls).length ≤ Listing.limit)
    (spells : Spells (Slot.names (l :: ls)) tokens (t :: ts))
    (closes : t.kind = .symbol .rightParen) (fits : (l :: ls).length ≤ n) :
    Reads (parametersFrom n count) tokens (t :: ts) (· = l :: ls) := by
  induction ls generalizing n count l tokens with
  | nil =>
    obtain ⟨n, rfl⟩ : ∃ m, n = m + 1 := ⟨n - 1, by rw [List.length_cons] at fits; omega⟩
    obtain ⟨t₁, ts₁, rfl, named, rfl⟩ := spells
    unfold parametersFrom
    rw [if_neg (by rw [List.length_cons] at few; omega)]
    refine take_name named ?_
    exact skip_symbol? (avoids_cons closes nofun) (leads_self rfl)
  | cons l' ls ih =>
    obtain ⟨n, rfl⟩ : ∃ m, n = m + 1 := ⟨n - 1, by rw [List.length_cons] at fits; omega⟩
    obtain ⟨t₁, _, rfl, named, t₂, ts₂, rfl, comma, spells⟩ := spells
    unfold parametersFrom
    simp only [List.length_cons] at few fits
    rw [if_neg (by omega)]
    refine take_name named ?_
    refine take_symbol? comma.kind ?_
    refine take (ih (by rw [List.length_cons]; omega) spells (by rw [List.length_cons]; omega)) ?_
    rintro _ rfl
    exact leads_self rfl

/-- The parameters of a function and the parenthesis after them. -/
theorem reads_parameters {params : List Lexeme} {slots : List Slot}
    (few : params.length ≤ Listing.limit)
    (spells : Spells (Slot.names params ++ .symbol .rightParen :: slots) tokens rest)
    (fits : params.length ≤ n) :
    ∃ mid, Spells slots mid rest ∧ Reads (parameters n) tokens mid (· = params) := by
  obtain ⟨_, spellsParams, t, ts, rfl, closes, spellsRest⟩ := Spells.append.mp spells
  refine ⟨ts, spellsRest, ?_⟩
  cases params with
  | nil =>
    obtain rfl := spellsParams
    exact take_symbol? closes.kind (leads_self rfl)
  | cons l ls =>
    obtain ⟨t₁, _, rfl, named, _⟩ := id spellsParams
    refine skip_symbol? (avoids_cons named.kind nofun) ?_
    refine take (reads_parametersFrom (by omega) spellsParams closes.kind fits) ?_
    rintro _ rfl
    exact take_expect closes.kind (leads_self rfl)

/-- The superclass that a class names, before the body of the class. -/
theorem reads_superclass {c : Option Superclass} {slots : List Slot}
    (spells : Spells (c.elim [] (fun c => [.symbol .less, .name c.name]) ++
      .symbol .leftBrace :: slots) tokens rest) :
    ∃ t ts, t.kind = .symbol .leftBrace ∧ Spells slots ts rest ∧
      Reads superclass tokens (t :: ts) fun c' =>
        c'.map (fun c => (⟨0, c.name⟩ : Superclass)) = c.map fun c => ⟨0, c.name⟩ := by
  obtain ⟨_, spellsName, t, ts, rfl, opens, spellsRest⟩ := Spells.append.mp spells
  refine ⟨t, ts, opens.kind, spellsRest, ?_⟩
  cases c with
  | none =>
    obtain rfl := spellsName
    exact skip_symbol? (avoids_cons opens.kind nofun) (leads_self rfl)
  | some c =>
    obtain ⟨t₁, _, rfl, less, t₂, _, rfl, named, rfl⟩ := spellsName
    refine take_symbol? less.kind ?_
    refine take_name named ?_
    exact take_freshId fun _ => leads_self rfl

end

/-! ## Statements -/

/-- What the rules for statements read back at the depth `n`. -/
structure ReadsStatements (n : Nat) : Prop where
  declaration : ∀ {s : Stmt} {tokens rest : List Token}, s.Grammatical →
    Spells s.slots tokens rest → (s.dangles → Avoids (.keyword .else) rest) →
    24 * s.slots.length ≤ n + 2 →
    Reads (declaration n) tokens rest (·.unnumbered = s.unnumbered)
  statement : ∀ {s : Stmt} {tokens rest : List Token}, s.Grammatical → s.declared? = none →
    Spells s.slots tokens rest → (s.dangles → Avoids (.keyword .else) rest) →
    24 * s.slots.length ≤ n + 3 →
    Reads (statement n) tokens rest (·.unnumbered = s.unnumbered)
  methods : ∀ {decls : List FunctionDecl} {tokens rest : List Token},
    FunctionDecl.GrammaticalList decls →
    Spells (FunctionDecl.slotsList decls ++ [.symbol .rightBrace]) tokens rest →
    24 * ((FunctionDecl.slotsList decls).length + 1) ≤ n →
    Reads (methods n) tokens rest
      (FunctionDecl.unnumberedList · = FunctionDecl.unnumberedList decls)
  function : ∀ {routine : Routine} {decl : FunctionDecl} {tokens rest : List Token},
    decl.Grammatical → Spells decl.slots tokens rest → 24 * decl.slots.length ≤ n →
    Reads (function n routine) tokens rest (·.unnumbered = decl.unnumbered)
  block : ∀ {body : List Stmt} {tokens rest : List Token}, Stmt.GrammaticalList body →
    Spells (Stmt.slotsList body ++ [.symbol .rightBrace]) tokens rest →
    24 * ((Stmt.slotsList body).length + 1) ≤ n →
    Reads (block n) tokens rest (Stmt.unnumberedList · = Stmt.unnumberedList body)

section
variable {n : Nat} (ih : ∀ m < n, ReadsStatements m) {tokens rest : List Token}
include ih

theorem reads_block {body : List Stmt} (h : Stmt.GrammaticalList body)
    (spells : Spells (Stmt.slotsList body ++ [.symbol .rightBrace]) tokens rest)
    (fits : 24 * ((Stmt.slotsList body).length + 1) ≤ n) :
    Reads (block n) tokens rest (Stmt.unnumberedList · = Stmt.unnumberedList body) := by
  obtain ⟨n, rfl⟩ : ∃ m, n = m + 1 := ⟨n - 1, by omega⟩
  have ih := ih n n.lt_succ_self
  cases body with
  | nil =>
    obtain ⟨t, ts, rfl, closes, rfl⟩ := spells
    exact take_symbol? closes.kind (leads_self rfl)
  | cons s ss =>
    rw [Stmt.slotsList, List.append_assoc] at spells
    rw [Stmt.slotsList, List.length_append] at fits
    have := h.1.length_pos
    obtain ⟨mid, spellsFirst, spellsRest⟩ := Spells.append.mp spells
    obtain ⟨_, spellsBody, t', ts', rfl, closes, rfl⟩ := Spells.append.mp spellsRest
    have noElse : Avoids (.keyword .else) mid :=
      h.2.avoids_else spellsBody (avoids_cons closes.kind nofun)
    obtain ⟨t, ts, rfl, begins⟩ := h.1.begins spellsFirst
    refine skip_symbol? (avoids_cons rfl begins.notClosing) ?_
    refine skip_atEnd rfl begins.notEnd ?_
    refine take (ih.declaration h.1 spellsFirst (fun _ => noElse) (by omega)) fun s' same => ?_
    refine take (ih.block h.2 spellsRest (by omega)) fun ss' sames => ?_
    refine leads_self ?_
    simp only [Stmt.unnumberedList, same, sames]

theorem reads_function {routine : Routine} {decl : FunctionDecl} (h : decl.Grammatical)
    (spells : Spells decl.slots tokens rest) (fits : 24 * decl.slots.length ≤ n) :
    Reads (function n routine) tokens rest (·.unnumbered = decl.unnumbered) := by
  obtain ⟨name, params, body⟩ := decl
  obtain ⟨t, _, rfl, named, t₁, _, rfl, opens, spells⟩ := spells
  have longEnough := Slot.length_le_names params
  simp only [FunctionDecl.slots, List.length_cons, List.length_append, List.length_nil] at fits
  obtain ⟨n, rfl⟩ : ∃ m, n = m + 1 := ⟨n - 1, by omega⟩
  obtain ⟨mid, ⟨t₂, ts₂, rfl, opensBody, spellsBody⟩, readsParameters⟩ :=
    reads_parameters (n := n) h.1 spells (by omega)
  refine take_name named ?_
  refine take_expect opens.kind ?_
  refine take readsParameters ?_
  rintro _ rfl
  refine take_expect opensBody.kind ?_
  refine take ((ih n n.lt_succ_self).block h.2 spellsBody (by omega)) fun body' sames => ?_
  refine leads_self ?_
  simp only [FunctionDecl.unnumbered, sames]

theorem reads_methods {decls : List FunctionDecl} (h : FunctionDecl.GrammaticalList decls)
    (spells : Spells (FunctionDecl.slotsList decls ++ [.symbol .rightBrace]) tokens rest)
    (fits : 24 * ((FunctionDecl.slotsList decls).length + 1) ≤ n) :
    Reads (methods n) tokens rest
      (FunctionDecl.unnumberedList · = FunctionDecl.unnumberedList decls) := by
  obtain ⟨n, rfl⟩ : ∃ m, n = m + 1 := ⟨n - 1, by omega⟩
  have ih := ih n n.lt_succ_self
  cases decls with
  | nil =>
    obtain ⟨t, ts, rfl, closes, rfl⟩ := spells
    exact take_symbol? closes.kind (leads_self rfl)
  | cons decl decls =>
    obtain ⟨name, params, body⟩ := decl
    rw [FunctionDecl.slotsList, List.append_assoc] at spells
    rw [FunctionDecl.slotsList, List.length_append] at fits
    obtain ⟨mid, spellsFirst, spellsRest⟩ := Spells.append.mp spells
    obtain ⟨t, ts, rfl, named, -⟩ := id spellsFirst
    have positive : 1 ≤ (FunctionDecl.slots ⟨name, params, body⟩).length := by
      rw [FunctionDecl.slots, List.length_cons]
      omega
    refine skip_symbol? (avoids_cons named.kind nofun) ?_
    refine skip_atEnd named.kind nofun ?_
    refine take (ih.function h.1 spellsFirst (by omega)) fun decl' same => ?_
    refine take (ih.methods h.2 spellsRest (by omega)) fun decls' sames => ?_
    refine leads_self ?_
    simp only [FunctionDecl.unnumberedList, same, sames]

theorem reads_classDecl {name : Lexeme} {superclass : Option Superclass}
    {decls : List FunctionDecl} {t : Token} (h : FunctionDecl.GrammaticalList decls)
    (spells : Spells (Stmt.classDecl name superclass decls).slots (t :: tokens) rest)
    (fits : 24 * (Stmt.classDecl name superclass decls).slots.length ≤ n + 24) :
    Reads (classDecl n) tokens rest
      (·.unnumbered = (Stmt.classDecl name superclass decls).unnumbered) := by
  obtain ⟨_, _, ⟨⟩, -, t₁, _, rfl, named, spells⟩ := spells
  simp only [Stmt.slots, List.length_cons, List.length_append, List.length_nil] at fits
  obtain ⟨n, rfl⟩ : ∃ m, n = m + 1 := ⟨n - 1, by omega⟩
  obtain ⟨t₂, ts₂, opens, spellsMethods, readsSuperclass⟩ := reads_superclass spells
  refine take_name named ?_
  refine take readsSuperclass fun superclass' sameName => ?_
  refine take_expect opens ?_
  refine take ((ih n n.lt_succ_self).methods h spellsMethods (by omega)) fun decls' sames => ?_
  refine leads_self ?_
  simp only [Stmt.unnumbered, sameName, sames]

theorem reads_ifThen {condition : Expr} {thenBranch : Stmt} {t : Token}
    (h : (Stmt.ifThen condition thenBranch).Grammatical)
    (spells : Spells (Stmt.ifThen condition thenBranch).slots (t :: tokens) rest)
    (noElse : Avoids (.keyword .else) rest)
    (fits : 24 * (Stmt.ifThen condition thenBranch).slots.length ≤ n + 24) :
    Reads (ifStmt n) tokens rest
      (·.unnumbered = (Stmt.ifThen condition thenBranch).unnumbered) := by
  obtain ⟨_, _, ⟨⟩, -, t₁, _, rfl, opens, spells⟩ := spells
  simp only [Stmt.slots, List.length_cons, List.length_append] at fits
  obtain ⟨n, rfl⟩ : ∃ m, n = m + 1 := ⟨n - 1, by omega⟩
  refine take_expect opens.kind ?_
  refine take_expression .ifConditionEnd h.1 spells rfl rfl (by omega)
    fun condition' _ ts same spellsThen => ?_
  refine take ((ih n n.lt_succ_self).statement h.2.1 h.2.2 spellsThen (fun _ => noElse) (by omega))
    fun thenBranch' sameThen => ?_
  refine skip_keyword? noElse (leads_self ?_)
  simp only [Stmt.unnumbered, same, sameThen]

theorem reads_ifElse {condition : Expr} {thenBranch elseBranch : Stmt} {t : Token}
    (h : (Stmt.ifElse condition thenBranch elseBranch).Grammatical)
    (spells : Spells (Stmt.ifElse condition thenBranch elseBranch).slots (t :: tokens) rest)
    (noElse : elseBranch.dangles → Avoids (.keyword .else) rest)
    (fits : 24 * (Stmt.ifElse condition thenBranch elseBranch).slots.length ≤ n + 24) :
    Reads (ifStmt n) tokens rest
      (·.unnumbered = (Stmt.ifElse condition thenBranch elseBranch).unnumbered) := by
  obtain ⟨_, _, ⟨⟩, -, t₁, _, rfl, opens, spells⟩ := spells
  simp only [Stmt.slots, List.length_cons, List.length_append] at fits
  obtain ⟨n, rfl⟩ : ∃ m, n = m + 1 := ⟨n - 1, by omega⟩
  have ih := ih n n.lt_succ_self
  obtain ⟨hcondition, ⟨hthen, inner, notDangling⟩, helse, inner'⟩ := h
  refine take_expect opens.kind ?_
  refine take_expression .ifConditionEnd hcondition spells rfl rfl (by omega)
    fun condition' _ ts same spells => ?_
  obtain ⟨_, spellsThen, t₂, ts₂, rfl, isElse, spellsElse⟩ := Spells.append.mp spells
  refine take (ih.statement hthen inner spellsThen (by rw [notDangling]; exact nofun) (by omega))
    fun thenBranch' sameThen => ?_
  refine take_keyword? isElse.kind ?_
  refine take (ih.statement helse inner' spellsElse noElse (by omega))
    fun elseBranch' sameElse => leads_self ?_
  simp only [Stmt.unnumbered, same, sameThen, sameElse]

theorem reads_statement {s : Stmt} (h : s.Grammatical) (inner : s.declared? = none)
    (spells : Spells s.slots tokens rest) (noElse : s.dangles → Avoids (.keyword .else) rest)
    (fits : 24 * s.slots.length ≤ n + 3) :
    Reads (statement n) tokens rest (·.unnumbered = s.unnumbered) := by
  have := h.length_pos
  obtain ⟨n, rfl⟩ : ∃ m, n = m + 1 := ⟨n - 1, by omega⟩
  have ih' : ∀ m < n, ReadsStatements m := fun m lt => ih m (Nat.lt_succ_of_lt lt)
  have ih := ih n n.lt_succ_self
  cases s with
  | classDecl | function | varDecl => cases inner
  | ifThen condition thenBranch =>
    obtain ⟨t, ts, rfl, takes, -⟩ := id spells
    refine skip_keyword? (avoids_cons takes.kind nofun) ?_
    refine take_keyword? takes.kind ?_
    exact reads_ifThen ih' h spells (noElse rfl) (by omega)
  | ifElse condition thenBranch elseBranch =>
    obtain ⟨t, ts, rfl, takes, -⟩ := id spells
    refine skip_keyword? (avoids_cons takes.kind nofun) ?_
    refine take_keyword? takes.kind ?_
    exact reads_ifElse ih' h spells noElse (by omega)
  | print e =>
    obtain ⟨t, ts, rfl, takes, spellsExpr⟩ := spells
    simp only [Stmt.slots, List.length_cons, List.length_append] at fits
    refine skip_keyword? (avoids_cons takes.kind nofun) ?_
    refine skip_keyword? (avoids_cons takes.kind nofun) ?_
    refine take_keyword? takes.kind ?_
    refine take_expression .printEnd h spellsExpr rfl rfl (by omega) ?_
    rintro e' _ ts same rfl
    refine leads_self ?_
    simp only [Stmt.unnumbered, same]
  | returning keyword value =>
    cases value with
    | none =>
      obtain ⟨t, _, rfl, takes, t₁, ts, rfl, ends, rfl⟩ := spells
      refine skip_keyword? (avoids_cons takes.kind nofun) ?_
      refine skip_keyword? (avoids_cons takes.kind nofun) ?_
      refine skip_keyword? (avoids_cons takes.kind nofun) ?_
      refine take_keyword? takes.kind ?_
      refine take (P := (· = none)) (take_symbol? ends.kind (leads_self rfl)) ?_
      rintro _ rfl
      refine leads_self ?_
      simp only [Stmt.unnumbered, takes.kept keyword rfl]
    | some e =>
      obtain ⟨t, ts, rfl, takes, spellsExpr⟩ := spells
      simp only [Stmt.slots, List.length_cons, List.length_append] at fits
      refine skip_keyword? (avoids_cons takes.kind nofun) ?_
      refine skip_keyword? (avoids_cons takes.kind nofun) ?_
      refine skip_keyword? (avoids_cons takes.kind nofun) ?_
      refine take_keyword? takes.kind ?_
      have readsValue : Reads (optionalExpression n .returnEnd) ts rest
          (·.map Expr.unnumbered = some e.unnumbered) := by
        obtain ⟨_, spells, -⟩ := Spells.append.mp spellsExpr
        obtain ⟨t₁, ts₁, rfl, opens, -⟩ := Expr.Grammatical.opens h spells
        refine skip_symbol? (avoids_cons rfl (opens.ne rfl rfl)) ?_
        refine take_expression .returnEnd h spellsExpr rfl rfl (by omega) ?_
        rintro e' _ ts same rfl
        exact leads_self (congrArg some same)
      refine take readsValue fun value' same => leads_self ?_
      simp only [Stmt.unnumbered, Option.map_some, same, takes.kept keyword rfl]
  | «while» condition body =>
    obtain ⟨t, _, rfl, takes, t₁, _, rfl, opens, spells⟩ := spells
    simp only [Stmt.slots, List.length_cons, List.length_append] at fits
    obtain ⟨hcondition, hbody, inner⟩ := h
    refine skip_keyword? (avoids_cons takes.kind nofun) ?_
    refine skip_keyword? (avoids_cons takes.kind nofun) ?_
    refine skip_keyword? (avoids_cons takes.kind nofun) ?_
    refine skip_keyword? (avoids_cons takes.kind nofun) ?_
    refine take_keyword? takes.kind ?_
    refine take_expect opens.kind ?_
    refine take_expression .whileConditionEnd hcondition spells rfl rfl (by omega)
      fun condition' _ ts same spellsBody => ?_
    refine take (ih.statement hbody inner spellsBody noElse (by omega)) fun body' sameBody => ?_
    refine leads_self ?_
    simp only [Stmt.unnumbered, same, sameBody]
  | block body =>
    obtain ⟨t, ts, rfl, takes, spellsBody⟩ := spells
    simp only [Stmt.slots, List.length_cons, List.length_append, List.length_nil] at fits
    refine skip_keyword? (avoids_cons takes.kind nofun) ?_
    refine skip_keyword? (avoids_cons takes.kind nofun) ?_
    refine skip_keyword? (avoids_cons takes.kind nofun) ?_
    refine skip_keyword? (avoids_cons takes.kind nofun) ?_
    refine skip_keyword? (avoids_cons takes.kind nofun) ?_
    refine take_symbol? takes.kind ?_
    refine take (ih.block h spellsBody (by omega)) fun body' sames => leads_self ?_
    simp only [Stmt.unnumbered, sames]
  | expression e =>
    obtain ⟨_, spellsExpr, -⟩ := Spells.append.mp spells
    simp only [Stmt.slots, List.length_append, List.length_cons, List.length_nil] at fits
    obtain ⟨t, ts, rfl, opens, -⟩ := Expr.Grammatical.opens h spellsExpr
    refine skip_keyword? (avoids_cons rfl (opens.ne rfl rfl)) ?_
    refine skip_keyword? (avoids_cons rfl (opens.ne rfl rfl)) ?_
    refine skip_keyword? (avoids_cons rfl (opens.ne rfl rfl)) ?_
    refine skip_keyword? (avoids_cons rfl (opens.ne rfl rfl)) ?_
    refine skip_keyword? (avoids_cons rfl (opens.ne rfl rfl)) ?_
    refine skip_symbol? (avoids_cons rfl (opens.ne rfl rfl)) ?_
    refine take_expression .expressionEnd h spells rfl rfl (by omega) ?_
    rintro e' _ ts same rfl
    refine leads_self ?_
    simp only [Stmt.unnumbered, same]

theorem reads_declaration {s : Stmt} (h : s.Grammatical) (spells : Spells s.slots tokens rest)
    (noElse : s.dangles → Avoids (.keyword .else) rest) (fits : 24 * s.slots.length ≤ n + 2) :
    Reads (declaration n) tokens rest (·.unnumbered = s.unnumbered) := by
  have := h.length_pos
  obtain ⟨n, rfl⟩ : ∃ m, n = m + 1 := ⟨n - 1, by omega⟩
  have ih' : ∀ m < n, ReadsStatements m := fun m lt => ih m (Nat.lt_succ_of_lt lt)
  have ih := ih n n.lt_succ_self
  cases inner : s.declared? with
  | none =>
    obtain ⟨t, ts, rfl, avoids⟩ := h.avoids_declaring inner spells
    refine skip_keyword? (avoids_cons rfl (avoids _ (by simp))) ?_
    refine skip_keyword? (avoids_cons rfl (avoids _ (by simp))) ?_
    refine skip_keyword? (avoids_cons rfl (avoids _ (by simp))) ?_
    exact ih.statement h inner spells noElse (by omega)
  | some name =>
    cases s with
    | classDecl name superclass decls =>
      obtain ⟨t, ts, rfl, takes, -⟩ := id spells
      refine take_keyword? takes.kind ?_
      exact reads_classDecl ih' h spells (by omega)
    | function decl =>
      obtain ⟨t, ts, rfl, takes, spellsDecl⟩ := spells
      simp only [Stmt.slots, List.length_cons] at fits
      refine skip_keyword? (avoids_cons takes.kind nofun) ?_
      refine take_keyword? takes.kind ?_
      refine take (ih.function h spellsDecl (by omega)) fun decl' same => leads_self ?_
      simp only [Stmt.unnumbered, same]
    | varDecl name initializer =>
      have takes : ∃ t ts, tokens = t :: ts ∧ t.kind = .keyword .var := by
        cases initializer <;>
        · obtain ⟨t, ts, rfl, takes, -⟩ := id spells
          exact ⟨t, ts, rfl, takes.kind⟩
      obtain ⟨t, ts, rfl, isVar⟩ := takes
      refine skip_keyword? (avoids_cons isVar nofun) ?_
      refine skip_keyword? (avoids_cons isVar nofun) ?_
      refine take_keyword? isVar ?_
      exact reads_varDecl h spells (by omega)
    | block | expression | ifThen | ifElse | print | returning | «while» => cases inner

end

theorem readsStatements (n : Nat) : ReadsStatements n := by
  induction n using Nat.strongRecOn with
  | ind n ih =>
    exact {
      declaration := reads_declaration ih
      statement := reads_statement ih
      methods := reads_methods ih
      function := reads_function ih
      block := reads_block ih }

end Rule

/-! ## Programs -/

/-- Statements up to the end of the input are read without an error, in one round each. -/
theorem Program.readFrom_of_spells (depth rounds : Nat) {ss : List Stmt} {tokens : List Token}
    {last : Token} (h : Stmt.GrammaticalList ss) (ends : last.kind = .eof)
    (spells : Spells (Stmt.slotsList ss) tokens [last])
    (deep : 24 * (Stmt.slotsList ss).length ≤ depth) (enough : ss.length ≤ rounds) (id : ExprId) :
    (readFrom depth rounds ⟨tokens, id⟩).errors = [] ∧
      Stmt.unnumberedList (readFrom depth rounds ⟨tokens, id⟩).statements =
        Stmt.unnumberedList ss := by
  induction ss generalizing rounds tokens id with
  | nil =>
    obtain rfl : tokens = [last] := spells
    cases rounds with
    | zero => exact ⟨rfl, rfl⟩
    | succ rounds =>
      rw [readFrom, if_pos (Cursor.atEnd_eq_true ends)]
      exact ⟨rfl, rfl⟩
  | cons s ss ih =>
    rw [List.length_cons] at enough
    obtain ⟨rounds, rfl⟩ : ∃ r, rounds = r + 1 := ⟨rounds - 1, by omega⟩
    rw [Stmt.slotsList, List.length_append] at deep
    obtain ⟨mid, spellsFirst, spellsRest⟩ := Spells.append.mp spells
    have noElse : Avoids (.keyword .else) mid :=
      h.2.avoids_else spellsRest (avoids_cons ends nofun)
    obtain ⟨t, ts, rfl, begins⟩ := h.1.begins spellsFirst
    obtain ⟨s', id', same, read⟩ :=
      (Rule.readsStatements depth).declaration h.1 spellsFirst (fun _ => noElse) (by omega) id
    obtain ⟨noErrors, sames⟩ := ih rounds h.2 spellsRest (by omega) (by omega) id'
    rw [readFrom, Cursor.atEnd_eq_false rfl begins.notEnd, if_neg Bool.false_ne_true, read]
    refine ⟨noErrors, ?_⟩
    change Stmt.unnumberedList (s' :: _) = _
    rw [Stmt.unnumberedList, Stmt.unnumberedList, same, sames]

theorem Stmt.GrammaticalList.length_le {ss : List Stmt} (h : Stmt.GrammaticalList ss) :
    ss.length ≤ (Stmt.slotsList ss).length := by
  induction ss with
  | nil => exact Nat.le_refl 0
  | cons s ss ih =>
    have := h.1.length_pos
    have := ih h.2
    rw [List.length_cons, Stmt.slotsList, List.length_append]
    omega

/-- Every program of the grammar is read back from any tokens that spell it, up to the numbers of
its nodes: with the precedence and the grouping of the grammar, and with every lexeme it keeps. -/
theorem program_is_read_back {ss : List Stmt} (h : Stmt.GrammaticalList ss) {tokens : List Token}
    {last : Token} (ends : last.kind = .eof) (spells : Spells (Stmt.slotsList ss) tokens [last]) :
    ∃ ss', (Program.ofTokens tokens).statements? = .ok ss' ∧
      Stmt.unnumberedList ss' = Stmt.unnumberedList ss := by
  have len := spells.length_eq
  have enough := h.length_le
  rw [List.length_singleton] at len
  obtain ⟨noErrors, same⟩ := Program.readFrom_of_spells (depth tokens) tokens.length h ends spells
    (by rw [depth]; omega) (by omega) 0
  refine ⟨(Program.ofTokens tokens).statements, ?_, same⟩
  rw [Program.statements?, Program.ofTokens, noErrors]
  rfl

/-- `var a = b - c - d * e; while (a) if (b) c = d; else print -e.f(g);` -/
def differences : List Stmt :=
  [.varDecl ⟨"a", 1⟩ (some (.binary .subtract ⟨"-", 1⟩
      (.binary .subtract ⟨"-", 1⟩ (.variable 0 ⟨"b", 1⟩) (.variable 1 ⟨"c", 1⟩))
      (.binary .multiply ⟨"*", 1⟩ (.variable 2 ⟨"d", 1⟩) (.variable 3 ⟨"e", 1⟩)))),
    .while (.variable 4 ⟨"a", 1⟩) (.ifElse (.variable 5 ⟨"b", 1⟩)
      (.expression (.assign 7 ⟨"c", 1⟩ (.variable 6 ⟨"d", 1⟩)))
      (.print (.unary .negate ⟨"-", 1⟩
        (.call (.get (.variable 8 ⟨"e", 1⟩) ⟨"f", 1⟩) ⟨")", 1⟩ [.variable 9 ⟨"g", 1⟩]))))]

theorem differences_are_read_back : Stmt.GrammaticalList differences ∧
    ∃ ss', (Program.ofTokens ((Stmt.slotsList differences).map Slot.token ++
      [⟨.eof, "", 1⟩])).statements? = .ok ss' ∧
        Stmt.unnumberedList ss' = Stmt.unnumberedList differences := by
  have grammatical : Stmt.GrammaticalList differences := by
    simp [differences, Stmt.GrammaticalList, Stmt.Grammatical, Expr.Grammatical,
      Expr.GrammaticalList, Expr.rank, BinaryOp.level, Level.rank, Stmt.declared?, Stmt.dangles,
      Listing.limit]
  exact ⟨grammatical, program_is_read_back grammatical rfl (Spells.map_token _ _)⟩

/-- Every expression of the grammar is read back from any tokens that spell it. -/
theorem expression_is_read_back {e : Expr} (h : e.Grammatical) {tokens : List Token}
    {last : Token} (ends : last.kind = .eof) (spells : Spells e.slots tokens [last]) :
    ∃ e', Expr.ofTokens tokens = .ok e' ∧ e'.unnumbered = e.unnumbered := by
  have len := spells.length_eq
  rw [List.length_singleton] at len
  have reads : Rule.Reads (Rule.wholeExpression (depth tokens)) tokens [last]
      (·.unnumbered = e.unnumbered) := by
    refine Rule.take ((Rule.readsExpressions _).expression h spells (ends_cons_of_none ends rfl)
      (by rw [depth]; omega)) fun e' same => ?_
    exact Rule.take_atEnd ends (Rule.leads_self same)
  obtain ⟨e', id, same, read⟩ := reads 0
  refine ⟨e', ?_, same⟩
  rw [Expr.ofTokens, read]
  rfl

end Lox
